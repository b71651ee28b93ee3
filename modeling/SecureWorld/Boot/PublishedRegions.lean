import SecureWorld.Boot.Loader

/-! # What the guest is told about the carve-outs

The device tree and the boot arguments give the guest the base and the size of each carved region.
-/
namespace SecureWorld.Boot
set_option autoImplicit false

/-! ## The addresses given to the guest -/

theorem Dtree.setCell_of_ne (dt : Dtree) {path path' : String} (h : path' ≠ path)
    (name name' : String) (i : ℕ) (val : BitVec 64) : dt.setCell path name i val path' name' = dt path' name' :=
  if_neg fun hsame => h hsame.1

theorem Dtree.setCell_of_name_ne (dt : Dtree) {name name' : String} (h : name' ≠ name)
    (path : String) (i : ℕ) (val : BitVec 64) :
    dt.setCell path name i val path name' = dt path name' := if_neg fun hsame => h hsame.2

theorem Dtree.setCell_self (dt : Dtree) (path name : String) (i : ℕ) (val : BitVec 64) :
    dt.setCell path name i val path name = (dt path name).map (·.set i val) := if_pos ⟨rfl, rfl⟩

/-- Base and size of a region, in the first two cells of a `reg`. -/
theorem Dtree.setCell_reg (dt : Dtree) (path : String) (base size : BitVec 64) :
    ((dt.setCell path "reg" 0 base).setCell path "reg" 1 size) path "reg" =
      (dt path "reg").map fun reg => (reg.set 0 base).set 1 size := by
  rw [Dtree.setCell_self, Dtree.setCell_self, Option.map_map]
  rfl

section Steps
variable (m : Macros) (l : Loader) {path : String} (name : String)

theorem pushRamdisk_dtree : (pushRamdisk m l).dtree = l.dtree := by
  rw [pushRamdisk]
  split_ifs <;> rfl

theorem parkFramebuffer_dtree : (parkFramebuffer m l).dtree = l.dtree := by
  rw [parkFramebuffer]
  split_ifs <;> rfl

theorem carveAnsfw_dtree (h : path ≠ "arm-io/ans/iop-ans-nub") :
    (carveAnsfw m l).dtree path name = l.dtree path name := by
  rw [carveAnsfw]
  split_ifs
  · exact (Dtree.setCell_of_ne _ h _ _ _ _).trans (Dtree.setCell_of_ne _ h _ _ _ _)
  · rfl

theorem carveDcpfw_dtree (h : path ≠ "arm-io/dcp/iop-dcp-nub") :
    (carveDcpfw m l).dtree path name = l.dtree path name := by
  rw [carveDcpfw]
  split_ifs
  · dsimp only
    split_ifs
    · exact (Dtree.setCell_of_ne _ h _ _ _ _).trans (Dtree.setCell_of_ne _ h _ _ _ _)
    · rfl
  · rfl

theorem backPanicLog_dtree (h : path ≠ "pram") :
    (backPanicLog m l).dtree path name = l.dtree path name :=
  (Dtree.setCell_of_ne _ h _ _ _ _).trans (Dtree.setCell_of_ne _ h _ _ _ _)

theorem publishFramebuffer_dtree (hv : path ≠ "vram") (hc : path ≠ "chosen") :
    (publishFramebuffer m l).dtree path name = l.dtree path name := by
  have hreg (base size : BitVec 64) : ((l.dtree.setCell "vram" "reg" 0 base).setCell "vram" "reg" 1
      size) path name = l.dtree path name :=
    (Dtree.setCell_of_ne _ hv _ _ _ _).trans (Dtree.setCell_of_ne _ hv _ _ _ _)
  rw [publishFramebuffer]
  split_ifs
  · dsimp only
    split_ifs
    · exact (Dtree.setCell_of_ne _ hc _ _ _ _).trans (hreg _ _)
    · exact hreg _ _
  · rfl

end Steps

section Carved
variable (m : Macros) (l : Loader)

theorem carved_carveAnsfw {c : Region} (h : c ∈ l.carved) : c ∈ (carveAnsfw m l).carved := by
  rw [carveAnsfw]
  split_ifs
  · exact List.mem_append_left _ h
  · exact h

theorem carved_carveDcpfw {c : Region} (h : c ∈ l.carved) : c ∈ (carveDcpfw m l).carved := by
  rw [carveDcpfw]
  split_ifs
  · exact List.mem_append_left _ h
  · exact h

theorem carved_backPanicLog {c : Region} (h : c ∈ l.carved) : c ∈ (backPanicLog m l).carved :=
  List.mem_append_left _ h

theorem publishFramebuffer_carved : (publishFramebuffer m l).carved = l.carved := by
  rw [publishFramebuffer]
  split_ifs <;> rfl

theorem publishFramebuffer_writes : (publishFramebuffer m l).writes = l.writes := by
  rw [publishFramebuffer]
  split_ifs <;> rfl

theorem writes_carveDcpfw {w : Region} (h : w ∈ l.writes) : w ∈ (carveDcpfw m l).writes := by
  rw [carveDcpfw]
  split_ifs
  · exact List.mem_append_left _ h
  · exact h

theorem carveAnsfw_fbBasePhys : (carveAnsfw m l).fbBasePhys = l.fbBasePhys := by
  rw [carveAnsfw]
  split_ifs <;> rfl

theorem carveDcpfw_fbBasePhys : (carveDcpfw m l).fbBasePhys = l.fbBasePhys := by
  rw [carveDcpfw]
  split_ifs <;> rfl

end Carved

/-! ## The loader -/

/-- A nub's two properties, as far as it has them, hold the region. -/
structure NubHolds (nub : String) (before after : Dtree) (c : Region) : Prop where
  base : after nub "region-base" = (before nub "region-base").map (·.set 0 c.base)
  size : after nub "region-size" = (before nub "region-size").map (·.set 0 c.size)

/-- So do the first two cells of a node's `reg`. -/
def RegHolds (path : String) (before after : Dtree) (c : Region) : Prop :=
  after path "reg" = (before path "reg").map fun reg => (reg.set 0 c.base).set 1 c.size

/-- Whatever address the guest is given is that of a carved region, with its size: of the region
that holds the firmware image, of the panel's, or of the panic log's. -/
structure PublishesCarved (info : XnuBootInfo) (dtree : Dtree) (l : Loader) : Prop where
  pram : ∃ c ∈ l.carved, c.size = panicLogSize ∧ RegHolds "pram" dtree l.dtree c
  ans : info.ansfwF.buf → ∃ c ∈ l.carved, ⟨c.base, info.ansfwF.len⟩ ∈ l.writes ∧
    NubHolds "arm-io/ans/iop-ans-nub" dtree l.dtree c
  dcp : info.dcpfwF.buf → (dtree "arm-io/dcp/iop-dcp-nub" "region-base").isSome →
    (dtree "arm-io/dcp/iop-dcp-nub" "region-size").isSome →
    ∃ c ∈ l.carved, ⟨c.base, info.dcpfwF.len⟩ ∈ l.writes ∧
      NubHolds "arm-io/dcp/iop-dcp-nub" dtree l.dtree c
  vram : info.fbSize ≠ 0 → info.fbVideo → ∃ c ∈ l.carved,
    c.base = l.info.fbBase ∧ c.size = info.fbSize ∧ RegHolds "vram" dtree l.dtree c ∧
      l.args.video.vBaseAddr = c.base

section Steps
variable (m : Macros) (l : Loader)

theorem parkFramebuffer_region (h : l.info.fbSize ≠ 0) :
    ⟨(parkFramebuffer m l).fbBasePhys, l.info.fbSize⟩ ∈ (parkFramebuffer m l).carved ∧
      (parkFramebuffer m l).info.fbBase = (parkFramebuffer m l).fbBasePhys := by
  rw [parkFramebuffer, if_pos h]
  exact ⟨List.mem_append_right _ (List.mem_singleton_self _), rfl⟩

theorem carveAnsfw_region (h : l.info.ansfwF.buf) : ∃ c ∈ (carveAnsfw m l).carved,
    ⟨c.base, l.info.ansfwF.len⟩ ∈ (carveAnsfw m l).writes ∧
      NubHolds "arm-io/ans/iop-ans-nub" l.dtree (carveAnsfw m l).dtree c := by
  have hname : "region-base" ≠ "region-size" := by decide
  rw [carveAnsfw, if_pos h]
  dsimp only
  refine ⟨_, List.mem_append_right _ (List.mem_singleton_self _),
    List.mem_append_right _ (List.mem_singleton_self _), ?_, ?_⟩
  · exact (Dtree.setCell_of_name_ne _ hname _ _ _).trans (Dtree.setCell_self _ _ _ _ _)
  · refine (Dtree.setCell_self _ _ _ _ _).trans ?_
    rw [Dtree.setCell_of_name_ne _ hname.symm]
    rfl

theorem carveDcpfw_region (h : l.info.dcpfwF.buf)
    (hbase : (l.dtree "arm-io/dcp/iop-dcp-nub" "region-base").isSome)
    (hsize : (l.dtree "arm-io/dcp/iop-dcp-nub" "region-size").isSome) :
    ∃ c ∈ (carveDcpfw m l).carved, ⟨c.base, l.info.dcpfwF.len⟩ ∈ (carveDcpfw m l).writes ∧
      NubHolds "arm-io/dcp/iop-dcp-nub" l.dtree (carveDcpfw m l).dtree c := by
  have hname : "region-base" ≠ "region-size" := by decide
  have hprops : ((carve m l l.info.dcpfwRegion).dtree "arm-io/dcp/iop-dcp-nub"
      "region-base").isSome ∧ ((carve m l l.info.dcpfwRegion).dtree "arm-io/dcp/iop-dcp-nub"
      "region-size").isSome := ⟨hbase, hsize⟩
  rw [carveDcpfw, if_pos h]
  dsimp only
  rw [if_pos hprops]
  refine ⟨_, List.mem_append_right _ (List.mem_singleton_self _),
    List.mem_append_right _ (List.mem_singleton_self _), ?_, ?_⟩
  · exact (Dtree.setCell_of_name_ne _ hname _ _ _).trans (Dtree.setCell_self _ _ _ _ _)
  · refine (Dtree.setCell_self _ _ _ _ _).trans ?_
    rw [Dtree.setCell_of_name_ne _ hname.symm]
    rfl

theorem backPanicLog_region : ∃ c ∈ (backPanicLog m l).carved,
    c.size = panicLogSize ∧ RegHolds "pram" l.dtree (backPanicLog m l).dtree c := by
  refine ⟨_, List.mem_append_right _ (List.mem_singleton_self _), rfl, ?_⟩
  exact Dtree.setCell_reg _ "pram" (l.info.dramBase + (carve m l panicLogSize).args.memSize)
    panicLogSize

theorem publishFramebuffer_region (hsize : l.info.fbSize ≠ 0) (hvideo : l.info.fbVideo) :
    RegHolds "vram" l.dtree (publishFramebuffer m l).dtree ⟨l.fbBasePhys, l.info.fbSize⟩ ∧
      (publishFramebuffer m l).args.video.vBaseAddr = l.fbBasePhys := by
  have hpath : "vram" ≠ "chosen" := by decide
  rw [publishFramebuffer, if_pos ⟨hsize, hvideo⟩]
  refine ⟨?_, rfl⟩
  dsimp only [RegHolds]
  split_ifs
  · rw [Dtree.setCell_of_ne _ hpath, Dtree.setCell_reg]
  · exact Dtree.setCell_reg _ _ _ _

end Steps

/-! ## The whole loader -/

/-- The loader from the parked framebuffer to the panic log. -/
def backFirmwares (m : Macros) (l : Loader) : Loader :=
  backPanicLog m (setTopOfKernelData (carveDcpfw m (carveAnsfw m l)))

section Rest
variable (m : Macros) (l : Loader)

theorem backFirmwares_info : (backFirmwares m l).info = l.info :=
  (carveDcpfw_info m _).trans (carveAnsfw_info m _)

theorem backFirmwares_fbBasePhys : (backFirmwares m l).fbBasePhys = l.fbBasePhys :=
  (carveDcpfw_fbBasePhys m _).trans (carveAnsfw_fbBasePhys m _)

theorem carved_backFirmwares {c : Region} (h : c ∈ l.carved) : c ∈ (backFirmwares m l).carved :=
  carved_backPanicLog m _ (carved_carveDcpfw m _ (carved_carveAnsfw m _ h))

theorem backFirmwares_ans (h : l.info.ansfwF.buf) : ∃ c ∈ (backFirmwares m l).carved,
    ⟨c.base, l.info.ansfwF.len⟩ ∈ (backFirmwares m l).writes ∧
      NubHolds "arm-io/ans/iop-ans-nub" l.dtree (backFirmwares m l).dtree c := by
  obtain ⟨c, hc, hw, hnub⟩ := carveAnsfw_region m l h
  refine ⟨c, carved_backPanicLog m _ (carved_carveDcpfw m _ hc), writes_carveDcpfw m _ hw, ?_, ?_⟩
  · rw [backFirmwares, backPanicLog_dtree _ _ _ (by decide), ← hnub.base]
    exact carveDcpfw_dtree _ _ _ (by decide)
  · rw [backFirmwares, backPanicLog_dtree _ _ _ (by decide), ← hnub.size]
    exact carveDcpfw_dtree _ _ _ (by decide)

theorem backFirmwares_dcp (h : l.info.dcpfwF.buf)
    (hbase : (l.dtree "arm-io/dcp/iop-dcp-nub" "region-base").isSome)
    (hsize : (l.dtree "arm-io/dcp/iop-dcp-nub" "region-size").isSome) :
    ∃ c ∈ (backFirmwares m l).carved, ⟨c.base, l.info.dcpfwF.len⟩ ∈ (backFirmwares m l).writes ∧
      NubHolds "arm-io/dcp/iop-dcp-nub" l.dtree (backFirmwares m l).dtree c := by
  have hsame (name : String) : (carveAnsfw m l).dtree "arm-io/dcp/iop-dcp-nub" name =
      l.dtree "arm-io/dcp/iop-dcp-nub" name := carveAnsfw_dtree _ _ _ (by decide)
  have hinfo := carveAnsfw_info m l
  obtain ⟨c, hc, hw, hnub⟩ := carveDcpfw_region m (carveAnsfw m l) (hinfo.symm ▸ h)
    ((hsame _).symm ▸ hbase) ((hsame _).symm ▸ hsize)
  refine ⟨c, carved_backPanicLog m _ hc, hinfo ▸ hw, ?_, ?_⟩
  · rw [backFirmwares, backPanicLog_dtree _ _ _ (by decide), ← hsame]
    exact hnub.base
  · rw [backFirmwares, backPanicLog_dtree _ _ _ (by decide), ← hsame]
    exact hnub.size

theorem backFirmwares_pram : ∃ c ∈ (backFirmwares m l).carved,
    c.size = panicLogSize ∧ RegHolds "pram" l.dtree (backFirmwares m l).dtree c := by
  obtain ⟨c, hc, hsize, hreg⟩ :=
    backPanicLog_region m (setTopOfKernelData (carveDcpfw m (carveAnsfw m l)))
  refine ⟨c, hc, hsize, hreg.trans (congrArg (Option.map _) ?_)⟩
  exact (carveDcpfw_dtree _ _ _ (by decide)).trans (carveAnsfw_dtree _ _ _ (by decide))

theorem backFirmwares_vram :
    (backFirmwares m l).dtree "vram" "reg" = l.dtree "vram" "reg" := by
  rw [backFirmwares, backPanicLog_dtree _ _ _ (by decide)]
  exact (carveDcpfw_dtree _ _ _ (by decide)).trans (carveAnsfw_dtree _ _ _ (by decide))

end Rest

theorem armLoadXnuSptm_publishes (m : Macros) (info : XnuBootInfo) (blobHead memSize : BitVec 64)
    (dtree : Dtree) :
    PublishesCarved info dtree (armLoadXnuSptm m info blobHead memSize dtree) := by
  have hinfo : (pushRamdisk m (Loader.start info blobHead memSize dtree)).info = info :=
    pushRamdisk_info m _
  have hdtree : (pushRamdisk m (Loader.start info blobHead memSize dtree)).dtree = dtree :=
    pushRamdisk_dtree m _
  rw [armLoadXnuSptm]
  generalize pushRamdisk m (Loader.start info blobHead memSize dtree) = l at hinfo hdtree ⊢
  subst hinfo hdtree
  rw [← parkFramebuffer_dtree m l]
  have hpark := parkFramebuffer_info m l
  have hregion := parkFramebuffer_region m l
  generalize parkFramebuffer m l = l₁ at hpark hregion ⊢
  have hans : l₁.info.ansfwF = l.info.ansfwF := by rw [hpark]
  have hdcp : l₁.info.dcpfwF = l.info.dcpfwF := by rw [hpark]
  have hsize : l₁.info.fbSize = l.info.fbSize := by rw [hpark]
  have hvideo : l₁.info.fbVideo = l.info.fbVideo := by rw [hpark]
  show PublishesCarved l.info l₁.dtree (publishFramebuffer m (backFirmwares m l₁))
  have hshown (path name : String) (hv : path ≠ "vram") (hc : path ≠ "chosen") :=
    publishFramebuffer_dtree m (backFirmwares m l₁) name hv hc
  constructor
  · obtain ⟨c, hc, hlen, hreg⟩ := backFirmwares_pram m l₁
    refine ⟨c, (publishFramebuffer_carved m _).symm ▸ hc, hlen, ?_⟩
    exact (hshown _ _ (by decide) (by decide)).trans hreg
  · intro hbuf
    obtain ⟨c, hc, hw, hnub⟩ := backFirmwares_ans m l₁ (hans ▸ hbuf)
    rw [publishFramebuffer_carved, publishFramebuffer_writes, ← hans]
    exact ⟨c, hc, hw, (hshown _ _ (by decide) (by decide)).trans hnub.base,
      (hshown _ _ (by decide) (by decide)).trans hnub.size⟩
  · intro hbuf hb hs
    obtain ⟨c, hc, hw, hnub⟩ := backFirmwares_dcp m l₁ (hdcp ▸ hbuf) hb hs
    rw [publishFramebuffer_carved, publishFramebuffer_writes, ← hdcp]
    exact ⟨c, hc, hw, (hshown _ _ (by decide) (by decide)).trans hnub.base,
      (hshown _ _ (by decide) (by decide)).trans hnub.size⟩
  · intro hpos hon
    obtain ⟨hc, hbase⟩ := hregion hpos
    obtain ⟨hreg, haddr⟩ := publishFramebuffer_region m (backFirmwares m l₁)
      (by rwa [backFirmwares_info, hsize]) (by rwa [backFirmwares_info, hvideo])
    rw [backFirmwares_info, hsize, backFirmwares_fbBasePhys, RegHolds, backFirmwares_vram] at hreg
    rw [publishFramebuffer_carved, publishFramebuffer_info, backFirmwares_info]
    exact ⟨_, carved_backFirmwares m l₁ hc, hbase.symm, rfl, hreg,
      haddr.trans (backFirmwares_fbBasePhys m l₁)⟩

end SecureWorld.Boot
