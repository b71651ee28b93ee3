import SecureWorld.Boot.PublishedRegions

/-! # The carve-outs are safe

The loader's subtractions from `memSize` are one run of the allocator that carves from the top, as
long as none of them wraps; its regions are the allocator's spans, moved to the start of DRAM.
-/
namespace SecureWorld.Boot
open Foundations
set_option autoImplicit false

/-! ## The loader runs the allocator -/

/-- The sizes carved, in order. -/
def carveSizes (info : XnuBootInfo) : List ℕ :=
  (if info.fbSize ≠ 0 then [info.fbSize.toNat] else []) ++
    (if info.ansfwF.buf then [info.ansfwRegion.toNat] else []) ++
    (if info.dcpfwF.buf then [info.dcpfwRegion.toNat] else []) ++ [panicLogSize.toNat]

/-- A region as seen from the start of DRAM. -/
def Region.offset (dramBase : BitVec 64) (r : Region) : Span :=
  ⟨(r.base - dramBase).toNat, r.size.toNat⟩

/-- After carving `sizes` off `start`: the requests fit iff nothing has wrapped, and then limit and
regions are the allocator's. -/
structure Tracks (m : Macros) (info : XnuBootInfo) (start : BitVec 64) (sizes : List ℕ)
    (l : Loader) : Prop where
  base : l.info.dramBase = info.dramBase
  fits : l.wrapped = false ↔ CarvesFit m.darwinPageSize.toNat start.toNat sizes
  memSize : l.wrapped = false →
    l.args.memSize.toNat = carveRest m.darwinPageSize.toNat start.toNat sizes
  carved : l.wrapped = false → l.carved.map (Region.offset info.dramBase) =
    carveSpans m.darwinPageSize.toNat start.toNat sizes

section Tracking
variable {m : Macros} {info : XnuBootInfo} {start : BitVec 64} {sizes : List ℕ} {l : Loader}

theorem carve_carved (m : Macros) (l : Loader) (size : BitVec 64) : (carve m l size).carved =
    l.carved ++ [⟨l.info.dramBase + (carve m l size).args.memSize, size⟩] := rfl

theorem carve_tracks (hm : m.Rounding) (h : Tracks m info start sizes l) (size : BitVec 64) :
    Tracks m info start (sizes ++ [size.toNat]) (carve m l size) := by
  have hwrapped : (carve m l size).wrapped = false ↔
      l.wrapped = false ∧ size.toNat ≤ l.args.memSize.toNat := by
    simp [carve, BitVec.lt_def]
  have hlimit : size.toNat ≤ l.args.memSize.toNat → (carve m l size).args.memSize.toNat =
      carveTop m.darwinPageSize.toNat l.args.memSize.toNat size.toNat := by
    intro hle
    show (m.roundDownPow2 (l.args.memSize - size) m.darwinPageSize).toNat = _
    rw [hm.down _ _ hm.page, BitVec.toNat_sub_of_le (BitVec.le_def.mpr hle), carveTop]
  refine ⟨h.base, ?_, fun hw => ?_, fun hw => ?_⟩
  · rw [hwrapped, carvesFit_concat, ← h.fits]
    refine and_congr_right fun hw => ?_
    rw [h.memSize hw]
  · obtain ⟨hw, hle⟩ := hwrapped.mp hw
    rw [hlimit hle, h.memSize hw, carveRest_concat]
  · obtain ⟨hw, hle⟩ := hwrapped.mp hw
    have hoffset : Region.offset info.dramBase
        ⟨l.info.dramBase + (carve m l size).args.memSize, size⟩ =
          ⟨carveTop m.darwinPageSize.toNat l.args.memSize.toNat size.toNat, size.toNat⟩ := by
      rw [Region.offset, h.base, BitVec.add_comm, BitVec.add_sub_cancel, hlimit hle]
    rw [carve_carved, List.map_append, h.carved hw, List.map_singleton, hoffset, carveSpans_concat,
      h.memSize hw]

theorem parkFramebuffer_tracks (hm : m.Rounding) (h : Tracks m info start sizes l) :
    Tracks m info start (sizes ++ if l.info.fbSize ≠ 0 then [l.info.fbSize.toNat] else [])
      (parkFramebuffer m l) := by
  rw [parkFramebuffer]
  split_ifs
  · have hcarve := carve_tracks hm h l.info.fbSize
    exact ⟨hcarve.base, hcarve.fits, hcarve.memSize, hcarve.carved⟩
  · rwa [List.append_nil]

theorem carveAnsfw_tracks (hm : m.Rounding) (h : Tracks m info start sizes l) :
    Tracks m info start (sizes ++ if l.info.ansfwF.buf then [l.info.ansfwRegion.toNat] else [])
      (carveAnsfw m l) := by
  rw [carveAnsfw]
  split_ifs
  · have hcarve := carve_tracks hm h l.info.ansfwRegion
    exact ⟨hcarve.base, hcarve.fits, hcarve.memSize, hcarve.carved⟩
  · rwa [List.append_nil]

theorem carveDcpfw_tracks (hm : m.Rounding) (h : Tracks m info start sizes l) :
    Tracks m info start (sizes ++ if l.info.dcpfwF.buf then [l.info.dcpfwRegion.toNat] else [])
      (carveDcpfw m l) := by
  rw [carveDcpfw]
  split_ifs
  · have hcarve := carve_tracks hm h l.info.dcpfwRegion
    exact ⟨hcarve.base, hcarve.fits, hcarve.memSize, hcarve.carved⟩
  · rwa [List.append_nil]

theorem backPanicLog_tracks (hm : m.Rounding) (h : Tracks m info start sizes l) :
    Tracks m info start (sizes ++ [panicLogSize.toNat]) (backPanicLog m l) := by
  have hcarve := carve_tracks hm h panicLogSize
  exact ⟨hcarve.base, hcarve.fits, hcarve.memSize, hcarve.carved⟩

theorem publishFramebuffer_tracks (h : Tracks m info start sizes l) :
    Tracks m info start sizes (publishFramebuffer m l) := by
  rw [publishFramebuffer]
  split_ifs
  · exact ⟨h.base, h.fits, h.memSize, h.carved⟩
  · exact h

end Tracking

/-- The whole loader is one run of the allocator. -/
theorem armLoadXnuSptm_tracks {m : Macros} (hm : m.Rounding) (info : XnuBootInfo)
    (blobHead memSize : BitVec 64) (dtree : Dtree) :
    Tracks m info memSize (carveSizes info) (armLoadXnuSptm m info blobHead memSize dtree) := by
  have hinfo : (pushRamdisk m (Loader.start info blobHead memSize dtree)).info = info :=
    pushRamdisk_info m _
  have hstart : Tracks m info memSize []
      (pushRamdisk m (Loader.start info blobHead memSize dtree)) := by
    rw [pushRamdisk]
    split_ifs <;> exact ⟨rfl, by simp [CarvesFit, Loader.start], fun _ => rfl, fun _ => rfl⟩
  rw [armLoadXnuSptm]
  generalize pushRamdisk m (Loader.start info blobHead memSize dtree) = l at hinfo hstart ⊢
  have hfb := parkFramebuffer_tracks hm hstart
  have hans := carveAnsfw_tracks hm hfb
  have hdcp := carveDcpfw_tracks hm hans
  rw [List.nil_append, carveAnsfw_info, parkFramebuffer_info, hinfo] at hdcp
  refine publishFramebuffer_tracks (backPanicLog_tracks hm ?_)
  exact ⟨hdcp.base, hdcp.fits, hdcp.memSize, hdcp.carved⟩

/-! ## Contents of the regions -/

/-- The words in `ws` lie in a carved region that starts where they do. -/
def Housed (l : Loader) (w : Region) : Prop :=
  ∃ c ∈ l.carved, c.base = w.base ∧ w.size.toNat ≤ c.size.toNat

section Housing
variable {m : Macros} {l : Loader} {w : Region}

theorem Housed.carve (h : Housed l w) (size : BitVec 64) : Housed (carve m l size) w := by
  obtain ⟨c, hc, hw⟩ := h
  exact ⟨c, List.mem_append_left _ hc, hw⟩

theorem housed_new {size : BitVec 64} (h : w.size.toNat ≤ size.toNat)
    (hbase : w.base = l.info.dramBase + (carve m l size).args.memSize) :
    Housed (carve m l size) w :=
  ⟨_, List.mem_append_right _ (List.mem_singleton_self _), hbase.symm, h⟩

theorem Housed.carveAnsfw (h : Housed l w) : Housed (carveAnsfw m l) w := by
  rw [Boot.carveAnsfw]
  split_ifs
  · exact h.carve l.info.ansfwRegion
  · exact h

theorem Housed.carveDcpfw (h : Housed l w) : Housed (carveDcpfw m l) w := by
  rw [Boot.carveDcpfw]
  split_ifs
  · exact h.carve l.info.dcpfwRegion
  · exact h

theorem Housed.publishFramebuffer (h : Housed l w) : Housed (publishFramebuffer m l) w := by
  rw [Boot.publishFramebuffer]
  split_ifs <;> exact h

/-- Every firmware image lies in its region. -/
def ImagesHoused (l : Loader) : Prop := ∀ w ∈ l.writes, Housed l w

/-- An image written to the start of a region just carved for it. -/
theorem ImagesHoused.carve_image (h : ImagesHoused l) {size : BitVec 64} {l' : Loader}
    (hcarved : l'.carved = (carve m l size).carved) (hwrites : l'.writes = l.writes ++ [w])
    (hbase : w.base = l.info.dramBase + (carve m l size).args.memSize)
    (hfits : w.size.toNat ≤ size.toNat) : ImagesHoused l' := by
  intro w' hw
  rw [Housed, hcarved]
  rw [hwrites] at hw
  rcases List.mem_append.mp hw with hold | hnew
  · exact (h w' hold).carve size
  · obtain rfl := List.mem_singleton.mp hnew
    exact housed_new hfits hbase

theorem ImagesHoused.carveAnsfw (h : ImagesHoused l)
    (hfits : l.info.ansfwF.buf → l.info.ansfwF.len.toNat ≤ l.info.ansfwRegion.toNat) :
    ImagesHoused (carveAnsfw m l) := by
  rw [Boot.carveAnsfw]
  split_ifs with hbuf
  · exact h.carve_image (m := m) rfl rfl rfl (hfits hbuf)
  · exact h

theorem ImagesHoused.carveDcpfw (h : ImagesHoused l)
    (hfits : l.info.dcpfwF.buf → l.info.dcpfwF.len.toNat ≤ l.info.dcpfwRegion.toNat) :
    ImagesHoused (carveDcpfw m l) := by
  rw [Boot.carveDcpfw]
  split_ifs with hbuf
  · exact h.carve_image (m := m) rfl rfl rfl (hfits hbuf)
  · exact h

end Housing

/-! ## Sizes that do not wrap -/

/-- Neither the sum nor the rounding in the size of the firmware's region leaves 64 bits. -/
def RegionExact (m : Macros) (f : MmapFile) : Prop :=
  ceilTo m.darwinHugePageSize.toNat
    (ceilTo m.darwinPageSize.toNat f.len.toNat + 64 * m.oneMb.toNat) < 2 ^ 64

instance (m : Macros) (f : MmapFile) : Decidable (RegionExact m f) :=
  inferInstanceAs (Decidable (_ < _))

theorem IsPow2.pos {p : BitVec 64} (h : IsPow2 p) : 0 < p.toNat := by
  obtain ⟨k, hk⟩ := h
  rw [hk]
  exact Nat.two_pow_pos k

theorem firmwareRegion_toNat {m : Macros} (hm : m.Rounding) {f : MmapFile} (h : RegionExact m f) :
    (firmwareRegion m f).toNat = ceilTo m.darwinHugePageSize.toNat
      (ceilTo m.darwinPageSize.toNat f.len.toNat + 64 * m.oneMb.toNat) := by
  have hwant := (le_ceilTo hm.hugePage.pos _).trans_lt h
  have hround : (m.roundNextPage f.len).toNat = ceilTo m.darwinPageSize.toNat f.len.toNat := by
    rw [hm.nextPage, hm.up _ _ hm.page (by omega)]
  have hroom : (64 * m.oneMb).toNat = 64 * m.oneMb.toNat := by
    rw [BitVec.toNat_mul]
    exact Nat.mod_eq_of_lt (by simp; omega)
  have hsum : (m.roundNextPage f.len + 64 * m.oneMb).toNat =
      ceilTo m.darwinPageSize.toNat f.len.toNat + 64 * m.oneMb.toNat := by
    rw [BitVec.toNat_add, hround, hroom, Nat.mod_eq_of_lt hwant]
  rw [firmwareRegion, hm.up _ _ hm.hugePage (by rwa [hsum]), hsum]

theorem image_le_region {m : Macros} (hm : m.Rounding) {f : MmapFile} (h : RegionExact m f) :
    f.len.toNat ≤ (firmwareRegion m f).toNat := by
  rw [firmwareRegion_toNat hm h]
  have hpage := le_ceilTo hm.page.pos f.len.toNat
  have hhuge := le_ceilTo hm.hugePage.pos
    (ceilTo m.darwinPageSize.toNat f.len.toNat + 64 * m.oneMb.toNat)
  omega

/-- The panel's bytes. -/
def panelBytes : ℕ := darwinFbWidth.toNat * darwinFbHeight.toNat * 4

theorem panel_le_fbSize {m : Macros} (hm : m.Rounding) :
    panelBytes ≤ (m.roundNextPage
      (darwinFbWidth.setWidth 64 * darwinFbHeight.setWidth 64 * 4)).toNat := by
  have hbytes : (darwinFbWidth.setWidth 64 * darwinFbHeight.setWidth 64 * 4).toNat = panelBytes := by
    decide
  have hfew : panelBytes < 2 ^ 63 := by decide
  have hpage : m.darwinPageSize.toNat ≤ 2 ^ 63 := by
    obtain ⟨k, hk⟩ := hm.page
    have hlt : 2 ^ k < 2 ^ 64 := hk ▸ m.darwinPageSize.isLt
    rw [hk]
    have hk64 : k < 64 := (Nat.pow_lt_pow_iff_right (by decide)).mp hlt
    exact Nat.pow_le_pow_right (by decide) (Nat.le_of_lt_succ hk64)
  have hceil := ceilTo_lt hm.page.pos panelBytes
  rw [hm.nextPage, hm.up _ _ hm.page (by rw [hbytes]; omega), hbytes]
  exact le_ceilTo hm.page.pos panelBytes

/-! ## Safety -/

def Region.span (r : Region) : Span := ⟨r.base.toNat, r.size.toNat⟩

/-- The regions are disjoint, inside DRAM, on page boundaries and out of the kernel's sight, and
hold what is put into them. -/
structure CarveOutsSafe (m : Macros) (env : BootEnv) (dramBase memSize : BitVec 64)
    (l : Loader) : Prop where
  disjoint : l.carved.Pairwise fun a b => a.span.Apart b.span
  inDram : ∀ c ∈ l.carved, dramBase.toNat ≤ c.base.toNat ∧
    c.base.toNat + c.size.toNat ≤ dramBase.toNat + memSize.toNat
  paged : ∀ c ∈ l.carved, m.darwinPageSize.toNat ∣ c.base.toNat - dramBase.toNat
  hidden : ∀ c ∈ l.carved, dramBase.toNat + l.args.memSize.toNat ≤ c.base.toNat
  images : ImagesHoused l
  panel : env.fb ≠ none → ∃ c ∈ l.carved, c.base = l.info.fbBase ∧ panelBytes ≤ c.size.toNat

theorem toNat_of_offset {dramBase base : BitVec 64} {n : ℕ} (h : (base - dramBase).toNat = n)
    (hlt : dramBase.toNat + n < 2 ^ 64) : base.toNat = dramBase.toNat + n := by
  have hd := dramBase.isLt
  have hb := base.isLt
  rw [BitVec.toNat_sub] at h
  omega

section Placement
variable {m : Macros} {info : XnuBootInfo} {memSize : BitVec 64} {l : Loader} {sizes : List ℕ}
  (h : Tracks m info memSize sizes l) (hwrap : l.wrapped = false)
  (haddr : info.dramBase.toNat + memSize.toNat < 2 ^ 64)
include h hwrap haddr

/-- A carved region is a span of the allocator, moved to the start of DRAM. -/
theorem Tracks.place {c : Region} (hc : c ∈ l.carved) :
    c.offset info.dramBase ∈ carveSpans m.darwinPageSize.toNat memSize.toNat sizes ∧
      c.base.toNat = info.dramBase.toNat + (c.offset info.dramBase).base := by
  have hr : c.offset info.dramBase ∈ carveSpans m.darwinPageSize.toNat memSize.toNat sizes :=
    h.carved hwrap ▸ List.mem_map_of_mem hc
  obtain ⟨-, htop, -⟩ := carveSpans_within (h.fits.mp hwrap) _ hr
  exact ⟨hr, toNat_of_offset rfl (by omega)⟩

theorem Tracks.pairwise_apart : l.carved.Pairwise fun a b => a.span.Apart b.span := by
  have hspans := carveSpans_pairwise (h.fits.mp hwrap)
  rw [← h.carved hwrap, List.pairwise_map] at hspans
  refine hspans.imp_of_mem fun {a b} ha hb hab => ?_
  have hbase := (h.place hwrap haddr ha).2
  have hbase' := (h.place hwrap haddr hb).2
  simp only [Span.Apart, Region.span, Region.offset] at hab hbase hbase' ⊢
  omega

/-- It lies between the two limits, on a page. -/
theorem Tracks.within {c : Region} (hc : c ∈ l.carved) :
    info.dramBase.toNat + l.args.memSize.toNat ≤ c.base.toNat ∧
      c.base.toNat + c.size.toNat ≤ info.dramBase.toNat + memSize.toNat ∧
      m.darwinPageSize.toNat ∣ c.base.toNat - info.dramBase.toNat := by
  obtain ⟨hr, hbase⟩ := h.place hwrap haddr hc
  obtain ⟨hbottom, htop, hpage⟩ := carveSpans_within (h.fits.mp hwrap) _ hr
  have hsize : (c.offset info.dramBase).size = c.size.toNat := rfl
  rw [hsize] at htop
  rw [h.memSize hwrap, hbase, Nat.add_sub_cancel_left]
  exact ⟨Nat.add_le_add_left hbottom _, by omega, hpage⟩

end Placement

/-! ## What `darwin_init` hands to the loader -/

section Init
variable {m : Macros} {env : BootEnv} {dramBase : BitVec 64} {ramdisk : MmapFile}

theorem darwinInit_dramBase : (darwinInit m env dramBase ramdisk).dramBase = dramBase := by
  obtain ⟨_ | dcp, _ | ans, _ | mode⟩ := env <;> rfl

theorem darwinInit_ansfw (hm : m.Rounding) (h : ∀ f ∈ env.ansfw, RegionExact m f) :
    (darwinInit m env dramBase ramdisk).ansfwF.buf →
      (darwinInit m env dramBase ramdisk).ansfwF.len.toNat ≤
        (darwinInit m env dramBase ramdisk).ansfwRegion.toNat := by
  obtain ⟨_ | dcp, _ | ans, _ | mode⟩ := env
  all_goals first
    | exact fun _ => image_le_region hm (h ans rfl)
    | exact fun hbuf => absurd hbuf Bool.false_ne_true

theorem darwinInit_dcpfw (hm : m.Rounding) (h : ∀ f ∈ env.dcpfw, RegionExact m f) :
    (darwinInit m env dramBase ramdisk).dcpfwF.buf →
      (darwinInit m env dramBase ramdisk).dcpfwF.len.toNat ≤
        (darwinInit m env dramBase ramdisk).dcpfwRegion.toNat := by
  obtain ⟨_ | dcp, _ | ans, _ | mode⟩ := env
  all_goals first
    | exact fun _ => image_le_region hm (h dcp rfl)
    | exact fun hbuf => absurd hbuf Bool.false_ne_true

theorem darwinInit_fbSize (hm : m.Rounding) (h : env.fb ≠ none) :
    panelBytes ≤ (darwinInit m env dramBase ramdisk).fbSize.toNat := by
  obtain ⟨mode, hmode⟩ := Option.ne_none_iff_exists'.mp h
  have hsize : (darwinInit m env dramBase ramdisk).fbSize =
      m.roundNextPage (darwinFbWidth.setWidth 64 * darwinFbHeight.setWidth 64 * 4) := by
    rw [darwinInit, hmode]
    rfl
  rw [hsize]
  exact panel_le_fbSize hm

end Init

/-! ## The loader keeps its regions safe -/

/-- The panel's bytes, at the published address. -/
def Loader.panel (l : Loader) : Region := ⟨l.info.fbBase, BitVec.ofNat 64 panelBytes⟩

section Contents
variable {m : Macros} {info : XnuBootInfo} (blobHead memSize : BitVec 64) (dtree : Dtree)

theorem armLoadXnuSptm_images
    (hans : info.ansfwF.buf → info.ansfwF.len.toNat ≤ info.ansfwRegion.toNat)
    (hdcp : info.dcpfwF.buf → info.dcpfwF.len.toNat ≤ info.dcpfwRegion.toNat) :
    ImagesHoused (armLoadXnuSptm m info blobHead memSize dtree) := by
  have hinfo : (pushRamdisk m (Loader.start info blobHead memSize dtree)).info = info :=
    pushRamdisk_info m _
  have hempty : (pushRamdisk m (Loader.start info blobHead memSize dtree)).writes = [] := by
    rw [pushRamdisk]
    split_ifs <;> rfl
  rw [armLoadXnuSptm]
  generalize pushRamdisk m (Loader.start info blobHead memSize dtree) = l at hinfo hempty ⊢
  have hfbInfo := parkFramebuffer_info m l
  rw [hinfo] at hfbInfo
  have hfb : ImagesHoused (parkFramebuffer m l) := by
    have hnone : (parkFramebuffer m l).writes = [] := by
      rw [parkFramebuffer]
      split_ifs <;> exact hempty
    intro w hw
    rw [hnone] at hw
    exact absurd hw List.not_mem_nil
  have hansw := hfb.carveAnsfw (m := m) (by rwa [hfbInfo])
  have hdcpw := hansw.carveDcpfw (m := m) (by rwa [carveAnsfw_info, hfbInfo])
  intro w hw
  have hw' : w ∈ (carveDcpfw m (carveAnsfw m (parkFramebuffer m l))).writes := by
    rw [publishFramebuffer] at hw
    split_ifs at hw <;> exact hw
  exact Housed.publishFramebuffer ((hdcpw w hw').carve panicLogSize)

theorem armLoadXnuSptm_panel (hbytes : panelBytes ≤ info.fbSize.toNat) :
    Housed (armLoadXnuSptm m info blobHead memSize dtree)
      (armLoadXnuSptm m info blobHead memSize dtree).panel := by
  have hinfo : (pushRamdisk m (Loader.start info blobHead memSize dtree)).info = info :=
    pushRamdisk_info m _
  rw [armLoadXnuSptm]
  generalize pushRamdisk m (Loader.start info blobHead memSize dtree) = l at hinfo ⊢
  have hfb : Housed (parkFramebuffer m l) (parkFramebuffer m l).panel := by
    have hpos : l.info.fbSize ≠ 0 := fun hzero => by
      rw [← hinfo, hzero] at hbytes
      exact absurd hbytes (by decide)
    rw [parkFramebuffer, if_pos hpos]
    exact housed_new (m := m) (hinfo ▸ hbytes) rfl
  -- nothing after this step moves the framebuffer
  have hlater : (publishFramebuffer m (backPanicLog m (setTopOfKernelData
      (carveDcpfw m (carveAnsfw m (parkFramebuffer m l)))))).info = (parkFramebuffer m l).info := by
    rw [publishFramebuffer_info]
    exact (carveDcpfw_info m _).trans (carveAnsfw_info m _)
  rw [Loader.panel, hlater]
  exact Housed.publishFramebuffer (hfb.carveAnsfw.carveDcpfw.carve panicLogSize)

end Contents

/-- While no subtraction from `memSize`, no firmware size and no DRAM address wraps, the carve-outs
are safe, and the guest is given their addresses. -/
theorem carve_outs_safe {m : Macros} (hm : m.Rounding) (env : BootEnv)
    (dramBase memSize blobHead : BitVec 64) (ramdisk : MmapFile) (dtree : Dtree)
    (haddr : dramBase.toNat + memSize.toNat < 2 ^ 64)
    (hans : ∀ f ∈ env.ansfw, RegionExact m f) (hdcp : ∀ f ∈ env.dcpfw, RegionExact m f)
    (hwrap : (armLoadXnuSptm m (darwinInit m env dramBase ramdisk) blobHead memSize
      dtree).wrapped = false) :
    CarveOutsSafe m env dramBase memSize
        (armLoadXnuSptm m (darwinInit m env dramBase ramdisk) blobHead memSize dtree) ∧
      PublishesCarved (darwinInit m env dramBase ramdisk) dtree
        (armLoadXnuSptm m (darwinInit m env dramBase ramdisk) blobHead memSize dtree) := by
  refine ⟨?_, armLoadXnuSptm_publishes m _ blobHead memSize dtree⟩
  have htracks := armLoadXnuSptm_tracks hm (darwinInit m env dramBase ramdisk) blobHead memSize dtree
  have himages : ImagesHoused
      (armLoadXnuSptm m (darwinInit m env dramBase ramdisk) blobHead memSize dtree) :=
    armLoadXnuSptm_images blobHead memSize dtree (darwinInit_ansfw hm hans)
      (darwinInit_dcpfw hm hdcp)
  have haddr' : (darwinInit m env dramBase ramdisk).dramBase.toNat + memSize.toNat < 2 ^ 64 := by
    rwa [darwinInit_dramBase]
  have hwithin := fun {c : Region} => htracks.within hwrap haddr' (c := c)
  rw [darwinInit_dramBase] at hwithin
  refine ⟨htracks.pairwise_apart hwrap haddr', fun c hc => ?_, fun c hc => (hwithin hc).2.2,
    fun c hc => (hwithin hc).1, himages,
    fun hfb => armLoadXnuSptm_panel blobHead memSize dtree (darwinInit_fbSize hm hfb)⟩
  obtain ⟨hbottom, htop, -⟩ := hwithin hc
  exact ⟨by omega, htop⟩

/-! ## Concrete macros -/

/-- 16 KiB pages and 32 MiB huge pages. -/
def powerMacros : Macros where
  roundNextPage x := (x + (0x4000 - 1)) - (x + (0x4000 - 1)) % 0x4000
  roundUpPow2 x p := (x + (p - 1)) - (x + (p - 1)) % p
  roundDownPow2 x p := x - x % p
  darwinPageSize := 0x4000
  darwinHugePageSize := 0x2000000
  oneMb := 0x100000
  bootVideoDepthScaleShift := 16

theorem sub_mod_toNat (x p : BitVec 64) : (x - x % p).toNat = floorTo p.toNat x.toNat := by
  have hle : x % p ≤ x := BitVec.le_def.mpr (by rw [BitVec.toNat_umod]; exact Nat.mod_le _ _)
  rw [BitVec.toNat_sub_of_le hle, BitVec.toNat_umod, floorTo, Nat.mul_comm, Nat.sub_eq_iff_eq_add
    (Nat.mod_le _ _), Nat.div_add_mod]

theorem powerMacros_rounding : powerMacros.Rounding where
  page := ⟨14, rfl⟩
  hugePage := ⟨25, rfl⟩
  down x p _ := sub_mod_toNat x p
  up x p hp hfits := by
    have hpos := hp.pos
    obtain ⟨k, hk⟩ := hp
    have hdvd : p.toNat ∣ 2 ^ 64 := by
      have hlt : 2 ^ k < 2 ^ 64 := hk ▸ p.isLt
      rw [hk]
      exact pow_dvd_pow 2 ((Nat.pow_lt_pow_iff_right (by decide)).mp hlt).le
    have hsmall : x.toNat + p.toNat - 1 < 2 ^ 64 := by
      by_contra hge
      exact absurd ((le_floorTo_iff hdvd _).mpr (Nat.le_of_not_lt hge)) (Nat.not_le_of_lt hfits)
    have hone : (1 : BitVec 64) ≤ p := BitVec.le_def.mpr hpos
    have hpred : (p - 1).toNat = p.toNat - 1 := BitVec.toNat_sub_of_le hone
    have hsum : (x + (p - 1)).toNat = x.toNat + p.toNat - 1 := by
      rw [BitVec.toNat_add, hpred, ← Nat.add_sub_assoc hpos, Nat.mod_eq_of_lt hsmall]
    show ((x + (p - 1)) - (x + (p - 1)) % p).toNat = _
    rw [sub_mod_toNat, hsum]
    rfl
  up_dvd x p _ := by
    show p.toNat ∣ ((x + (p - 1)) - (x + (p - 1)) % p).toNat
    rw [sub_mod_toNat]
    exact dvd_floorTo _ _
  nextPage x := rfl

/-- All four carve-outs. -/
def fullEnv : BootEnv := ⟨some ⟨true, 0x1200000⟩, some ⟨true, 0x345678⟩, some "1"⟩

/-- Every property there is to fill, still zero. -/
def unfilledDtree : Dtree := fun _ _ => some [0, 0]

theorem full_carve_outs_safe :
    CarveOutsSafe powerMacros fullEnv 0x10000000000 0x200000000
        (armLoadXnuSptm powerMacros (darwinInit powerMacros fullEnv 0x10000000000 ⟨false, 0⟩)
          0x10004000000 0x200000000 unfilledDtree) ∧
      PublishesCarved (darwinInit powerMacros fullEnv 0x10000000000 ⟨false, 0⟩) unfilledDtree
        (armLoadXnuSptm powerMacros (darwinInit powerMacros fullEnv 0x10000000000 ⟨false, 0⟩)
          0x10004000000 0x200000000 unfilledDtree) :=
  carve_outs_safe powerMacros_rounding fullEnv 0x10000000000 0x200000000 0x10004000000 ⟨false, 0⟩
    unfilledDtree (by decide) (fun f hf => by obtain rfl := Option.mem_some.mp hf; decide)
    (fun f hf => by obtain rfl := Option.mem_some.mp hf; decide) (by decide)

/-- An image so long that the working set wraps its region to 32 MiB. -/
def wrappingImageEnv : BootEnv := ⟨none, some ⟨true, 0xFFFFFFFFFE000000⟩, none⟩

def fbEnv : BootEnv := ⟨none, none, some "1"⟩

/-- No subtraction wraps in either run. In the first the image does not fit, in the second DRAM
runs past the last address and the framebuffer lands below it. -/
theorem wrapped_sums_unsafe :
    ((armLoadXnuSptm powerMacros (darwinInit powerMacros wrappingImageEnv 0x10000000000 ⟨false, 0⟩)
        0x10004000000 0x200000000 fun _ _ => none).wrapped = false ∧
      ¬ CarveOutsSafe powerMacros wrappingImageEnv 0x10000000000 0x200000000
        (armLoadXnuSptm powerMacros (darwinInit powerMacros wrappingImageEnv 0x10000000000
          ⟨false, 0⟩) 0x10004000000 0x200000000 fun _ _ => none)) ∧
    ((armLoadXnuSptm powerMacros (darwinInit powerMacros fbEnv 0xFFFFFFFF00000000 ⟨false, 0⟩)
        0xFFFFFFFF04000000 0x200000000 fun _ _ => none).wrapped = false ∧
      ¬ CarveOutsSafe powerMacros fbEnv 0xFFFFFFFF00000000 0x200000000
        (armLoadXnuSptm powerMacros (darwinInit powerMacros fbEnv 0xFFFFFFFF00000000 ⟨false, 0⟩)
          0xFFFFFFFF04000000 0x200000000 fun _ _ => none)) := by
  refine ⟨⟨by decide, fun h => ?_⟩, ⟨by decide, fun h => ?_⟩⟩
  · obtain ⟨c, hc, hfits⟩ := h.images _ (List.mem_singleton_self _)
    revert c
    decide
  · have hbase := h.inDram _ List.mem_cons_self
    exact absurd hbase.1 (by decide)

end SecureWorld.Boot
