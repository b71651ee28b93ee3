import SecureWorld.Boot.CarveOuts

/-! # The blob and the carve-outs

The blob grows from the bottom of DRAM with the images the operator supplies, `memSize` comes down
from the DRAM size in the device tree, and the loader compares them nowhere. They stay apart, and
no subtraction wraps, exactly when everything fits.
-/
namespace SecureWorld.Boot
open Foundations
set_option autoImplicit false

/-- The `dram-base` and `dram-size` that `fixup` sets; `dramSize` is the environment's `DRAM_SIZE`. -/
def fixupDram (socGen : ℕ) (dramSize : Option (BitVec 64)) : BitVec 64 × BitVec 64 :=
  (if socGen ≤ 14 then 0x800000000 else 0x10000000000, dramSize.getD 0x200000000)

/-- The end of the loaded blob, computed without a bound. -/
def blobEnd (m : Macros) (blobHead : BitVec 64) (ramdisk : MmapFile) : ℕ :=
  if ramdisk.buf then ceilTo m.darwinPageSize.toNat (blobHead.toNat + ramdisk.len.toNat)
  else blobHead.toNat

/-- The loaded data ends below everything that was carved, and nothing has wrapped. -/
structure BlobClear (m : Macros) (info : XnuBootInfo) (blobHead : BitVec 64) (l : Loader) :
    Prop where
  exact : l.args.topOfKernelData.toNat = blobEnd m blobHead info.ramdiskF
  unwrapped : l.wrapped = false
  below : l.args.topOfKernelData.toNat ≤ info.dramBase.toNat + l.args.memSize.toNat
  apart : ∀ c ∈ l.carved, l.args.topOfKernelData.toNat ≤ c.base.toNat

/-- Blob and carve-outs fit into the whole pages of DRAM. -/
structure BootFits (m : Macros) (info : XnuBootInfo) (blobHead memSize : BitVec 64) : Prop where
  carveOuts : (carveSizes info).sum ≤ floorTo m.darwinPageSize.toNat memSize.toNat
  blob : blobEnd m blobHead info.ramdiskF + (carveSizes info).sum ≤
    info.dramBase.toNat + floorTo m.darwinPageSize.toNat memSize.toNat

/-! ## The blob's end -/

section Top
variable (m : Macros) (l : Loader)

theorem parkFramebuffer_blobHead : (parkFramebuffer m l).blobHead = l.blobHead := by
  rw [parkFramebuffer]
  split_ifs <;> rfl

theorem carveAnsfw_blobHead : (carveAnsfw m l).blobHead = l.blobHead := by
  rw [carveAnsfw]
  split_ifs <;> rfl

theorem carveDcpfw_blobHead : (carveDcpfw m l).blobHead = l.blobHead := by
  rw [carveDcpfw]
  split_ifs <;> rfl

theorem publishFramebuffer_top :
    (publishFramebuffer m l).args.topOfKernelData = l.args.topOfKernelData := by
  rw [publishFramebuffer]
  split_ifs <;> rfl

end Top

theorem armLoadXnuSptm_top (m : Macros) (info : XnuBootInfo) (blobHead memSize : BitVec 64)
    (dtree : Dtree) :
    (armLoadXnuSptm m info blobHead memSize dtree).args.topOfKernelData =
      if info.ramdiskF.buf then m.roundNextPage (blobHead + info.ramdiskF.len) else blobHead := by
  have hpush : (pushRamdisk m (Loader.start info blobHead memSize dtree)).blobHead =
      if info.ramdiskF.buf then m.roundNextPage (blobHead + info.ramdiskF.len) else blobHead := by
    rw [pushRamdisk, apply_ite Loader.blobHead]
    rfl
  rw [armLoadXnuSptm, publishFramebuffer_top, ← hpush]
  generalize pushRamdisk m (Loader.start info blobHead memSize dtree) = l
  calc (backPanicLog m (setTopOfKernelData
          (carveDcpfw m (carveAnsfw m (parkFramebuffer m l))))).args.topOfKernelData
      = (carveDcpfw m (carveAnsfw m (parkFramebuffer m l))).blobHead := rfl
    _ = l.blobHead := by
        rw [carveDcpfw_blobHead, carveAnsfw_blobHead, parkFramebuffer_blobHead]

/-- Inside 64 bits the loader finds the true end. -/
theorem top_exact {m : Macros} (hm : m.Rounding) {info : XnuBootInfo} {blobHead : BitVec 64}
    (h : blobEnd m blobHead info.ramdiskF < 2 ^ 64) (memSize : BitVec 64) (dtree : Dtree) :
    (armLoadXnuSptm m info blobHead memSize dtree).args.topOfKernelData.toNat =
      blobEnd m blobHead info.ramdiskF := by
  rw [armLoadXnuSptm_top]
  rw [blobEnd] at h ⊢
  split_ifs at h ⊢ with hbuf
  · have hsum := le_ceilTo hm.page.pos (blobHead.toNat + info.ramdiskF.len.toNat)
    have hadd : (blobHead + info.ramdiskF.len).toNat =
        blobHead.toNat + info.ramdiskF.len.toNat := by
      rw [BitVec.toNat_add, Nat.mod_eq_of_lt (by omega)]
    rw [hm.nextPage, hm.up _ _ hm.page (by rwa [hadd]), hadd]
  · rfl

/-! ## Carved sizes are whole pages -/

theorem IsPow2.dvd {p q : BitVec 64} (hp : IsPow2 p) (hq : IsPow2 q) (h : p ≤ q) :
    p.toNat ∣ q.toNat := by
  obtain ⟨j, hj⟩ := hp
  obtain ⟨k, hk⟩ := hq
  have hle : 2 ^ j ≤ 2 ^ k := hj ▸ hk ▸ BitVec.le_def.mp h
  rw [hj, hk]
  exact pow_dvd_pow 2 ((Nat.pow_le_pow_iff_right (by decide)).mp hle)

theorem carveSizes_paged {m : Macros} (hm : m.Rounding)
    (hhuge : m.darwinPageSize ≤ m.darwinHugePageSize) (hlog : m.darwinPageSize ≤ panicLogSize)
    (env : BootEnv) (dramBase : BitVec 64) (ramdisk : MmapFile) :
    ∀ s ∈ carveSizes (darwinInit m env dramBase ramdisk), m.darwinPageSize.toNat ∣ s := by
  have hfw : ∀ f, m.darwinPageSize.toNat ∣ (firmwareRegion m f).toNat := fun f =>
    (hm.page.dvd hm.hugePage hhuge).trans (hm.up_dvd _ _ hm.hugePage)
  have hfb : ∀ x, m.darwinPageSize.toNat ∣ (m.roundNextPage x).toNat := fun x => by
    rw [hm.nextPage]
    exact hm.up_dvd _ _ hm.page
  have hpanic : m.darwinPageSize.toNat ∣ panicLogSize.toNat := hm.page.dvd ⟨20, rfl⟩ hlog
  intro s hs
  simp only [carveSizes, List.mem_append, List.mem_ite_nil_right, List.mem_singleton] at hs
  obtain ⟨dcp, ans, fb⟩ := env
  rcases hs with ((⟨-, rfl⟩ | ⟨-, rfl⟩) | ⟨-, rfl⟩) | rfl
  · cases fb with
    | none => cases ans <;> cases dcp <;> exact Nat.dvd_zero _
    | some mode => cases ans <;> cases dcp <;> exact hfb _
  · cases ans with
    | none => cases fb <;> cases dcp <;> exact Nat.dvd_zero _
    | some f => cases fb <;> cases dcp <;> exact hfw f
  · cases dcp with
    | none => cases fb <;> cases ans <;> exact Nat.dvd_zero _
    | some f => cases fb <;> cases ans <;> exact hfw f
  · exact hpanic

theorem carveSizes_ne_nil (info : XnuBootInfo) : carveSizes info ≠ [] := by simp [carveSizes]

/-! ## When they stay apart -/

section Fit
variable {m : Macros} {info : XnuBootInfo} {blobHead memSize : BitVec 64} {l : Loader}
  (htracks : Tracks m info memSize (carveSizes info) l)
  (hpaged : ∀ s ∈ carveSizes info, m.darwinPageSize.toNat ∣ s)
include htracks hpaged

theorem wrapped_iff : l.wrapped = false ↔
    (carveSizes info).sum ≤ floorTo m.darwinPageSize.toNat memSize.toNat := by
  rw [htracks.fits, carvesFit_iff hpaged]

/-- What is left of `memSize`. -/
theorem memSize_add_sum (hwrap : l.wrapped = false) :
    l.args.memSize.toNat + (carveSizes info).sum =
      floorTo m.darwinPageSize.toNat memSize.toNat := by
  have hsum := (wrapped_iff htracks hpaged).mp hwrap
  have hrest : floorTo m.darwinPageSize.toNat
      (carveRest m.darwinPageSize.toNat memSize.toNat (carveSizes info)) =
        floorTo m.darwinPageSize.toNat memSize.toNat - (carveSizes info).sum :=
    floorTo_carveRest hpaged
  rw [floorTo_of_dvd (dvd_carveRest (carveSizes_ne_nil info)), ← htracks.memSize hwrap] at hrest
  omega

end Fit

/-- The boot's memory layout is sound iff blob and carve-outs fit together. -/
theorem blob_clear_iff {m : Macros} (hm : m.Rounding)
    (hhuge : m.darwinPageSize ≤ m.darwinHugePageSize) (hlog : m.darwinPageSize ≤ panicLogSize)
    (env : BootEnv) (dramBase memSize blobHead : BitVec 64) (ramdisk : MmapFile) (dtree : Dtree)
    (haddr : dramBase.toNat + memSize.toNat < 2 ^ 64) :
    BlobClear m (darwinInit m env dramBase ramdisk) blobHead
        (armLoadXnuSptm m (darwinInit m env dramBase ramdisk) blobHead memSize dtree) ↔
      BootFits m (darwinInit m env dramBase ramdisk) blobHead memSize := by
  have htracks := armLoadXnuSptm_tracks hm (darwinInit m env dramBase ramdisk) blobHead memSize dtree
  have hpaged := carveSizes_paged hm hhuge hlog env dramBase ramdisk
  have hbase : (darwinInit m env dramBase ramdisk).dramBase = dramBase := darwinInit_dramBase
  have hfloor := floorTo_le m.darwinPageSize.toNat memSize.toNat
  constructor
  · intro h
    have hleft := memSize_add_sum htracks hpaged h.unwrapped
    have hbelow := h.below
    rw [h.exact] at hbelow
    exact ⟨(wrapped_iff htracks hpaged).mp h.unwrapped, by omega⟩
  · intro h
    have hwrap := (wrapped_iff htracks hpaged).mpr h.carveOuts
    have hleft := memSize_add_sum htracks hpaged hwrap
    have hblob := h.blob
    rw [hbase] at hblob
    have htop := top_exact hm (show blobEnd m blobHead
      (darwinInit m env dramBase ramdisk).ramdiskF < 2 ^ 64 by omega) memSize dtree
    refine ⟨htop, hwrap, by rw [htop, hbase]; omega, fun c hc => ?_⟩
    have hhidden := (htracks.within hwrap (by rwa [hbase]) hc).1
    rw [hbase] at hhidden
    omega

/-- 20 GiB of DRAM hold the 9.3 GB root filesystem and every carve-out. -/
theorem full_boot_clear :
    BlobClear powerMacros (darwinInit powerMacros fullEnv 0x10000000000 ⟨true, 10026483712⟩)
        0x10008000000 (armLoadXnuSptm powerMacros (darwinInit powerMacros fullEnv 0x10000000000
          ⟨true, 10026483712⟩) 0x10008000000 0x500000000 fun _ _ => none) ↔
      BootFits powerMacros (darwinInit powerMacros fullEnv 0x10000000000 ⟨true, 10026483712⟩)
        0x10008000000 0x500000000 :=
  blob_clear_iff powerMacros_rounding (by decide) (by decide) fullEnv 0x10000000000 0x500000000
    0x10008000000 ⟨true, 10026483712⟩ (fun _ _ => none) (by decide)

/-- Under the default 8 GiB the same ramdisk ends above the framebuffer and every limit. -/
theorem default_dram_overrun :
    ¬ BlobClear powerMacros
      (darwinInit powerMacros fbEnv (fixupDram 17 none).1 ⟨true, 10026483712⟩) 0x10008000000
      (armLoadXnuSptm powerMacros
        (darwinInit powerMacros fbEnv (fixupDram 17 none).1 ⟨true, 10026483712⟩) 0x10008000000
        (fixupDram 17 none).2 fun _ _ => none) :=
  fun h => absurd h.below (by decide)

end SecureWorld.Boot
