import SecureWorld.Foundations.Effects
import SecureWorld.Patcher.Fileset

/-! # Clamping the slide of the shared cache (`cfw_patch_dsc_maxslide.py`)

`patch_dsc_maxslide` zeroes `maxSlide` in the header of the main chunk when the cache does not fit the
kernel's region with it. It never asks whether the cache fits without it. Printed lines are left out.
-/
namespace SecureWorld.Patcher
open Foundations
set_option autoImplicit false

def offSharedRegionStart : ℕ := 0xE0
def offSharedRegionSize : ℕ := 0xE8
def offMaxSlide : ℕ := 0xF0

inductive DscError
  /-- `FileNotFoundError` -/
  | mainChunkNotFound
  /-- `RuntimeError`: not a dyld shared cache -/
  | notSharedCache
  /-- `struct.error` -/
  | struct
  /-- `RuntimeError`: maxSlide write verify failed -/
  | verifyFailed (back : ℕ)
deriving DecidableEq

/-- The main chunk on disk, if it is there. -/
abbrev Chunk := Option Bytes

def unpackHeader (hdr : Bytes) (off : ℕ) : Effect DscError Chunk ℕ :=
  match unpackQ hdr off with
  | .ok v => pure v
  | .error _ => throw .struct

/-- `f.seek(off)`, `f.write(bytes)` inside the file -/
def writeAt (main : Bytes) (off : ℕ) (bytes : Bytes) : Bytes :=
  main.take off ++ bytes ++ main.drop (off + bytes.length)

/-- `kernel_region_size` is any integer. -/
def patchDscMaxslide (kernelRegionSize : ℤ) (dryRun force : Bool) : Effect DscError Chunk ℕ := do
  let some main ← get | throw .mainChunkNotFound
  let hdr := main.take 0x100
  if hdr.take 7 ≠ asciiBytes "dyld_v1" then throw .notSharedCache
  let _srstart ← unpackHeader hdr offSharedRegionStart
  let srsize ← unpackHeader hdr offSharedRegionSize
  let maxslide ← unpackHeader hdr offMaxSlide
  let fits := decide (((srsize + maxslide : ℕ) : ℤ) ≤ kernelRegionSize)
  if fits ∧ ¬ force then return 0
  if maxslide = 0 then return 0
  let newMaxslide := 0
  if ¬ dryRun then
    let main := writeAt main offMaxSlide (leBytes 8 newMaxslide)
    set (some main)
    let back ← unpackHeader main offMaxSlide
    if back ≠ newMaxslide then throw (.verifyFailed back)
  return 1

/-- `KERNEL_SHARED_REGION_SIZE` -/
def kernelSharedRegionSize : ℤ := 0x180000000

/-! ## The header -/

def sharedRegionSize (main : Bytes) : ℕ := field main offSharedRegionSize 8

def maxSlide (main : Bytes) : ℕ := field main offMaxSlide 8

/-- The chunk starts with the magic of a shared cache and goes on past `maxSlide`. -/
def HasHeader (main : Bytes) : Prop :=
  main.take 7 = asciiBytes "dyld_v1" ∧ offMaxSlide + 8 ≤ main.length

instance (main : Bytes) : Decidable (HasHeader main) := inferInstanceAs (Decidable (_ ∧ _))

theorem unpackHeader_exec (hdr : Bytes) (off : ℕ) (c : Chunk) :
    (unpackHeader hdr off).exec c =
      if off + 8 ≤ hdr.length then (.ok (field hdr off 8), c) else (.error .struct, c) := by
  unfold unpackHeader unpackQ
  split_ifs <;> rfl

theorem exec_unpackHeader_bind {α : Type} {hdr : Bytes} {off : ℕ} (h : off + 8 ≤ hdr.length)
    (f : ℕ → Effect DscError Chunk α) (c : Chunk) :
    (unpackHeader hdr off >>= f).exec c = (f (field hdr off 8)).exec c := by
  rw [exec_bind, unpackHeader_exec, if_pos h]

theorem field_take {data : Bytes} {n off : ℕ} (h : off + 8 ≤ n) :
    field (data.take n) off 8 = field data off 8 := by
  rw [field, field, List.drop_take, List.take_take, Nat.min_eq_left (by omega)]

/-! ## The write -/

section WriteAt
variable {main bytes : Bytes} {off : ℕ} (h : off + bytes.length ≤ main.length)
include h

theorem writeAt_length : (writeAt main off bytes).length = main.length := by
  rw [writeAt, List.length_append, List.length_append, List.length_take, List.length_drop]
  omega

theorem writeAt_getElem? {i : ℕ} (hi : i < off ∨ off + bytes.length ≤ i) :
    (writeAt main off bytes)[i]? = main[i]? := by
  have htake : (main.take off).length = off := by
    rw [List.length_take]
    omega
  rw [writeAt, List.append_assoc]
  rcases hi with hlt | hge
  · rw [List.getElem?_append_left (by omega), List.getElem?_take, if_pos hlt]
  · rw [List.getElem?_append_right (by omega), List.getElem?_append_right (by omega), htake,
      List.getElem?_drop]
    congr 1
    omega

theorem field_writeAt : field (writeAt main off bytes) off bytes.length = leNat bytes := by
  have htake : (main.take off).length = off := by
    rw [List.length_take]
    omega
  rw [field, writeAt, List.append_assoc, List.drop_left' htake, List.take_left]

end WriteAt

def zeroed (main : Bytes) : Bytes := writeAt main offMaxSlide (leBytes 8 0)

section Zeroed
variable {main : Bytes} (hlen : offMaxSlide + 8 ≤ main.length)
include hlen

theorem zeroed_length : (zeroed main).length = main.length := writeAt_length hlen

theorem zeroed_getElem? {i : ℕ} (hi : i < offMaxSlide ∨ offMaxSlide + 8 ≤ i) :
    (zeroed main)[i]? = main[i]? := writeAt_getElem? hlen hi

theorem maxSlide_zeroed : maxSlide (zeroed main) = 0 :=
  @field_writeAt main (leBytes 8 0) offMaxSlide hlen

theorem sharedRegionSize_zeroed : sharedRegionSize (zeroed main) = sharedRegionSize main :=
  field_congr fun k hk => zeroed_getElem? hlen (.inl (by
    have hoff : offMaxSlide = offSharedRegionSize + 8 := rfl
    omega))

theorem HasHeader.zeroed (h : HasHeader main) : HasHeader (zeroed main) := by
  refine ⟨?_, by rw [zeroed_length hlen]; exact hlen⟩
  rw [← h.1]
  refine List.ext_getElem? fun i => ?_
  rw [List.getElem?_take, List.getElem?_take]
  by_cases hi : i < 7
  · have hoff : offMaxSlide = 0xF0 := rfl
    rw [if_pos hi, if_pos hi, zeroed_getElem? hlen (.inl (by omega))]
  · rw [if_neg hi, if_neg hi]

end Zeroed

/-! ## What the call does -/

theorem patch_hasHeader {main : Bytes} (h : HasHeader main) (kernelRegionSize : ℤ)
    (dryRun force : Bool) :
    (patchDscMaxslide kernelRegionSize dryRun force).exec (some main) =
      if (((sharedRegionSize main + maxSlide main : ℕ) : ℤ) ≤ kernelRegionSize ∧ force = false) ∨
          maxSlide main = 0 then (.ok 0, some main)
      else if dryRun = true then (.ok 1, some main)
      else (.ok 1, some (zeroed main)) := by
  obtain ⟨hmagic, hlen⟩ := h
  have hoff : offMaxSlide = 0xF0 := rfl
  have hmagic' : (main.take 0x100).take 7 = asciiBytes "dyld_v1" := by
    rw [List.take_take]
    exact hmagic
  have hlen' : offMaxSlide + 8 ≤ (main.take 0x100).length := by
    rw [List.length_take]
    omega
  unfold patchDscMaxslide
  rw [exec_get_bind]
  dsimp only
  rw [if_neg (not_not.mpr hmagic'),
    exec_unpackHeader_bind (le_trans (by decide) hlen'),
    exec_unpackHeader_bind (le_trans (by decide) hlen'), exec_unpackHeader_bind hlen',
    field_take (by decide), field_take (by decide), ← sharedRegionSize, ← maxSlide, ← zeroed]
  by_cases hfits : ((sharedRegionSize main + maxSlide main : ℕ) : ℤ) ≤ kernelRegionSize ∧
      force = false
  · have hfits' : decide (((sharedRegionSize main + maxSlide main : ℕ) : ℤ) ≤
        kernelRegionSize) = true ∧ ¬ force = true := by
      simpa using hfits
    rw [if_pos hfits']
    exact (if_pos (.inl hfits)).symm
  · have hfits' : ¬ (decide (((sharedRegionSize main + maxSlide main : ℕ) : ℤ) ≤
        kernelRegionSize) = true ∧ ¬ force = true) := by
      simpa using hfits
    rw [if_neg hfits']
    by_cases hzero : maxSlide main = 0
    · rw [if_pos hzero]
      exact (if_pos (.inr hzero)).symm
    · have hneither := not_or.mpr ⟨hfits, hzero⟩
      rw [if_neg hzero]
      cases dryRun with
      | true => exact (if_neg hneither).symm
      | false =>
        have hlen₀ : offMaxSlide + 8 ≤ (zeroed main).length := by
          rw [zeroed_length hlen]
          exact hlen
        rw [if_pos Bool.false_ne_true, exec_set_bind, exec_unpackHeader_bind hlen₀, ← maxSlide, maxSlide_zeroed hlen]
        exact (if_neg hneither).symm

theorem patch_magic {main : Bytes} {kernelRegionSize : ℤ} {dryRun force : Bool}
    (h : main.take 7 ≠ asciiBytes "dyld_v1") :
    (patchDscMaxslide kernelRegionSize dryRun force).exec (some main) =
      (.error .notSharedCache, some main) := by
  have hmagic : (main.take 0x100).take 7 ≠ asciiBytes "dyld_v1" := by
    rw [List.take_take]
    exact h
  unfold patchDscMaxslide
  rw [exec_get_bind]
  dsimp only
  rw [if_pos hmagic]
  rfl

/-- A header that ends too early. -/
theorem patch_short {main : Bytes} {kernelRegionSize : ℤ} {dryRun force : Bool}
    (hmagic : main.take 7 = asciiBytes "dyld_v1") (h : ¬ offMaxSlide + 8 ≤ main.length) :
    (patchDscMaxslide kernelRegionSize dryRun force).exec (some main) =
      (.error .struct, some main) := by
  have hmagic' : (main.take 0x100).take 7 = asciiBytes "dyld_v1" := by
    rw [List.take_take]
    exact hmagic
  have hshort : ¬ offMaxSlide + 8 ≤ (main.take 0x100).length := by
    rw [List.length_take]
    omega
  unfold patchDscMaxslide
  rw [exec_get_bind]
  dsimp only
  rw [if_neg (not_not.mpr hmagic'), exec_bind, unpackHeader_exec]
  by_cases hstart : offSharedRegionStart + 8 ≤ (main.take 0x100).length
  · rw [if_pos hstart]
    dsimp only
    rw [exec_bind, unpackHeader_exec]
    by_cases hsize : offSharedRegionSize + 8 ≤ (main.take 0x100).length
    · rw [if_pos hsize]
      dsimp only
      rw [exec_bind, unpackHeader_exec, if_neg hshort]
    · rw [if_neg hsize]
  · rw [if_neg hstart]

/-- Without a header the call raises and changes nothing, with or without `dry_run`. -/
theorem patch_no_header {c : Chunk} (h : ∀ main, c = some main → ¬ HasHeader main) :
    ∃ e, ∀ (kernelRegionSize : ℤ) (dryRun force : Bool),
      (patchDscMaxslide kernelRegionSize dryRun force).exec c = (.error e, c) := by
  cases c with
  | none => exact ⟨.mainChunkNotFound, fun _ _ _ => rfl⟩
  | some main =>
    by_cases hmagic : main.take 7 = asciiBytes "dyld_v1"
    · exact ⟨.struct, fun _ _ _ => patch_short hmagic fun hlen => h main rfl ⟨hmagic, hlen⟩⟩
    · exact ⟨.notSharedCache, fun _ _ _ => patch_magic hmagic⟩

/-! ## What the clamp is for -/

/-- The cache fits the region with its slide. -/
def FitsRegion (kernelRegionSize : ℤ) (c : Chunk) : Prop :=
  ∃ main, c = some main ∧ ((sharedRegionSize main + maxSlide main : ℕ) : ℤ) ≤ kernelRegionSize

/-- Nothing but `maxSlide` differs. -/
def OnlyMaxSlide (c c' : Chunk) : Prop :=
  c' = c ∨ ∃ main main', c = some main ∧ c' = some main' ∧ main'.length = main.length ∧
    ∀ i, i < offMaxSlide ∨ offMaxSlide + 8 ≤ i → main'[i]? = main[i]?

structure Clamps (kernelRegionSize : ℤ) (force : Bool) (c : Chunk) : Prop where
  fits : ∀ n c', (patchDscMaxslide kernelRegionSize false force).exec c = (.ok n, c') →
    FitsRegion kernelRegionSize c'
  frame : OnlyMaxSlide c ((patchDscMaxslide kernelRegionSize false force).exec c).2
  again : ∀ n c', (patchDscMaxslide kernelRegionSize false force).exec c = (.ok n, c') →
    (patchDscMaxslide kernelRegionSize false force).exec c' = (.ok 0, c')
  dryRun : (patchDscMaxslide kernelRegionSize true force).exec c =
    (((patchDscMaxslide kernelRegionSize false force).exec c).1, c)

/-- The three things a real call does with a header. -/
theorem patch_cases {main : Bytes} (h : HasHeader main) (kernelRegionSize : ℤ) (force : Bool) :
    ((patchDscMaxslide kernelRegionSize false force).exec (some main) = (.ok 0, some main) ∧
        (patchDscMaxslide kernelRegionSize true force).exec (some main) = (.ok 0, some main) ∧
        (((sharedRegionSize main + maxSlide main : ℕ) : ℤ) ≤ kernelRegionSize ∨
          maxSlide main = 0)) ∨
      ((patchDscMaxslide kernelRegionSize false force).exec (some main) =
          (.ok 1, some (zeroed main)) ∧
        (patchDscMaxslide kernelRegionSize true force).exec (some main) = (.ok 1, some main)) := by
  rw [patch_hasHeader h, patch_hasHeader h]
  by_cases hkeep : (((sharedRegionSize main + maxSlide main : ℕ) : ℤ) ≤ kernelRegionSize ∧
      force = false) ∨ maxSlide main = 0
  · rw [if_pos hkeep, if_pos hkeep]
    exact .inl ⟨rfl, rfl, hkeep.imp_left And.left⟩
  · rw [if_neg hkeep, if_neg hkeep]
    exact .inr ⟨rfl, rfl⟩

theorem patch_again {main : Bytes} (h : HasHeader main) (kernelRegionSize : ℤ) (force : Bool) :
    (patchDscMaxslide kernelRegionSize false force).exec (some (zeroed main)) =
      (.ok 0, some (zeroed main)) := by
  rw [patch_hasHeader (h.zeroed h.2), if_pos (.inr (maxSlide_zeroed h.2))]

section Parts
variable {kernelRegionSize : ℤ} {force : Bool} {c c' : Chunk}

theorem clamps_of_returns {n : ℕ}
    (hrun : (patchDscMaxslide kernelRegionSize false force).exec c = (.ok n, c'))
    (hdry : (patchDscMaxslide kernelRegionSize true force).exec c = (.ok n, c))
    (hfits : FitsRegion kernelRegionSize c') (hframe : OnlyMaxSlide c c')
    (hagain : (patchDscMaxslide kernelRegionSize false force).exec c' = (.ok 0, c')) :
    Clamps kernelRegionSize force c where
  fits n' c'' hok := by
    obtain ⟨-, rfl⟩ := Prod.mk.inj (hrun.symm.trans hok)
    exact hfits
  frame := by
    rw [hrun]
    exact hframe
  again n' c'' hok := by
    obtain ⟨-, rfl⟩ := Prod.mk.inj (hrun.symm.trans hok)
    exact hagain
  dryRun := by rw [hrun, hdry]

theorem clamps_of_raises {e : DscError}
    (hraise : ∀ dryRun, (patchDscMaxslide kernelRegionSize dryRun force).exec c = (.error e, c)) :
    Clamps kernelRegionSize force c where
  fits n c'' hok := by
    rw [hraise] at hok
    cases hok
  frame := by
    rw [hraise]
    exact .inl rfl
  again n c'' hok := by
    rw [hraise] at hok
    cases hok
  dryRun := by rw [hraise, hraise]

end Parts

/-- The clamp does what it is for exactly if the cache fits the region at slide 0. -/
theorem clamps_iff (kernelRegionSize : ℤ) (force : Bool) (c : Chunk) :
    Clamps kernelRegionSize force c ↔
      ∀ main, c = some main → HasHeader main → (sharedRegionSize main : ℤ) ≤ kernelRegionSize := by
  constructor
  · rintro ⟨hfits, -, -, -⟩ main rfl h
    rcases patch_cases h kernelRegionSize force with ⟨hrun, -, -⟩ | ⟨hrun, -⟩
    · obtain ⟨main', hmain, hle⟩ := hfits _ _ hrun
      obtain rfl := Option.some.inj hmain
      push_cast at hle
      omega
    · obtain ⟨main', hmain, hle⟩ := hfits _ _ hrun
      obtain rfl := Option.some.inj hmain
      rw [sharedRegionSize_zeroed h.2, maxSlide_zeroed h.2] at hle
      exact hle
  · intro hslide
    by_cases hheader : ∃ main, c = some main ∧ HasHeader main
    · obtain ⟨main, rfl, h⟩ := hheader
      have hle := hslide main rfl h
      rcases patch_cases h kernelRegionSize force with ⟨hrun, hdry, hkeep⟩ | ⟨hrun, hdry⟩
      · refine clamps_of_returns hrun hdry ⟨main, rfl, ?_⟩ (.inl rfl) hrun
        rcases hkeep with hfit | hzero
        · exact hfit
        · rw [hzero]
          exact hle
      · refine clamps_of_returns hrun hdry ⟨zeroed main, rfl, ?_⟩ ?_
          (patch_again h kernelRegionSize force)
        · rw [sharedRegionSize_zeroed h.2, maxSlide_zeroed h.2]
          exact hle
        · exact .inr ⟨main, zeroed main, rfl, rfl, zeroed_length h.2, fun i => zeroed_getElem? h.2⟩
    · obtain ⟨e, hraise⟩ := patch_no_header fun main hmain h => hheader ⟨main, hmain, h⟩
      exact clamps_of_raises fun dryRun => hraise kernelRegionSize dryRun force

/-- A cache of 8 GiB with a slide of 512 MiB. -/
def wideCache : Bytes :=
  asciiBytes "dyld_v1" ++ List.replicate 225 0 ++ leBytes 8 0x200000000 ++ leBytes 8 0x20000000

/-- The slide is zeroed and the call returns 1, and the cache is still larger than the region. -/
theorem wide_cache_not_clamped :
    (patchDscMaxslide kernelSharedRegionSize false false).exec (some wideCache) =
        (.ok 1, some (zeroed wideCache)) ∧
      ¬ Clamps kernelSharedRegionSize false (some wideCache) := by
  have hheader : HasHeader wideCache := by decide +kernel
  have hrun : (patchDscMaxslide kernelSharedRegionSize false false).exec (some wideCache) =
      (.ok 1, some (zeroed wideCache)) := by
    rw [patch_hasHeader hheader, if_neg (by decide +kernel)]
    rfl
  refine ⟨hrun, fun hclamps => ?_⟩
  obtain ⟨main, hmain, hle⟩ := hclamps.fits _ _ hrun
  obtain rfl := Option.some.inj hmain
  rw [sharedRegionSize_zeroed hheader.2, maxSlide_zeroed hheader.2] at hle
  exact absurd hle (by decide +kernel)

end SecureWorld.Patcher
