import Mathlib.Tactic.IntervalCases
import SecureWorld.Foundations.GuardedCall
import SecureWorld.Foundations.WordBits
import SecureWorld.Kernelcache.SegmentMap
import SecureWorld.Patcher.Xref

/-! # Direct branches to an address (`rawbl.py`)

The scan decodes every word as B or BL and compares its target. It stops a word early: of the code
of a segment of whole words it never looks at the last.
-/
namespace SecureWorld.Kernelcache
open Foundations Foundations.GuardedCall Patcher
set_option autoImplicit false

/-! ## The scan -/

/-- The displacement of a branch in words. -/
def branchImm (w : BitVec 32) : ℤ :=
  let imm := w &&& 0x03FFFFFF
  if imm &&& 0x02000000 ≠ 0 then (imm.toNat : ℤ) - 0x04000000 else imm.toNat

structure BranchLine where
  pc : ℕ
  fo : ℕ
  isCall : Bool
deriving DecidableEq

def scanSegment (D : Bytes) (target : ℤ) (s : KcSegment) : List BranchLine :=
  let b := slice D s.fo (s.fo + s.fs)
  (rangeUp (b.length - 4) 4).filterMap fun i =>
    let w := wordAt b i
    let op := w &&& 0xFC000000
    if op = 0x94000000 ∨ op = 0x14000000 then
      let pc := s.vm + i
      let tgt : ℤ := pc + branchImm w * 4
      if tgt = target then some ⟨pc, s.fo + i, op = 0x94000000⟩ else none
    else none

def textExec : List Char := "__TEXT_EXEC".toList

/-- The segments of the file, without a look at its magic. -/
def fileSegments (D : Bytes) : Except KcError (List KcSegment) := do
  let ncmds ← readField D 16 4
  segmentsFrom D ncmds 32

def rawbl (D : Bytes) (target : ℤ) : Except KcError (List BranchLine) := do
  let segs ← fileSegments D
  return (segs.filter (·.name = textExec)).flatMap (scanSegment D target)

/-! ## Fields of a branch -/

theorem branchImm_eq (w : BitVec 32) : branchImm w = (w.extractLsb' 0 26).toInt := by
  have himm : (w &&& 0x03FFFFFF).toNat = (w.extractLsb' 0 26).toNat := by
    have h := and_toNat_mask w 0 26 (by decide)
    rwa [BitVec.ushiftRight_zero] at h
  have hbit : (w &&& 0x03FFFFFF) &&& 0x02000000 ≠ 0 ↔ (w.extractLsb' 0 26).msb = true := by
    have h := WordBits.and_bit_ne_zero_iff (w &&& 0x03FFFFFF) (b := 25) (by decide)
    have hmask : (0x03FFFFFF : BitVec 32).getLsbD 25 = true := by decide
    rw [BitVec.getLsbD_and, hmask, Bool.and_true] at h
    rw [BitVec.msb_eq_getLsbD_last, BitVec.getLsbD_extractLsb']
    exact h
  rw [branchImm, BitVec.toInt_eq_msb_cond, himm]
  exact if_congr hbit (by norm_num) rfl

theorem opcode_iff (w : BitVec 32) (op : BitVec 6) :
    w &&& 0xFC000000 = op ++ 0#26 ↔ w.extractLsb' 26 6 = op := by
  have hsplit : w &&& 0xFC000000 = w.extractLsb' 26 6 ++ 0#26 := by
    refine BitVec.eq_of_getLsbD_eq fun i hi => ?_
    rw [BitVec.getLsbD_and, BitVec.getLsbD_append, BitVec.getLsbD_extractLsb']
    interval_cases i <;> simp
  rw [hsplit]
  constructor
  · intro h
    have hhigh := congrArg (fun v => v.extractLsb' 26 6) h
    rwa [extract_high, extract_high] at hhigh
  · rintro rfl
    rfl

theorem branchImm_bounds (w : BitVec 32) : -2 ^ 25 ≤ branchImm w ∧ branchImm w < 2 ^ 25 := by
  have hlow := BitVec.le_two_mul_toInt (x := w.extractLsb' 0 26)
  have hhigh := BitVec.two_mul_toInt_lt (x := w.extractLsb' 0 26)
  rw [branchImm_eq]
  omega

/-- Where no target wraps around, the integers of the script are the addresses of the machine. -/
theorem target26_eq_iff (w : BitVec 32) {pc target : ℕ} (hlow : 2 ^ 27 ≤ pc)
    (hhigh : pc + 2 ^ 27 ≤ 2 ^ 64) (ht : target < 2 ^ 64) :
    (pc + branchImm w * 4 : ℤ) = target ↔
      target26 w (BitVec.ofNat 64 pc) = BitVec.ofNat 64 target := by
  have hbounds := branchImm_bounds w
  have hsum : target26 w (BitVec.ofNat 64 pc) = BitVec.ofInt 64 (pc + branchImm w * 4) := by
    rw [target26, signExtend_scaled, ← branchImm_eq, BitVec.ofInt_add, BitVec.ofInt_natCast,
      Int.mul_comm]
  rw [hsum, ← BitVec.ofInt_natCast]
  constructor
  · intro h
    rw [h]
  · intro h
    have hnat := congrArg BitVec.toNat h
    rw [BitVec.toNat_ofInt, BitVec.toNat_ofInt] at hnat
    omega

/-! ## What the scans list -/

/-- A BL, or a B, at `pc` to `target`. -/
def Branches (isCall : Bool) (w : BitVec 32) (pc target : ℕ) : Prop :=
  (if isCall then isBl w else isB w) = true ∧
    target26 w (BitVec.ofNat 64 pc) = BitVec.ofNat 64 target

/-- A processor that executes it is at the target. -/
theorem Branches.exec_iff {isCall : Bool} {w : BitVec 32} {pc target : ℕ}
    (h : Branches isCall w pc target) {ω : Type} (other : BitVec 32 → Cpu ω → Cpu ω → Prop)
    {s t : Cpu ω} (hs : s.pc = BitVec.ofNat 64 pc) : exec other w s t ↔
      t = (if isCall then s.link else s).jump (BitVec.ofNat 64 target) := by
  obtain ⟨hclass, htarget⟩ := h
  cases isCall with
  | true => rw [exec_of_isBl hclass, hs, htarget, if_pos rfl]
  | false =>
    rw [if_neg Bool.false_ne_true] at hclass ⊢
    rw [exec, if_pos hclass, hs, htarget]

theorem isBl_iff (w : BitVec 32) : w &&& 0xFC000000 = 0x94000000 ↔ isBl w = true := by
  rw [isBl, decide_eq_true_eq]
  exact opcode_iff w 0b100101#6

theorem isB_iff (w : BitVec 32) : w &&& 0xFC000000 = 0x14000000 ↔ isB w = true := by
  rw [isB, decide_eq_true_eq]
  exact opcode_iff w 0b000101#6

def codeSize (D : Bytes) (s : KcSegment) : ℕ := (slice D s.fo (s.fo + s.fs)).length

/-- The addresses of the code, with everything a branch reaches from it, do not wrap around. -/
def Addressed (s : KcSegment) : Prop := 2 ^ 27 ≤ s.vm ∧ s.vm + s.fs + 2 ^ 27 ≤ 2 ^ 64

theorem mem_scanSegment {D : Bytes} {s : KcSegment} (hs : Addressed s) {target : ℕ}
    (ht : target < 2 ^ 64) (l : BranchLine) :
    l ∈ scanSegment D target s ↔ ∃ k, 4 * k + 4 < codeSize D s ∧ l.pc = s.vm + 4 * k ∧
      l.fo = s.fo + 4 * k ∧ Branches l.isCall (wordAt D l.fo) l.pc target := by
  have hsize : codeSize D s ≤ s.fs := by
    rw [codeSize, slice_length]
    omega
  have hrange : ∀ k, 4 * k + 4 < codeSize D s →
      2 ^ 27 ≤ s.vm + 4 * k ∧ s.vm + 4 * k + 2 ^ 27 ≤ 2 ^ 64 := fun k hk => by
    obtain ⟨hlow, hhigh⟩ := hs
    omega
  rw [scanSegment, List.mem_filterMap]
  constructor
  · rintro ⟨i, hi, hline⟩
    obtain ⟨hlt, k, rfl⟩ := (mem_rangeUp (by decide)).mp hi
    have hk : 4 * k + 4 < codeSize D s := by rw [codeSize]; omega
    obtain ⟨hlow, hhigh⟩ := hrange k hk
    rw [Nat.mul_comm k 4] at hline
    rw [wordAt_slice (show 4 * k + 4 ≤ _ from hk.le), Option.ite_none_right_eq_some] at hline
    obtain ⟨hop, hline⟩ := hline
    rw [Option.ite_none_right_eq_some, Option.some_inj] at hline
    obtain ⟨htarget, rfl⟩ := hline
    have hgoes := (target26_eq_iff _ hlow hhigh ht).mp htarget
    refine ⟨k, hk, rfl, rfl, ?_, hgoes⟩
    rcases hop with hbl | hb
    · rw [if_pos (decide_eq_true hbl)]
      exact (isBl_iff _).mp hbl
    · have hne : ¬ (0x14000000 : BitVec 32) = 0x94000000 := by decide
      rw [if_neg fun hbl => hne (hb.symm.trans (of_decide_eq_true hbl))]
      exact (isB_iff _).mp hb
  · rintro ⟨k, hk, hpc, hfo, hclass, hgoes⟩
    obtain ⟨hlow, hhigh⟩ := hrange k hk
    rw [hpc] at hgoes
    refine ⟨4 * k, (mem_rangeUp (by decide)).mpr ⟨?_, k, Nat.mul_comm 4 k⟩, ?_⟩
    · rw [codeSize] at hk
      omega
    · have htarget := (target26_eq_iff _ hlow hhigh ht).mpr hgoes
      rw [wordAt_slice (show 4 * k + 4 ≤ _ from hk.le), ← hfo]
      obtain ⟨pc, fo, isCall⟩ := l
      dsimp only at hpc hfo hclass htarget ⊢
      subst hpc
      cases isCall with
      | true =>
        have hop := (isBl_iff _).mpr hclass
        rw [if_pos (.inl hop), if_pos htarget, hop, hfo]
        rfl
      | false =>
        rw [if_neg Bool.false_ne_true] at hclass
        have hop := (isB_iff _).mpr hclass
        rw [if_pos (.inr hop), if_pos htarget, hop, hfo]
        rfl

theorem rawbl_lists_iff (D : Bytes) (target : ℕ) (segs : List KcSegment)
    (hsegs : fileSegments D = .ok segs) (hrange : ∀ s ∈ segs, s.name = textExec → Addressed s)
    (ht : target < 2 ^ 64) : ∃ lines, rawbl D target = .ok lines ∧
      (∀ l, l ∈ lines ↔ ∃ s ∈ segs, s.name = textExec ∧ ∃ k, 4 * k + 4 < codeSize D s ∧
        l.pc = s.vm + 4 * k ∧ l.fo = s.fo + 4 * k ∧
          Branches l.isCall (wordAt D l.fo) l.pc target) ∧
      ∀ l ∈ lines, ∀ {ω : Type} (other : BitVec 32 → Cpu ω → Cpu ω → Prop) (s t : Cpu ω),
        s.pc = BitVec.ofNat 64 l.pc → (exec other (wordAt D l.fo) s t ↔
          t = (if l.isCall then s.link else s).jump (BitVec.ofNat 64 target)) := by
  have hiff : ∀ l, l ∈ (segs.filter (·.name = textExec)).flatMap (scanSegment D target) ↔
      ∃ s ∈ segs, s.name = textExec ∧ ∃ k, 4 * k + 4 < codeSize D s ∧
        l.pc = s.vm + 4 * k ∧ l.fo = s.fo + 4 * k ∧
          Branches l.isCall (wordAt D l.fo) l.pc target := fun l => by
    rw [List.mem_flatMap]
    constructor
    · rintro ⟨s, hs, hl⟩
      obtain ⟨hmem, hname⟩ := List.mem_filter.mp hs
      rw [decide_eq_true_eq] at hname
      exact ⟨s, hmem, hname, (mem_scanSegment (hrange s hmem hname) ht l).mp hl⟩
    · rintro ⟨s, hmem, hname, hl⟩
      exact ⟨s, List.mem_filter.mpr ⟨hmem, decide_eq_true hname⟩,
        (mem_scanSegment (hrange s hmem hname) ht l).mpr hl⟩
  refine ⟨_, by rw [rawbl, hsegs]; rfl, hiff, fun l hl ω other s t hs => ?_⟩
  obtain ⟨-, -, -, -, -, -, -, hbranch⟩ := (hiff l).mp hl
  exact hbranch.exec_iff other hs

/-- Code of four words at 2^27, whose first and last branch to the third. -/
def branchImage : Bytes :=
  List.replicate 16 0 ++ leBytes 4 1 ++ List.replicate 12 0 ++
    (leBytes 4 0x19 ++ leBytes 4 72 ++ encodeUtf8 textExec ++ List.replicate 5 0 ++
      leBytes 8 0x8000000 ++ leBytes 8 16 ++ leBytes 8 104 ++ leBytes 8 16 ++
      List.replicate 16 0) ++
    [0x94000002, 0xD503201F, 0xD503201F, 0x17FFFFFF].flatMap (leBytes 4)

def branchSegments : List KcSegment := [⟨textExec, 0x8000000, 16, 104, 16⟩]

theorem rawbl_lists_iff_first :
    rawbl branchImage 0x8000008 = .ok [⟨0x8000000, 104, true⟩] ∧
      ∃ lines, rawbl branchImage (0x8000008 : ℕ) = .ok lines ∧
        (∀ l, l ∈ lines ↔ ∃ s ∈ branchSegments, s.name = textExec ∧ ∃ k,
          4 * k + 4 < codeSize branchImage s ∧ l.pc = s.vm + 4 * k ∧ l.fo = s.fo + 4 * k ∧
            Branches l.isCall (wordAt branchImage l.fo) l.pc 0x8000008) ∧
        ∀ l ∈ lines, ∀ {ω : Type} (other : BitVec 32 → Cpu ω → Cpu ω → Prop) (s t : Cpu ω),
          s.pc = BitVec.ofNat 64 l.pc → (exec other (wordAt branchImage l.fo) s t ↔
            t = (if l.isCall then s.link else s).jump (BitVec.ofNat 64 0x8000008)) :=
  ⟨by decide +kernel, rawbl_lists_iff branchImage 0x8000008 branchSegments (by decide +kernel)
    (fun s hs _ => by
      obtain rfl := List.mem_singleton.mp hs
      exact ⟨by decide, by decide⟩)
    (by decide)⟩

end SecureWorld.Kernelcache
