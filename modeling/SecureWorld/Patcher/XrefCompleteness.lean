import SecureWorld.Patcher.Xref
import Mathlib.Data.Nat.Find

/-! # What the cross-reference finder misses

The loop of `_find_adrp_add_xref` ends before offset `len(code) - 8`, so it never looks at a pair in
the last two instruction slots of a segment.
-/
namespace SecureWorld.Patcher
open Foundations Armv8
set_option autoImplicit false

/-! ## Pairs that form the address -/

/-- At `i` in the code: ADRP, then ADD of an unshifted immediate to the register ADRP wrote, which
form the string's address. -/
structure AddressPair (data : Bytes) (execVmaddr execFileoff strVmaddr i : ℕ) : Prop where
  adrp : wordAt data (execFileoff + i) &&& 0x9F000000 = 0x90000000
  add : wordAt data (execFileoff + i + 4) &&& 0xFFC00000 = 0x91000000
  base : rnOf (wordAt data (execFileoff + i + 4)) = rdOf (wordAt data (execFileoff + i))
  address : Materialises data execVmaddr execFileoff strVmaddr (execFileoff + i)

/-- Anywhere in the segment, the last two slots included. -/
def HasPair (data : Bytes) (execVmaddr execFileoff execFilesize strVmaddr : ℕ) : Prop :=
  ∃ i, i % 4 = 0 ∧ i + 8 ≤ codeLength data execFileoff execFilesize ∧
    AddressPair data execVmaddr execFileoff strVmaddr i

/-- The finder's own condition holds before the last two slots. -/
def MatchesEarly (data : Bytes) (execVmaddr execFileoff execFilesize strVmaddr : ℕ) : Prop :=
  ∃ i, i % 4 = 0 ∧ i + 8 < codeLength data execFileoff execFilesize ∧
    MatchAt data execVmaddr execFileoff strVmaddr i

/-- The string and the page ADRP reaches from `i` lie in the 64-bit address space. -/
structure NoWrap (data : Bytes) (execVmaddr execFileoff strVmaddr i : ℕ) : Prop where
  str : strVmaddr < 2 ^ 64
  low : 0 ≤ clearPageOff (execVmaddr + i) + adrpImm (wordAt data (execFileoff + i))
  high : clearPageOff (execVmaddr + i) + adrpImm (wordAt data (execFileoff + i)) < 2 ^ 64

def FindsLowest (result : Except PyError (Option ℕ))
    (data : Bytes) (execVmaddr execFileoff strVmaddr : ℕ) : Prop :=
  ∃ i, i % 4 = 0 ∧ MatchAt data execVmaddr execFileoff strVmaddr i ∧
    (∀ j < i, j % 4 = 0 → ¬ MatchAt data execVmaddr execFileoff strVmaddr j) ∧
    result = .ok (some (execFileoff + i))

theorem findsLowest_iff_matchesEarly (data : Bytes)
    (execVmaddr execFileoff execFilesize strVmaddr : ℕ) :
    FindsLowest (findAdrpAddXref data execVmaddr execFileoff execFilesize strVmaddr)
        data execVmaddr execFileoff strVmaddr ↔
      MatchesEarly data execVmaddr execFileoff execFilesize strVmaddr := by
  classical
  constructor
  · rintro ⟨i, hi, hm, -, hfound⟩
    obtain ⟨i', ho, hlt, -⟩ := findAdrpAddXref_some hfound
    obtain rfl : i = i' := Nat.add_left_cancel ho
    exact ⟨i, hi, hlt, hm⟩
  · intro hearly
    -- the least match is before the last slots too, and the search stops there
    obtain ⟨hi, hlt, hm⟩ := Nat.find_spec hearly
    have hleast : ∀ j < Nat.find hearly, j % 4 = 0 →
        ¬ MatchAt data execVmaddr execFileoff strVmaddr j := by
      intro j hj hj4 hjm
      exact Nat.find_min hearly hj ⟨hj4, by omega, hjm⟩
    refine ⟨Nat.find hearly, hi, hm, hleast, ?_⟩
    rw [findAdrpAddXref_eq]
    refine congrArg Except.ok ((findSome?_rangeUp (by decide) _ _).mpr ⟨_, ?_, if_pos hm, ?_⟩)
    · exact (mem_rangeUp (by decide)).mpr ⟨by omega, Nat.find hearly / 4, by omega⟩
    · intro j hj hjlt
      obtain ⟨k, hk⟩ := ((mem_rangeUp (by decide)).mp hj).2
      exact if_neg (hleast j hjlt (by omega))

theorem AddressPair.sum {data : Bytes} {execVmaddr execFileoff strVmaddr i : ℕ}
    (h : AddressPair data execVmaddr execFileoff strVmaddr i) :
    pageOf (BitVec.ofNat 64 (execVmaddr + i)) +
        (((wordAt data (execFileoff + i)).extractLsb' 5 19 ++
          (wordAt data (execFileoff + i)).extractLsb' 29 2) ++ 0#12).signExtend 64 +
        ((wordAt data (execFileoff + i + 4)).extractLsb' 10 12).setWidth 64 =
      BitVec.ofNat 64 strVmaddr := by
  obtain ⟨hadrp, hadd, hbase, hrun⟩ := h
  rw [Materialises, Nat.add_sub_cancel_left] at hrun
  by_cases hzr : rdOf (wordAt data (execFileoff + i)) = 31
  · -- ADD from the stack pointer: runs from two of them cannot both form the address
    have hrun' := fun sp : BitVec 64 => hrun ⟨fun _ => sp, BitVec.ofNat 64 (execVmaddr + i)⟩ rfl
    simp only [runWords_pair hadrp hadd,
      if_neg fun hc : _ ∧ rdOf (wordAt data (execFileoff + i)) ≠ 31 => hc.2 hzr,
      Option.some.injEq] at hrun'
    have hzero := hrun' 0
    have hone := hrun' 1
    bv_omega
  · have hzero := hrun ⟨fun _ => 0, BitVec.ofNat 64 (execVmaddr + i)⟩ rfl
    rw [runWords_pair hadrp hadd, if_pos ⟨hbase, hzr⟩] at hzero
    exact Option.some.inj hzero

theorem adrpImm_pages (w : BitVec 32) : ∃ k : ℤ, adrpImm w = 4096 * k := by
  rw [adrpImm_eq]
  refine ⟨((w.extractLsb' 5 19 ++ w.extractLsb' 29 2) ++ 0#12).toInt / 4096, ?_⟩
  rw [BitVec.toInt_eq_toNat_cond, BitVec.toNat_append, Nat.shiftLeft_eq]
  simp only [BitVec.toNat_ofNat, Nat.zero_mod, Nat.or_zero]
  split_ifs <;> omega

/-- A pair that forms the address inside the 64-bit address space passes the finder's tests: only
the loop bound can hide it. -/
theorem AddressPair.matchAt {data : Bytes} {execVmaddr execFileoff strVmaddr i : ℕ}
    (h : AddressPair data execVmaddr execFileoff strVmaddr i)
    (hreach : NoWrap data execVmaddr execFileoff strVmaddr i) :
    MatchAt data execVmaddr execFileoff strVmaddr i := by
  obtain ⟨hstr, hlow, hhigh⟩ := hreach
  have hsum := h.sum
  obtain ⟨hadrp, hadd, -, -⟩ := h
  revert hadrp hadd hsum hlow hhigh
  rw [MatchAt]
  generalize wordAt data (execFileoff + i) = a
  generalize wordAt data (execFileoff + i + 4) = b
  generalize execVmaddr + i = pc
  intro hlow hhigh hsum hadrp hadd
  have hoff : (addImm b).toNat = (b.extractLsb' 10 12).toNat := and_toNat_mask b 10 12 (by decide)
  have hofflt := (b.extractLsb' 10 12).isLt
  have hcast : BitVec.ofInt 64 (clearPageOff pc + adrpImm a + (addImm b).toNat) =
      BitVec.ofInt 64 strVmaddr := by
    rw [BitVec.ofInt_add, BitVec.ofInt_add, BitVec.ofInt_natCast, BitVec.ofInt_natCast,
      BitVec.ofInt_natCast, ← hsum, pageOf_ofNat, hoff, BitVec.ofNat_toNat, BitVec.signExtend,
      ← adrpImm_eq]
    rfl
  have hmod := congrArg BitVec.toNat hcast
  rw [BitVec.toNat_ofInt, BitVec.toNat_ofInt] at hmod
  obtain ⟨k, hk⟩ := adrpImm_pages a
  have hpage : clearPageOff pc % 4096 = 0 := by
    rw [clearPageOff]
    omega
  have hexact : clearPageOff pc + adrpImm a + (addImm b).toNat = (strVmaddr : ℤ) := by
    omega
  refine ⟨hadrp, hadd, ?_, ?_⟩
  · rw [clearPageOff] at hpage hexact ⊢
    rw [clearPageOff]
    omega
  · omega

/-! ## Completeness up to the last two slots -/

/-- With an address pair in the segment both finders find the lowest match exactly if there is a
match before the last two slots; an address pair before them is one. -/
theorem finds_pair_iff_matchesEarly (data : Bytes)
    (execVmaddr execFileoff execFilesize strVmaddr : ℕ) :
    ((HasPair data execVmaddr execFileoff execFilesize strVmaddr →
        FindsLowest (findAdrpAddXref data execVmaddr execFileoff execFilesize strVmaddr)
          data execVmaddr execFileoff strVmaddr) ↔
      (HasPair data execVmaddr execFileoff execFilesize strVmaddr →
        MatchesEarly data execVmaddr execFileoff execFilesize strVmaddr)) ∧
    ((HasPair data execVmaddr execFileoff execFilesize strVmaddr →
        FindsLowest (findAdrpAddXrefShort data execVmaddr execFileoff execFilesize strVmaddr)
          data execVmaddr execFileoff strVmaddr) ↔
      (HasPair data execVmaddr execFileoff execFilesize strVmaddr →
        MatchesEarly data execVmaddr execFileoff execFilesize strVmaddr)) ∧
    ∀ i, i % 4 = 0 ∧ i + 8 < codeLength data execFileoff execFilesize ∧
      AddressPair data execVmaddr execFileoff strVmaddr i ∧
      NoWrap data execVmaddr execFileoff strVmaddr i →
        MatchesEarly data execVmaddr execFileoff execFilesize strVmaddr := by
  rw [findAdrpAddXrefShort_eq, findsLowest_iff_matchesEarly]
  refine ⟨Iff.rfl, Iff.rfl, ?_⟩
  rintro i ⟨hi, hlt, hpair, hreach⟩
  exact ⟨i, hi, hlt, hpair.matchAt hreach⟩

/-- `adrp x0, 0x4000; add x0, x0, #0x10`: a segment at 0x4000 that is nothing but the pair. -/
def pairSegment : Bytes := [0, 0, 0, 0x90, 0, 0x40, 0, 0x91]

theorem pairSegment_pair : AddressPair pairSegment 0x4000 0 0x4010 0 where
  adrp := by decide
  add := by decide
  base := by decide
  address := (pair_materialises_iff (by decide) (by decide) (by decide)).mpr (by decide)

/-- The pair fills the last two slots, and the finder answers -1. -/
theorem pair_in_last_slots_missed :
    HasPair pairSegment 0x4000 0 8 0x4010 ∧
      findAdrpAddXref pairSegment 0x4000 0 8 0x4010 = .ok none ∧
      findAdrpAddXrefShort pairSegment 0x4000 0 8 0x4010 = .ok none :=
  ⟨⟨0, by decide, by decide, pairSegment_pair⟩, by decide, by decide⟩

end SecureWorld.Patcher
