import Mathlib.Data.Nat.Bitwise
import SecureWorld.Foundations.Armv8
import SecureWorld.Patcher.PyBytes

/-! # Cross references by ADRP and ADD (`_find_adrp_add_xref`)

The finder matches raw words: an ADRP whose page is the string's page, then an ADD whose immediate
is the string's offset in the page. Addresses are unbounded integers, as in the script; `none` is
its -1.
-/
namespace SecureWorld.Patcher
open Foundations Armv8
set_option autoImplicit false

/-- `n & ~0xFFF` -/
def clearPageOff (n : ℕ) : ℕ := n - n % 0x1000

/-- The signed byte distance in an ADRP word. -/
def adrpImm (insnA : BitVec 32) : ℤ :=
  let immhi := ((insnA >>> 5) &&& 0x7FFFF).toNat
  let immlo := ((insnA >>> 29) &&& 0x3).toNat
  let imm := immhi <<< 14 ||| immlo <<< 12
  if imm &&& 1 <<< 32 ≠ 0 then (imm : ℤ) - (1 <<< 33 : ℕ) else imm

def addImm (insnB : BitVec 32) : BitVec 32 := (insnB >>> 10) &&& 0xFFF

def findAdrpAddXref (data : Bytes) (execVmaddr execFileoff execFilesize strVmaddr : ℕ) :
    Except PyError (Option ℕ) :=
  let targetPage := clearPageOff strVmaddr
  let targetPageoff := strVmaddr % 0x1000
  let code := slice data execFileoff (execFileoff + execFilesize)
  (rangeUp (code.length - 8) 4).findSomeM? fun i => do
    let insnA ← unpackI code i
    let insnB ← unpackI code (i + 4)
    if insnA &&& 0x9F000000 ≠ 0x90000000 then return none
    if insnB &&& 0xFFC00000 ≠ 0x91000000 then return none
    let pc := execVmaddr + i
    let page := clearPageOff pc + adrpImm insnA
    if page = targetPage ∧ (addImm insnB).toNat = targetPageoff then return some (execFileoff + i)
    return none

/-- The finder of `darwinvm_stub_fn_by_string.py` and of the probes. -/
def findAdrpAddXrefShort (data : Bytes) (ev ef efs strVa : ℕ) : Except PyError (Option ℕ) :=
  let tp := clearPageOff strVa
  let tpoff := strVa % 0x1000
  let code := slice data ef (ef + efs)
  (rangeUp (code.length - 8) 4).findSomeM? fun i => do
    let a ← unpackI code i
    let b ← unpackI code (i + 4)
    if a &&& 0x9F000000 ≠ 0x90000000 ∨ b &&& 0xFFC00000 ≠ 0x91000000 then return none
    let pc := ev + i
    if clearPageOff pc + adrpImm a = tp ∧ (addImm b).toNat = tpoff then return some (ef + i)
    return none

/-! ## What a match is -/

/-- The words `insnA`, `insnB` at `pc` pass every test of the finder. -/
structure Matches (pc strVmaddr : ℕ) (insnA insnB : BitVec 32) : Prop where
  adrp : insnA &&& 0x9F000000 = 0x90000000
  add : insnB &&& 0xFFC00000 = 0x91000000
  page : clearPageOff pc + adrpImm insnA = clearPageOff strVmaddr
  pageoff : (addImm insnB).toNat = strVmaddr % 0x1000

instance (pc strVmaddr : ℕ) (insnA insnB : BitVec 32) :
    Decidable (Matches pc strVmaddr insnA insnB) :=
  decidable_of_iff (insnA &&& 0x9F000000 = 0x90000000 ∧ insnB &&& 0xFFC00000 = 0x91000000 ∧
      clearPageOff pc + adrpImm insnA = clearPageOff strVmaddr ∧
      (addImm insnB).toNat = strVmaddr % 0x1000)
    ⟨fun h => ⟨h.1, h.2.1, h.2.2.1, h.2.2.2⟩, fun h => ⟨h.adrp, h.add, h.page, h.pageoff⟩⟩

/-- The offsets in the code where the finder looks, and where a pair matches. -/
def MatchAt (data : Bytes) (execVmaddr execFileoff strVmaddr i : ℕ) : Prop :=
  Matches (execVmaddr + i) strVmaddr (wordAt data (execFileoff + i))
    (wordAt data (execFileoff + i + 4))

instance (data : Bytes) (execVmaddr execFileoff strVmaddr i : ℕ) :
    Decidable (MatchAt data execVmaddr execFileoff strVmaddr i) :=
  inferInstanceAs (Decidable (Matches _ _ _ _))

def codeLength (data : Bytes) (execFileoff execFilesize : ℕ) : ℕ :=
  (slice data execFileoff (execFileoff + execFilesize)).length

theorem codeLength_le (data : Bytes) (execFileoff execFilesize : ℕ) :
    execFileoff + codeLength data execFileoff execFilesize ≤ max execFileoff data.length := by
  rw [codeLength, slice_length]
  omega

/-- The finder never raises: it is a search for the first match. -/
theorem findAdrpAddXref_eq (data : Bytes) (execVmaddr execFileoff execFilesize strVmaddr : ℕ) :
    findAdrpAddXref data execVmaddr execFileoff execFilesize strVmaddr =
      .ok ((rangeUp (codeLength data execFileoff execFilesize - 8) 4).findSome? fun i =>
        if MatchAt data execVmaddr execFileoff strVmaddr i then some (execFileoff + i)
        else none) := by
  refine findSomeM?_eq_ok fun i hi => ?_
  have hlt : i < codeLength data execFileoff execFilesize - 8 :=
    ((mem_rangeUp (by decide)).mp hi).1
  rw [codeLength] at hlt
  have ha : i + 4 ≤ (slice data execFileoff (execFileoff + execFilesize)).length := by omega
  have hb : i + 4 + 4 ≤ (slice data execFileoff (execFileoff + execFilesize)).length := by omega
  simp only [unpackI_ok ha, unpackI_ok hb, wordAt_slice ha, wordAt_slice hb, ← Nat.add_assoc,
    bind, Except.bind, pure, Except.pure]
  by_cases hm : MatchAt data execVmaddr execFileoff strVmaddr i
  · rw [if_pos hm, if_neg (not_not.mpr hm.adrp), if_neg (not_not.mpr hm.add),
      if_pos ⟨hm.page, hm.pageoff⟩]
  · rw [if_neg hm]
    split_ifs with hadrp hadd hpair
    · rfl
    · rfl
    · exact absurd ⟨not_not.mp hadrp, not_not.mp hadd, hpair.1, hpair.2⟩ hm
    · rfl

theorem findAdrpAddXrefShort_eq (data : Bytes) (ev ef efs strVa : ℕ) :
    findAdrpAddXrefShort data ev ef efs strVa = findAdrpAddXref data ev ef efs strVa := by
  unfold findAdrpAddXrefShort findAdrpAddXref
  dsimp only
  congr 1
  funext i
  refine bind_congr fun a => bind_congr fun b => ?_
  by_cases ha : a &&& 0x9F000000 = 0x90000000
  · rw [if_neg (not_not.mpr ha)]
    exact if_congr (or_iff_right (not_not.mpr ha)) rfl rfl
  · rw [if_pos ha, if_pos (.inl ha)]

/-- A reported offset is that of a matching pair inside the code. -/
theorem findAdrpAddXref_some {data : Bytes} {execVmaddr execFileoff execFilesize strVmaddr o : ℕ}
    (h : findAdrpAddXref data execVmaddr execFileoff execFilesize strVmaddr = .ok (some o)) :
    ∃ i, o = execFileoff + i ∧ i + 8 < codeLength data execFileoff execFilesize ∧
      MatchAt data execVmaddr execFileoff strVmaddr i := by
  rw [findAdrpAddXref_eq] at h
  obtain ⟨i, hi, hsome⟩ := List.exists_of_findSome?_eq_some (Except.ok.inj h)
  have hlt := ((mem_rangeUp (by decide)).mp hi).1
  split_ifs at hsome with hm
  exact ⟨i, (Option.some.inj hsome).symm, by omega, hm⟩

/-! ## What a matching pair computes -/

theorem and_toNat_mask (w : BitVec 32) (s k : ℕ) (hk : k < 32) :
    ((w >>> s) &&& BitVec.ofNat 32 (2 ^ k - 1)).toNat = (w.extractLsb' s k).toNat := by
  have hpow : 2 ^ k < 2 ^ 32 := Nat.pow_lt_pow_right (by decide) hk
  rw [BitVec.toNat_and, BitVec.toNat_ofNat, BitVec.toNat_ushiftRight, BitVec.extractLsb'_toNat,
    Nat.mod_eq_of_lt (by omega), Nat.and_two_pow_sub_one_eq_mod]

theorem and_bit_ne_zero_iff {n k : ℕ} (h : n < 2 ^ (k + 1)) : n &&& 1 <<< k ≠ 0 ↔ 2 ^ k ≤ n := by
  rw [Nat.one_shiftLeft, Nat.and_two_pow, Nat.testBit_eq_decide_div_mod_eq]
  rw [pow_succ] at h
  have hdiv : n / 2 ^ k % 2 = 1 ↔ 2 ^ k ≤ n := by
    rw [Nat.mod_eq_of_lt (Nat.div_lt_of_lt_mul h)]
    constructor
    · intro h1
      by_contra hlt
      rw [Nat.div_eq_of_lt (Nat.lt_of_not_le hlt)] at h1
      exact Nat.zero_ne_one h1
    · intro hle
      have := Nat.div_pos hle (Nat.two_pow_pos k)
      have := Nat.div_lt_of_lt_mul h
      omega
  by_cases hle : 2 ^ k ≤ n
  · simp [hdiv.mpr hle, hle]
  · simp [mt hdiv.mp hle, hle]

/-- The finder's arithmetic on the split immediate is the sign extension of the 33 bits. -/
theorem adrpImm_eq (w : BitVec 32) :
    adrpImm w = ((w.extractLsb' 5 19 ++ w.extractLsb' 29 2) ++ 0#12).toInt := by
  have hhi : ((w >>> 5) &&& 0x7FFFF).toNat = (w.extractLsb' 5 19).toNat :=
    and_toNat_mask w 5 19 (by decide)
  have hlo : ((w >>> 29) &&& 0x3).toNat = (w.extractLsb' 29 2).toNat :=
    and_toNat_mask w 29 2 (by decide)
  rw [adrpImm, hhi, hlo]
  generalize w.extractLsb' 5 19 = hi
  generalize w.extractLsb' 29 2 = lo
  have hi_lt := hi.isLt
  have lo_lt := lo.isLt
  have hsum : hi.toNat <<< 14 ||| lo.toNat <<< 12 = (hi.toNat * 4 + lo.toNat) * 4096 := by
    rw [← Nat.shiftLeft_add_eq_or_of_lt (by rw [Nat.shiftLeft_eq]; omega), Nat.shiftLeft_eq,
      Nat.shiftLeft_eq]
    omega
  have hcat : ((hi ++ lo) ++ 0#12).toNat = (hi.toNat * 4 + lo.toNat) * 4096 := by
    rw [BitVec.toNat_append, BitVec.toNat_append, ← Nat.shiftLeft_add_eq_or_of_lt lo_lt,
      BitVec.toNat_ofNat, Nat.zero_mod, Nat.or_zero, Nat.shiftLeft_eq, Nat.shiftLeft_eq]
  have hbit : ((hi.toNat * 4 + lo.toNat) * 4096 &&& 1 <<< 32 ≠ 0) ↔
      2 ^ 32 ≤ (hi.toNat * 4 + lo.toNat) * 4096 := and_bit_ne_zero_iff (by omega)
  simp only [hsum, hbit]
  rw [BitVec.toInt_eq_toNat_cond, hcat, Nat.one_shiftLeft]
  split_ifs <;> omega

/-- A matching pair forms the string's address, provided ADD starts from the page. -/
theorem Matches.address {pc strVmaddr : ℕ} {a b : BitVec 32} (h : Matches pc strVmaddr a b) :
    pageOf (BitVec.ofNat 64 pc) +
        ((a.extractLsb' 5 19 ++ a.extractLsb' 29 2) ++ 0#12).signExtend 64 +
        (b.extractLsb' 10 12).setWidth 64 = BitVec.ofNat 64 strVmaddr := by
  have hoff : (b.extractLsb' 10 12).toNat = strVmaddr % 0x1000 := by
    rw [← and_toNat_mask b 10 12 (by decide)]
    exact h.pageoff
  have hsum : (clearPageOff pc : ℤ) + adrpImm a + (strVmaddr % 0x1000 : ℕ) = strVmaddr := by
    rw [h.page, clearPageOff]
    omega
  calc _ = BitVec.ofInt 64 (clearPageOff pc) + BitVec.ofInt 64 (adrpImm a) +
          BitVec.ofInt 64 (strVmaddr % 0x1000 : ℕ) := by
        rw [pageOf_ofNat, BitVec.signExtend, ← adrpImm_eq, ← hoff, BitVec.ofInt_natCast,
          BitVec.ofInt_natCast, BitVec.ofNat_toNat]
        rfl
    _ = BitVec.ofInt 64 strVmaddr := by rw [← BitVec.ofInt_add, ← BitVec.ofInt_add, hsum]
    _ = BitVec.ofNat 64 strVmaddr := BitVec.ofInt_natCast 64 strVmaddr

/-! ## Soundness -/

/-- The pair at `o`, run at its virtual address from any registers, leaves the string's address in
the destination of ADD. -/
def Materialises (data : Bytes) (execVmaddr execFileoff strVmaddr o : ℕ) : Prop :=
  ∀ s : ArmState, s.pc = BitVec.ofNat 64 (execVmaddr + (o - execFileoff)) →
    (runWords s [wordAt data o, wordAt data (o + 4)]).map
      (fun s' => s'.x (rdOf (wordAt data (o + 4)))) = some (BitVec.ofNat 64 strVmaddr)

/-- A reported pair materialises the address iff ADD's base is the register ADRP wrote. -/
theorem xref_materialises_iff {data : Bytes} {execVmaddr execFileoff execFilesize strVmaddr o : ℕ}
    (h : findAdrpAddXref data execVmaddr execFileoff execFilesize strVmaddr = .ok (some o) ∨
      findAdrpAddXrefShort data execVmaddr execFileoff execFilesize strVmaddr = .ok (some o)) :
    Materialises data execVmaddr execFileoff strVmaddr o ↔
      rnOf (wordAt data (o + 4)) = rdOf (wordAt data o) ∧ rdOf (wordAt data o) ≠ 31 := by
  rw [findAdrpAddXrefShort_eq, or_self] at h
  obtain ⟨i, rfl, -, hm⟩ := findAdrpAddXref_some h
  rw [Materialises, Nat.add_sub_cancel_left]
  exact pair_materialises_iff hm.adrp hm.add hm.address

/-- `adrp x0, 0x4000; add x0, x0, #0x10` in a segment at 0x4000. -/
theorem sound_pair_materialises :
    Materialises [0, 0, 0, 0x90, 0, 0x40, 0, 0x91, 0, 0, 0, 0] 0x4000 0 0x4010 0 ↔
      rnOf (wordAt [0, 0, 0, 0x90, 0, 0x40, 0, 0x91, 0, 0, 0, 0] 4) =
          rdOf (wordAt [0, 0, 0, 0x90, 0, 0x40, 0, 0x91, 0, 0, 0, 0] 0) ∧
        rdOf (wordAt [0, 0, 0, 0x90, 0, 0x40, 0, 0x91, 0, 0, 0, 0] 0) ≠ 31 :=
  xref_materialises_iff (.inl (by decide : findAdrpAddXref
    [0, 0, 0, 0x90, 0, 0x40, 0, 0x91, 0, 0, 0, 0] 0x4000 0 12 0x4010 = .ok (some 0)))

/-- `adrp x0, 0x4000; add x1, x2, #0x10` is reported too, and leaves `x2 + 0x10`. -/
theorem unrelated_pair_reported :
    ¬ ∀ (data : Bytes) (execVmaddr execFileoff execFilesize strVmaddr o : ℕ),
      findAdrpAddXref data execVmaddr execFileoff execFilesize strVmaddr = .ok (some o) →
        Materialises data execVmaddr execFileoff strVmaddr o := by
  intro h
  have hm := h [0, 0, 0, 0x90, 0x41, 0x40, 0, 0x91, 0, 0, 0, 0] 0x4000 0 12 0x4010 0 (by decide)
    ⟨fun _ => 0, 0x4000⟩ rfl
  exact absurd hm (by decide)

end SecureWorld.Patcher
