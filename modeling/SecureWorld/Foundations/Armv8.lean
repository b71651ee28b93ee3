import Mathlib.Logic.Function.Basic
import Mathlib.Data.Nat.Notation

/-! # ADRP and ADD (immediate) of the A64 instruction set

Two instructions that together form an address: ADRP puts a page near the PC into a register, ADD
adds the offset in the page. Register number 31 is the zero register for ADRP and the stack
pointer for ADD. Of the branches that test a register only the target is described.
-/
namespace SecureWorld.Foundations.Armv8
set_option autoImplicit false

/-- The registers by number, with the stack pointer under 31, and the program counter. -/
structure ArmState where
  x : BitVec 5 → BitVec 64
  pc : BitVec 64

inductive Insn
  | adrp (rd : BitVec 5) (imm : BitVec 21)
  | addImm (rd rn : BitVec 5) (imm12 : BitVec 12) (sh : Bool)
deriving DecidableEq

def rdOf (w : BitVec 32) : BitVec 5 := w.extractLsb' 0 5

def rnOf (w : BitVec 32) : BitVec 5 := w.extractLsb' 5 5

def decode (w : BitVec 32) : Option Insn :=
  if w &&& 0x9F000000 = 0x90000000 then
    some (.adrp (rdOf w) (w.extractLsb' 5 19 ++ w.extractLsb' 29 2))
  else if w &&& 0xFF800000 = 0x91000000 then
    some (.addImm (rdOf w) (rnOf w) (w.extractLsb' 10 12) (w.getLsbD 22))
  else none

def pageOf (a : BitVec 64) : BitVec 64 := a &&& ~~~0xFFF

def exec : Insn → ArmState → ArmState
  | .adrp rd imm, s =>
      let page := pageOf s.pc + (imm ++ 0#12).signExtend 64
      { x := if rd = 31 then s.x else Function.update s.x rd page, pc := s.pc + 4 }
  | .addImm rd rn imm12 sh, s =>
      let imm := if sh then imm12.setWidth 64 <<< 12 else imm12.setWidth 64
      { x := Function.update s.x rd (s.x rn + imm), pc := s.pc + 4 }

/-- One word of code; `none` outside the fragment. -/
def step (s : ArmState) (w : BitVec 32) : Option ArmState := (decode w).map (exec · s)

def runWords (s : ArmState) (ws : List (BitVec 32)) : Option ArmState := ws.foldlM step s

/-! ## Pages -/

theorem pageOf_eq (a : BitVec 64) : pageOf a = (a >>> 12) <<< 12 := by
  have hmask : (0xFFF : BitVec 64) = BitVec.ofNat 64 (2 ^ 12 - 1) := rfl
  apply BitVec.eq_of_getLsbD_eq
  intro i hi
  rw [pageOf, hmask]
  simp only [BitVec.getLsbD_and, BitVec.getLsbD_not, BitVec.getLsbD_ofNat,
    Nat.testBit_two_pow_sub_one, BitVec.getLsbD_shiftLeft, BitVec.getLsbD_ushiftRight]
  by_cases hlow : i < 12
  · simp [hlow, hi]
  · simp [hlow, hi, show 12 + (i - 12) = i by omega]

theorem pageOf_ofNat (n : ℕ) : pageOf (BitVec.ofNat 64 n) = BitVec.ofNat 64 (n - n % 0x1000) := by
  apply BitVec.eq_of_toNat_eq
  rw [pageOf_eq, BitVec.toNat_shiftLeft, BitVec.toNat_ushiftRight, BitVec.toNat_ofNat,
    BitVec.toNat_ofNat, Nat.shiftLeft_eq, Nat.shiftRight_eq_div_pow]
  omega

/-! ## The pair -/

theorem decode_adrp {a : BitVec 32} (ha : a &&& 0x9F000000 = 0x90000000) :
    decode a = some (.adrp (rdOf a) (a.extractLsb' 5 19 ++ a.extractLsb' 29 2)) := if_pos ha

theorem and_mask_mono {w m m' v : BitVec 32} (h : w &&& m = v) (hm : m &&& m' = m') :
    w &&& m' = v &&& m' := by
  rw [← h, BitVec.and_assoc, hm]

/-- ADD with the 12-bit shift bit clear. -/
theorem decode_add {b : BitVec 32} (hb : b &&& 0xFFC00000 = 0x91000000) :
    decode b = some (.addImm (rdOf b) (rnOf b) (b.extractLsb' 10 12) false) := by
  have hclass : b &&& 0xFF800000 = 0x91000000 := and_mask_mono hb (by decide)
  have hadrp : ¬ b &&& 0x9F000000 = 0x90000000 := fun h => by
    have h' : b &&& 0x9F000000 = 0x91000000 := and_mask_mono hclass (by decide)
    exact absurd (h.symm.trans h') (by decide)
  have hsh : b.getLsbD 22 = false := by
    have h := congrArg (BitVec.getLsbD · 22) hb
    simpa using h
  rw [decode, if_neg hadrp, if_pos hclass, hsh]

section Pair
variable {a b : BitVec 32} (ha : a &&& 0x9F000000 = 0x90000000)
  (hb : b &&& 0xFFC00000 = 0x91000000)
include ha hb

/-- What the pair leaves in ADD's register. -/
theorem runWords_pair (s : ArmState) :
    (runWords s [a, b]).map (fun s' => s'.x (rdOf b)) =
      some ((if rnOf b = rdOf a ∧ rdOf a ≠ 31 then
          pageOf s.pc + ((a.extractLsb' 5 19 ++ a.extractLsb' 29 2) ++ 0#12).signExtend 64
        else s.x (rnOf b)) + (b.extractLsb' 10 12).setWidth 64) := by
  simp only [runWords, List.foldlM_cons, List.foldlM_nil, step, decode_adrp ha, decode_add hb,
    Option.map_some, Option.bind_eq_bind, Option.bind_some, Option.pure_def, exec,
    Function.update_self, Bool.false_eq_true, if_false]
  by_cases hzr : rdOf a = 31
  · rw [if_pos hzr, if_neg fun h => h.2 hzr]
  · rw [if_neg hzr]
    by_cases hsame : rnOf b = rdOf a
    · rw [if_pos ⟨hsame, hzr⟩, hsame, Function.update_self]
    · rw [if_neg fun h => hsame h.1, Function.update_of_ne hsame]

/-- The pair forms one fixed address in every state iff ADD reads the register ADRP wrote. -/
theorem pair_materialises_iff {pc addr : BitVec 64}
    (haddr : pageOf pc + ((a.extractLsb' 5 19 ++ a.extractLsb' 29 2) ++ 0#12).signExtend 64 +
      (b.extractLsb' 10 12).setWidth 64 = addr) :
    (∀ s : ArmState, s.pc = pc → (runWords s [a, b]).map (fun s' => s'.x (rdOf b)) = some addr) ↔
      rnOf b = rdOf a ∧ rdOf a ≠ 31 := by
  constructor
  · intro h
    by_contra hbase
    -- the base is then an initial register: start from one that misses the address
    have hmiss := h ⟨fun _ => addr - (b.extractLsb' 10 12).setWidth 64 + 1, pc⟩ rfl
    rw [runWords_pair ha hb, if_neg hbase] at hmiss
    have hval := Option.some.inj hmiss
    bv_omega
  · rintro hbase s rfl
    rw [runWords_pair ha hb, if_pos hbase, haddr]

end Pair
/-! ## Branches that test a register -/

/-- CBZ, CBNZ, TBZ and TBNZ. -/
def IsTestBranch (w : BitVec 32) : Prop := w &&& 0x7C000000 = 0x34000000

instance (w : BitVec 32) : Decidable (IsTestBranch w) := inferInstanceAs (Decidable (_ = _))

/-- The target of such a branch at `va`. -/
def testBranchTarget (w : BitVec 32) (va : BitVec 64) : Option (BitVec 64) :=
  if w &&& 0x7E000000 = 0x34000000 then some (va + (w.extractLsb' 5 19 ++ 0#2).signExtend 64)
  else if w &&& 0x7E000000 = 0x36000000 then some (va + (w.extractLsb' 5 14 ++ 0#2).signExtend 64)
  else none

/-- The branches, the instructions that raise an exception and the undefined words. -/
def IsControlTransfer (w : BitVec 32) : Prop :=
  IsTestBranch w ∨ w &&& 0x7C000000 = 0x14000000 ∨ w &&& 0xFE000000 = 0x54000000 ∨
    w &&& 0xFE000000 = 0xD6000000 ∨ w &&& 0xFF000000 = 0xD4000000 ∨ w &&& 0xFFFF0000 = 0

instance (w : BitVec 32) : Decidable (IsControlTransfer w) :=
  inferInstanceAs (Decidable (_ ∨ _))

theorem isTestBranch_of_target {w : BitVec 32} {va : BitVec 64}
    (h : testBranchTarget w va ≠ none) : IsTestBranch w := by
  by_cases hcb : w &&& 0x7E000000 = 0x34000000
  · exact and_mask_mono hcb (by decide)
  · by_cases htb : w &&& 0x7E000000 = 0x36000000
    · exact and_mask_mono htb (by decide)
    · rw [testBranchTarget, if_neg hcb, if_neg htb] at h
      exact absurd rfl h

end SecureWorld.Foundations.Armv8
