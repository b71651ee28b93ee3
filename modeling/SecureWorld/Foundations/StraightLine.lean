import Mathlib.Algebra.Order.Ring.Nat
import SecureWorld.Foundations.Armv8
import SecureWorld.Foundations.Run

/-! # Straight-line A64 code

Any implementation of the instruction set, of which only the instructions that form addresses are
described: what ADRP, ADR and ADD (immediate) do to the registers, and where a load or store with an
unsigned offset goes.
-/
namespace SecureWorld.Foundations.Armv8
set_option autoImplicit false

/-- ADR, with the distance it adds to the PC. -/
def IsAdr (w : BitVec 32) : Prop := w &&& 0x9F000000 = 0x10000000

instance (w : BitVec 32) : Decidable (IsAdr w) := inferInstanceAs (Decidable (_ = _))

def adrDistance (w : BitVec 32) : BitVec 21 := w.extractLsb' 5 19 ++ w.extractLsb' 29 2

def adrValue (pc : BitVec 64) (w : BitVec 32) : BitVec 64 := pc + (adrDistance w).signExtend 64

def adrpValue (pc : BitVec 64) (w : BitVec 32) : BitVec 64 :=
  pageOf pc + (adrDistance w ++ 0#12).signExtend 64

/-- The unsigned immediate of ADD (immediate) and of loads and stores. -/
def immediate (w : BitVec 32) : ℕ := (w.extractLsb' 10 12).toNat

/-- Loads and stores with an unsigned scaled offset, of a general or a SIMD&FP register. -/
def IsUnsignedOffset (w : BitVec 32) : Prop := w &&& 0x3B000000 = 0x39000000

instance (w : BitVec 32) : Decidable (IsUnsignedOffset w) := inferInstanceAs (Decidable (_ = _))

def sizeField (w : BitVec 32) : ℕ := (w.extractLsb' 30 2).toNat

/-- Those of the whole of a SIMD&FP register, 128 bits. -/
def IsQuadAccess (w : BitVec 32) : Prop := IsUnsignedOffset w ∧ w.getLsbD 26 ∧ w.getLsbD 23

instance (w : BitVec 32) : Decidable (IsQuadAccess w) := inferInstanceAs (Decidable (_ ∧ _))

/-- The size field, with the high bit of `opc` above it where the register is a SIMD&FP one. -/
def accessScale (w : BitVec 32) : ℕ :=
  sizeField w + if w.getLsbD 26 ∧ w.getLsbD 23 then 4 else 0

def accessOffset (w : BitVec 32) : BitVec 64 := (w.extractLsb' 10 12).setWidth 64 <<< accessScale w

theorem accessOffset_eq (w : BitVec 32) :
    accessOffset w = BitVec.ofNat 64 (immediate w * 2 ^ accessScale w) := by
  have hlt := (w.extractLsb' 10 12).isLt
  apply BitVec.eq_of_toNat_eq
  rw [accessOffset, BitVec.toNat_shiftLeft, BitVec.toNat_setWidth, BitVec.toNat_ofNat,
    Nat.shiftLeft_eq, Nat.mod_eq_of_lt (Nat.lt_trans hlt (by decide)),
    immediate]

/-- Where an access goes, from the registers before it. -/
def effectiveAddress (x : BitVec 5 → BitVec 64) (w : BitVec 32) : BitVec 64 :=
  x (rnOf w) + accessOffset w

/-- One word at a time at its address; a word that faults or does not go on to the next has no
result. -/
structure Implementation where
  State : Type
  /-- The registers by number, with the stack pointer under 31. -/
  x : State → BitVec 5 → BitVec 64
  step : BitVec 64 → BitVec 32 → State → Option State
  step_of_decode : ∀ pc w i s, decode w = some i →
    ∃ s', step pc w s = some s' ∧ x s' = (exec i ⟨x s, pc⟩).x
  step_adr : ∀ pc w s, IsAdr w → ∃ s', step pc w s = some s' ∧
    x s' = if rdOf w = 31 then x s else Function.update (x s) (rdOf w) (adrValue pc w)

variable (arch : Implementation)

/-- Words with their addresses, in order. -/
def Implementation.run (ops : List (ℕ × BitVec 32)) (s : arch.State) : Option arch.State :=
  ops.foldlM (fun s op => arch.step (BitVec.ofNat 64 op.1) op.2 s) s

/-- Just the instructions that form addresses. -/
def addressFragment : Implementation where
  State := BitVec 5 → BitVec 64
  x s := s
  step pc w s :=
    match decode w with
    | some i => some (exec i ⟨s, pc⟩).x
    | none =>
        if IsAdr w then
          some (if rdOf w = 31 then s else Function.update s (rdOf w) (adrValue pc w))
        else none
  step_of_decode pc w i s h := by simp [h]
  step_adr pc w s h := by
    have hadrp : ¬w &&& 0x9F000000 = 0x90000000 := fun h' =>
      absurd (h.symm.trans h') (by decide)
    have hadd : ¬w &&& 0xFF800000 = 0x91000000 := fun h' => by
      have h' : w &&& 0x9F000000 = 0x91000000 := and_mask_mono h' (by decide)
      exact absurd (h.symm.trans h') (by decide)
    have hnone : decode w = none := by rw [decode, if_neg hadrp, if_neg hadd]
    simp [hnone, h]

end SecureWorld.Foundations.Armv8
