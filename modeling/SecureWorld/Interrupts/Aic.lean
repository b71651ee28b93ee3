import SecureWorld.Foundations.WordBits
import Mathlib.Algebra.Order.Ring.Int

/-! # The AIC interrupt controller (`qemu-patches/qemu-sptm-cl4-all.patch`)

One pending bit for each hardware interrupt, a global enable, and an acknowledge register that hands
over the least pending number and retires it. `line` is the level driven on the CPU's IRQ input.
Log output is left out.
-/
namespace SecureWorld.Interrupts
open Foundations
set_option autoImplicit false

def aicMaxIrqs : ℕ := 0x1000
def aicEventTypeIrq : BitVec 32 := 1

structure AicState where
  nrIrqs : ℕ
  revOff : BitVec 32
  cap0Off : BitVec 32
  maxnumirqOff : BitVec 32
  glbcfgOff : BitVec 32
  iackOff : BitVec 32
  config : BitVec 32
  pending : WordBits
  enabled : Bool
  line : Bool

def aicNextPending (s : AicState) : Option ℕ := s.pending.first (s.nrIrqs / 32)

def aicUpdate (s : AicState) : AicState :=
  { s with line := s.enabled && (aicNextPending s).isSome }

/-- One line for each hardware interrupt, driven by devices. -/
def aicSetIrq (s : AicState) (n level : ℤ) : AicState :=
  if n < 0 ∨ n ≥ s.nrIrqs then s
  else if level ≠ 0 then aicUpdate { s with pending := s.pending.insert n.toNat }
  else aicUpdate { s with pending := s.pending.erase n.toNat }

/-- The value an acknowledge returns for interrupt `irq`. -/
def aicEvent (irq : ℕ) : BitVec 32 := (aicEventTypeIrq <<< 16) ||| (BitVec.ofNat 32 irq &&& 0xffff)

/-- The register value a read returns and the controller after it. -/
def aicRead (s : AicState) (off : BitVec 64) : BitVec 64 × AicState :=
  if off = s.revOff.setWidth 64 then (3, s)
  else if off = s.cap0Off.setWidth 64 then (BitVec.ofNat 64 s.nrIrqs, s)
  else if off = s.maxnumirqOff.setWidth 64 then (BitVec.ofNat 64 s.nrIrqs, s)
  else if off = s.glbcfgOff.setWidth 64 then (s.config.setWidth 64, s)
  else if off = s.iackOff.setWidth 64 then
    match aicNextPending s with
    | none => (0, s)
    | some irq =>
        ((aicEvent irq).setWidth 64, aicUpdate { s with pending := s.pending.erase irq })
  else (0, s)

def aicWrite (s : AicState) (off val : BitVec 64) : AicState :=
  if off = s.glbcfgOff.setWidth 64 then
    aicUpdate { s with config := val.setWidth 32, enabled := decide (val &&& 1 ≠ 0) }
  else s

/-- The register offsets the device tree publishes. -/
structure AicProps where
  revOffset : Option (BitVec 32)
  cap0Offset : Option (BitVec 32)
  maxnumirqOffset : Option (BitVec 32)
  aicglbcfgOffset : Option (BitVec 32)
  aicIackOffset : Option (BitVec 64)

def initAicReal (aic : AicProps) : AicState where
  nrIrqs := aicMaxIrqs
  revOff := aic.revOffset.getD 0x0
  cap0Off := aic.cap0Offset.getD 0x4
  maxnumirqOff := aic.maxnumirqOffset.getD 0xc
  glbcfgOff := aic.aicglbcfgOffset.getD 0x14
  iackOff := (aic.aicIackOffset.map fun iack => iack.setWidth 32).getD 0x1000
  config := 0
  pending := fun _ => 0
  enabled := false
  line := false

/-- The line a device gets for its device tree interrupt, if there is one. -/
def aicIrqLine (s : AicState) (hwirq : ℕ) : Option ℤ :=
  if hwirq ≥ s.nrIrqs then none else some hwirq

/-- `qemu_set_irq` runs the handler of the line at every call; on no line it does nothing. -/
def qemuSetIrq (s : AicState) (line : Option ℤ) (level : ℤ) : AicState :=
  match line with
  | none => s
  | some n => aicSetIrq s n level

/-! ## What an update drives -/

/-- The CPU line is what the last update made it. -/
def LineInStep (s : AicState) : Prop := s.line = (s.enabled && (aicNextPending s).isSome)

theorem aicUpdate_inStep (s : AicState) : LineInStep (aicUpdate s) := rfl

theorem LineInStep.setIrq {s : AicState} (h : LineInStep s) (n level : ℤ) :
    LineInStep (aicSetIrq s n level) := by
  unfold aicSetIrq
  split_ifs
  · exact h
  · exact aicUpdate_inStep _
  · exact aicUpdate_inStep _

theorem LineInStep.read {s : AicState} (h : LineInStep s) (off : BitVec 64) :
    LineInStep (aicRead s off).2 := by
  unfold aicRead
  split_ifs
  · exact h
  · exact h
  · exact h
  · exact h
  · split
    · exact h
    · exact aicUpdate_inStep _
  · exact h

theorem LineInStep.write {s : AicState} (h : LineInStep s) (off val : BitVec 64) :
    LineInStep (aicWrite s off val) := by
  unfold aicWrite
  split_ifs
  · exact aicUpdate_inStep _
  · exact h

theorem nextPending_eq_some_iff {s : AicState} (hnr : s.nrIrqs = aicMaxIrqs) (k : ℕ) :
    aicNextPending s = some k ↔
      k < s.nrIrqs ∧ s.pending.mem k = true ∧ ∀ j < k, s.pending.mem j = false := by
  have hwords : 32 * (s.nrIrqs / 32) = s.nrIrqs := by rw [hnr]; decide
  rw [aicNextPending, WordBits.first_eq_some_iff, hwords]

theorem nextPending_eq_none_iff {s : AicState} (hnr : s.nrIrqs = aicMaxIrqs) :
    aicNextPending s = none ↔ ∀ k < s.nrIrqs, s.pending.mem k = false := by
  have hwords : 32 * (s.nrIrqs / 32) = s.nrIrqs := by rw [hnr]; decide
  rw [aicNextPending, WordBits.first_eq_none_iff, hwords]

theorem LineInStep.line_iff {s : AicState} (h : LineInStep s) (hnr : s.nrIrqs = aicMaxIrqs) :
    s.line = true ↔ s.enabled = true ∧ ∃ k < s.nrIrqs, s.pending.mem k = true := by
  rw [h, Bool.and_eq_true, Option.isSome_iff_ne_none, ne_eq, nextPending_eq_none_iff hnr]
  simp

/-! ## What each access does to the pending bits -/

@[simp] theorem setIrq_nrIrqs (s : AicState) (n level : ℤ) :
    (aicSetIrq s n level).nrIrqs = s.nrIrqs := by
  unfold aicSetIrq
  split_ifs <;> rfl

@[simp] theorem read_nrIrqs (s : AicState) (off : BitVec 64) :
    (aicRead s off).2.nrIrqs = s.nrIrqs := by
  unfold aicRead
  split_ifs
  · rfl
  · rfl
  · rfl
  · rfl
  · split <;> rfl
  · rfl

@[simp] theorem write_nrIrqs (s : AicState) (off val : BitVec 64) :
    (aicWrite s off val).nrIrqs = s.nrIrqs := by
  unfold aicWrite
  split_ifs <;> rfl

@[simp] theorem write_pending (s : AicState) (off val : BitVec 64) :
    (aicWrite s off val).pending = s.pending := by
  unfold aicWrite
  split_ifs <;> rfl

/-- Driving a line sets its own bit to the level. -/
theorem setIrq_mem_self {s : AicState} {n : ℕ} (hn : n < s.nrIrqs) (level : ℤ) :
    (aicSetIrq s n level).pending.mem n = decide (level ≠ 0) := by
  have hrange : ¬ ((n : ℤ) < 0 ∨ (n : ℤ) ≥ s.nrIrqs) := by omega
  rw [aicSetIrq, if_neg hrange]
  by_cases hlevel : level ≠ 0
  · rw [if_pos hlevel]
    simp [aicUpdate, hlevel]
  · rw [if_neg hlevel]
    simp [aicUpdate, hlevel]

/-- Driving one line leaves the bits of the others alone. -/
theorem setIrq_mem_of_ne {s : AicState} {m : ℤ} {n : ℕ} (hne : m ≠ n) (level : ℤ) :
    (aicSetIrq s m level).pending.mem n = s.pending.mem n := by
  unfold aicSetIrq
  split_ifs with hrange hlevel
  · rfl
  · have hnat : n ≠ m.toNat := by omega
    simp [aicUpdate, hnat]
  · have hnat : n ≠ m.toNat := by omega
    simp [aicUpdate, hnat]

/-! ## The acknowledge register -/

/-- The read falls through to the acknowledge branch. -/
def IsIack (s : AicState) (off : BitVec 64) : Prop :=
  off = s.iackOff.setWidth 64 ∧ off ≠ s.revOff.setWidth 64 ∧ off ≠ s.cap0Off.setWidth 64 ∧
    off ≠ s.maxnumirqOff.setWidth 64 ∧ off ≠ s.glbcfgOff.setWidth 64

instance (s : AicState) (off : BitVec 64) : Decidable (IsIack s off) :=
  inferInstanceAs (Decidable (_ ∧ _))

theorem read_of_isIack {s : AicState} {off : BitVec 64} (h : IsIack s off) :
    aicRead s off =
      match aicNextPending s with
      | none => (0, s)
      | some irq =>
          ((aicEvent irq).setWidth 64, aicUpdate { s with pending := s.pending.erase irq }) := by
  obtain ⟨hiack, hrev, hcap0, hmax, hglb⟩ := h
  rw [aicRead, if_neg hrev, if_neg hcap0, if_neg hmax, if_neg hglb, if_pos hiack]

theorem read_of_not_isIack {s : AicState} {off : BitVec 64} (h : ¬ IsIack s off) :
    (aicRead s off).2 = s := by
  unfold aicRead
  split_ifs with hrev hcap0 hmax hglb hiack
  · rfl
  · rfl
  · rfl
  · rfl
  · exact absurd ⟨hiack, hrev, hcap0, hmax, hglb⟩ h
  · rfl

/-- Die 0, type IRQ in bits 23:16, the number in bits 15:0. -/
theorem aicEvent_toNat {irq : ℕ} (hirq : irq < aicMaxIrqs) :
    ((aicEvent irq).setWidth 64).toNat = 2 ^ 16 + irq := by
  have hmax : aicMaxIrqs = 4096 := rfl
  have hlow : (BitVec.ofNat 32 irq &&& 0xffff).toNat = irq := by
    have hmask := Nat.and_two_pow_sub_one_eq_mod (BitVec.ofNat 32 irq).toNat 16
    rw [BitVec.toNat_and]
    refine hmask.trans ?_
    rw [BitVec.toNat_ofNat]
    omega
  have hhigh : (aicEventTypeIrq <<< 16).toNat = 2 ^ 16 * 1 := rfl
  rw [BitVec.toNat_setWidth, aicEvent, BitVec.toNat_or, hlow, hhigh,
    ← Nat.two_pow_add_eq_or_of_lt (by omega)]
  omega

/-- What an acknowledge may do: hand over the least pending number and clear its bit alone, or find
nothing pending, return 0 and change nothing. -/
def Acknowledges (s : AicState) (value : BitVec 64) (s' : AicState) : Prop :=
  (∃ irq < s.nrIrqs, s.pending.mem irq = true ∧ (∀ j < irq, s.pending.mem j = false) ∧
      value.toNat = 2 ^ 16 + irq ∧
      (∀ j, s'.pending.mem j = (decide (j ≠ irq) && s.pending.mem j)) ∧
      { s' with pending := s.pending, line := s.line } = s) ∨
    ((∀ irq < s.nrIrqs, s.pending.mem irq = false) ∧ value = 0 ∧ s' = s)

theorem iack_acknowledges {s : AicState} (hnr : s.nrIrqs = aicMaxIrqs) {off : BitVec 64}
    (h : IsIack s off) : Acknowledges s (aicRead s off).1 (aicRead s off).2 := by
  rw [read_of_isIack h]
  cases hnext : aicNextPending s with
  | none => exact .inr ⟨(nextPending_eq_none_iff hnr).mp hnext, rfl, rfl⟩
  | some irq =>
    obtain ⟨hlt, hmem, hleast⟩ := (nextPending_eq_some_iff hnr irq).mp hnext
    exact .inl ⟨irq, hlt, hmem, hleast, aicEvent_toNat (hnr ▸ hlt),
      fun j => WordBits.mem_erase s.pending irq j, rfl⟩

end SecureWorld.Interrupts
