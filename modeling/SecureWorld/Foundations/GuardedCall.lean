import Mathlib.Tactic.Ring
import SecureWorld.Foundations.Armv8
import SecureWorld.Foundations.Detours

/-! # A call guarded by a trampoline

Branches of the A64 instruction set as words, a processor whose other instructions are left open,
and a trampoline that makes a call unless x0 is zero. Code with the trampoline reaches what a
processor reaches that skips exactly these calls.
-/
namespace SecureWorld.Foundations.GuardedCall
open Armv8 Relation
set_option autoImplicit false

/-! ## Displacements -/

theorem signExtend_scaled {n : ℕ} (x : BitVec (n + 1)) :
    BitVec.signExtend 64 (x ++ 0#2) = BitVec.ofInt 64 (4 * x.toInt) := by
  rw [BitVec.signExtend, BitVec.toInt_append]
  simp

theorem toNat_eq_emod (d : BitVec 64) : (d.toNat : ℤ) = d.toInt % 2 ^ 64 := by
  have hlt := d.isLt
  rw [BitVec.toInt_eq_toNat_cond]
  split_ifs <;> omega

theorem extract_displacement {n : ℕ} (hn : n + 3 ≤ 64) {d : BitVec 64} {q : ℤ}
    (hq : d.toInt = 4 * q) : d.extractLsb' 2 (n + 1) = BitVec.ofInt (n + 1) q := by
  have hmod : (0 : ℤ) < 2 ^ (n + 1) := Int.pow_pos (by omega)
  have hquarter : (4 * q % 2 ^ 64) / 4 = q % 2 ^ 62 := by omega
  apply BitVec.eq_of_toNat_eq
  rw [BitVec.extractLsb'_toNat, BitVec.toNat_ofInt, Nat.shiftRight_eq_div_pow]
  apply Int.ofNat.inj
  simp only [Int.ofNat_eq_natCast]
  push_cast
  rw [Int.toNat_of_nonneg (Int.emod_nonneg _ hmod.ne'), toNat_eq_emod, hq, hquarter]
  exact Int.emod_emod_of_dvd q (pow_dvd_pow 2 (by omega))

/-- A target within `2 ^ n` words of the branch, at a distance of whole words. -/
def InReach (n : ℕ) (va target : BitVec 64) : Prop :=
  4 ∣ (target - va).toInt ∧ -2 ^ (n + 2) ≤ (target - va).toInt ∧
    (target - va).toInt < 2 ^ (n + 2)

instance (n : ℕ) (va target : BitVec 64) : Decidable (InReach n va target) :=
  inferInstanceAs (Decidable (_ ∧ _ ∧ _))

/-- The field of a branch whose target is in reach gives back the target. -/
theorem InReach.target_eq {n : ℕ} {va target : BitVec 64} (h : InReach n va target)
    (hn : n + 3 ≤ 64) :
    va + ((target - va).extractLsb' 2 (n + 1) ++ 0#2).signExtend 64 = target := by
  obtain ⟨⟨q, hq⟩, hlow, hhigh⟩ := h
  have hpow : (2 : ℤ) ^ (n + 2) = 4 * 2 ^ n := by
    rw [Int.pow_add, Int.mul_comm]
    rfl
  have hbmod : q.bmod (2 ^ (n + 1)) = q := by
    apply Int.bmod_eq_of_le
    · rw [Nat.pow_succ]; push_cast; omega
    · rw [Nat.pow_succ]; push_cast; omega
  rw [signExtend_scaled, extract_displacement hn hq, BitVec.toInt_ofInt, hbmod, ← hq,
    BitVec.ofInt_toInt]
  bv_omega

/-! ## Branches -/

def isB (w : BitVec 32) : Bool := w.extractLsb' 26 6 = 0b000101#6

def isBl (w : BitVec 32) : Bool := w.extractLsb' 26 6 = 0b100101#6

/-- CBZ of a 64-bit register -/
def isCbz (w : BitVec 32) : Bool := w.extractLsb' 24 8 = 0xB4#8

def isRet (w : BitVec 32) : Bool := w &&& 0xFFFFFC1F = 0xD65F0000

/-- The target of B and BL at `va`. -/
def target26 (w : BitVec 32) (va : BitVec 64) : BitVec 64 :=
  va + (w.extractLsb' 0 26 ++ 0#2).signExtend 64

def target19 (w : BitVec 32) (va : BitVec 64) : BitVec 64 :=
  va + (w.extractLsb' 5 19 ++ 0#2).signExtend 64

def bWord (va target : BitVec 64) : BitVec 32 := 0b000101#6 ++ (target - va).extractLsb' 2 26

def blWord (va target : BitVec 64) : BitVec 32 := 0b100101#6 ++ (target - va).extractLsb' 2 26

def cbzWord (rt : BitVec 5) (va target : BitVec 64) : BitVec 32 :=
  0xB4#8 ++ ((target - va).extractLsb' 2 19 ++ rt)

def retWord : BitVec 32 := 0xD65F03C0

theorem extract_high {n m : ℕ} (a : BitVec n) (b : BitVec m) : (a ++ b).extractLsb' m n = a := by
  apply BitVec.eq_of_getLsbD_eq
  intro i hi
  simp [BitVec.getLsbD_append, hi]

theorem extract_low {n m k : ℕ} (a : BitVec n) (b : BitVec m) (hk : k ≤ m) :
    (a ++ b).extractLsb' 0 k = b.extractLsb' 0 k := by
  apply BitVec.eq_of_getLsbD_eq
  intro i hi
  simp [BitVec.getLsbD_append, hi, show i < m by omega]

theorem extract_extract {n m a b k : ℕ} (w : BitVec n) (h : b + k ≤ m) :
    (w.extractLsb' a m).extractLsb' b k = w.extractLsb' (a + b) k := by
  apply BitVec.eq_of_getLsbD_eq
  intro i hi
  simp [hi, show b + i < m by omega, Nat.add_assoc]

theorem extract_middle {n m k : ℕ} (a : BitVec n) (b : BitVec m) (c : BitVec k) :
    (a ++ (b ++ c)).extractLsb' k m = b := by
  have hlow : (a ++ (b ++ c)).extractLsb' 0 (m + k) = b ++ c :=
    (extract_low a (b ++ c) (le_refl _)).trans BitVec.extractLsb'_eq_self
  have hsplit := extract_extract (a := 0) (b := k) (k := m) (a ++ (b ++ c)) (by omega : k + m ≤ m + k)
  rw [Nat.zero_add, hlow] at hsplit
  rw [← hsplit]
  exact extract_high b c

theorem isB_bWord (va target : BitVec 64) : isB (bWord va target) = true :=
  decide_eq_true (extract_high _ _)

theorem isBl_blWord (va target : BitVec 64) : isBl (blWord va target) = true :=
  decide_eq_true (extract_high _ _)

theorem isCbz_cbzWord (rt : BitVec 5) (va target : BitVec 64) :
    isCbz (cbzWord rt va target) = true := decide_eq_true (extract_high _ _)

theorem target26_bWord {va target : BitVec 64} (h : InReach 25 va target) :
    target26 (bWord va target) va = target := by
  have hfield : (bWord va target).extractLsb' 0 26 = (target - va).extractLsb' 2 26 :=
    (extract_low _ _ (le_refl 26)).trans BitVec.extractLsb'_eq_self
  rw [target26, hfield]
  exact h.target_eq (by omega)

theorem target26_blWord {va target : BitVec 64} (h : InReach 25 va target) :
    target26 (blWord va target) va = target := by
  have hfield : (blWord va target).extractLsb' 0 26 = (target - va).extractLsb' 2 26 :=
    (extract_low _ _ (le_refl 26)).trans BitVec.extractLsb'_eq_self
  rw [target26, hfield]
  exact h.target_eq (by omega)

theorem target19_cbzWord {rt : BitVec 5} {va target : BitVec 64} (h : InReach 18 va target) :
    target19 (cbzWord rt va target) va = target := by
  have hfield : (cbzWord rt va target).extractLsb' 5 19 = (target - va).extractLsb' 2 19 :=
    extract_middle _ _ _
  rw [target19, hfield]
  exact h.target_eq (by omega)

theorem rdOf_cbzWord (rt : BitVec 5) (va target : BitVec 64) :
    rdOf (cbzWord rt va target) = rt :=
  (extract_low _ _ (by omega : 5 ≤ 24)).trans
    ((extract_low _ _ (le_refl 5)).trans BitVec.extractLsb'_eq_self)

/-! ## The processor -/

/-- Registers and program counter, and all the rest of a processor with its memory. -/
structure Cpu (ω : Type) extends ArmState where
  rest : ω

/-- The words that can be fetched. -/
abbrev Code := BitVec 64 → Option (BitVec 32)

section Processor
variable {ω : Type}

def Cpu.reg (s : Cpu ω) (r : BitVec 5) : BitVec 64 := if r = 31 then 0 else s.x r

def Cpu.jump (s : Cpu ω) (target : BitVec 64) : Cpu ω := { s with pc := target }

/-- The link register is set to the next instruction. -/
def Cpu.link (s : Cpu ω) : Cpu ω := { s with x := Function.update s.x 30 (s.pc + 4) }

@[simp] theorem Cpu.jump_pc (s : Cpu ω) (target : BitVec 64) : (s.jump target).pc = target := rfl

@[simp] theorem Cpu.jump_jump (s : Cpu ω) (a b : BitVec 64) : (s.jump a).jump b = s.jump b := rfl

@[simp] theorem Cpu.link_pc (s : Cpu ω) : s.link.pc = s.pc := rfl

@[simp] theorem Cpu.jump_reg (s : Cpu ω) (target : BitVec 64) (r : BitVec 5) :
    (s.jump target).reg r = s.reg r := rfl

@[simp] theorem Cpu.link_reg_zero (s : Cpu ω) : s.link.reg 0 = s.x 0 := by
  have hne : (0 : BitVec 5) ≠ 30 := by decide
  rw [Cpu.reg, if_neg (by decide)]
  exact Function.update_of_ne hne (s.pc + 4) s.x

@[simp] theorem Cpu.link_reg_link (s : Cpu ω) : s.link.reg 30 = s.pc + 4 := by
  rw [Cpu.reg, if_neg (by decide)]
  exact Function.update_self (30 : BitVec 5) (s.pc + 4) s.x

variable (other : BitVec 32 → Cpu ω → Cpu ω → Prop)

/-- One instruction; `other` is what the rest of the instruction set can do. -/
def exec (w : BitVec 32) (s t : Cpu ω) : Prop :=
  if isB w then t = s.jump (target26 w s.pc)
  else if isBl w then t = s.link.jump (target26 w s.pc)
  else if isCbz w then t = s.jump (if s.reg (rdOf w) = 0 then target19 w s.pc else s.pc + 4)
  else if isRet w then t = s.jump (s.reg (rnOf w))
  else other w s t

def codeStep (code : Code) (s t : Cpu ω) : Prop := ∃ w, code s.pc = some w ∧ exec other w s t

/-- The call at `site` is made only with a pointer. -/
def guardedStep (code : Code) (site fn : BitVec 64) (s t : Cpu ω) : Prop :=
  if s.pc = site then t = s.link.jump (if s.x 0 = 0 then site + 4 else fn)
  else codeStep other code s t

variable {other}

theorem exec_bWord {va target : BitVec 64} (h : InReach 25 va target) {s t : Cpu ω}
    (hs : s.pc = va) : exec other (bWord va target) s t ↔ t = s.jump target := by
  rw [exec, if_pos (isB_bWord va target), hs, target26_bWord h]

theorem isB_eq_false {w : BitVec 32} {op : BitVec 6} (h : w.extractLsb' 26 6 = op)
    (hop : op ≠ 0b000101#6) : isB w = false := decide_eq_false (h ▸ hop)

theorem exec_of_isBl {w : BitVec 32} (h : isBl w = true) (s t : Cpu ω) :
    exec other w s t ↔ t = s.link.jump (target26 w s.pc) := by
  rw [exec, isB_eq_false (of_decide_eq_true h) (by decide), if_neg Bool.false_ne_true, if_pos h]

theorem exec_blWord {va target : BitVec 64} (h : InReach 25 va target) {s t : Cpu ω}
    (hs : s.pc = va) : exec other (blWord va target) s t ↔ t = s.link.jump target := by
  rw [exec_of_isBl (isBl_blWord va target), hs, target26_blWord h]

theorem exec_cbzWord {rt : BitVec 5} {va target : BitVec 64} (h : InReach 18 va target)
    {s t : Cpu ω} (hs : s.pc = va) : exec other (cbzWord rt va target) s t ↔
      t = s.jump (if s.reg rt = 0 then target else va + 4) := by
  have hhigh : (cbzWord rt va target).extractLsb' 24 8 = 0xB4#8 :=
    of_decide_eq_true (isCbz_cbzWord rt va target)
  have hop : (cbzWord rt va target).extractLsb' 26 6 = 0b101101#6 := by
    have hsplit := extract_extract (a := 24) (b := 2) (cbzWord rt va target) (by omega : 2 + 6 ≤ 8)
    rw [← hsplit, hhigh]
    rfl
  have hb : isB (cbzWord rt va target) = false := isB_eq_false hop (by decide)
  have hbl : isBl (cbzWord rt va target) = false := decide_eq_false (hop ▸ by decide)
  rw [exec, hb, hbl, if_neg Bool.false_ne_true, if_neg Bool.false_ne_true,
    if_pos (isCbz_cbzWord rt va target), hs, target19_cbzWord h, rdOf_cbzWord]

theorem exec_retWord {s t : Cpu ω} : exec other retWord s t ↔ t = s.jump (s.reg 30) := by
  rw [exec, if_neg (by decide), if_neg (by decide), if_neg (by decide), if_pos (by decide)]
  rfl

theorem codeStep_of_word {code : Code} {s t : Cpu ω} {w : BitVec 32} (hw : code s.pc = some w) :
    codeStep other code s t ↔ exec other w s t := by
  rw [codeStep, hw]
  simp

/-! ## The trampoline -/

def InTrampoline (tramp va : BitVec 64) : Prop := va = tramp ∨ va = tramp + 4 ∨ va = tramp + 8

instance (tramp va : BitVec 64) : Decidable (InTrampoline tramp va) :=
  inferInstanceAs (Decidable (_ ∨ _ ∨ _))

/-- `guarded` is `code` with a call of the trampoline at `site`, and `cbz x0, 8; b fn; ret` there. -/
structure Guards (code guarded : Code) (site tramp fn : BitVec 64) : Prop where
  call : guarded site = some (blWord site tramp)
  test : guarded tramp = some (cbzWord 0 tramp (tramp + 8))
  jump : guarded (tramp + 4) = some (bWord (tramp + 4) fn)
  back : guarded (tramp + 8) = some retWord
  same : ∀ va, va ≠ site → ¬InTrampoline tramp va → guarded va = code va
  reach : InReach 25 site tramp
  fnReach : InReach 25 (tramp + 4) fn
  siteOut : ¬InTrampoline tramp site
  nextOut : ¬InTrampoline tramp (site + 4)
  fnOut : ¬InTrampoline tramp fn

theorem inReach_skip (tramp : BitVec 64) : InReach 18 tramp (tramp + 8) := by
  have hdist : tramp + 8 - tramp = 8 := by bv_omega
  rw [InReach, hdist]
  decide

section Guards
variable {code guarded : Code} {site tramp fn : BitVec 64} (h : Guards code guarded site tramp fn)
include h

theorem Guards.step_call {s t : Cpu ω} (hs : s.pc = site) :
    codeStep other guarded s t ↔ t = s.link.jump tramp := by
  rw [codeStep_of_word ((congrArg guarded hs).trans h.call), exec_blWord h.reach hs]

theorem Guards.step_test {s t : Cpu ω} (hs : s.pc = tramp) : codeStep other guarded s t ↔
    t = s.jump (if s.reg 0 = 0 then tramp + 8 else tramp + 4) := by
  rw [codeStep_of_word ((congrArg guarded hs).trans h.test), exec_cbzWord (inReach_skip tramp) hs]

theorem Guards.step_jump {s t : Cpu ω} (hs : s.pc = tramp + 4) :
    codeStep other guarded s t ↔ t = s.jump fn := by
  rw [codeStep_of_word ((congrArg guarded hs).trans h.jump), exec_bWord h.fnReach hs]

theorem Guards.step_back {s t : Cpu ω} (hs : s.pc = tramp + 8) :
    codeStep other guarded s t ↔ t = s.jump (s.reg 30) := by
  rw [codeStep_of_word ((congrArg guarded hs).trans h.back), exec_retWord]

theorem Guards.step_same {s t : Cpu ω} (hs : s.pc ≠ site) (hout : ¬InTrampoline tramp s.pc) :
    codeStep other guarded s t ↔ codeStep other code s t := by
  rw [codeStep, codeStep, h.same s.pc hs hout]

/-- From the site the trampoline makes the guarded call. -/
theorem Guards.makes {s : Cpu ω} (hs : s.pc = site) :
    ReflTransGen (codeStep other guarded) s
      (s.link.jump (if s.x 0 = 0 then site + 4 else fn)) := by
  have hcall : codeStep other guarded s (s.link.jump tramp) := (h.step_call hs).mpr rfl
  refine ReflTransGen.head hcall ?_
  have htest : codeStep other guarded (s.link.jump tramp) _ := (h.step_test rfl).mpr rfl
  rw [Cpu.jump_reg, Cpu.link_reg_zero, Cpu.jump_jump] at htest
  refine ReflTransGen.head htest (ReflTransGen.single ?_)
  by_cases hnull : s.x 0 = 0
  · rw [if_pos hnull, if_pos hnull, h.step_back rfl, Cpu.jump_reg, Cpu.link_reg_link, hs,
      Cpu.jump_jump]
  · rw [if_neg hnull, if_neg hnull, h.step_jump rfl, Cpu.jump_jump]

/-- Where the detour from `s` can be. -/
def OnDetour (site tramp fn : BitVec 64) (s t : Cpu ω) : Prop :=
  t = s.link.jump tramp ∨ s.x 0 = 0 ∧ t = s.link.jump (tramp + 8) ∨
    s.x 0 ≠ 0 ∧ t = s.link.jump (tramp + 4) ∨
      t = s.link.jump (if s.x 0 = 0 then site + 4 else fn)

theorem Guards.end_out (s : Cpu ω) :
    ¬InTrampoline tramp (s.link.jump (if s.x 0 = 0 then site + 4 else fn)).pc := by
  rw [Cpu.jump_pc]
  split_ifs
  · exact h.nextOut
  · exact h.fnOut

theorem Guards.onDetour {s t : Cpu ω} (hs : s.pc = site)
    (hst : Excursion (codeStep other guarded) (fun u => InTrampoline tramp u.pc) s t) :
    OnDetour site tramp fn s t := by
  induction hst with
  | first hstep => exact .inl ((h.step_call hs).mp hstep)
  | further _ hin hstep ih =>
    rcases ih with rfl | ⟨hnull, rfl⟩ | ⟨hptr, rfl⟩ | rfl
    · have hnext := (h.step_test rfl).mp hstep
      rw [Cpu.jump_reg, Cpu.link_reg_zero, Cpu.jump_jump] at hnext
      by_cases hnull : s.x 0 = 0
      · exact .inr (.inl ⟨hnull, by rw [hnext, if_pos hnull]⟩)
      · exact .inr (.inr (.inl ⟨hnull, by rw [hnext, if_neg hnull]⟩))
    · have hnext := (h.step_back rfl).mp hstep
      rw [Cpu.jump_reg, Cpu.link_reg_link, Cpu.jump_jump, hs] at hnext
      exact .inr (.inr (.inr (by rw [hnext, if_pos hnull])))
    · have hnext := (h.step_jump rfl).mp hstep
      rw [Cpu.jump_jump] at hnext
      exact .inr (.inr (.inr (by rw [hnext, if_neg hptr])))
    · exact absurd hin (h.end_out s)

theorem Guards.detours : Detours (codeStep other guarded) (fun s => InTrampoline tramp s.pc)
    (guardedStep other code site fn) where
  forth s t hs ht hst := by
    rw [guardedStep] at hst
    by_cases hsite : s.pc = site
    · rw [if_pos hsite] at hst
      rw [hst]
      exact h.makes hsite
    · rw [if_neg hsite] at hst
      exact ReflTransGen.single ((h.step_same hsite hs).mpr hst)
  back s t hs hnext hst ht := by
    by_cases hsite : s.pc = site
    · rw [guardedStep, if_pos hsite]
      rcases h.onDetour hsite hst with rfl | ⟨-, rfl⟩ | ⟨-, rfl⟩ | heq
      · exact absurd (.inl rfl) ht
      · exact absurd (.inr (.inr rfl)) ht
      · exact absurd (.inr (.inl rfl)) ht
      · exact heq
    · -- elsewhere the first step ends outside, so there is no second
      clear ht
      induction hst with
      | first hstep =>
        rw [guardedStep, if_neg hsite]
        exact (h.step_same hsite hs).mp hstep
      | further _ hin _ ih => exact absurd hin (hnext _ ih)

theorem Guards.reaches_iff {s t : Cpu ω}
    (hout : ∀ u, ReflTransGen (guardedStep other code site fn) s u → ¬InTrampoline tramp u.pc)
    (ht : ¬InTrampoline tramp t.pc) : ReflTransGen (codeStep other guarded) s t ↔
      ReflTransGen (guardedStep other code site fn) s t :=
  h.detours.reaches_iff hout ht

/-- Where the site never has the null pointer, the code with the trampoline reaches what the plain
call reaches. -/
theorem Guards.reaches_iff_of_call {w : BitVec 32} (hw : code site = some w) (hbl : isBl w = true)
    (hfn : target26 w site = fn) {s t : Cpu ω}
    (hptr : ∀ u, ReflTransGen (codeStep other code) s u → u.pc = site → u.x 0 ≠ 0)
    (hout : ∀ u, ReflTransGen (codeStep other code) s u → ¬InTrampoline tramp u.pc)
    (ht : ¬InTrampoline tramp t.pc) : ReflTransGen (codeStep other guarded) s t ↔
      ReflTransGen (codeStep other code) s t := by
  have hagree : ∀ u, ReflTransGen (codeStep other code) s u → ∀ v,
      codeStep other code u v ↔ guardedStep other code site fn u v := by
    intro u hsu v
    rw [guardedStep]
    by_cases hsite : u.pc = site
    · rw [if_pos hsite, if_neg (hptr u hsu hsite),
        codeStep_of_word ((congrArg code hsite).trans hw), exec_of_isBl hbl, hsite, hfn]
    · rw [if_neg hsite]
  have hsame (u : Cpu ω) := reaches_iff_of_agree (t := u) hagree
  rw [h.reaches_iff (fun u hsu => hout u ((hsame u).mpr hsu)) ht, hsame]

end Guards
end Processor

end SecureWorld.Foundations.GuardedCall
