import SecureWorld.Foundations.Armv8
import SecureWorld.Foundations.Memory

/-! # A machine for a fragment of A64

Moves, loads, comparisons, branches, calls and returns with pointer authentication, fetched from
memory and decoded. Nothing in the fragment stores. `runOver` steps over calls: the environment
says what a callee leaves behind, and the calls are logged.
-/
namespace SecureWorld.Foundations.A64
open Armv8
set_option autoImplicit false

structure Flags where
  n : Bool
  z : Bool
  c : Bool
  v : Bool

/-- `world` is whatever else a callee may read or change. -/
structure Machine (ω : Type) extends ArmState where
  flags : Flags
  mem : Memory
  /-- TPIDR_EL0 -/
  tpidr : BitVec 64
  world : ω

/-- Pointer authentication with the B key, and what a called function does up to its return. -/
structure Env (ω : Type) where
  sign : BitVec 64 → BitVec 64 → BitVec 64
  auth : BitVec 64 → BitVec 64 → BitVec 64
  callee : Machine ω → Machine ω

/-! ## Instructions -/

inductive Insn
  | address (i : Armv8.Insn)
  | movReg (rd rm : BitVec 5)
  | movz (rd : BitVec 5) (imm16 : BitVec 16)
  | ldrLiteral (rt : BitVec 5) (imm19 : BitVec 19)
  | ldrPost (rt rn : BitVec 5) (imm9 : BitVec 9)
  | cmp (rn rm : BitVec 5)
  | bCond (cond : BitVec 4) (imm19 : BitVec 19)
  | b (imm26 : BitVec 26)
  | br (rn : BitVec 5)
  | blr (rn : BitVec 5)
  | ret (rn : BitVec 5)
  | pacibsp
  | retab
  | msrTpidr (rt : BitVec 5)
deriving DecidableEq

def rmOf (w : BitVec 32) : BitVec 5 := w.extractLsb' 16 5

/-- The 64-bit forms, and MOV only from a register or a 16-bit immediate; a load that would write
its own base register is left out. -/
def decode (w : BitVec 32) : Option Insn :=
  if w = 0xD503237F then some .pacibsp
  else if w = 0xD65F0FFF then some .retab
  else if w &&& 0xFFE0FFE0 = 0xAA0003E0 then some (.movReg (rdOf w) (rmOf w))
  else if w &&& 0xFFE00000 = 0xD2800000 then some (.movz (rdOf w) (w.extractLsb' 5 16))
  else if w &&& 0xFF000000 = 0x58000000 then some (.ldrLiteral (rdOf w) (w.extractLsb' 5 19))
  else if w &&& 0xFFE00C00 = 0xF8400400 ∧ rdOf w ≠ rnOf w then
    some (.ldrPost (rdOf w) (rnOf w) (w.extractLsb' 12 9))
  else if w &&& 0xFFE0FC1F = 0xEB00001F then some (.cmp (rnOf w) (rmOf w))
  else if w &&& 0xFF000010 = 0x54000000 then
    some (.bCond (w.extractLsb' 0 4) (w.extractLsb' 5 19))
  else if w &&& 0xFC000000 = 0x14000000 then some (.b (w.extractLsb' 0 26))
  else if w &&& 0xFFFFFC1F = 0xD61F0000 then some (.br (rnOf w))
  else if w &&& 0xFFFFFC1F = 0xD63F0000 then some (.blr (rnOf w))
  else if w &&& 0xFFFFFC1F = 0xD65F0000 then some (.ret (rnOf w))
  else if w &&& 0xFFFFFFE0 = 0xD51BD040 then some (.msrTpidr (rdOf w))
  else (Armv8.decode w).map .address

def subFlags (a b : BitVec 64) : Flags where
  n := (a - b).msb
  z := a = b
  c := b.ule a
  v := (a.msb != b.msb) && (a.msb != (a - b).msb)

def Flags.holds (f : Flags) (cond : BitVec 4) : Bool :=
  let base := match (cond.extractLsb' 1 3).toNat with
    | 0 => f.z
    | 1 => f.c
    | 2 => f.n
    | 3 => f.v
    | 4 => f.c && !f.z
    | 5 => f.n == f.v
    | 6 => (f.n == f.v) && !f.z
    | _ => true
  if cond.getLsbD 0 ∧ cond ≠ 15 then !base else base

section Semantics
variable {ω : Type}

/-- Register 31 reads as zero. -/
def Machine.reg (s : Machine ω) (r : BitVec 5) : BitVec 64 := if r = 31 then 0 else s.x r

/-- Writes to the zero register are lost. -/
def Machine.setReg (s : Machine ω) (r : BitVec 5) (v : BitVec 64) : Machine ω :=
  if r = 31 then s else { s with x := Function.update s.x r v }

def Machine.jump (s : Machine ω) (target : BitVec 64) : Machine ω := { s with pc := target }

def Machine.next (s : Machine ω) : Machine ω := s.jump (s.pc + 4)

def Machine.load64 (s : Machine ω) (a : BitVec 64) : BitVec 64 := BitVec.ofNat 64 (s.mem.load a 8)

def exec (env : Env ω) : Insn → Machine ω → Machine ω
  | .address i, s => { s with toArmState := Armv8.exec i s.toArmState }
  | .movReg rd rm, s => (s.setReg rd (s.reg rm)).next
  | .movz rd imm16, s => (s.setReg rd (imm16.setWidth 64)).next
  | .ldrLiteral rt imm19, s =>
      (s.setReg rt (s.load64 (s.pc + (imm19 ++ 0#2).signExtend 64))).next
  | .ldrPost rt rn imm9, s =>
      let moved : Machine ω := { s with x := Function.update s.x rn (s.x rn + imm9.signExtend 64) }
      (moved.setReg rt (s.load64 (s.x rn))).next
  | .cmp rn rm, s => ({ s with flags := subFlags (s.reg rn) (s.reg rm) } : Machine ω).next
  | .bCond cond imm19, s =>
      if s.flags.holds cond then s.jump (s.pc + (imm19 ++ 0#2).signExtend 64) else s.next
  | .b imm26, s => s.jump (s.pc + (imm26 ++ 0#2).signExtend 64)
  | .br rn, s => s.jump (s.reg rn)
  | .blr rn, s => { s with x := Function.update s.x 30 (s.pc + 4), pc := s.reg rn }
  | .ret rn, s => s.jump (s.reg rn)
  | .pacibsp, s =>
      ({ s with x := Function.update s.x 30 (env.sign (s.x 30) (s.x 31)) } : Machine ω).next
  | .retab, s => s.jump (env.auth (s.x 30) (s.x 31))
  | .msrTpidr rt, s => ({ s with tpidr := s.reg rt } : Machine ω).next

def insnIn (mem : Memory) (a : BitVec 64) : Option Insn := decode (BitVec.ofNat 32 (mem.load a 4))

def Insn.isCall : Insn → Bool
  | .blr _ => true
  | _ => false

/-- A function called, and the stack pointer it was called with. -/
structure Call where
  func : BitVec 64
  sp : BitVec 64
deriving DecidableEq

/-- One instruction; a call with everything the callee does. -/
def stepOver (env : Env ω) (s : Machine ω) : Option (Machine ω × List Call) :=
  (insnIn s.mem s.pc).map fun i =>
    let s' := exec env i s
    if i.isCall then (env.callee s', [⟨s'.pc, s'.x 31⟩]) else (s', [])

def runOver (env : Env ω) : ℕ → Machine ω → Option (Machine ω × List Call)
  | 0, s => some (s, [])
  | n + 1, s => do
      let (s, calls) ← stepOver env s
      let (t, later) ← runOver env n s
      return (t, calls ++ later)

/-! ## Runs of an exact length -/

def Runs (env : Env ω) (n : ℕ) (s : Machine ω) (calls : List Call) (t : Machine ω) : Prop :=
  runOver env n s = some (t, calls)

variable {env : Env ω}

theorem Runs.refl (s : Machine ω) : Runs env 0 s [] s := rfl

theorem Runs.trans : ∀ {m n : ℕ} {s t u : Machine ω} {calls later : List Call},
    Runs env m s calls t → Runs env n t later u → Runs env (m + n) s (calls ++ later) u
  | 0, n, s, t, u, calls, later, hst, htu => by
      obtain ⟨rfl, rfl⟩ := Prod.mk.inj (Option.some.inj hst)
      rwa [Nat.zero_add, List.nil_append]
  | m + 1, n, s, t, u, calls, later, hst, htu => by
      obtain ⟨⟨s₁, first⟩, hstep, hrest⟩ := Option.bind_eq_some_iff.mp hst
      obtain ⟨⟨t', rest⟩, hrun, heq⟩ := Option.bind_eq_some_iff.mp hrest
      obtain ⟨rfl, rfl⟩ := Prod.mk.inj (Option.some.inj heq)
      have htail : Runs env (m + n) s₁ (rest ++ later) u := Runs.trans hrun htu
      rw [Nat.add_right_comm, Runs, runOver, hstep, Option.bind_eq_bind, Option.bind_some]
      dsimp only
      rw [show runOver env (m + n) s₁ = _ from htail, List.append_assoc]
      rfl

theorem Runs.insn {s : Machine ω} {i : Insn} (hi : insnIn s.mem s.pc = some i)
    (hcall : i.isCall = false) : Runs env 1 s [] (exec env i s) := by
  rw [Runs, runOver, stepOver, hi]
  simp [hcall, runOver]

theorem Runs.call {s : Machine ω} {rn : BitVec 5} (hi : insnIn s.mem s.pc = some (.blr rn)) :
    Runs env 1 s [⟨s.reg rn, s.x 31⟩] (env.callee (exec env (.blr rn) s)) := by
  rw [Runs, runOver, stepOver, hi]
  simp [Insn.isCall, runOver, exec]

/-! ## Blocks -/

def Insn.isSequential : Insn → Bool
  | .bCond _ _ | .b _ | .br _ | .blr _ | .ret _ | .retab => false
  | _ => true

theorem Insn.isCall_of_isSequential {i : Insn} (h : i.isSequential = true) : i.isCall = false := by
  cases i <;> first | rfl | exact absurd h Bool.false_ne_true

@[simp] theorem Machine.setReg_mem (s : Machine ω) (r : BitVec 5) (v : BitVec 64) :
    (s.setReg r v).mem = s.mem := by
  rw [Machine.setReg]
  split_ifs <;> rfl

@[simp] theorem Machine.setReg_pc (s : Machine ω) (r : BitVec 5) (v : BitVec 64) :
    (s.setReg r v).pc = s.pc := by
  rw [Machine.setReg]
  split_ifs <;> rfl

@[simp] theorem exec_mem (i : Insn) (s : Machine ω) : (exec env i s).mem = s.mem := by
  cases i <;> simp only [exec, Machine.next, Machine.jump, Machine.setReg_mem]
  split_ifs <;> rfl

theorem exec_pc {i : Insn} (h : i.isSequential = true) (s : Machine ω) :
    (exec env i s).pc = s.pc + 4 := by
  cases i with
  | address i => cases i <;> rfl
  | bCond | b | br | blr | ret | retab => exact absurd h Bool.false_ne_true
  | _ => simp only [exec, Machine.next, Machine.jump, Machine.setReg_pc]

def execAll (env : Env ω) (is : List Insn) (s : Machine ω) : Machine ω :=
  is.foldl (fun s i => exec env i s) s

theorem execAll_mem : ∀ (is : List Insn) (s : Machine ω), (execAll env is s).mem = s.mem
  | [], _ => rfl
  | i :: is, s => (execAll_mem is (exec env i s)).trans (exec_mem i s)

theorem execAll_pc : ∀ {is : List Insn} (s : Machine ω), (∀ i ∈ is, i.isSequential = true) →
    (execAll env is s).pc = s.pc + BitVec.ofNat 64 (4 * is.length)
  | [], s, _ => (BitVec.add_zero s.pc).symm
  | i :: is, s, h => by
      obtain ⟨hi, his⟩ := List.forall_mem_cons.mp h
      have hrest : (execAll env is (exec env i s)).pc =
          (exec env i s).pc + BitVec.ofNat 64 (4 * is.length) := execAll_pc _ his
      rw [exec_pc hi, BitVec.add_assoc] at hrest
      rw [List.length_cons, Nat.mul_succ, Nat.add_comm (4 * _), BitVec.ofNat_add]
      exact hrest

/-- The instructions are in memory from `a` on. -/
def CodeAt (mem : Memory) (a : BitVec 64) (is : List Insn) : Prop :=
  ∀ k i, is[k]? = some i → insnIn mem (a + BitVec.ofNat 64 (4 * k)) = some i

theorem codeAt_cons {mem : Memory} {a : BitVec 64} {i : Insn} {is : List Insn} :
    CodeAt mem a (i :: is) ↔ insnIn mem a = some i ∧ CodeAt mem (a + 4) is := by
  have haddr (k : ℕ) : a + 4 + BitVec.ofNat 64 (4 * k) = a + BitVec.ofNat 64 (4 * (k + 1)) := by
    rw [BitVec.add_assoc, Nat.mul_succ, Nat.add_comm (4 * k), BitVec.ofNat_add]
    rfl
  have hzero : a + BitVec.ofNat 64 (4 * 0) = a := BitVec.add_zero a
  constructor
  · intro h
    refine ⟨hzero ▸ h 0 i rfl, fun k j hj => ?_⟩
    rw [haddr]
    exact h (k + 1) j hj
  · rintro ⟨hi, his⟩ k j hj
    cases k with
    | zero =>
      rw [hzero, hi]
      exact hj
    | succ k =>
      rw [← haddr]
      exact his k j hj

theorem codeAt_append {mem : Memory} {a : BitVec 64} {is js : List Insn}
    (h : CodeAt mem a (is ++ js)) :
    CodeAt mem a is ∧ CodeAt mem (a + BitVec.ofNat 64 (4 * is.length)) js := by
  refine ⟨fun k i hi => h k i ?_, fun k j hj => ?_⟩
  · rw [List.getElem?_append_left (List.getElem?_eq_some_iff.mp hi).1, hi]
  · have hindex : (is ++ js)[is.length + k]? = some j := by
      rw [List.getElem?_append_right (Nat.le_add_right _ _), Nat.add_sub_cancel_left, hj]
    rw [BitVec.add_assoc, ← BitVec.ofNat_add, ← Nat.mul_add]
    exact h _ j hindex

/-- The word at `off` of a byte list. -/
def codeWord (bs : List UInt8) (off : ℕ) : BitVec 32 := BitVec.ofNat 32 (leNat ((bs.drop off).take 4))

theorem codeAt_of_holds {mem : Memory} {a : BitVec 64} {bs : List UInt8} {is : List Insn}
    (h : mem.Holds a bs) (hfits : 4 * is.length ≤ bs.length)
    (hdecode : ∀ k i, is[k]? = some i → decode (codeWord bs (4 * k)) = some i) :
    CodeAt mem a is := by
  intro k i hi
  have hk : k < is.length := (List.getElem?_eq_some_iff.mp hi).1
  rw [insnIn, h.load (show 4 * k + 4 ≤ bs.length by omega)]
  exact hdecode k i hi

theorem Runs.block : ∀ {is : List Insn} {s : Machine ω}, CodeAt s.mem s.pc is →
    (∀ i ∈ is, i.isSequential = true) → Runs env is.length s [] (execAll env is s)
  | [], s, _, _ => Runs.refl s
  | i :: is, s, hcode, hseq => by
      obtain ⟨hi, his⟩ := codeAt_cons.mp hcode
      obtain ⟨hseqi, hseqis⟩ := List.forall_mem_cons.mp hseq
      have hfirst : Runs env 1 s [] (exec env i s) :=
        Runs.insn hi (Insn.isCall_of_isSequential hseqi)
      have hrest : Runs env is.length (exec env i s) [] (execAll env is (exec env i s)) := by
        refine Runs.block ?_ hseqis
        rw [exec_mem, exec_pc hseqi]
        exact his
      have hrun := hfirst.trans hrest
      rwa [Nat.add_comm] at hrun

end Semantics
end SecureWorld.Foundations.A64
