import Mathlib.Data.List.Forall2
import Mathlib.Logic.Function.Basic
import SecureWorld.Foundations.Memory

/-! # Straight-line code in two register widths

Each general register is used with 64 bits (`x`) or with its low 32 (`w`), and a 32-bit result clears
the high half. Code in which some instructions have been given their 64-bit form is compared with
code in which everything that depends on a value, by registers, flags or memory, is evaluated in 64
bits.
-/
namespace SecureWorld.Foundations.Widths
set_option autoImplicit false

inductive Width
  | w
  | x
deriving DecidableEq

def Width.bits : Width → ℕ
  | .w => 32
  | .x => 64

inductive Reg
  | num (n : Fin 31)
  | zr
  | sp
deriving DecidableEq

/-- A register, shifted to the left or extended from 32 bits before the shift, or a number. -/
inductive Arg
  | reg (r : Reg)
  | lsl (r : Reg) (amount : ℕ)
  | uxtw (r : Reg) (amount : ℕ)
  | sxtw (r : Reg) (amount : ℕ)
  | imm (v : ℕ)
deriving DecidableEq

/-- Instructions with a form for each width, loads of a whole register, and any others, which read
their operands with fixed widths. -/
inductive Insn (ω : Type)
  | alu (op : ω) (width : Width) (rd : Reg) (args : List Arg)
  | ldr (width : Width) (rt base : Reg) (disp : ℕ)
  | fixed (op : ω) (reads : List (Width × Reg)) (writes : List Reg)
deriving DecidableEq

structure Flags where
  n : Bool
  z : Bool
  c : Bool
  v : Bool
deriving DecidableEq

structure State where
  x : Reg → BitVec 64
  flags : Flags
  mem : Memory

/-- What an operation computes from its operands, in any width, and from the flags if it reads
them; and the flags that it sets. -/
structure Alu where
  readsFlags : Bool
  value : (n : ℕ) → List (BitVec n) → Option Flags → BitVec n
  flags : Option ((n : ℕ) → List (BitVec n) → Option Flags → Flags)

/-- `size` bytes of memory. -/
structure Access where
  addr : BitVec 64
  size : ℕ
deriving DecidableEq

/-- What an operation with fixed widths loads, gives and stores, from its operands and what it
loaded. -/
structure Fixed where
  loads : List (BitVec 64) → List Access
  value : List (BitVec 64) → List ℕ → List (BitVec 64)
  stores : List (BitVec 64) → List ℕ → List (Access × ℕ)

structure Isa (ω : Type) where
  alu : ω → Alu
  fixed : ω → Fixed

/-! ## Values -/

def State.get (s : State) (r : Reg) : BitVec 64 := if r = .zr then 0 else s.x r

def State.set (s : State) (r : Reg) (v : BitVec 64) : State :=
  if r = .zr then s else { s with x := Function.update s.x r v }

@[simp] theorem State.get_set_self (s : State) {r : Reg} (hr : r ≠ .zr) (v : BitVec 64) :
    (s.set r v).get r = v := by
  simp [State.get, State.set, hr]

theorem State.get_set_of_ne (s : State) {g r : Reg} (h : g ≠ r) (v : BitVec 64) :
    (s.set r v).get g = s.get g := by
  by_cases hr : r = .zr
  · rw [State.set, if_pos hr]
  · simp [State.get, State.set, hr, h]

def Arg.val (n : ℕ) (s : State) : Arg → BitVec n
  | .reg r => (s.get r).setWidth n
  | .lsl r amount => (s.get r).setWidth n <<< amount
  | .uxtw r amount => ((s.get r).setWidth 32).setWidth n <<< amount
  | .sxtw r amount => ((s.get r).setWidth 32).signExtend n <<< amount
  | .imm v => BitVec.ofNat n v

/-- The operand with `x` for `w`: an extension of all 64 bits leaves the shift. -/
def Arg.widen : Arg → Arg
  | .uxtw r amount | .sxtw r amount => .lsl r amount
  | a => a

def Arg.reg? : Arg → Option Reg
  | .reg r | .lsl r _ | .uxtw r _ | .sxtw r _ => some r
  | .imm _ => none

/-- The value that an instruction forms for one of its operands in 32 bits is cut from the value in
64 bits. -/
theorem Arg.val_w (s : State) (a : Arg) : a.val 32 s = (a.widen.val 64 s).setWidth 32 := by
  cases a with
  | reg r => simp [Arg.val, Arg.widen]
  | lsl r amount =>
    simp only [Arg.val, Arg.widen, BitVec.setWidth_eq]
    exact (BitVec.setWidth_shiftLeft_of_le (by decide)).symm
  | uxtw r amount =>
    simp only [Arg.val, Arg.widen, BitVec.setWidth_eq]
    exact (BitVec.setWidth_shiftLeft_of_le (by decide)).symm
  | sxtw r amount =>
    simp only [Arg.val, Arg.widen, BitVec.setWidth_eq, BitVec.signExtend_eq]
    exact (BitVec.setWidth_shiftLeft_of_le (by decide)).symm
  | imm v =>
    apply BitVec.eq_of_toNat_eq
    simp only [Arg.val, Arg.widen, BitVec.toNat_setWidth, BitVec.toNat_ofNat]
    omega

theorem shiftLeft_eq_iff {a b : BitVec 64} {amount : ℕ} :
    a <<< amount = b <<< amount ↔ ∀ j, j + amount < 64 → a.getLsbD j = b.getLsbD j := by
  constructor
  · intro h j hj
    have hbit := congrArg (fun v : BitVec 64 => v.getLsbD (j + amount)) h
    have hnot : ¬j + amount < amount := by omega
    simpa only [BitVec.getLsbD_shiftLeft, hj, hnot, decide_true, decide_false, Bool.not_false,
      Bool.true_and, Nat.add_sub_cancel] using hbit
  · intro h
    apply BitVec.eq_of_getLsbD_eq
    intro i hi
    rw [BitVec.getLsbD_shiftLeft, BitVec.getLsbD_shiftLeft]
    by_cases hlt : i < amount
    · simp [hlt]
    · rw [h (i - amount) (by omega)]

/-- What is left of a value after the shift fixes what is left of its extended low half. -/
theorem zeroExtend_shiftLeft {v low : BitVec 64} {amount : ℕ}
    (h : (low.setWidth 32).setWidth 64 <<< amount = v <<< amount) :
    (v.setWidth 32).setWidth 64 <<< amount = (low.setWidth 32).setWidth 64 <<< amount := by
  rw [shiftLeft_eq_iff] at h ⊢
  intro j hj
  have hv := h j hj
  simp only [BitVec.getLsbD_setWidth] at hv ⊢
  rw [← hv]
  by_cases hlow : j < 32 <;> simp [hlow]

theorem signExtend_shiftLeft {v low : BitVec 64} {amount : ℕ}
    (h : (low.setWidth 32).signExtend 64 <<< amount = v <<< amount) :
    (v.setWidth 32).signExtend 64 <<< amount = (low.setWidth 32).signExtend 64 <<< amount := by
  rw [shiftLeft_eq_iff] at h ⊢
  have hlow (j : ℕ) (hj : j + amount < 64) (hlt : j < 32) : v.getLsbD j = low.getLsbD j := by
    have hv := h j hj
    have hlt' : j < 64 := by omega
    rw [BitVec.getLsbD_signExtend] at hv
    simpa [hlt, hlt'] using hv.symm
  intro j hj
  rw [BitVec.getLsbD_signExtend, BitVec.getLsbD_signExtend]
  by_cases hlt : j < 32
  · simp [hlt, hlow j hj hlt]
  · -- the sign is below what the shift drops
    have hsign : (v.setWidth 32).msb = (low.setWidth 32).msb := by
      rw [BitVec.msb_setWidth, BitVec.msb_setWidth]
      exact congrArg (true && ·) (hlow 31 (by omega) (by decide))
    rw [if_neg hlt, if_neg hlt, hsign]

/-- An operand with the same value in `s` as the full one in `r` has it in `r` too. -/
theorem Arg.val_transfer {s r : State} {width : Width} {a : Arg}
    (h : (a.val width.bits s).toNat = (a.widen.val 64 r).toNat) :
    a.val width.bits r = a.val width.bits s := by
  cases width with
  | w =>
    have hlt := (a.val 32 s).isLt
    apply BitVec.eq_of_toNat_eq
    change (a.val 32 s).toNat = _ at h
    change (a.val 32 r).toNat = (a.val 32 s).toNat
    rw [Arg.val_w r, BitVec.toNat_setWidth, ← h, Nat.mod_eq_of_lt hlt]
  | x =>
    have heq : a.val 64 s = a.widen.val 64 r := BitVec.eq_of_toNat_eq h
    change a.val 64 r = a.val 64 s
    cases a with
    | reg _ => exact heq.symm
    | lsl _ _ => exact heq.symm
    | imm _ => rfl
    | uxtw g amount =>
      simp only [Arg.val, Arg.widen, BitVec.setWidth_eq] at heq ⊢
      exact zeroExtend_shiftLeft heq
    | sxtw g amount =>
      simp only [Arg.val, Arg.widen, BitVec.setWidth_eq] at heq ⊢
      exact signExtend_shiftLeft heq

/-! ## What depends on a value -/

/-- The registers that were computed from the value, and whether the flags were. A byte of memory
that a dependent instruction stored has its place in the stored value, and that value's size. -/
structure Derived where
  regs : Reg → Bool
  flags : Bool
  mem : BitVec 64 → Option (ℕ × ℕ)

namespace Derived

def touches (t : Derived) (a : Access) : Bool :=
  (List.range a.size).any fun k => (t.mem (a.addr + BitVec.ofNat 64 k)).isSome

/-- The size of the dependent value stored at `addr`, as long as all of it is there. -/
def extent (t : Derived) (addr : BitVec 64) : ℕ :=
  match t.mem addr with
  | some (0, size) =>
      if (List.range size).all fun k => t.mem (addr + BitVec.ofNat 64 k) = some (k, size) then size
      else 0
  | _ => 0

def store (dependent : Bool) (t : Derived) (a : Access) : Derived :=
  { t with mem := fun b =>
      if Memory.Covers a.addr a.size b then
        if dependent then some ((b - a.addr).toNat, a.size) else none
      else t.mem b }

end Derived

/-! ## Instructions -/

variable {ω : Type} (isa : Isa ω)

/-- What an instruction reads and what comes out of it. -/
structure Seen where
  operands : List ℕ
  flagsIn : Option Flags
  loaded : List ℕ
  results : List ℕ
  flagsOut : Option Flags
  stored : List (Access × ℕ)
deriving DecidableEq

namespace Insn

def flagsIn (s : State) (op : ω) : Option Flags :=
  if (isa.alu op).readsFlags then some s.flags else none

def readVal (s : State) (read : Width × Reg) : BitVec 64 :=
  ((s.get read.2).setWidth read.1.bits).setWidth 64

def address (s : State) (base : Reg) (disp : ℕ) : BitVec 64 := s.get base + BitVec.ofNat 64 disp

def loads (s : State) : Insn ω → List Access
  | .alu _ _ _ _ => []
  | .ldr width _ base disp => [⟨address s base disp, width.bits / 8⟩]
  | .fixed op reads _ => (isa.fixed op).loads (reads.map (readVal s))

def loaded (s : State) (insn : Insn ω) : List ℕ :=
  (insn.loads isa s).map fun a => s.mem.load a.addr a.size

/-- What it stores, before that is cut to the size of the access. -/
def stores (s : State) (insn : Insn ω) : List (Access × ℕ) :=
  match insn with
  | .fixed op reads _ => (isa.fixed op).stores (reads.map (readVal s)) (insn.loaded isa s)
  | _ => []

def cut (st : Access × ℕ) : Access × ℕ := (st.1, st.2 % 256 ^ st.1.size)

def seen (s : State) (insn : Insn ω) : Seen :=
  match insn with
  | .alu op width _ args =>
      let vals := args.map fun a => a.val width.bits s
      let flags := flagsIn isa s op
      { operands := vals.map BitVec.toNat
        flagsIn := flags
        loaded := []
        results := [((isa.alu op).value width.bits vals flags).toNat]
        flagsOut := (isa.alu op).flags.map fun f => f width.bits vals flags
        stored := [] }
  | .ldr _ _ base disp =>
      { operands := [(address s base disp).toNat]
        flagsIn := none
        loaded := insn.loaded isa s
        results := insn.loaded isa s
        flagsOut := none
        stored := [] }
  | .fixed op reads _ =>
      { operands := (reads.map (readVal s)).map BitVec.toNat
        flagsIn := none
        loaded := insn.loaded isa s
        results := ((isa.fixed op).value (reads.map (readVal s)) (insn.loaded isa s)).map
          BitVec.toNat
        flagsOut := none
        stored := (insn.stores isa s).map cut }

def writes : Insn ω → List Reg
  | .alu _ _ rd _ => [rd]
  | .ldr _ rt _ _ => [rt]
  | .fixed _ _ writes => writes

def step (insn : Insn ω) (s : State) : State :=
  let seen := insn.seen isa s
  let out : State :=
    { x := s.x
      flags := seen.flagsOut.getD s.flags
      mem := seen.stored.foldl (fun mem st => mem.store st.1.addr st.1.size st.2) s.mem }
  (insn.writes.zip seen.results).foldl (fun out wr => out.set wr.1 (BitVec.ofNat 64 wr.2)) out

theorem get_step_of_not_written {insn : Insn ω} {g : Reg} (h : g ∉ insn.writes) (s : State) :
    (insn.step isa s).get g = s.get g := by
  have hsets (wrs : List (Reg × ℕ)) (hwrs : ∀ wr ∈ wrs, g ≠ wr.1) (out : State) :
      (wrs.foldl (fun out wr => out.set wr.1 (BitVec.ofNat 64 wr.2)) out).get g = out.get g := by
    induction wrs generalizing out with
    | nil => rfl
    | cons wr wrs ih =>
      obtain ⟨hne, hrest⟩ := List.forall_mem_cons.mp hwrs
      rw [List.foldl_cons, ih hrest, State.get_set_of_ne _ hne]
  refine (hsets _ (fun wr hwr heq => h ?_) _).trans rfl
  rw [heq]
  exact (List.of_mem_zip hwr).1

theorem get_run_of_not_written {insns : List (Insn ω)} {g : Reg}
    (h : ∀ insn ∈ insns, g ∉ insn.writes) (s : State) :
    (insns.foldl (fun s insn => insn.step isa s) s).get g = s.get g := by
  induction insns generalizing s with
  | nil => rfl
  | cons insn insns ih =>
    obtain ⟨hinsn, hrest⟩ := List.forall_mem_cons.mp h
    rw [List.foldl_cons, ih hrest, get_step_of_not_written isa hinsn]

/-- The 64-bit form. Loads and the others stay as they are. -/
def widen : Insn ω → Insn ω
  | .alu op _ rd args => .alu op .x rd (args.map Arg.widen)
  | i => i

def isAlu : Insn ω → Bool
  | .alu _ _ _ _ => true
  | _ => false

/-- The whole dependent values where it loads. -/
def loadedFull (t : Derived) (s : State) (insn : Insn ω) : List ℕ :=
  (insn.loads isa s).map fun a => s.mem.load a.addr (max a.size (t.extent a.addr))

/-- What an instruction reads and gives when nothing is cut off: what the 64-bit form does, if it
has one; else whole registers, whole values of memory, and stores of all that was computed. -/
def seenFull (t : Derived) (s : State) (insn : Insn ω) : Seen :=
  match insn with
  | .alu _ _ _ _ => insn.widen.seen isa s
  | .ldr _ _ _ _ => { insn.seen isa s with loaded := insn.loadedFull isa t s }
  | .fixed _ reads _ =>
      { insn.seen isa s with
        operands := reads.map fun read => (s.get read.2).toNat
        loaded := insn.loadedFull isa t s
        stored := insn.stores isa s }

variable {isa}

theorem seen_widen {t : Derived} {s : State} {insn : Insn ω} (h : insn.isAlu = true) :
    insn.widen.seen isa s = insn.seenFull isa t s := by
  cases insn with
  | alu op width rd args => rfl
  | ldr width rt base disp => cases h
  | fixed op reads writes => cases h

/-- An instruction that sees what its 64-bit form does leaves the same state. -/
theorem step_eq_of_seen {t : Derived} {o q : Insn ω} {s : State} (hq : q = o ∨ q = o.widen)
    (h : q.seen isa s = o.seenFull isa t s) : q.step isa s = o.widen.step isa s := by
  cases o with
  | alu op width rd args =>
    rw [← seen_widen rfl] at h
    unfold step
    rw [h]
    rcases hq with rfl | rfl <;> rfl
  | ldr width rt base disp => rcases hq with rfl | rfl <;> rfl
  | fixed op reads writes => rcases hq with rfl | rfl <;> rfl

theorem readVal_of_full {r s : State} {read : Width × Reg}
    (h : (readVal s read).toNat = (r.get read.2).toNat) : readVal r read = readVal s read := by
  obtain ⟨width, g⟩ := read
  apply BitVec.eq_of_toNat_eq
  simp only [readVal, BitVec.toNat_setWidth] at h ⊢
  cases width <;> dsimp only [Width.bits] at h ⊢ <;> omega

theorem readVal_eq_full {r s : State} {read : Width × Reg}
    (h : (readVal s read).toNat = (r.get read.2).toNat) :
    (readVal r read).toNat = (r.get read.2).toNat := by rw [readVal_of_full h, h]

/-- A load that gives a whole value of another memory gives as much of that memory. -/
theorem load_of_full {mem mem' : Memory} {addr : BitVec 64} {n m : ℕ}
    (h : mem.load addr n = mem'.load addr (max n m)) : mem'.load addr n = mem.load addr n := by
  rw [← Memory.load_mod mem' addr (Nat.le_max_left n m), ← h,
    Nat.mod_eq_of_lt (mem.load_lt addr n)]

/-- What an instruction sees in `s` as its 64-bit form does in `r`, it sees in `r` too. -/
theorem seen_transfer {t : Derived} {o q : Insn ω} {s r : State} (hq : q = o ∨ q = o.widen)
    (h : q.seen isa s = o.seenFull isa t r) : q.seen isa r = o.seenFull isa t r := by
  cases o with
  | alu op width rd args =>
    rcases hq with rfl | rfl
    · have hvals :
          args.map (fun a => a.val width.bits r) = args.map fun a => a.val width.bits s := by
        have hoperands := congrArg Seen.operands h
        simp only [seen, seenFull, widen, List.map_map] at hoperands
        refine List.map_congr_left fun a ha => Arg.val_transfer ?_
        exact List.map_inj_left.mp hoperands a ha
      have hflags : flagsIn isa r op = flagsIn isa s op := (congrArg Seen.flagsIn h).symm
      rw [← h]
      simp only [seen, hvals, hflags]
    · rfl
  | ldr width rt base disp =>
    have hsame : q = .ldr width rt base disp := by rcases hq with rfl | rfl <;> rfl
    subst hsame
    have hloaded := congrArg Seen.loaded h
    have hresults := congrArg Seen.results h
    simp only [seen, seenFull] at hloaded hresults ⊢
    rw [← hloaded, hresults]
  | fixed op reads writes =>
    have hsame : q = .fixed op reads writes := by rcases hq with rfl | rfl <;> rfl
    subst hsame
    have hoperands := congrArg Seen.operands h
    have hfull := congrArg Seen.loaded h
    have hstored := congrArg Seen.stored h
    simp only [seen, seenFull, List.map_map] at hoperands hfull hstored ⊢
    have hread := List.map_inj_left.mp hoperands
    have hvals : reads.map (readVal r) = reads.map (readVal s) :=
      List.map_congr_left fun read hmem => readVal_of_full (hread read hmem)
    have hloads : loads isa r (.fixed op reads writes) = loads isa s (.fixed op reads writes) := by
      rw [loads, loads, hvals]
    have hloaded : loaded isa r (.fixed op reads writes) =
        loaded isa s (.fixed op reads writes) := by
      rw [loaded, loadedFull, hloads] at hfull
      rw [loaded, loaded, hloads]
      exact List.map_congr_left fun a ha => load_of_full (List.map_inj_left.mp hfull a ha)
    have hstores : stores isa r (.fixed op reads writes) =
        stores isa s (.fixed op reads writes) := by simp only [stores, hvals, hloaded]
    rw [hstores] at hstored
    rw [hstores, hstored, hloaded, hfull]
    congr 1
    exact List.map_congr_left fun read hmem => readVal_eq_full (hread read hmem)

end Insn

/-! ## Which instructions depend on it -/

namespace Insn

def reads : Insn ω → List Reg
  | .alu _ _ _ args => args.filterMap Arg.reg?
  | .ldr _ _ base _ => [base]
  | .fixed _ reads _ => reads.map Prod.snd

def readsFlags (isa : Isa ω) : Insn ω → Bool
  | .alu op _ _ _ => (isa.alu op).readsFlags
  | _ => false

def setsFlags (isa : Isa ω) : Insn ω → Bool
  | .alu op _ _ _ => (isa.alu op).flags.isSome
  | _ => false

/-- It reads something that was computed from the value. -/
def depends (isa : Isa ω) (t : Derived) (s : State) (insn : Insn ω) : Bool :=
  insn.reads.any t.regs || (insn.readsFlags isa && t.flags) || (insn.loads isa s).any t.touches

end Insn

def Derived.after (isa : Isa ω) (t : Derived) (s : State) (insn : Insn ω) : Derived :=
  let d := insn.depends isa t s
  { regs := fun r => if r ∈ insn.writes then d && r ≠ .zr else t.regs r
    flags := if insn.setsFlags isa then d else t.flags
    mem := (((insn.seen isa s).stored.map Prod.fst).foldl (Derived.store d) t).mem }

/-! ## Runs -/

section Runs

/-- The instruction in its 64-bit form if `wide`. -/
def inWidth (wide : Bool) (insn : Insn ω) : Insn ω := if wide then insn.widen else insn

def widenWhere (wide : List Bool) (insns : List (Insn ω)) : List (Insn ω) :=
  List.zipWith inWidth wide insns

/-- Which of the instructions depend on the value when all that depends on it is evaluated in 64
bits. -/
def dependents (isa : Isa ω) : Derived → List (Insn ω) → State → List Bool
  | _, [], _ => []
  | t, o :: os, r =>
      let d := o.depends isa t r
      d :: dependents isa (t.after isa r o) os ((inWidth d o).step isa r)

/-- Side by side: the code `qs` from `s`, and the original code from `r` with the dependent
instructions in 64 bits. Each dependent instruction of `qs` sees what the other does. -/
def SeesFull : Derived → List (Insn ω) → List (Insn ω) → State → State → Prop
  | t, o :: os, q :: qs, s, r =>
      (o.depends isa t r = true → q.seen isa s = o.seenFull isa t r) ∧
        SeesFull (t.after isa r o) os qs (q.step isa s) ((inWidth (o.depends isa t r) o).step isa r)
  | _, _, _, _, _ => True

/-- In the original code with the dependent instructions in 64 bits, nothing would be cut off by
those that are not `wide`. -/
def FitsNarrow : Derived → List Bool → List (Insn ω) → State → Prop
  | t, w :: ws, o :: os, r =>
      (o.depends isa t r = true → w = false → o.seen isa r = o.seenFull isa t r) ∧
        FitsNarrow (t.after isa r o) ws os ((inWidth (o.depends isa t r) o).step isa r)
  | _, _, _, _ => True

/-- Two codes, of which the dependent instructions see the same. -/
def SeesAlike : List Bool → List (Insn ω) → List (Insn ω) → State → State → Prop
  | d :: ds, q :: qs, q' :: qs', s, s' =>
      (d = true → q.seen isa s = q'.seen isa s') ∧
        SeesAlike ds qs qs' (q.step isa s) (q'.step isa s')
  | _, _, _, _, _ => True

/-- Widening the others of the `wide` instructions, those that do not depend on the value, makes no
difference to what the dependent ones see. -/
def OthersHarmless (t : Derived) (wide : List Bool) (os : List (Insn ω)) (s : State) : Prop :=
  let ds := dependents isa t os s
  SeesAlike isa ds (widenWhere wide os) (widenWhere (List.zipWith Bool.and ds wide) os) s s

instance decidableFitsNarrow : ∀ (t : Derived) (ws : List Bool) (os : List (Insn ω)) (r : State),
    Decidable (FitsNarrow isa t ws os r)
  | t, _ :: ws, o :: os, r =>
      have := decidableFitsNarrow (t.after isa r o) ws os ((inWidth (o.depends isa t r) o).step isa r)
      inferInstanceAs (Decidable (_ ∧ _))
  | _, [], _, _ => isTrue trivial
  | _, _ :: _, [], _ => isTrue trivial

variable {isa}

/-- Only instructions with a 64-bit form are `wide`. -/
abbrev Widenable (wide : List Bool) (os : List (Insn ω)) : Prop :=
  List.Forall₂ (fun w o => w = true → o.isAlu = true) wide os

theorem inWidth_eq (w : Bool) (o : Insn ω) : inWidth w o = o ∨ inWidth w o = o.widen := by
  cases w
  · exact .inl rfl
  · exact .inr rfl

/-- Where the dependent instructions alone are widened, they see the full values iff the others of
them cut nothing off. -/
theorem seesFull_dependent_iff {t : Derived} {wide : List Bool} {os : List (Insn ω)} {s : State}
    (h : Widenable wide os) :
    SeesFull isa t os
        (widenWhere (List.zipWith Bool.and (dependents isa t os s) wide) os) s s ↔
      FitsNarrow isa t wide os s := by
  induction h generalizing t s with
  | nil => exact Iff.rfl
  | @cons w o wide os hw h ih =>
    simp only [dependents, widenWhere, List.zipWith_cons_cons, SeesFull, FitsNarrow] at ih ⊢
    generalize o.depends isa t s = d at ih ⊢
    cases d with
    | false => exact and_congr (by simp) ih
    | true =>
      rw [Bool.true_and]
      have hhead : (inWidth w o).seen isa s = o.seenFull isa t s ↔
          (w = false → o.seen isa s = o.seenFull isa t s) := by
        cases w with
        | false => exact ⟨fun h _ => h, fun h => h rfl⟩
        | true => exact iff_of_true (Insn.seen_widen (hw rfl)) nofun
      simp only [forall_const, hhead]
      refine and_congr_right fun hseen => ?_
      rw [Insn.step_eq_of_seen (inWidth_eq w o) (hhead.mpr hseen)]
      exact ih

theorem SeesFull.fitsNarrow {t : Derived} {wide : List Bool} {os : List (Insn ω)} {s r : State}
    (h : Widenable wide os) (hsees : SeesFull isa t os (widenWhere wide os) s r) :
    FitsNarrow isa t wide os r := by
  induction h generalizing t s r with
  | nil => trivial
  | cons _ h ih =>
    refine ⟨fun hd hw => ?_, ih hsees.2⟩
    subst hw
    exact Insn.seen_transfer (.inl rfl) (hsees.1 hd)

theorem SeesFull.trans_iff {t : Derived} {os qs qs' : List (Insn ω)} {s s' r : State}
    (hlen : qs.length = qs'.length) (hos : os.length = qs.length)
    (h : SeesFull isa t os qs' s' r) :
    SeesFull isa t os qs s r ↔ SeesAlike isa (dependents isa t os r) qs qs' s s' := by
  induction os generalizing t qs qs' s s' r with
  | nil => cases qs <;> exact Iff.rfl
  | cons o os ih =>
    cases qs with
    | nil => cases hos
    | cons q qs =>
      cases qs' with
      | nil => cases hlen
      | cons q' qs' =>
        refine and_congr (imp_congr_right fun hd => ?_)
          (ih (Nat.succ.inj hlen) (Nat.succ.inj hos) h.2)
        rw [h.1 hd]

theorem dependents_length (t : Derived) (os : List (Insn ω)) (r : State) :
    (dependents isa t os r).length = os.length := by
  induction os generalizing t r with
  | nil => rfl
  | cons o os ih => exact congrArg (· + 1) (ih _ _)

theorem SeesAlike.refl (ds : List Bool) (qs : List (Insn ω)) (s : State) :
    SeesAlike isa ds qs qs s s := by
  induction ds generalizing qs s with
  | nil => trivial
  | cons d ds ih =>
    cases qs with
    | nil => trivial
    | cons q qs => exact ⟨fun _ => rfl, ih qs _⟩

theorem othersHarmless_of_dependent {t : Derived} {wide : List Bool} {os : List (Insn ω)} {s : State}
    (h : List.zipWith Bool.and (dependents isa t os s) wide = wide) :
    OthersHarmless isa t wide os s := by
  simp only [OthersHarmless, h]
  exact SeesAlike.refl _ _ _

/-- Widening some instructions gives the dependent ones their full operands and results exactly
where those left in 32 bits lose nothing and the others that were widened make no difference. -/
theorem seesFull_iff {t : Derived} {wide : List Bool} {os : List (Insn ω)} {s : State}
    (h : Widenable wide os) :
    SeesFull isa t os (widenWhere wide os) s s ↔
      FitsNarrow isa t wide os s ∧ OthersHarmless isa t wide os s := by
  have hwide : (widenWhere wide os).length = os.length := by
    rw [widenWhere, List.length_zipWith, h.length_eq, Nat.min_self]
  have hboth : (widenWhere (List.zipWith Bool.and (dependents isa t os s) wide) os).length =
      os.length := by
    rw [widenWhere, List.length_zipWith, List.length_zipWith, dependents_length, h.length_eq,
      Nat.min_self, Nat.min_self]
  have hlen := hwide.trans hboth.symm
  constructor
  · intro hsees
    have hfits := hsees.fitsNarrow h
    have hdep := (seesFull_dependent_iff h).mpr hfits
    exact ⟨hfits, (hdep.trans_iff hlen hwide.symm).mp hsees⟩
  · rintro ⟨hfits, halike⟩
    have hdep := (seesFull_dependent_iff h).mpr hfits
    exact (hdep.trans_iff hlen hwide.symm).mpr halike

end Runs

end SecureWorld.Foundations.Widths
