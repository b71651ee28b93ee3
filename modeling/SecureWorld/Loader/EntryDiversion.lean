import SecureWorld.Foundations.Run
import SecureWorld.Loader.CtorTrampoline
import SecureWorld.Loader.PerThreadRegistry

/-! # The diversion of CL4's entry

The loader fills a scratch page and leaves its plans in globals; `exception_return` looks at them
on every exception return. The first guarded return to CL4's entry goes to the trampoline instead,
so the constructors run before the kernel does.
-/
namespace SecureWorld.Loader
open Foundations A64
set_option autoImplicit false

/-! ## The hook -/

/-- The `g_cl4_` globals. -/
structure Cl4Globals where
  entryPc : BitVec 64
  x1Inject : BitVec 64
  trampPc : BitVec 64
  ctorsDone : Bool
  tpidr : BitVec 64
  tpidrro : BitVec 64
deriving DecidableEq

/-- A processor with its GXF state. -/
structure GuestCpu (ω : Type) where
  machine : Machine ω
  currentg : Bool
  tpidrro : BitVec 64

section Hook
variable {ω : Type}

def GuestCpu.setPc (cpu : GuestCpu ω) (pc : BitVec 64) : GuestCpu ω :=
  { cpu with machine := cpu.machine.jump pc }

def GuestCpu.setX1 (cpu : GuestCpu ω) (v : BitVec 64) : GuestCpu ω :=
  { cpu with machine := { cpu.machine with x := Function.update cpu.machine.x 1 v } }

/-- The probe: a missing descriptor is filled in. -/
def injectX1 (g : Cl4Globals) (newPc : BitVec 64) (cpu : GuestCpu ω) : GuestCpu ω :=
  if g.entryPc ≠ 0 ∧ newPc = g.entryPc ∧ cpu.currentg = true ∧ cpu.machine.x 1 = 0 then
    cpu.setX1 g.x1Inject
  else cpu

/-- On the way to the trampoline, with the context in place. -/
def divertToTramp (g : Cl4Globals) (cpu : GuestCpu ω) : GuestCpu ω :=
  { cpu with
    machine :=
      { cpu.machine with
        tpidr := if g.tpidr ≠ 0 then g.tpidr else cpu.machine.tpidr
        pc := g.trampPc }
    tpidrro := if g.tpidrro ≠ 0 then g.tpidrro else cpu.tpidrro }

/-- `exception_return` to AArch64, from where it sets the PC. -/
def exceptionReturn (g : Cl4Globals) (newPc : BitVec 64) (cpu : GuestCpu ω) :
    Cl4Globals × GuestCpu ω :=
  let cpu := injectX1 g newPc (cpu.setPc newPc)
  if g.trampPc ≠ 0 ∧ g.ctorsDone = false ∧ newPc = g.entryPc ∧ cpu.currentg = true then
    ({ g with ctorsDone := true }, divertToTramp g cpu)
  else (g, cpu)

/-- The guest does anything, or returns from an exception. -/
inductive GuestOp (ω : Type)
  | guest (f : GuestCpu ω → GuestCpu ω)
  | eret (newPc : BitVec 64)

def guestStep (s : Cl4Globals × GuestCpu ω) : GuestOp ω → Cl4Globals × GuestCpu ω
  | .guest f => (s.1, f s.2)
  | .eret newPc => exceptionReturn s.1 newPc s.2

/-! ## Runs of the guest -/

/-- An exception return, with the processor before and behind it. -/
structure Eret (ω : Type) where
  newPc : BitVec 64
  before : GuestCpu ω
  after : GuestCpu ω

/-- The exception returns of a run. -/
def erets (s : Cl4Globals × GuestCpu ω) : List (GuestOp ω) → List (Eret ω)
  | [] => []
  | .guest f :: ops => erets (guestStep s (.guest f)) ops
  | .eret newPc :: ops =>
      ⟨newPc, s.2, (exceptionReturn s.1 newPc s.2).2⟩ :: erets (guestStep s (.eret newPc)) ops

/-- A guarded return to the kernel's entry. -/
def Eret.ToEntry (g : Cl4Globals) (e : Eret ω) : Prop :=
  e.newPc = g.entryPc ∧ e.before.currentg = true

instance (g : Cl4Globals) (e : Eret ω) : Decidable (e.ToEntry g) :=
  inferInstanceAs (Decidable (_ ∧ _))

/-- Where a return goes that is not diverted. -/
def Eret.plain (g : Cl4Globals) (e : Eret ω) : GuestCpu ω :=
  injectX1 g e.newPc (e.before.setPc e.newPc)

theorem injectX1_currentg (g : Cl4Globals) (newPc : BitVec 64) (cpu : GuestCpu ω) :
    (injectX1 g newPc cpu).currentg = cpu.currentg := by
  rw [injectX1]
  split_ifs <;> rfl

theorem Eret.plain_machine (g : Cl4Globals) (e : Eret ω) :
    (e.plain g).machine.pc = e.newPc ∧ (e.plain g).machine.mem = e.before.machine.mem ∧
      (e.plain g).machine.tpidr = e.before.machine.tpidr ∧ (e.plain g).tpidrro = e.before.tpidrro := by
  rw [Eret.plain, injectX1]
  split_ifs <;> exact ⟨rfl, rfl, rfl, rfl⟩

theorem Eret.plain_x (g : Cl4Globals) (e : Eret ω) :
    (e.plain g).machine.x = Function.update e.before.machine.x 1
      (if g.entryPc ≠ 0 ∧ e.ToEntry g ∧ e.before.machine.x 1 = 0 then g.x1Inject
        else e.before.machine.x 1) := by
  have hcond : (g.entryPc ≠ 0 ∧ e.newPc = g.entryPc ∧ e.before.currentg = true ∧
      e.before.machine.x 1 = 0) ↔ g.entryPc ≠ 0 ∧ e.ToEntry g ∧ e.before.machine.x 1 = 0 := by
    rw [Eret.ToEntry, and_assoc]
  rw [← if_congr hcond rfl rfl]
  by_cases h : g.entryPc ≠ 0 ∧ e.newPc = g.entryPc ∧ e.before.currentg = true ∧
      e.before.machine.x 1 = 0
  · have hplain : e.plain g = (e.before.setPc e.newPc).setX1 g.x1Inject := if_pos h
    rw [if_pos h, hplain]
    rfl
  · have hplain : e.plain g = e.before.setPc e.newPc := if_neg h
    rw [if_neg h, Function.update_eq_self, hplain]
    rfl

/-- Only `g_cl4_ctors_done` ever changes, and what one return does depends on it alone. -/
theorem exceptionReturn_eq (g : Cl4Globals) (e : Eret ω) :
    exceptionReturn g e.newPc e.before =
      if g.trampPc ≠ 0 ∧ g.ctorsDone = false ∧ e.ToEntry g then
        ({ g with ctorsDone := true }, divertToTramp g (e.plain g))
      else (g, e.plain g) := by
  have hguarded : (e.plain g).currentg = e.before.currentg := injectX1_currentg g _ _
  have hcond : (g.trampPc ≠ 0 ∧ g.ctorsDone = false ∧ e.newPc = g.entryPc ∧
      (e.plain g).currentg = true) ↔ g.trampPc ≠ 0 ∧ g.ctorsDone = false ∧ e.ToEntry g := by
    rw [hguarded]
    rfl
  exact if_congr hcond rfl rfl

/-- With the constructors done, or no trampoline, every return goes where it says. -/
theorem erets_plain {g : Cl4Globals} (h : g.trampPc = 0 ∨ g.ctorsDone = true) :
    ∀ (ops : List (GuestOp ω)) (cpu : GuestCpu ω), ∀ e ∈ erets (g, cpu) ops, e.after = e.plain g
  | [], _ => fun _ he => absurd he List.not_mem_nil
  | .guest f :: ops, cpu => erets_plain h ops (f cpu)
  | .eret newPc :: ops, cpu => by
      have hreturn (e : Eret ω) : exceptionReturn g e.newPc e.before = (g, e.plain g) := by
        rw [exceptionReturn_eq, if_neg]
        rintro ⟨htramp, hdone, -⟩
        rcases h with hzero | htrue
        · exact htramp hzero
        · rw [htrue] at hdone
          exact absurd hdone (by decide)
      have hthis := hreturn ⟨newPc, cpu, cpu⟩
      rw [erets, guestStep, hthis]
      exact List.forall_mem_cons.mpr ⟨rfl, erets_plain h ops _⟩

/-- The first guarded return to the entry, and no other, is diverted. -/
theorem erets_after {g : Cl4Globals} (hdone : g.ctorsDone = false) :
    ∀ (ops : List (GuestOp ω)) (cpu : GuestCpu ω) {pre : List (Eret ω)} {e : Eret ω}
      {post : List (Eret ω)}, erets (g, cpu) ops = pre ++ e :: post →
        e.after = if g.trampPc ≠ 0 ∧ e.ToEntry g ∧ ∀ e' ∈ pre, ¬e'.ToEntry g then
            divertToTramp g (e.plain g)
          else e.plain g
  | [], _, pre, e, post, hrun => by
      rw [erets] at hrun
      exact absurd hrun.symm (List.append_ne_nil_of_right_ne_nil pre (List.cons_ne_nil e post))
  | .guest f :: ops, cpu, pre, e, post, hrun => erets_after hdone ops (f cpu) hrun
  | .eret newPc :: ops, cpu, pre, e, post, hrun => by
      have hreturn := exceptionReturn_eq g ⟨newPc, cpu, (exceptionReturn g newPc cpu).2⟩
      rw [erets] at hrun
      cases pre with
      | nil =>
        obtain ⟨he, -⟩ := List.cons.inj hrun
        have hafter : e.after = (exceptionReturn g e.newPc e.before).2 := he ▸ rfl
        have hcond : (g.trampPc ≠ 0 ∧ g.ctorsDone = false ∧ e.ToEntry g) ↔
            (g.trampPc ≠ 0 ∧ e.ToEntry g ∧ ∀ e' ∈ ([] : List (Eret ω)), ¬e'.ToEntry g) := by
          simp [hdone]
        rw [hafter, exceptionReturn_eq, if_congr hcond rfl rfl]
        split_ifs <;> rfl
      | cons first pre =>
        obtain ⟨rfl, hrest⟩ := List.cons.inj hrun
        rw [guestStep, hreturn] at hrest
        simp only [List.forall_mem_cons]
        split_ifs at hrest with hfirst
        · -- the first return was diverted: nothing after it is
          have hlater : e ∈ pre ++ e :: post := List.mem_append_right pre List.mem_cons_self
          rw [show pre ++ e :: post = _ from hrest.symm] at hlater
          have hplain := erets_plain (g := { g with ctorsDone := true }) (.inr rfl) ops _ e hlater
          rw [if_neg fun h => h.2.2.1 hfirst.2.2]
          exact hplain
        · rw [erets_after hdone ops _ hrest]
          refine if_congr ⟨fun h => ⟨h.1, h.2.1, ?_, h.2.2⟩, fun h => ⟨h.1, h.2.1, h.2.2.2⟩⟩ rfl rfl
          exact fun hentry => hfirst ⟨h.1, hdone, hentry⟩

end Hook

/-! ## The scratch page -/

/-- `CL4_DOMAIN_ID` as a number, and whether `CL4_X1` and `CL4_CTORS` are set. -/
structure Cl4Settings where
  domainId : Option (BitVec 64)
  x1 : Bool
  ctors : Bool

/-- What `arm_load_xnu_sptm` writes at `CL4-dummypage`, and the globals it sets. -/
def loadScratch (cfg : Cl4Settings) (cl4RxPhys cl4Dummy entryPc : BitVec 64) (mem : Memory) :
    Memory × Cl4Globals :=
  let mem := mem.write cl4Dummy (leBytes 8 (cfg.domainId.getD 0xc00000001).toNat)
  let g : Cl4Globals :=
    { entryPc := entryPc, x1Inject := if cfg.x1 then cl4Dummy else 0, trampPc := 0
      ctorsDone := false, tpidr := 0, tpidrro := 0 }
  if cfg.ctors then
    let trampPhys := cl4Dummy + 0x80
    let mem := installTrampoline mem trampPhys (cl4Pool cl4RxPhys cl4Dummy entryPc)
    (seedMemory mem cl4Dummy.toNat (cl4ContextWrites cl4RxPhys.toNat cl4Dummy.toNat),
      { g with
        trampPc := trampPhys, tpidr := cl4Dummy + 0x200, tpidrro := cl4Dummy + 0x700 })
  else (mem, g)

theorem loadScratch_globals (cfg : Cl4Settings) (cl4RxPhys cl4Dummy entryPc : BitVec 64)
    (mem : Memory) : (loadScratch cfg cl4RxPhys cl4Dummy entryPc mem).2 =
      { entryPc := entryPc, x1Inject := if cfg.x1 then cl4Dummy else 0
        trampPc := if cfg.ctors then cl4Dummy + 0x80 else 0, ctorsDone := false
        tpidr := if cfg.ctors then cl4Dummy + 0x200 else 0
        tpidrro := if cfg.ctors then cl4Dummy + 0x700 else 0 } := by
  rw [loadScratch]
  split_ifs <;> rfl

section Scratch
variable {cfg : Cl4Settings} (cl4RxPhys cl4Dummy entryPc : BitVec 64) (mem : Memory)
  (hctors : cfg.ctors = true)
include hctors

/-- The context is written last, and above the trampoline. -/
theorem loadScratch_tramp : TrampolineAt (loadScratch cfg cl4RxPhys cl4Dummy entryPc mem).1
    (cl4Dummy + 0x80) (cl4Pool cl4RxPhys cl4Dummy entryPc) := by
  rw [loadScratch, if_pos hctors]
  have hinstalled := installTrampoline_at
    (mem.write cl4Dummy (leBytes 8 (cfg.domainId.getD 0xc00000001).toNat)) (cl4Dummy + 0x80)
    (cl4Pool cl4RxPhys cl4Dummy entryPc)
  refine hinstalled.congr fun b hb => ?_
  refine Memory.writesAt_of_not_covers _ (List.forall_mem_map.mpr fun w hw => ?_)
  have habove : 0x200 ≤ w.off ∧ w.off + w.size ≤ 0x440 := by
    simp only [cl4ContextWrites, List.mem_cons, List.not_mem_nil, or_false] at hw
    rcases hw with rfl | rfl | rfl | rfl | rfl | rfl | rfl <;> simp
  have hbelow : 0x80 ≤ (b - cl4Dummy).toNat ∧ (b - cl4Dummy).toNat < 0x80 + cl4TrampSize :=
    (Memory.covers_offset (by decide)).mp hb
  rw [SeedWrite.bytes_length, SeedWrite.bytes, BitVec.ofNat_toNat, BitVec.setWidth_eq,
    Memory.covers_offset (by omega)]
  simp only [cl4TrampSize] at hbelow
  omega

theorem loadScratch_context {ws : List SeedWrite}
    (hbuild : seedBuild cl4RxPhys.toNat cl4Dummy.toNat seedNodes = some ws)
    (hroom : cl4Dummy.toNat + 0x8000 < 2 ^ 64) :
    ∀ w ∈ ws, (loadScratch cfg cl4RxPhys cl4Dummy entryPc mem).1.Holds
      (BitVec.ofNat 64 cl4Dummy.toNat + BitVec.ofNat 64 w.off) w.bytes.2 := by
  obtain ⟨ws', hbuild', heq⟩ := cl4ContextWrites_eq cl4RxPhys.toNat cl4Dummy.toNat
  obtain rfl : ws = ws' := Option.some.inj (hbuild.symm.trans hbuild')
  rw [loadScratch, if_pos hctors]
  dsimp only
  rw [heq, seedMemory_cons]
  refine seed_holds hbuild ?_ _
  simp only [nodesOff, nodeSz, seedNodes, List.length_singleton]
  omega

end Scratch

section Boot
variable {ω : Type} {cfg : Cl4Settings} {cl4RxPhys cl4Dummy entryPc : BitVec 64}
  {mem mem' : Memory} {g : Cl4Globals}
  (hload : loadScratch cfg cl4RxPhys cl4Dummy entryPc mem = (mem', g))
  (hroom : cl4Dummy.toNat + 0x8000 < 2 ^ 64)
include hload hroom

/-- What each exception return of a run does: with `CL4_CTORS` the first guarded one to the entry
goes to the trampoline with the context's thread registers, and all others where they say; a
guarded one to the entry finds the descriptor in x1 if `CL4_X1` asks for it. -/
theorem eret_destination (cpu : GuestCpu ω) (ops : List (GuestOp ω)) {pre post : List (Eret ω)}
    {e : Eret ω} (hrun : erets (g, cpu) ops = pre ++ e :: post) :
    let first := cfg.ctors = true ∧ e.ToEntry g ∧ ∀ e' ∈ pre, ¬e'.ToEntry g
    e.after.machine.pc = (if first then cl4Dummy + 0x80 else e.newPc) ∧
      e.after.machine.x = Function.update e.before.machine.x 1
        (if e.ToEntry g ∧ entryPc ≠ 0 ∧ e.before.machine.x 1 = 0 ∧ cfg.x1 = true then cl4Dummy
          else e.before.machine.x 1) ∧
      e.after.machine.mem = e.before.machine.mem ∧
      e.after.machine.tpidr = (if first then cl4Dummy + 0x200 else e.before.machine.tpidr) ∧
      e.after.tpidrro = (if first then cl4Dummy + 0x700 else e.before.tpidrro) := by
  have hg := loadScratch_globals cfg cl4RxPhys cl4Dummy entryPc mem
  rw [hload] at hg
  obtain ⟨hpc, hmem, htpidr, htpidrro⟩ := e.plain_machine g
  have hx : (e.plain g).machine.x = Function.update e.before.machine.x 1
      (if e.ToEntry g ∧ entryPc ≠ 0 ∧ e.before.machine.x 1 = 0 ∧ cfg.x1 = true then cl4Dummy
        else e.before.machine.x 1) := by
    rw [e.plain_x, show g.entryPc = entryPc from congrArg Cl4Globals.entryPc hg,
      show g.x1Inject = _ from congrArg Cl4Globals.x1Inject hg]
    congr 1
    by_cases hzero : e.before.machine.x 1 = 0
    · simp only [hzero]
      split_ifs <;> first | rfl | tauto
    · rw [if_neg fun h => hzero h.2.2, if_neg fun h => hzero h.2.2.1]
  rw [erets_after (congrArg Cl4Globals.ctorsDone hg) ops cpu hrun]
  intro first
  by_cases hfirst : first
  · have htramp : g.trampPc = cl4Dummy + 0x80 :=
      (congrArg Cl4Globals.trampPc hg).trans (if_pos hfirst.1)
    have hctx : g.tpidr = cl4Dummy + 0x200 :=
      (congrArg Cl4Globals.tpidr hg).trans (if_pos hfirst.1)
    have hro : g.tpidrro = cl4Dummy + 0x700 :=
      (congrArg Cl4Globals.tpidrro hg).trans (if_pos hfirst.1)
    have hne : cl4Dummy + 0x80 ≠ 0 ∧ cl4Dummy + 0x200 ≠ 0 ∧ cl4Dummy + 0x700 ≠ 0 :=
      ⟨by bv_omega, by bv_omega, by bv_omega⟩
    rw [if_pos ⟨htramp ▸ hne.1, hfirst.2⟩, if_pos hfirst, if_pos hfirst, if_pos hfirst, ← htramp,
      ← hctx, ← hro]
    exact ⟨rfl, hx, hmem, if_pos (hctx ▸ hne.2.1), if_pos (hro ▸ hne.2.2)⟩
  · have hcond : ¬(g.trampPc ≠ 0 ∧ e.ToEntry g ∧ ∀ e' ∈ pre, ¬e'.ToEntry g) := by
      rintro ⟨htramp, hentry⟩
      refine hfirst ⟨?_, hentry⟩
      by_contra hoff
      exact htramp ((congrArg Cl4Globals.trampPc hg).trans (if_neg hoff))
    rw [if_neg hcond, if_neg hfirst, if_neg hfirst, if_neg hfirst]
    exact ⟨hpc, hx, hmem, htpidr, htpidrro⟩

/-- In any run of a guest that leaves the scratch page alone until then, the first guarded return
to the entry calls the eleven constructors in order, with the context's registry in place, and then
enters the kernel with its x0 and the descriptor. Every other return goes where it says. -/
theorem scratch_runs_constructors (env : Env ω) (hctors : cfg.ctors = true)
    (hrx : (cl4RxPhys + 0x698fc0).toNat + 8 * 11 < 2 ^ 64)
    (cpu : GuestCpu ω) (ops : List (GuestOp ω)) {pre post : List (Eret ω)} {e : Eret ω}
    (hrun : erets (g, cpu) ops = pre ++ e :: post) (hentry : e.ToEntry g)
    (hfirst : ∀ e' ∈ pre, ¬e'.ToEntry g)
    (hkept : ∀ b, Memory.Covers cl4Dummy 0x440 b → e.before.machine.mem b = mem' b)
    {funcs : List (BitVec 64)} (hlen : funcs.length = 11)
    (harray : ArrayAt e.before.machine.mem (cl4RxPhys + 0x698fc0) funcs)
    (hcallees : CalleesReturn env funcs (cl4Dummy + 0x80) (cl4RxPhys + 0x698fc0)) :
    (∀ e' ∈ pre ++ post, e'.after.machine.pc = e'.newPc) ∧
      registry e.after.machine.mem 2 e.after.machine.tpidr =
        [⟨2, 5, (cl4RxPhys + 0x6fece8).toNat⟩] ∧
      ∃ t, Runs env 70 e.after.machine
          (funcs.map fun f => ⟨f, (cl4Dummy + 0x8000) &&& ~~~0xF⟩) t ∧
        t.pc = entryPc ∧ t.x 0 = e.before.machine.x 0 ∧
          t.x 1 = if entryPc ≠ 0 ∧ e.before.machine.x 1 = 0 ∧ cfg.x1 = true then cl4Dummy
            else e.before.machine.x 1 := by
  obtain ⟨hpc, hx, hmem, htpidr, -⟩ := eret_destination hload hroom cpu ops hrun
  have hthis : cfg.ctors = true ∧ e.ToEntry g ∧ ∀ e' ∈ pre, ¬e'.ToEntry g :=
    ⟨hctors, hentry, hfirst⟩
  rw [if_pos hthis] at hpc htpidr
  have hpage {b : BitVec 64} (off : ℕ) {n : ℕ} (hfits : off + n ≤ 0x440)
      (hb : Memory.Covers (cl4Dummy + BitVec.ofNat 64 off) n b) :
      e.after.machine.mem b = mem' b := by
    rw [Memory.covers_offset (by omega)] at hb
    rw [hmem, hkept]
    rw [Memory.Covers]
    omega
  refine ⟨fun e' he' => ?_, ?_, ?_⟩
  · rcases List.mem_append.mp he' with hpre | hpost
    · obtain ⟨pre₁, pre₂, rfl⟩ := List.append_of_mem hpre
      rw [List.append_assoc, List.cons_append] at hrun
      rw [(eret_destination hload hroom cpu ops hrun).1]
      exact if_neg fun h => hfirst e' (by simp) h.2.1
    · obtain ⟨post₁, post₂, rfl⟩ := List.append_of_mem hpost
      rw [← List.cons_append, ← List.append_assoc] at hrun
      rw [(eret_destination hload hroom cpu ops hrun).1]
      exact if_neg fun h => h.2.2 e (by simp) hentry
  · obtain ⟨ws, hbuild, -⟩ := cl4ContextWrites_eq cl4RxPhys.toNat cl4Dummy.toNat
    have hbelow : ∀ w ∈ ws, w.off + w.size ≤ 0x440 := by
      obtain rfl := seedBuild_ok hbuild
      have hnodes := (nodeWrites_ordered cl4RxPhys.toNat cl4Dummy.toNat seedNodes 0).2
      refine List.forall_mem_cons.mpr ⟨by simp [ctxOff], List.forall_mem_cons.mpr
        ⟨by simp [regobjOff], fun w hw => (hnodes w hw).2⟩⟩
    have hholds : ∀ w ∈ ws, e.after.machine.mem.Holds
        (BitVec.ofNat 64 cl4Dummy.toNat + BitVec.ofNat 64 w.off) w.bytes.2 := by
      intro w hw
      have hw' := hbelow w hw
      have hloaded := loadScratch_context cl4RxPhys cl4Dummy entryPc mem hctors hbuild hroom
        w hw
      rw [hload] at hloaded
      refine hloaded.congr (fun b hb => hpage _ hw' ?_) (by rw [SeedWrite.bytes_length]; omega)
      rwa [BitVec.ofNat_toNat, BitVec.setWidth_eq, SeedWrite.bytes_length] at hb
    have hctx : cl4Dummy + 0x200 = BitVec.ofNat 64 (cl4Dummy.toNat + ctxOff) := by
      rw [BitVec.ofNat_add, BitVec.ofNat_toNat, BitVec.setWidth_eq]
      rfl
    rw [htpidr, hctx, registry_of_holds hbuild (by decide) (by
      simp only [nodesOff, nodeSz, seedNodes, List.length_singleton]
      omega) hholds (by decide)]
    have hvalue : (seedPhys cl4RxPhys.toNat 0xc06fece8 % 2 ^ 64).toNat =
        (cl4RxPhys + 0x6fece8).toNat := by
      have hlit : (0x6fece8 : BitVec 64).toNat = 0x6fece8 := rfl
      rw [seedPhys, seedBase, BitVec.toNat_add, hlit]
      omega
    exact congrArg (fun v => [(⟨2, 5, v⟩ : Service)]) hvalue
  · have htramp := loadScratch_tramp cl4RxPhys cl4Dummy entryPc mem hctors
    rw [hload] at htramp
    have hinstalled : TrampolineAt e.after.machine.mem e.after.machine.pc
        (cl4Pool cl4RxPhys cl4Dummy entryPc) := by
      rw [hpc]
      exact htramp.congr fun b hb => hpage 0x80 (by decide) hb
    have hfuncs : ArrayAt e.after.machine.mem (cl4Pool cl4RxPhys cl4Dummy entryPc).array funcs :=
      hmem ▸ harray
    have hend := cl4Pool_arrayEnd cl4Dummy entryPc hrx
    rw [← hlen] at hend
    have hreturn : CalleesReturn env funcs e.after.machine.pc
        (cl4Pool cl4RxPhys cl4Dummy entryPc).array := hpc ▸ hcallees
    obtain ⟨m, hprologue, hm⟩ := prologue_runs env hinstalled hfuncs
    obtain ⟨m', hloop, hm'⟩ := loop_runs hend hreturn funcs.length 0 m (Nat.zero_add _) hm
    obtain ⟨t, hepilogue, hentryPc, hx0, hx1, -, -⟩ := epilogue_runs env hm' hend
    have hruns := (hprologue.trans hloop).trans hepilogue
    rw [hlen, List.nil_append, List.append_nil, List.drop_zero] at hruns
    refine ⟨t, hruns, hentryPc, ?_, ?_⟩
    · rw [hx0, hx]
      exact Function.update_of_ne (by decide) _ _
    · rw [hx1, hx, Function.update_self]
      exact if_congr (and_iff_right hentry) rfl rfl

end Boot

/-! ## A boot with eleven constructors -/

def elevenCtors : List (BitVec 64) := (List.range 11).map fun k => 0x10006900000 + BitVec.ofNat 64 k

/-- The page above an image whose constructors are listed, and the globals. -/
def elevenScratch : Memory × Cl4Globals :=
  loadScratch ⟨none, true, true⟩ 0x10006884000 0x10006ff4000 0x10006885000
    (Memory.write (fun _ => 0) (0x10006884000 + 0x698fc0)
      (elevenCtors.flatMap fun f => leBytes 8 f.toNat))

/-- In the guarded domain, with nothing in its registers. -/
def elevenCpu : GuestCpu Unit where
  machine := ⟨⟨fun _ => 0, 0x4000⟩, ⟨false, false, false, false⟩, elevenScratch.1, 0, ()⟩
  currentg := true
  tpidrro := 0

theorem elevenCtors_arrayAt :
    ArrayAt elevenScratch.1 (0x10006884000 + 0x698fc0) elevenCtors := by
  have hall : ∀ k < elevenCtors.length, some (elevenScratch.1.load
      (0x10006884000 + 0x698fc0 + BitVec.ofNat 64 (8 * k)) 8) =
        elevenCtors[k]?.map BitVec.toNat := by
    decide +kernel
  intro k f hf
  have hload := hall k (List.getElem?_eq_some_iff.mp hf).1
  rw [hf] at hload
  exact Option.some.inj hload

theorem scratch_runs_constructors_eleven : ∃ e : Eret Unit,
    erets (elevenScratch.2, elevenCpu) [.eret 0x10006885000] = [e] ∧
      ∃ t, Runs countingEnv 70 e.after.machine
          (elevenCtors.map fun f => ⟨f, (0x10006ff4000 + 0x8000) &&& ~~~0xF⟩) t ∧
        t.pc = 0x10006885000 ∧ t.x 0 = 0 ∧ t.x 1 = 0x10006ff4000 := by
  have hcallees : CalleesReturn countingEnv elevenCtors (0x10006ff4000 + 0x80)
      (0x10006884000 + 0x698fc0) :=
    { returns := fun _ _ => rfl
      saved := fun m _ r hr => by
        have hne : r ≠ 0 := by
          rintro rfl
          exact absurd hr (by decide)
        exact Function.update_of_ne hne _ _
      unmodified := fun _ _ _ _ => rfl }
  have hrun : erets (elevenScratch.2, elevenCpu) [.eret 0x10006885000] = [] ++ [_] := rfl
  obtain ⟨-, -, t, hruns, hpc, hx0, hx1⟩ := scratch_runs_constructors (Prod.eta _).symm
    (by decide) countingEnv (by rfl) (by decide) elevenCpu _ hrun ⟨by decide, rfl⟩
    (fun _ he => absurd he List.not_mem_nil) (fun _ _ => rfl) (by decide) elevenCtors_arrayAt
    hcallees
  exact ⟨_, hrun, t, hruns, hpc, hx0, hx1⟩

end SecureWorld.Loader
