import SecureWorld.Foundations.A64

/-! # The constructor trampoline

`cl4_ctor_trampoline` calls the functions of CL4's `__mod_init_func` in array order and then jumps
to CL4's entry as if nothing had happened. The loader copies it into guest memory and fills in the
literal pool behind the code.
-/
namespace SecureWorld.Loader
open Foundations A64
set_option autoImplicit false

/-! ## The bytes -/

def cl4CtorTrampoline : List UInt8 :=
  [0xf3, 0x03, 0x00, 0xaa, 0xf4, 0x03, 0x01, 0xaa, 0x15, 0x02, 0x00, 0x58,
    0x36, 0x02, 0x00, 0x58, 0x49, 0x02, 0x00, 0x58, 0x3f, 0x01, 0x00, 0x91,
    0xbf, 0x02, 0x16, 0xeb, 0x82, 0x00, 0x00, 0x54, 0xb7, 0x86, 0x40, 0xf8,
    0xe0, 0x02, 0x3f, 0xd6, 0xfc, 0xff, 0xff, 0x17, 0xe0, 0x03, 0x13, 0xaa,
    0xe1, 0x03, 0x14, 0xaa, 0xe9, 0x03, 0x1f, 0xaa, 0x3f, 0x01, 0x00, 0x91,
    0x30, 0x01, 0x00, 0x58, 0x5f, 0xd0, 0x1b, 0xd5, 0x00, 0x02, 0x1f, 0xd6,
    0x00, 0x00, 0x00, 0x00, 0x00, 0x00, 0x00, 0x00, 0x00, 0x00, 0x00, 0x00,
    0x00, 0x00, 0x00, 0x00, 0x00, 0x00, 0x00, 0x00, 0x00, 0x00, 0x00, 0x00,
    0x00, 0x00, 0x00, 0x00, 0x00, 0x00, 0x00, 0x00]

def cl4TrampPoolOff : ℕ := 0x48

def cl4TrampSize : ℕ := 0x68

/-- The four quads behind the code. -/
structure Pool where
  array : BitVec 64
  arrayEnd : BitVec 64
  stackTop : BitVec 64
  entry : BitVec 64

def Pool.bytes (pool : Pool) : List UInt8 :=
  leBytes 8 pool.array.toNat ++ leBytes 8 pool.arrayEnd.toNat ++
    leBytes 8 pool.stackTop.toNat ++ leBytes 8 pool.entry.toNat

/-- The two writes of the loader. -/
def installTrampoline (mem : Memory) (trampPhys : BitVec 64) (pool : Pool) : Memory :=
  (mem.write trampPhys cl4CtorTrampoline).write (trampPhys + BitVec.ofNat 64 cl4TrampPoolOff)
    pool.bytes

/-- The pool `arm_load_xnu_sptm` writes. -/
def cl4Pool (cl4RxPhys cl4Dummy entryPc : BitVec 64) : Pool where
  array := cl4RxPhys + 0x698fc0
  arrayEnd := cl4RxPhys + 0x698fc0 + 11 * 8
  stackTop := (cl4Dummy + 0x8000) &&& ~~~0xF
  entry := entryPc

/-- The trampoline at `base`, its pool filled in. -/
structure TrampolineAt (mem : Memory) (base : BitVec 64) (pool : Pool) : Prop where
  code : mem.Holds base (cl4CtorTrampoline.take cl4TrampPoolOff)
  pool : mem.Holds (base + BitVec.ofNat 64 cl4TrampPoolOff) pool.bytes

theorem Pool.bytes_length (pool : Pool) : pool.bytes.length = 32 := by
  simp [Pool.bytes]

theorem installTrampoline_at (mem : Memory) (trampPhys : BitVec 64) (pool : Pool) :
    TrampolineAt (installTrampoline mem trampPhys pool) trampPhys pool where
  code := by
    have hcode : (mem.write trampPhys cl4CtorTrampoline).Holds trampPhys
        (cl4CtorTrampoline.take cl4TrampPoolOff) := by
      have hall := Memory.holds_write mem trampPhys
        (show cl4CtorTrampoline.length < 2 ^ 64 by decide)
      intro k b hb
      rw [List.getElem?_take] at hb
      split_ifs at hb
      exact hall k b hb
    refine hcode.congr (fun b hb => ?_) (by decide)
    rw [installTrampoline, Memory.write_of_not_covers]
    have hlen : (cl4CtorTrampoline.take cl4TrampPoolOff).length = 72 := by decide
    rw [Memory.Covers, hlen] at hb
    rw [Memory.Covers, pool.bytes_length, cl4TrampPoolOff]
    bv_omega
  pool := Memory.holds_write _ _ (by rw [pool.bytes_length]; decide)

/-- The loader's pool describes eleven functions, unless they end past the address space. -/
theorem cl4Pool_arrayEnd {cl4RxPhys : BitVec 64} (cl4Dummy entryPc : BitVec 64)
    (hroom : (cl4RxPhys + 0x698fc0).toNat + 8 * 11 < 2 ^ 64) :
    (cl4Pool cl4RxPhys cl4Dummy entryPc).arrayEnd.toNat =
      (cl4Pool cl4RxPhys cl4Dummy entryPc).array.toNat + 8 * 11 := by
  have hsize : (11 * 8 : BitVec 64).toNat = 8 * 11 := rfl
  show (cl4RxPhys + 0x698fc0 + 11 * 8).toNat = (cl4RxPhys + 0x698fc0).toNat + 8 * 11
  rw [BitVec.toNat_add, hsize, Nat.mod_eq_of_lt hroom]

/-! ## The instructions -/

def trampolineInsns : List Insn :=
  [.movReg 19 0, .movReg 20 1, .ldrLiteral 21 16, .ldrLiteral 22 17, .ldrLiteral 9 18,
    .address (.addImm 31 9 0 false),
    -- the loop
    .cmp 21 22, .bCond 2 4, .ldrPost 23 21 8, .blr 23, .b (-4),
    -- behind it
    .movReg 0 19, .movReg 1 20, .movReg 9 31, .address (.addImm 31 9 0 false), .ldrLiteral 16 9,
    .msrTpidr 31, .br 16]

section Trampoline
variable {mem : Memory} {base : BitVec 64} {pool : Pool} (h : TrampolineAt mem base pool)
include h

theorem TrampolineAt.codeAt : CodeAt mem base trampolineInsns := by
  refine codeAt_of_holds h.code (by decide) fun k i hi => ?_
  have hall : ∀ k < trampolineInsns.length,
      decode (codeWord (cl4CtorTrampoline.take cl4TrampPoolOff) (4 * k)) =
        trampolineInsns[k]? := by
    decide +kernel
  rw [hall k (List.getElem?_eq_some_iff.mp hi).1, hi]

theorem TrampolineAt.insn {k : ℕ} {i : Insn} (hi : trampolineInsns[k]? = some i) :
    insnIn mem (base + BitVec.ofNat 64 (4 * k)) = some i := h.codeAt k i hi

theorem TrampolineAt.literals :
    mem.load (base + 0x48) 8 = pool.array.toNat ∧ mem.load (base + 0x50) 8 = pool.arrayEnd.toNat ∧
      mem.load (base + 0x58) 8 = pool.stackTop.toNat ∧
      mem.load (base + 0x60) 8 = pool.entry.toNat := by
  have hquads := h.pool
  rw [Pool.bytes, Memory.Holds.append, Memory.Holds.append, Memory.Holds.append] at hquads
  simp only [List.length_append, leBytes_length, cl4TrampPoolOff, BitVec.add_assoc] at hquads
  obtain ⟨⟨⟨harray, hend⟩, hstack⟩, hentry⟩ := hquads
  have hlt (v : BitVec 64) : v.toNat < 256 ^ 8 := v.isLt
  exact ⟨harray.load_leBytes (hlt _), hend.load_leBytes (hlt _), hstack.load_leBytes (hlt _),
    hentry.load_leBytes (hlt _)⟩

end Trampoline

/-! ## One run -/

def ArrayAt (mem : Memory) (array : BitVec 64) (funcs : List (BitVec 64)) : Prop :=
  ∀ k f, funcs[k]? = some f → mem.load (array + BitVec.ofNat 64 (8 * k)) 8 = f.toNat

/-- The functions return with x19 to x22 and SP as they were, and the array and the trampoline
unmodified. -/
structure CalleesReturn {ω : Type} (env : Env ω) (funcs : List (BitVec 64))
    (base array : BitVec 64) : Prop where
  returns : ∀ m, m.pc ∈ funcs → (env.callee m).pc = m.x 30
  saved : ∀ m, m.pc ∈ funcs → ∀ r ∈ ([19, 20, 21, 22, 31] : List (BitVec 5)),
    (env.callee m).x r = m.x r
  unmodified : ∀ m, m.pc ∈ funcs → ∀ b,
    Memory.Covers base cl4TrampSize b ∨ Memory.Covers array (8 * funcs.length) b →
      (env.callee m).mem b = m.mem b

theorem TrampolineAt.congr {mem mem' : Memory} {base : BitVec 64} {pool : Pool}
    (h : TrampolineAt mem base pool)
    (hsame : ∀ b, Memory.Covers base cl4TrampSize b → mem' b = mem b) :
    TrampolineAt mem' base pool where
  code := h.code.congr (fun b hb => hsame b (by
    have hlen : (cl4CtorTrampoline.take cl4TrampPoolOff).length = 72 := by decide
    rw [Memory.Covers, hlen] at hb
    rw [Memory.Covers, cl4TrampSize]
    omega)) (by decide)
  pool := h.pool.congr (fun b hb => hsame b (by
    rw [Memory.Covers, pool.bytes_length, cl4TrampPoolOff] at hb
    rw [Memory.Covers, cl4TrampSize]
    bv_omega)) (by rw [pool.bytes_length]; decide)

theorem ArrayAt.congr {mem mem' : Memory} {array : BitVec 64} {funcs : List (BitVec 64)}
    (h : ArrayAt mem array funcs) (hlen : 8 * funcs.length < 2 ^ 64)
    (hsame : ∀ b, Memory.Covers array (8 * funcs.length) b → mem' b = mem b) :
    ArrayAt mem' array funcs := by
  intro k f hf
  have hk : k < funcs.length := (List.getElem?_eq_some_iff.mp hf).1
  rw [← h k f hf]
  refine Memory.load_congr fun j hj => hsame _ ?_
  rw [Memory.Covers, BitVec.add_assoc, ← BitVec.ofNat_add, Memory.add_sub_cancel_addr,
    BitVec.toNat_ofNat, Nat.mod_eq_of_lt (by omega)]
  omega

/-- At the head of the loop, `i` functions called. -/
structure AtLoop {ω : Type} (s : Machine ω) (pool : Pool) (funcs : List (BitVec 64)) (i : ℕ)
    (m : Machine ω) : Prop where
  pc : m.pc = s.pc + 24
  handoff : m.x 19 = s.x 0
  descriptor : m.x 20 = s.x 1
  cursor : m.x 21 = pool.array + BitVec.ofNat 64 (8 * i)
  last : m.x 22 = pool.arrayEnd
  sp : m.x 31 = pool.stackTop
  tramp : TrampolineAt m.mem s.pc pool
  array : ArrayAt m.mem pool.array funcs

/-- Before the call of `f`, the `i`th function. -/
structure AtCall {ω : Type} (s : Machine ω) (pool : Pool) (funcs : List (BitVec 64)) (i : ℕ)
    (f : BitVec 64) (m : Machine ω) : Prop where
  pc : m.pc = s.pc + BitVec.ofNat 64 (4 * 9)
  handoff : m.x 19 = s.x 0
  descriptor : m.x 20 = s.x 1
  cursor : m.x 21 = pool.array + BitVec.ofNat 64 (8 * (i + 1))
  last : m.x 22 = pool.arrayEnd
  func : m.x 23 = f
  sp : m.x 31 = pool.stackTop
  tramp : TrampolineAt m.mem s.pc pool
  array : ArrayAt m.mem pool.array funcs

section Run
variable {ω : Type} {env : Env ω} {s : Machine ω} {pool : Pool} {funcs : List (BitVec 64)}

variable (env) in
theorem prologue_runs (htramp : TrampolineAt s.mem s.pc pool)
    (harray : ArrayAt s.mem pool.array funcs) :
    ∃ m, Runs env 6 s [] m ∧ AtLoop s pool funcs 0 m := by
  have hcode : CodeAt s.mem s.pc (trampolineInsns.take 6 ++ trampolineInsns.drop 6) :=
    htramp.codeAt
  obtain ⟨harr, hend, hstack, -⟩ := htramp.literals
  have hquad {a a' v : BitVec 64} (ha : a = a') (hv : s.mem.load a' 8 = v.toNat) :
      s.load64 a = v := by
    rw [Machine.load64, ha, hv, BitVec.ofNat_toNat, BitVec.setWidth_eq]
  let m := execAll env (trampolineInsns.take 6) s
  have hmem : m.mem = s.mem := execAll_mem _ s
  refine ⟨m, Runs.block (codeAt_append hcode).1 (by decide), ?_⟩
  have h21 : m.x 21 = s.load64 (s.pc + 4 + 4 + 64) := rfl
  have h22 : m.x 22 = s.load64 (s.pc + 4 + 4 + 4 + 68) := rfl
  have h31 : m.x 31 = s.load64 (s.pc + 4 + 4 + 4 + 4 + 72) + 0 := rfl
  exact {
    pc := execAll_pc s (by decide)
    handoff := rfl
    descriptor := rfl
    cursor := by
      rw [h21, hquad (by simp only [BitVec.add_assoc]; rfl) harr]
      exact (BitVec.add_zero _).symm
    last := by rw [h22, hquad (by simp only [BitVec.add_assoc]; rfl) hend]
    sp := by
      rw [h31, hquad (by simp only [BitVec.add_assoc]; rfl) hstack]
      exact BitVec.add_zero _
    tramp := hmem ▸ htramp
    array := hmem ▸ harray }

theorem AtLoop.insn {m t : Machine ω} {i k : ℕ} {insn : Insn} (h : AtLoop s pool funcs i m)
    (hmem : t.mem = m.mem) (hpc : t.pc = s.pc + BitVec.ofNat 64 (4 * k))
    (hk : trampolineInsns[k]? = some insn) : insnIn t.mem t.pc = some insn := by
  rw [hmem, hpc]
  exact h.tramp.insn hk

theorem pc_next {a b : BitVec 64} {k : ℕ} (h : b = a + BitVec.ofNat 64 (4 * k)) :
    b + 4 = a + BitVec.ofNat 64 (4 * (k + 1)) := by
  rw [h, BitVec.add_assoc, Nat.mul_succ, BitVec.ofNat_add]
  rfl

variable (env) in
theorem AtLoop.cmp_runs {m : Machine ω} {i : ℕ} (h : AtLoop s pool funcs i m)
    (hend : pool.arrayEnd.toNat = pool.array.toNat + 8 * funcs.length) (hi : i ≤ funcs.length) :
    ∃ t, Runs env 1 m [] t ∧ t.mem = m.mem ∧ t.pc = s.pc + BitVec.ofNat 64 (4 * 7) ∧
      t.x = m.x ∧ (t.flags.holds 2 = true ↔ i = funcs.length) := by
  have hcmp : insnIn m.mem m.pc = some (.cmp 21 22) := h.insn (k := 6) rfl h.pc rfl
  have hcarry : (exec env (.cmp 21 22) m).flags.holds 2 = (m.x 22).ule (m.x 21) := rfl
  refine ⟨exec env (.cmp 21 22) m, Runs.insn hcmp rfl, exec_mem _ m, pc_next h.pc, rfl, ?_⟩
  have hlast := pool.arrayEnd.isLt
  have hcursor : (pool.array + BitVec.ofNat 64 (8 * i)).toNat = pool.array.toNat + 8 * i := by
    rw [BitVec.toNat_add, BitVec.toNat_ofNat]
    omega
  rw [hcarry, h.cursor, h.last, BitVec.ule, decide_eq_true_iff, hcursor, hend]
  omega

variable (env) in
/-- Before the end of the array the loop reads the next function and moves the cursor. -/
theorem AtLoop.fetch_runs {m : Machine ω} {i : ℕ} {f : BitVec 64} (h : AtLoop s pool funcs i m)
    (hend : pool.arrayEnd.toNat = pool.array.toNat + 8 * funcs.length) (hf : funcs[i]? = some f) :
    ∃ t, Runs env 3 m [] t ∧ AtCall s pool funcs i f t := by
  have hi : i < funcs.length := (List.getElem?_eq_some_iff.mp hf).1
  obtain ⟨t₁, hrun₁, hmem₁, hpc₁, hx₁, hflag₁⟩ := h.cmp_runs env hend hi.le
  -- not at the end: the branch falls through
  have hfall : exec env (.bCond 2 4) t₁ = t₁.next := if_neg fun hc => by
    have hdone := hflag₁.mp hc
    omega
  have hrun₂ : Runs env 1 t₁ [] t₁.next := hfall ▸ Runs.insn (h.insn hmem₁ hpc₁ rfl) rfl
  have hpc₂ : t₁.next.pc = s.pc + BitVec.ofNat 64 (4 * 8) := pc_next hpc₁
  -- the load moves the cursor
  let t := exec env (.ldrPost 23 21 8) t₁.next
  have hrun₃ : Runs env 1 t₁.next [] t := Runs.insn (h.insn hmem₁ hpc₂ rfl) rfl
  have hmem : t.mem = m.mem := (exec_mem _ _).trans hmem₁
  have hx (r : BitVec 5) (h21 : r ≠ 21) (h23 : r ≠ 23) : t.x r = m.x r := by
    show Function.update (Function.update t₁.x 21 _) 23 _ r = m.x r
    rw [Function.update_of_ne h23, Function.update_of_ne h21, hx₁]
  refine ⟨t, (hrun₁.trans hrun₂).trans hrun₃, ?_⟩
  exact {
    pc := pc_next hpc₂
    handoff := (hx 19 (by decide) (by decide)).trans h.handoff
    descriptor := (hx 20 (by decide) (by decide)).trans h.descriptor
    cursor := by
      have hmoved : t.x 21 = t₁.x 21 + 8 := rfl
      rw [hmoved, hx₁, h.cursor, BitVec.add_assoc, Nat.mul_succ, BitVec.ofNat_add]
      rfl
    last := (hx 22 (by decide) (by decide)).trans h.last
    func := by
      have hloaded : t.x 23 = BitVec.ofNat 64 (t₁.mem.load (t₁.x 21) 8) := rfl
      rw [hloaded, hmem₁, hx₁, h.cursor, h.array i f hf, BitVec.ofNat_toNat, BitVec.setWidth_eq]
    sp := (hx 31 (by decide) (by decide)).trans h.sp
    tramp := hmem ▸ h.tramp
    array := hmem ▸ h.array }

/-- The call, and the branch back to the head of the loop. -/
theorem AtCall.call_runs {m : Machine ω} {i : ℕ} {f : BitVec 64}
    (h : AtCall s pool funcs i f m) (hlen : 8 * funcs.length < 2 ^ 64)
    (hcallees : CalleesReturn env funcs s.pc pool.array) (hf : f ∈ funcs) :
    ∃ t, Runs env 2 m [⟨f, pool.stackTop⟩] t ∧ AtLoop s pool funcs (i + 1) t := by
  let t₁ := exec env (.blr 23) m
  have hin : t₁.pc ∈ funcs := by
    have hpc : t₁.pc = f := h.func
    rwa [hpc]
  have hcall : Runs env 1 m [⟨f, pool.stackTop⟩] (env.callee t₁) := by
    have hinsn : insnIn m.mem m.pc = some (.blr 23) := by
      rw [h.pc]
      exact h.tramp.insn rfl
    have hrun : Runs env 1 m [⟨m.reg 23, m.x 31⟩] (env.callee t₁) := Runs.call hinsn
    have hreg : m.reg 23 = f := h.func
    rwa [hreg, h.sp] at hrun
  have hback : (env.callee t₁).pc = s.pc + BitVec.ofNat 64 (4 * 10) := by
    rw [hcallees.returns t₁ hin]
    exact pc_next h.pc
  have hsaved (r : BitVec 5) (hr : r ∈ ([19, 20, 21, 22, 31] : List (BitVec 5))) (h30 : r ≠ 30) :
      (env.callee t₁).x r = m.x r :=
    (hcallees.saved t₁ hin r hr).trans (Function.update_of_ne h30 _ _)
  have htramp : TrampolineAt (env.callee t₁).mem s.pc pool :=
    h.tramp.congr fun b hb => hcallees.unmodified t₁ hin b (.inl hb)
  have harray : ArrayAt (env.callee t₁).mem pool.array funcs :=
    h.array.congr hlen fun b hb => hcallees.unmodified t₁ hin b (.inr hb)
  -- back to the head of the loop
  let t := exec env (.b (-4)) (env.callee t₁)
  have hbranch : Runs env 1 (env.callee t₁) [] t := by
    refine Runs.insn ?_ rfl
    rw [hback]
    exact htramp.insn rfl
  have hmem : t.mem = (env.callee t₁).mem := exec_mem _ _
  refine ⟨t, hcall.trans hbranch, ?_⟩
  exact {
    pc := by
      have hoffset : ((-4 : BitVec 26) ++ 0#2).signExtend 64 = (-16 : BitVec 64) := by decide
      show (env.callee t₁).pc + ((-4 : BitVec 26) ++ 0#2).signExtend 64 = s.pc + 24
      rw [hoffset, hback, BitVec.add_assoc]
      rfl
    handoff := (hsaved 19 (by decide) (by decide)).trans h.handoff
    descriptor := (hsaved 20 (by decide) (by decide)).trans h.descriptor
    cursor := (hsaved 21 (by decide) (by decide)).trans h.cursor
    last := (hsaved 22 (by decide) (by decide)).trans h.last
    sp := (hsaved 31 (by decide) (by decide)).trans h.sp
    tramp := by rwa [hmem]
    array := by rwa [hmem] }

/-- One pass of the loop calls the next function. -/
theorem AtLoop.pass {m : Machine ω} {i : ℕ} {f : BitVec 64} (h : AtLoop s pool funcs i m)
    (hend : pool.arrayEnd.toNat = pool.array.toNat + 8 * funcs.length)
    (hcallees : CalleesReturn env funcs s.pc pool.array) (hf : funcs[i]? = some f) :
    ∃ t, Runs env 5 m [⟨f, pool.stackTop⟩] t ∧ AtLoop s pool funcs (i + 1) t := by
  have hlen : 8 * funcs.length < 2 ^ 64 := by
    have hlast := pool.arrayEnd.isLt
    omega
  obtain ⟨t, hfetch, ht⟩ := h.fetch_runs env hend hf
  obtain ⟨t', hcall, ht'⟩ := ht.call_runs hlen hcallees (List.mem_of_getElem? hf)
  exact ⟨t', hfetch.trans hcall, ht'⟩

/-- The rest of the array, one pass for each function. -/
theorem loop_runs (hend : pool.arrayEnd.toNat = pool.array.toNat + 8 * funcs.length)
    (hcallees : CalleesReturn env funcs s.pc pool.array) : ∀ (left i : ℕ) (m : Machine ω),
      i + left = funcs.length → AtLoop s pool funcs i m →
        ∃ t, Runs env (5 * left) m ((funcs.drop i).map fun f => ⟨f, pool.stackTop⟩) t ∧
          AtLoop s pool funcs funcs.length t
  | 0, i, m, hleft, h => by
      obtain rfl : i = funcs.length := hleft
      rw [List.drop_length]
      exact ⟨m, Runs.refl m, h⟩
  | left + 1, i, m, hleft, h => by
      have hi : i < funcs.length := by omega
      obtain ⟨m', hpass, h'⟩ := h.pass hend hcallees (List.getElem?_eq_getElem hi)
      obtain ⟨t, hrest, ht⟩ := loop_runs hend hcallees left (i + 1) m' (by omega) h'
      refine ⟨t, ?_, ht⟩
      have hrun := hpass.trans hrest
      rw [List.drop_eq_getElem_cons hi, List.map_cons, Nat.mul_succ, Nat.add_comm (5 * left)]
      exact hrun

variable (env) in
theorem epilogue_runs {m : Machine ω} (h : AtLoop s pool funcs funcs.length m)
    (hend : pool.arrayEnd.toNat = pool.array.toNat + 8 * funcs.length) :
    ∃ t, Runs env 9 m [] t ∧ t.pc = pool.entry ∧ t.x 0 = s.x 0 ∧ t.x 1 = s.x 1 ∧ t.x 31 = 0 ∧
      t.tpidr = 0 := by
  obtain ⟨t₁, hrun₁, hmem₁, hpc₁, hx₁, hflag₁⟩ := h.cmp_runs env hend le_rfl
  have htaken : exec env (.bCond 2 4) t₁ = t₁.jump (t₁.pc + 16) := if_pos (hflag₁.mpr rfl)
  let t₂ := t₁.jump (t₁.pc + 16)
  have hrun₂ : Runs env 1 t₁ [] t₂ := by
    have hrun : Runs env 1 t₁ [] (exec env (.bCond 2 4) t₁) :=
      Runs.insn (h.insn hmem₁ hpc₁ rfl) rfl
    rwa [htaken] at hrun
  have hpc₂ : t₂.pc = s.pc + BitVec.ofNat 64 (4 * 11) := by
    show t₁.pc + 16 = _
    rw [hpc₁, BitVec.add_assoc]
    rfl
  -- six words, then the jump to the entry
  have hcode : CodeAt t₂.mem t₂.pc ((trampolineInsns.drop 11).take 6 ++ [.br 16]) := by
    have hall : CodeAt m.mem s.pc (trampolineInsns.take 11 ++ trampolineInsns.drop 11) :=
      h.tramp.codeAt
    have hrest := (codeAt_append hall).2
    rw [hpc₂, show t₂.mem = m.mem from hmem₁]
    exact hrest
  obtain ⟨hbody, hlast⟩ := codeAt_append hcode
  let t₃ := execAll env ((trampolineInsns.drop 11).take 6) t₂
  have hrun₃ : Runs env 6 t₂ [] t₃ := Runs.block hbody (by decide)
  have hpc₃ : t₃.pc = t₂.pc + BitVec.ofNat 64 (4 * 6) := execAll_pc t₂ (by decide)
  have hbr : insnIn t₃.mem t₃.pc = some (.br 16) := by
    rw [hpc₃, execAll_mem]
    exact (codeAt_cons.mp hlast).1
  have hentry : t₃.x 16 = pool.entry := by
    have hloaded : t₃.x 16 =
        BitVec.ofNat 64 (t₁.mem.load (t₂.pc + 4 + 4 + 4 + 4 + 36) 8) := rfl
    have haddr : t₂.pc + 4 + 4 + 4 + 4 + 36 = s.pc + 0x60 := by
      rw [hpc₂]
      simp only [BitVec.add_assoc]
      rfl
    rw [hloaded, haddr, hmem₁, h.tramp.literals.2.2.2, BitVec.ofNat_toNat, BitVec.setWidth_eq]
  refine ⟨exec env (.br 16) t₃, ((hrun₁.trans hrun₂).trans hrun₃).trans (Runs.insn hbr rfl),
    hentry, ?_, ?_, rfl, rfl⟩
  · have hx : t₃.x 0 = t₁.x 19 := rfl
    exact hx.trans ((congrFun hx₁ 19).trans h.handoff)
  · have hx : t₃.x 1 = t₁.x 20 := rfl
    exact hx.trans ((congrFun hx₁ 20).trans h.descriptor)

/-- The trampoline calls the functions of the array once each, in order, on the scratch stack, and
then is at the entry with x0 and x1 as it got them. -/
theorem trampoline_runs_constructors (env : Env ω) (s : Machine ω) (pool : Pool)
    (funcs : List (BitVec 64)) (htramp : TrampolineAt s.mem s.pc pool)
    (harray : ArrayAt s.mem pool.array funcs)
    (hend : pool.arrayEnd.toNat = pool.array.toNat + 8 * funcs.length)
    (hcallees : CalleesReturn env funcs s.pc pool.array) :
    ∃ t, Runs env (15 + 5 * funcs.length) s (funcs.map fun f => ⟨f, pool.stackTop⟩) t ∧
      t.pc = pool.entry ∧ t.x 0 = s.x 0 ∧ t.x 1 = s.x 1 ∧ t.x 31 = 0 ∧ t.tpidr = 0 := by
  obtain ⟨m, hprologue, hm⟩ := prologue_runs env htramp harray
  obtain ⟨m', hloop, hm'⟩ := loop_runs hend hcallees funcs.length 0 m (Nat.zero_add _) hm
  obtain ⟨t, hepilogue, ht⟩ := epilogue_runs env hm' hend
  refine ⟨t, ?_, ht⟩
  have hrun := (hprologue.trans hloop).trans hepilogue
  have hsteps : 6 + 5 * funcs.length + 9 = 15 + 5 * funcs.length := by omega
  rw [hsteps, List.nil_append, List.append_nil, List.drop_zero] at hrun
  exact hrun

end Run

/-! ## A run of two functions -/

def twoCtors : List (BitVec 64) := [0x9000, 0x9010]

def twoCtorsPool : Pool := ⟨0x8000, 0x8010, 0x20000, 0xa000⟩

/-- The trampoline at 0x1000, behind an array at 0x8000. -/
def twoCtorsMachine : Machine Unit where
  x r := r.setWidth 64 + 5
  pc := 0x1000
  flags := ⟨false, false, false, false⟩
  mem := installTrampoline
    (Memory.write (fun _ => 0) 0x8000 (twoCtors.flatMap fun f => leBytes 8 f.toNat)) 0x1000
    twoCtorsPool
  tpidr := 0x7777
  world := ()

/-- Functions that only count their calls in x0. -/
def countingEnv : Env Unit where
  sign p _ := p
  auth p _ := p
  callee m := { m with pc := m.x 30, x := Function.update m.x 0 (m.x 0 + 1) }

theorem countingEnv_returns : CalleesReturn countingEnv twoCtors 0x1000 0x8000 where
  returns _ _ := rfl
  saved m _ r hr := by
    have hne : r ≠ 0 := by
      rintro rfl
      exact absurd hr (by decide)
    exact Function.update_of_ne hne _ _
  unmodified _ _ _ _ := rfl

theorem twoCtors_arrayAt : ArrayAt twoCtorsMachine.mem 0x8000 twoCtors := by
  have hall : ∀ k < twoCtors.length, some (twoCtorsMachine.mem.load
      (0x8000 + BitVec.ofNat 64 (8 * k)) 8) = twoCtors[k]?.map BitVec.toNat := by
    decide +kernel
  intro k f hf
  have hload := hall k (List.getElem?_eq_some_iff.mp hf).1
  rw [hf] at hload
  exact Option.some.inj hload

theorem twoCtors_run : ∃ t, Runs countingEnv (15 + 5 * twoCtors.length) twoCtorsMachine
      (twoCtors.map fun f => ⟨f, twoCtorsPool.stackTop⟩) t ∧
    t.pc = twoCtorsPool.entry ∧ t.x 0 = twoCtorsMachine.x 0 ∧ t.x 1 = twoCtorsMachine.x 1 ∧
      t.x 31 = 0 ∧ t.tpidr = 0 :=
  trampoline_runs_constructors countingEnv twoCtorsMachine twoCtorsPool twoCtors
    (installTrampoline_at _ _ _) twoCtors_arrayAt (by decide) countingEnv_returns

end SecureWorld.Loader
