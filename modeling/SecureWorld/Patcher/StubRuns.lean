import SecureWorld.Foundations.A64
import SecureWorld.Patcher.FunctionLayout
import SecureWorld.Patcher.Interference
import SecureWorld.Patcher.PatchRun

/-! # What a stub does

The walk from a cross reference and the stub over the entry it finds change at most the first words
of that function, none of them behind the pair. Run from the entry, the stub returns 0 to its caller
and leaves everything but x0 and the link register alone.
-/
namespace SecureWorld.Patcher
open Foundations A64
set_option autoImplicit false

/-- `m` is at the entry of a function that returns 0. -/
def ReturnsZero {ω : Type} (env : Env ω) (m : Machine ω) : Prop :=
  ∃ n t, Runs env n m [] t ∧ t.pc = m.x 30 ∧ t.x 0 = 0 ∧
    (∀ r, r ≠ 0 → r ≠ 30 → t.x r = m.x r) ∧ t.mem = m.mem

def stubInsns (entry : BitVec 32) : List Insn :=
  if entry = pacibsp then [.pacibsp, .movz 0 0, .retab] else [.movz 0 0, .ret 30]

theorem stubInsns_decode (entry : BitVec 32) :
    (stubWords entry).map decode = (stubInsns entry).map some := by
  unfold stubWords stubInsns
  split_ifs
  · decide
  · decide

section Runs
variable {ω : Type} {env : Env ω} {m : Machine ω}

/-- `pacibsp; mov x0, #0; retab` -/
theorem pac_stub_returns (hcode : CodeAt m.mem m.pc [.pacibsp, .movz 0 0, .retab])
    (hauth : env.auth (env.sign (m.x 30) (m.x 31)) (m.x 31) = m.x 30) : ReturnsZero env m := by
  have hsplit : CodeAt m.mem m.pc ([.pacibsp, .movz 0 0] ++ [.retab]) := hcode
  obtain ⟨hbody, hlast⟩ := codeAt_append hsplit
  let t := execAll env [.pacibsp, .movz 0 0] m
  have hrun : Runs env 2 m [] t := Runs.block hbody (by decide)
  have hpc : t.pc = m.pc + 8 := execAll_pc m (by decide)
  have hmem : t.mem = m.mem := execAll_mem _ m
  have hretab : insnIn t.mem t.pc = some .retab := by
    rw [hmem, hpc]
    exact (codeAt_cons.mp hlast).1
  refine ⟨3, exec env .retab t, hrun.trans (Runs.insn hretab rfl), hauth, rfl, fun r h0 h30 => ?_,
    hmem⟩
  show Function.update (Function.update m.x 30 _) 0 _ r = m.x r
  rw [Function.update_of_ne h0, Function.update_of_ne h30]

/-- `mov x0, #0; ret` -/
theorem plain_stub_returns (hcode : CodeAt m.mem m.pc [.movz 0 0, .ret 30]) :
    ReturnsZero env m := by
  obtain ⟨hmov, hrest⟩ := codeAt_cons.mp hcode
  let t := exec env (.movz 0 0) m
  have hret : insnIn t.mem t.pc = some (.ret 30) := (codeAt_cons.mp hrest).1
  refine ⟨2, exec env (.ret 30) t, (Runs.insn hmov rfl).trans (Runs.insn hret rfl), rfl, rfl,
    fun r h0 _ => ?_, rfl⟩
  show Function.update m.x 0 _ r = m.x r
  rw [Function.update_of_ne h0]

end Runs

/-! ## The stub in memory -/

theorem codeAt_of_lays {out : Bytes} {off : ℕ} {ws : List (BitVec 32)} {is : List Insn}
    (hlays : Lays out off ws) (hdecode : ws.map decode = is.map some) {mem : Memory}
    {a : BitVec 64} (hmem : mem.Holds a (slice out off (off + 4 * ws.length))) :
    CodeAt mem a is := by
  have hfits := hlays.fits
  have hlen : is.length = ws.length := by
    have h := congrArg List.length hdecode
    rw [List.length_map, List.length_map] at h
    exact h.symm
  have hslice : (slice out off (off + 4 * ws.length)).length = 4 * ws.length := by
    rw [slice_length]
    omega
  refine codeAt_of_holds hmem (by omega) fun k i hi => ?_
  have hk : k < ws.length := hlen ▸ (List.getElem?_eq_some_iff.mp hi).1
  have hword : codeWord (slice out off (off + 4 * ws.length)) (4 * k) = ws[k] := by
    rw [← hlays.word k hk]
    exact wordAt_slice (by omega)
  have hget := congrArg (fun l => l[k]?) hdecode
  simp only [List.getElem?_map, hi, List.getElem?_eq_getElem hk, Option.map_some] at hget
  rw [hword]
  exact Option.some.inj hget

theorem stub_returns {ω : Type} {env : Env ω} {m : Machine ω} {out : Bytes} {f : ℕ}
    {entry : BitVec 32} (hlays : Lays out f (stubWords entry))
    (hmem : m.mem.Holds m.pc (slice out f (f + 4 * (stubWords entry).length)))
    (hauth : env.auth (env.sign (m.x 30) (m.x 31)) (m.x 31) = m.x 30) : ReturnsZero env m := by
  have hcode := codeAt_of_lays hlays (stubInsns_decode entry) hmem
  unfold stubInsns at hcode
  split_ifs at hcode
  · exact pac_stub_returns hcode hauth
  · exact plain_stub_returns hcode

/-! ## From the cross reference to the stub -/

/-- `out` is `data` with `size` bytes changed at the entry, which return 0 when they are run. -/
structure StubbedAt (data out : Bytes) (xref entry size : ℕ) : Prop where
  sizes : size = 8 ∨ size = 12
  before : entry + size ≤ xref + 8
  length_eq : out.length = data.length
  frame : ∀ i, i < entry ∨ entry + size ≤ i → out[i]? = data[i]?
  returns : ∀ {ω : Type} (env : Env ω) (m : Machine ω),
    m.mem.Holds m.pc (slice out entry (entry + size)) →
      env.auth (env.sign (m.x 30) (m.x 31)) (m.x 31) = m.x 30 → ReturnsZero env m

/-- From a cross reference the walk finds nothing, and no byte changes, or it finds an entry and
the stub is written there. -/
theorem stub_is_safe (data : Bytes) (execVmaddr execFileoff execFilesize strVmaddr xref : ℕ)
    (hx : findAdrpAddXref data execVmaddr execFileoff execFilesize strVmaddr = .ok (some xref)) :
    walkBackToPrologue data xref = .ok none ∨
      ∃ entry out size, walkBackToPrologue data xref = .ok (some entry) ∧
        stubFunction data entry = .ok (out, true) ∧ StubbedAt data out xref entry size := by
  let exec : Segment := ⟨execVmaddr, 0, execFileoff, execFilesize⟩
  have hmatch : firstMatch data exec strVmaddr = some xref := by
    have heq := findAdrpAddXref_firstMatch data exec strVmaddr
    rw [hx] at heq
    exact (Except.ok.inj heq).symm
  have hpair : PairAt data exec xref := pairAt_of_firstMatch hmatch
  rw [hpair.walk]
  cases hentry : nearestEntry data xref with
  | none => exact .inl rfl
  | some f =>
    have hsite : Site data exec xref f := ⟨hpair, hentry⟩
    have hle : f + stubSize data f ≤ xref + 8 := hsite.stub_le
    have hfits : xref + 8 ≤ data.length := hpair.fits
    obtain ⟨out, hstub, hlen, hlays, hframe⟩ :=
      stubFunction_spec hsite.prologue (show f + stubSize data f ≤ data.length by omega)
    refine .inr ⟨f, out, stubSize data f, rfl, hstub, ?_, hle, hlen, fun i hi => ?_, ?_⟩
    · rcases stubSize_cases data f with ⟨-, hs⟩ | ⟨-, hs⟩
      · exact .inr hs
      · exact .inl hs
    · refine hframe i fun hin => ?_
      unfold InStub at hin
      omega
    · intro ω env m hmem hauth
      exact stub_returns hlays hmem hauth

theorem framedFunction_stubbed :
    walkBackToPrologue (segmentBytes framedFunction.words) 24 = .ok none ∨
      ∃ entry out size,
        walkBackToPrologue (segmentBytes framedFunction.words) 24 = .ok (some entry) ∧
          stubFunction (segmentBytes framedFunction.words) entry = .ok (out, true) ∧
          StubbedAt (segmentBytes framedFunction.words) out 24 entry size :=
  stub_is_safe (segmentBytes framedFunction.words) 0x4010 16 20 0x4000 24 (by decide +kernel)

end SecureWorld.Patcher
