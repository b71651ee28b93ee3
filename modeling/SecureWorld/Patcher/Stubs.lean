import SecureWorld.Patcher.Img4Magazine

/-! # Images with stubs in them

`PatchedExactly data out funcs`: `out` is `data` with the return-0 stub of each function of `funcs`
written over its entry, and no other byte changed. The stub's convention is that of the original
entry.
-/
namespace SecureWorld.Patcher
open Foundations
set_option autoImplicit false

def stubWords (entry : BitVec 32) : List (BitVec 32) :=
  if entry = pacibsp then [pacibsp, movX0Zero, retab] else [movX0Zero, ret]

def stubSize (data : Bytes) (f : ℕ) : ℕ := 4 * (stubWords (wordAt data f)).length

/-- The byte at `i` belongs to the stub at `f`. -/
def InStub (data : Bytes) (f i : ℕ) : Prop := f ≤ i ∧ i < f + stubSize data f

structure PatchedExactly (data out : Bytes) (funcs : List ℕ) : Prop where
  length_eq : out.length = data.length
  stub : ∀ f ∈ funcs, Lays out f (stubWords (wordAt data f))
  frame : ∀ i, (∀ f ∈ funcs, ¬ InStub data f i) → out[i]? = data[i]?

theorem patchedExactly_nil (data : Bytes) : PatchedExactly data data [] :=
  ⟨rfl, fun _ h => absurd h List.not_mem_nil, fun _ _ => rfl⟩

theorem PatchedExactly.congr {data out : Bytes} {funcs funcs' : List ℕ}
    (h : PatchedExactly data out funcs) (hmem : ∀ f, f ∈ funcs' ↔ f ∈ funcs) :
    PatchedExactly data out funcs' :=
  ⟨h.length_eq, fun f hf => h.stub f ((hmem f).mp hf),
    fun i hi => h.frame i fun f hf => hi f ((hmem f).mpr hf)⟩

theorem stubSize_pac {data : Bytes} {f : ℕ} (h : wordAt data f = pacibsp) :
    stubSize data f = 12 := by
  rw [stubSize, h]
  rfl

theorem stubSize_plain {data : Bytes} {f : ℕ} (h : wordAt data f ≠ pacibsp) :
    stubSize data f = 8 := by
  rw [stubSize, stubWords, if_neg h]
  rfl

theorem stubSize_cases (data : Bytes) (f : ℕ) :
    wordAt data f = pacibsp ∧ stubSize data f = 12 ∨
      wordAt data f ≠ pacibsp ∧ stubSize data f = 8 := by
  by_cases h : wordAt data f = pacibsp
  · exact .inl ⟨h, stubSize_pac h⟩
  · exact .inr ⟨h, stubSize_plain h⟩

def allStubWords : List (BitVec 32) := [pacibsp, movX0Zero, retab, ret]

theorem mem_allStubWords {entry w : BitVec 32} (h : w ∈ stubWords entry) : w ∈ allStubWords := by
  unfold stubWords at h
  unfold allStubWords
  split_ifs at h <;> simp only [List.mem_cons, List.not_mem_nil, or_false] at h ⊢ <;> tauto

/-! ## Writing words -/

def packWords (data : Bytes) : ℕ → List (BitVec 32) → Except PyError Bytes
  | _, [] => .ok data
  | off, w :: ws => do
      let data ← packI data off w
      packWords data (off + 4) ws

theorem packWords_spec : ∀ (ws : List (BitVec 32)) {data : Bytes} {off : ℕ},
    off + 4 * ws.length ≤ data.length →
      ∃ out, packWords data off ws = .ok out ∧ out.length = data.length ∧ Lays out off ws ∧
        ∀ i, i < off ∨ off + 4 * ws.length ≤ i → out[i]? = data[i]?
  | [], data, off, h =>
      ⟨data, rfl, rfl, ⟨h, fun _ hk => absurd hk (Nat.not_lt_zero _)⟩, fun _ _ => rfl⟩
  | w :: ws, data, off, h => by
      rw [List.length_cons] at h
      have hhead : off + 4 ≤ data.length := by omega
      obtain ⟨mid, hmid, hmidLen, hword, hmidFrame⟩ := packI_spec hhead w
      have htail : off + 4 + 4 * ws.length ≤ mid.length := by omega
      obtain ⟨out, hout, houtLen, hlays, houtFrame⟩ := packWords_spec ws htail
      refine ⟨out, ?_, by omega, ⟨?_, fun k hk => ?_⟩, fun i hi => ?_⟩
      · rw [packWords, hmid]
        exact hout
      · rw [List.length_cons]
        omega
      · cases k with
        | zero =>
          rw [Nat.mul_zero, Nat.add_zero, List.getElem_cons_zero, ← hword]
          exact wordAt_congr fun j hj => houtFrame _ (.inl (by omega))
        | succ k =>
          have hk' := hlays.word k (Nat.lt_of_succ_lt_succ hk)
          rwa [Nat.mul_succ, ← Nat.add_assoc, Nat.add_right_comm, List.getElem_cons_succ]
      · rw [List.length_cons] at hi
        rw [houtFrame i (by omega), hmidFrame i (by omega)]

theorem stubFunction_eq {data : Bytes} {f : ℕ} (hfits : f + 4 ≤ data.length)
    (hpro : isPrologueStart (wordAt data f)) :
    stubFunction data f =
      (packWords data f (stubWords (wordAt data f))).map fun out => (out, true) := by
  simp only [stubFunction, unpackI_ok hfits, bind, Except.bind, pure, Except.pure]
  rw [if_neg (not_not.mpr hpro)]
  by_cases hpac : wordAt data f = pacibsp
  · rw [if_pos hpac, stubWords, if_pos hpac]
    simp only [packWords, bind, Except.bind, Nat.add_assoc, Nat.reduceAdd]
    cases packI data f pacibsp with
    | error e => rfl
    | ok d₁ =>
      dsimp only
      cases packI d₁ (f + 4) movX0Zero with
      | error e => rfl
      | ok d₂ =>
        dsimp only
        cases packI d₂ (f + 8) retab <;> rfl
  · rw [if_neg hpac, stubWords, if_neg hpac]
    simp only [packWords, bind, Except.bind]
    cases packI data f movX0Zero with
    | error e => rfl
    | ok d₁ =>
      dsimp only
      cases packI d₁ (f + 4) ret <;> rfl

theorem stubFunction_spec {data : Bytes} {f : ℕ} (hpro : isPrologueStart (wordAt data f))
    (hfits : f + stubSize data f ≤ data.length) :
    ∃ out, stubFunction data f = .ok (out, true) ∧ out.length = data.length ∧
      Lays out f (stubWords (wordAt data f)) ∧ ∀ i, ¬ InStub data f i → out[i]? = data[i]? := by
  obtain ⟨out, hout, hlen, hlays, hframe⟩ := packWords_spec (stubWords (wordAt data f)) hfits
  refine ⟨out, ?_, hlen, hlays, fun i hi => hframe i ?_⟩
  · have hsize : stubSize data f = 8 ∨ stubSize data f = 12 := by
      rcases stubSize_cases data f with ⟨-, h⟩ | ⟨-, h⟩
      · exact .inr h
      · exact .inl h
    rw [stubFunction_eq (by omega) hpro, hout]
    rfl
  · unfold InStub stubSize at hi
    omega

/-! ## A stub over itself -/

theorem packI_self {data : Bytes} {off : ℕ} (h : off + 4 ≤ data.length) :
    packI data off (wordAt data off) = .ok data := by
  rw [packI, if_pos h, leBytes_wordAt h, ← List.drop_drop, List.append_assoc,
    List.take_append_drop, List.take_append_drop]

theorem packWords_self {data : Bytes} : ∀ {ws : List (BitVec 32)} {off : ℕ}, Lays data off ws →
    packWords data off ws = .ok data
  | [], _, _ => rfl
  | w :: ws, off, h => by
      have hfits := h.fits
      rw [List.length_cons] at hfits
      have hword : wordAt data off = w := h.word 0 (by rw [List.length_cons]; omega)
      have htail : Lays data (off + 4) ws := ⟨by omega, fun k hk => by
        have hk' := h.word (k + 1) (by rw [List.length_cons]; omega)
        rwa [List.getElem_cons_succ, Nat.mul_succ, Nat.add_comm (4 * k), ← Nat.add_assoc] at hk'⟩
      rw [packWords, ← hword, packI_self (by omega), ok_bind]
      exact packWords_self htail

/-- Stubbing a stub that starts with PACIBSP changes nothing. -/
theorem stubFunction_self {data : Bytes} {f : ℕ} (h : Lays data f (stubWords pacibsp)) :
    stubFunction data f = .ok (data, true) := by
  have hlen : (stubWords pacibsp).length = 3 := rfl
  have hfits := h.fits
  have hword : wordAt data f = pacibsp := h.word 0 (by omega)
  rw [stubFunction_eq (by omega) (hword ▸ isPrologueStart_pacibsp), hword, packWords_self h]
  rfl

end SecureWorld.Patcher
