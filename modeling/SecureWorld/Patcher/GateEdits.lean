import SecureWorld.Patcher.PatchedWords
import SecureWorld.Patcher.SsvPatches

/-! # Branches overwritten with NOP

A NOP over a branch that tests a register changes no pair, no stop of a walk and no stub: only the
searches for such branches see it.
-/
namespace SecureWorld.Patcher
open Foundations Armv8
set_option autoImplicit false

/-- `out` is `mid` with NOP over the branches at `gates`. -/
structure Nopped (mid out : Bytes) (gates : List ℕ) : Prop where
  length_eq : out.length = mid.length
  aligned : ∀ g ∈ gates, g % 4 = 0
  branch : ∀ g ∈ gates, IsTestBranch (wordAt mid g)
  nop : ∀ g ∈ gates, wordAt out g = nop32
  frame : ∀ i, (∀ g ∈ gates, i < g ∨ g + 4 ≤ i) → out[i]? = mid[i]?

theorem nopped_nil (mid : Bytes) : Nopped mid mid [] where
  length_eq := rfl
  aligned := List.forall_mem_nil _
  branch := List.forall_mem_nil _
  nop := List.forall_mem_nil _
  frame _ _ := rfl

theorem nopped_one {data : Bytes} {g : ℕ} (hg : g % 4 = 0) (hfits : g + 4 ≤ data.length)
    (hb : IsTestBranch (wordAt data g)) :
    ∃ out, packI data g nop32 = .ok out ∧ Nopped data out [g] := by
  obtain ⟨out, hrun, hlen, hword, hframe⟩ := packI_spec hfits nop32
  refine ⟨out, hrun, hlen, ?_, ?_, ?_, fun i hi => hframe i (hi g (List.mem_singleton_self g))⟩
  · exact List.forall_mem_singleton.mpr hg
  · exact List.forall_mem_singleton.mpr hb
  · exact List.forall_mem_singleton.mpr hword

section Words
variable {mid out : Bytes} {gates : List ℕ} (h : Nopped mid out gates)
include h

theorem Nopped.word_of_notMem {p : ℕ} (hp : p % 4 = 0) (hmem : p ∉ gates) :
    wordAt out p = wordAt mid p := by
  refine wordAt_congr fun k hk => h.frame _ fun g hg => ?_
  have hga := h.aligned g hg
  have hne : p ≠ g := fun heq => hmem (heq ▸ hg)
  omega

theorem Nopped.word {p : ℕ} (hp : p % 4 = 0) : wordAt out p = wordAt mid p ∨
    IsTestBranch (wordAt mid p) ∧ wordAt out p = nop32 := by
  by_cases hmem : p ∈ gates
  · exact .inr ⟨h.branch p hmem, h.nop p hmem⟩
  · exact .inl (h.word_of_notMem hp hmem)

/-- A word that is still a branch is the original one. -/
theorem Nopped.word_of_branch {p : ℕ} (hp : p % 4 = 0) (hb : IsTestBranch (wordAt out p)) :
    wordAt out p = wordAt mid p := by
  rcases h.word hp with heq | ⟨-, hnop⟩
  · exact heq
  · rw [hnop] at hb
    exact absurd hb (by decide)

/-- Later edits add to earlier ones. -/
theorem Nopped.trans {out' : Bytes} {gates' : List ℕ} (h' : Nopped out out' gates') :
    Nopped mid out' (gates ++ gates') where
  length_eq := h'.length_eq.trans h.length_eq
  aligned g hg := (List.mem_append.mp hg).elim (h.aligned g) (h'.aligned g)
  branch g hg := by
    rcases List.mem_append.mp hg with hold | hnew
    · exact h.branch g hold
    · have hb := h'.branch g hnew
      rwa [h.word_of_branch (h'.aligned g hnew) hb] at hb
  nop g hg := by
    rcases List.mem_append.mp hg with hold | hnew
    · rcases h'.word (h.aligned g hold) with heq | ⟨-, hnop⟩
      · exact heq.trans (h.nop g hold)
      · exact hnop
    · exact h'.nop g hnew
  frame i hi := (h'.frame i fun g hg => hi g (List.mem_append_right _ hg)).trans
    (h.frame i fun g hg => hi g (List.mem_append_left _ hg))

end Words

/-! ## Tests that no branch passes -/

theorem not_adrp_of_branch {w : BitVec 32} (h : IsTestBranch w) :
    ¬ w &&& 0x9F000000 = 0x90000000 := fun ha => by
  have h₁ : w &&& 0x1C000000 = 0x14000000 := and_mask_mono h (by decide)
  have h₂ : w &&& 0x1C000000 = 0x10000000 := and_mask_mono ha (by decide)
  exact absurd (h₁.symm.trans h₂) (by decide)

theorem not_add_of_branch {w : BitVec 32} (h : IsTestBranch w) :
    ¬ w &&& 0xFFC00000 = 0x91000000 := fun ha => by
  have h₁ : w &&& 0x1C000000 = 0x14000000 := and_mask_mono h (by decide)
  have h₂ : w &&& 0x1C000000 = 0x10000000 := and_mask_mono ha (by decide)
  exact absurd (h₁.symm.trans h₂) (by decide)

theorem not_return_of_branch {w : BitVec 32} (h : IsTestBranch w) : ¬ isReturn w := fun hr => by
  simp only [isReturn, List.mem_cons, List.not_mem_nil, or_false, decide_eq_true_eq] at hr
  rcases hr with rfl | rfl <;> exact absurd h (by decide)

theorem not_prologue_of_branch {w : BitVec 32} (h : IsTestBranch w) : ¬ isPrologueStart w :=
  fun hp => by
  have hclass := prologue_opcode hp
  simp only [List.mem_cons, List.not_mem_nil, or_false] at hclass
  rcases hclass with hw | hw | hw | hw <;>
    exact absurd (h.symm.trans (and_mask_mono hw (by decide))) (by decide)

theorem not_pacibsp_of_branch {w : BitVec 32} (h : IsTestBranch w) : w ≠ pacibsp := fun hp =>
  absurd (hp ▸ h) (by decide)

/-! ## The searches -/

section Searches
variable {mid out : Bytes} {gates : List ℕ} (h : Nopped mid out gates)
include h

/-- A test that neither NOP nor a branch passes sees the same word, or none, on both images. -/
theorem Nopped.test_iff {P : BitVec 32 → Prop} (hnop : ¬ P nop32)
    (hbranch : ∀ w, IsTestBranch w → ¬ P w) {p : ℕ} (hp : p % 4 = 0) :
    P (wordAt out p) ↔ P (wordAt mid p) := by
  rcases h.word hp with heq | ⟨hb, hn⟩
  · rw [heq]
  · rw [hn]
    exact iff_of_false hnop (hbranch _ hb)

theorem Nopped.matchAt_iff {vmaddr fileoff strVa i : ℕ} (hf : fileoff % 4 = 0) (hi : i % 4 = 0) :
    MatchAt out vmaddr fileoff strVa i ↔ MatchAt mid vmaddr fileoff strVa i := by
  rcases h.word (p := fileoff + i) (by omega) with ha | ⟨hb, hn⟩
  · rcases h.word (p := fileoff + i + 4) (by omega) with hadd | ⟨hb, hn⟩
    · rw [MatchAt, ha, hadd, MatchAt]
    · refine iff_of_false (fun hm => ?_) fun hm => not_add_of_branch hb hm.add
      have hm' := hm.add
      rw [hn] at hm'
      exact absurd hm' (by decide)
  · refine iff_of_false (fun hm => ?_) fun hm => not_adrp_of_branch hb hm.adrp
    have hm' := hm.adrp
    rw [hn] at hm'
    exact absurd hm' (by decide)

theorem Nopped.firstMatch_eq {exec : Segment} (hf : exec.fileoff % 4 = 0) (strVa : ℕ) :
    firstMatch out exec strVa = firstMatch mid exec strVa := by
  have hlen : codeLength out exec.fileoff exec.filesize =
      codeLength mid exec.fileoff exec.filesize := by
    rw [codeLength, codeLength, slice_length, slice_length, h.length_eq]
  rw [firstMatch, firstMatch, hlen, ← List.head?_filterMap, ← List.head?_filterMap]
  refine congrArg List.head? (List.filterMap_congr fun i hi => ?_)
  obtain ⟨-, k, rfl⟩ := (mem_rangeUp (by decide)).mp hi
  exact if_congr (h.matchAt_iff hf (by omega)) rfl rfl

theorem Nopped.stopAt_eq {p : ℕ} (hp : p % 4 = 0) : stopAt out p = stopAt mid p := by
  have hpac : wordAt out p = pacibsp ↔ wordAt mid p = pacibsp :=
    h.test_iff (P := (· = pacibsp)) (by decide) (fun w => not_pacibsp_of_branch) hp
  have hret : isReturn (wordAt out p) ↔ isReturn (wordAt mid p) :=
    h.test_iff (P := fun w => isReturn w) (by decide) (fun w => not_return_of_branch) hp
  have hpro : isPrologueStart (wordAt out (p + 4)) ↔ isPrologueStart (wordAt mid (p + 4)) :=
    h.test_iff (P := fun w => isPrologueStart w) (by decide) (fun w => not_prologue_of_branch)
      (by omega)
  rw [stopAt, stopAt]
  exact if_congr hpac rfl (if_congr (and_congr hret hpro) rfl rfl)

theorem Nopped.nearestEntry_eq {x : ℕ} (hx : x % 4 = 0) :
    nearestEntry out x = nearestEntry mid x := by
  rw [nearestEntry, nearestEntry, ← List.head?_filterMap, ← List.head?_filterMap]
  refine congrArg List.head? (List.filterMap_congr fun off hoff => ?_)
  obtain ⟨-, k, hk⟩ := mem_walkWindow.mp hoff
  exact h.stopAt_eq (by omega)

/-- Words without a branch among them stay in place. -/
theorem Nopped.lays {f : ℕ} {ws : List (BitVec 32)} (hlays : Lays mid f ws) (hf : f % 4 = 0)
    (hws : ∀ w ∈ ws, ¬ IsTestBranch w) : Lays out f ws := by
  refine ⟨h.length_eq ▸ hlays.fits, fun k hk => ?_⟩
  have hword := hlays.word k hk
  rcases h.word (p := f + 4 * k) (by omega) with heq | ⟨hb, -⟩
  · rw [heq, hword]
  · rw [hword] at hb
    exact absurd hb (hws _ (List.getElem_mem hk))

end Searches

end SecureWorld.Patcher
