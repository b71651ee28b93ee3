import SecureWorld.Patcher.Sites

/-! # What a search sees in a partly patched image

`out` is `data` with stubs over the functions `funcs`, all of them found on `data`. No search sees
a pair that was not there, and the only new stop of a walk is a stub's own return.
-/
namespace SecureWorld.Patcher
open Foundations
set_option autoImplicit false

variable {data out : Bytes} {exec : Segment} {funcs : List ℕ}

def FoundOn (data : Bytes) (exec : Segment) (funcs : List ℕ) : Prop :=
  ∀ f ∈ funcs, ∃ x, Site data exec x f

theorem FoundOn.aligned (hf : FoundOn data exec funcs) {f : ℕ} (h : f ∈ funcs) :
    f % 4 = exec.fileoff % 4 := by
  obtain ⟨x, hx⟩ := hf f h
  exact hx.func_aligned.trans hx.aligned

section Words
variable (hp : PatchedExactly data out funcs) (hf : FoundOn data exec funcs) {p : ℕ}
  (hpa : p % 4 = exec.fileoff % 4)
include hp hf hpa

theorem word_outside (hout : ∀ f ∈ funcs, ¬ InStub data f p) : wordAt out p = wordAt data p := by
  refine wordAt_congr fun k hk => hp.frame _ fun f hfm hin => hout f hfm ?_
  have hfa := hf.aligned hfm
  unfold InStub at hin ⊢
  rcases stubSize_cases data f with ⟨-, hs⟩ | ⟨-, hs⟩ <;> omega

/-- The words of a stub: PACIBSP over PACIBSP, the move, the return at the end. -/
theorem word_inside {f : ℕ} (hfm : f ∈ funcs) (hin : InStub data f p) :
    p = f ∧ wordAt data p = pacibsp ∧ wordAt out p = pacibsp ∨
      wordAt out p = movX0Zero ∨
      p + 4 = f + stubSize data f ∧ isReturn (wordAt out p) := by
  have hfa := hf.aligned hfm
  have hlays := (hp.stub f hfm).word
  unfold InStub at hin
  by_cases hpac : wordAt data f = pacibsp
  · have hs := stubSize_pac hpac
    rw [stubWords, if_pos hpac] at hlays
    have hk : p = f ∨ p = f + 4 * 1 ∨ p = f + 4 * 2 := by omega
    rcases hk with rfl | rfl | rfl
    · exact .inl ⟨rfl, hpac, hlays 0 (by decide)⟩
    · exact .inr (.inl (hlays 1 (by decide)))
    · refine .inr (.inr ⟨by omega, ?_⟩)
      have hword : wordAt out (f + 4 * 2) = retab := hlays 2 (by decide)
      rw [hword]
      decide
  · have hs := stubSize_plain hpac
    rw [stubWords, if_neg hpac] at hlays
    have hk : p = f ∨ p = f + 4 * 1 := by omega
    rcases hk with rfl | rfl
    · exact .inr (.inl (hlays 0 (by decide)))
    · refine .inr (.inr ⟨by omega, ?_⟩)
      have hword : wordAt out (f + 4 * 1) = ret := hlays 1 (by decide)
      rw [hword]
      decide

/-- A word differs from the original only inside a stub. -/
theorem word_cases : wordAt out p = wordAt data p ∨ wordAt out p = movX0Zero ∨
    ∃ f ∈ funcs, p + 4 = f + stubSize data f ∧ isReturn (wordAt out p) := by
  by_cases hin : ∃ f ∈ funcs, InStub data f p
  · obtain ⟨f, hfm, hin⟩ := hin
    rcases word_inside hp hf hpa hfm hin with ⟨-, hd, ho⟩ | hmov | ⟨hend, hret⟩
    · exact .inl (ho.trans hd.symm)
    · exact .inr (.inl hmov)
    · exact .inr (.inr ⟨f, hfm, hend, hret⟩)
  · exact .inl (word_outside hp hf hpa fun f hfm hin' => hin ⟨f, hfm, hin'⟩)

theorem prologue_of_patched (h : isPrologueStart (wordAt out p)) :
    isPrologueStart (wordAt data p) := by
  rcases word_cases hp hf hpa with heq | hmov | ⟨f, -, -, hret⟩
  · rwa [← heq]
  · rw [hmov] at h
    exact absurd h (by decide)
  · rw [not_isPrologueStart_of_isReturn hret] at h
    exact absurd h (by decide)

/-- A new stop of the walk is the return of a stub, with a prologue-looking word behind it. -/
theorem stop_of_patched (h : stopAt out p ≠ none) : stopAt data p ≠ none ∨
    ∃ f ∈ funcs, p + 4 = f + stubSize data f ∧ isPrologueStart (wordAt data (p + 4)) := by
  obtain ⟨c, hc⟩ := Option.ne_none_iff_exists'.mp h
  have hpa4 : (p + 4) % 4 = exec.fileoff % 4 := by omega
  rcases stopAt_eq_some hc with ⟨hpac, -⟩ | ⟨hret, hpro, -⟩
  · rcases word_cases hp hf hpa with heq | hmov | ⟨f, -, -, hr⟩
    · refine .inl ?_
      rw [stopAt, if_pos (heq.symm.trans hpac)]
      exact Option.some_ne_none _
    · exact absurd (hpac.symm.trans hmov) (by decide)
    · rw [hpac] at hr
      exact absurd hr (by decide)
  · have hpro' := prologue_of_patched hp hf hpa4 hpro
    rcases word_cases hp hf hpa with heq | hmov | ⟨f, hfm, hend, -⟩
    · rw [heq] at hret
      refine .inl ?_
      rw [stopAt]
      split_ifs with hpac hstop
      · exact Option.some_ne_none _
      · exact Option.some_ne_none _
      · exact absurd ⟨hret, hpro'⟩ hstop
    · rw [hmov] at hret
      exact absurd hret (by decide)
    · exact .inr ⟨f, hfm, hend, hpro'⟩

theorem adrp_of_patched (h : wordAt out p &&& 0x9F000000 = 0x90000000) :
    wordAt out p = wordAt data p := by
  rcases word_cases hp hf hpa with heq | hmov | ⟨f, -, -, hret⟩
  · exact heq
  · rw [hmov] at h
    exact absurd h (by decide)
  · simp only [isReturn, List.mem_cons, List.not_mem_nil, or_false, decide_eq_true_eq] at hret
    rcases hret with hret | hret <;> exact absurd (hret ▸ h) (by decide)

theorem add_of_patched (h : wordAt out p &&& 0xFFC00000 = 0x91000000) :
    wordAt out p = wordAt data p := by
  rcases word_cases hp hf hpa with heq | hmov | ⟨f, -, -, hret⟩
  · exact heq
  · rw [hmov] at h
    exact absurd h (by decide)
  · simp only [isReturn, List.mem_cons, List.not_mem_nil, or_false, decide_eq_true_eq] at hret
    rcases hret with hret | hret <;> exact absurd (hret ▸ h) (by decide)

end Words

/-! ## The searches -/

section Searches
variable (hp : PatchedExactly data out funcs) (hf : FoundOn data exec funcs)
include hp hf

omit hf in
theorem codeLength_patched :
    codeLength out exec.fileoff exec.filesize = codeLength data exec.fileoff exec.filesize := by
  rw [codeLength, codeLength, slice_length, slice_length, hp.length_eq]

theorem matchAt_of_patched {strVa i : ℕ} (hi : i % 4 = 0)
    (h : MatchAt out exec.vmaddr exec.fileoff strVa i) :
    MatchAt data exec.vmaddr exec.fileoff strVa i := by
  have ha : wordAt out (exec.fileoff + i) = wordAt data (exec.fileoff + i) :=
    adrp_of_patched hp hf (by omega) h.adrp
  have hb : wordAt out (exec.fileoff + i + 4) = wordAt data (exec.fileoff + i + 4) :=
    add_of_patched hp hf (by omega) h.add
  rwa [MatchAt, ha, hb] at h

theorem firstMatch_none {strVa : ℕ} (h : firstMatch data exec strVa = none) :
    firstMatch out exec strVa = none := by
  rw [firstMatch, codeLength_patched hp, List.findSome?_eq_none_iff]
  rw [firstMatch, List.findSome?_eq_none_iff] at h
  intro i hi
  obtain ⟨-, k, rfl⟩ := (mem_rangeUp (by decide)).mp hi
  have hnone := h _ hi
  split_ifs at hnone with hm
  exact if_neg fun hm' => hm (matchAt_of_patched hp hf (by omega) hm')

/-- The first match stays the first match as long as its pair is not overwritten. -/
theorem firstMatch_some {strVa x : ℕ} (h : firstMatch data exec strVa = some x)
    (hclear : ∀ f ∈ funcs, x + 8 ≤ f ∨ f + stubSize data f ≤ x) :
    firstMatch out exec strVa = some x := by
  have hpair := pairAt_of_firstMatch h
  have hax := hpair.aligned
  rw [firstMatch, findSome?_rangeUp (by decide)] at h
  rw [firstMatch, codeLength_patched hp, findSome?_rangeUp (by decide)]
  obtain ⟨i, hi, hsome, hfirst⟩ := h
  split_ifs at hsome with hm
  obtain rfl := Option.some.inj hsome
  have ha : wordAt out (exec.fileoff + i) = wordAt data (exec.fileoff + i) :=
    word_outside hp hf (by omega) fun f hfm hin => by
      have hc := hclear f hfm
      unfold InStub at hin
      omega
  have hb : wordAt out (exec.fileoff + i + 4) = wordAt data (exec.fileoff + i + 4) :=
    word_outside hp hf (by omega) fun f hfm hin => by
      have hc := hclear f hfm
      have hfa := hf.aligned hfm
      unfold InStub at hin
      omega
  refine ⟨i, hi, if_pos ?_, fun j hj hlt => if_neg fun hm' => ?_⟩
  · rwa [MatchAt, ha, hb]
  · obtain ⟨-, k, rfl⟩ := (mem_rangeUp (by decide)).mp hj
    have hnone := hfirst _ hj hlt
    rw [if_pos (matchAt_of_patched hp hf (by omega) hm')] at hnone
    exact absurd hnone (by simp)

end Searches
end SecureWorld.Patcher
