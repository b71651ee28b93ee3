import SecureWorld.Patcher.PatchRun

/-! # A misplaced stub is never repaired

Once a function is stubbed that the verifier does not report, no later patch brings the file back:
a later search takes no word of a stub but PACIBSP for an entry.
-/
namespace SecureWorld.Patcher
open Foundations
set_option autoImplicit false

/-- The words that only a stub's inside and end have. -/
def isStubTail (w : BitVec 32) : Bool := w = movX0Zero ∨ isReturn w

theorem not_isPrologueStart_of_isStubTail {w : BitVec 32} (h : isStubTail w) :
    isPrologueStart w = false := by
  rcases of_decide_eq_true h with rfl | hret
  · decide
  · exact not_isPrologueStart_of_isReturn hret

/-- A PACIBSP function of the original was stubbed at `g`. -/
structure Scar (out : Bytes) (g : ℕ) : Prop where
  move : wordAt out g = pacibsp → wordAt out (g + 4) = movX0Zero
  tail : isStubTail (wordAt out (g + 4))
  ret : wordAt out (g + 8) = retab

/-! ## What a patch leaves in place -/

section Write
variable {out out' : Bytes} {exec : Segment} {x h q g : ℕ} (hs : Site out exec x h)
  (hw : PatchedExactly out out' [h])

include hs in
theorem foundOn_one : FoundOn out exec [h] := fun _ hf => ⟨x, List.mem_singleton.mp hf ▸ hs⟩

include hs hw

theorem isStubTail_kept (hqa : q % 4 = exec.fileoff % 4) (hq : isStubTail (wordAt out q)) :
    isStubTail (wordAt out' q) := by
  rcases word_cases hw (foundOn_one hs) hqa with heq | hmov | ⟨f, -, -, hret⟩
  · rwa [heq]
  · exact decide_eq_true (.inl hmov)
  · exact decide_eq_true (.inr hret)

theorem Scar.kept (hga : g % 4 = exec.fileoff % 4) (hsc : Scar out g) : Scar out' g := by
  have hone := foundOn_one hs
  have hha := hs.func_aligned.trans hs.aligned
  have hpro := hs.prologue
  have hmem : h ∈ [h] := List.mem_singleton_self h
  have htail : h ≠ g + 4 := fun heq => by
    rw [heq, not_isPrologueStart_of_isStubTail hsc.tail] at hpro
    exact Bool.false_ne_true hpro
  have hend : h ≠ g + 8 := fun heq => by
    rw [heq, hsc.ret] at hpro
    exact absurd hpro (by decide)
  refine ⟨fun hpac' => ?_, isStubTail_kept hs hw (by omega) hsc.tail, ?_⟩
  · have hpac := (pacibsp_patched_iff hw hone hga).mp hpac'
    rcases word_cases hw hone (p := g + 4) (by omega) with heq | hmov | ⟨f, hf, hlast, -⟩
    · exact heq.trans (hsc.move hpac)
    · exact hmov
    · -- a stub that ends here would have PACIBSP inside, or be too short
      obtain rfl := List.mem_singleton.mp hf
      rcases stubSize_cases out f with ⟨hpacf, hsz⟩ | ⟨hpacf, hsz⟩
      · have hgf := hs.pacibsp_inside hga (by unfold InStub; omega) hpac
        omega
      · obtain rfl : f = g := by omega
        exact absurd hpac hpacf
  · by_cases hin : InStub out h (g + 8)
    · rcases stubSize_cases out h with ⟨hpac, hsz⟩ | ⟨-, hsz⟩
      · obtain rfl : h = g := by
          unfold InStub at hin
          omega
        have hlays := hw.stub h hmem
        rw [hpac] at hlays
        exact (lays_pac_iff.mp hlays).2.2.2
      · unfold InStub at hin
        omega
    · rw [word_outside hw hone (by omega) fun f hf => List.mem_singleton.mp hf ▸ hin]
      exact hsc.ret

end Write

/-! ## The rest of the run -/

section Run
variable {segs : Segments} {text exec : Segment} (ht : segs.get "__TEXT" = some text)
  (he : segs.get "__TEXT_EXEC" = some exec)
include ht he

/-- A patch does nothing or stubs the function it found. -/
theorem patchByString_cases (out : Bytes) (needle : String) :
    patchByString out segs needle = .ok (out, false) ∨
      ∃ out' x h, patchByString out segs needle = .ok (out', true) ∧ Site out exec x h ∧
        PatchedExactly out out' [h] := by
  rw [patchByString_eq ht he]
  cases hfunc : anchorFunc out text exec (asciiBytes needle) with
  | none => exact .inl rfl
  | some h =>
    obtain ⟨x, hx, hentry⟩ := Option.bind_eq_some_iff.mp hfunc
    have hs : Site out exec x h := ⟨pairAt_of_anchorXref hx, hentry⟩
    obtain ⟨out', hrun, hpatched⟩ :=
      stub_found (patchedExactly_nil out) (fun _ hf => absurd hf List.not_mem_nil) hs rfl
    exact .inr ⟨out', x, h, hrun, hs, hpatched⟩

/-- What every stub leaves in place, the remaining patches leave in place. -/
theorem applyPatches_keeps {Q : Bytes → Prop} (hQ : ∀ {out out' x h}, Site out exec x h →
      PatchedExactly out out' [h] → Q out → Q out') :
    ∀ (todo : List (String × String)) {out : Bytes} (applied : ℕ), Q out →
      ∃ out' applied', todo.foldlM (applyPatch segs) (out, applied) = .ok (out', applied') ∧
        Q out' ∧ applied ≤ applied'
  | [], out, applied, hq => ⟨out, applied, rfl, hq, le_rfl⟩
  | p :: todo, out, applied, hq => by
      rw [List.foldlM_cons, applyPatch]
      rcases patchByString_cases ht he out p.1 with hstep | ⟨out₁, x, h, hstep, hs, hw⟩
      · rw [hstep]
        exact applyPatches_keeps hQ todo applied hq
      · obtain ⟨out', applied', hrun, hq', hle⟩ :=
          applyPatches_keeps hQ todo (applied + 1) (hQ hs hw hq)
        rw [hstep]
        exact ⟨out', applied', hrun, hq', (Nat.le_succ applied).trans hle⟩

end Run

/-! ## The file in the end -/

section Astray
variable {data out : Bytes} {text exec : Segment} {funcs reported : List ℕ} {g : ℕ}
  (hS : FoundOn data exec reported) (hnew : g ∉ reported)
include hS hnew

theorem not_patched_of_scar (hpac : wordAt data g = pacibsp) (hnot : ¬ IsStub data g)
    (hga : g % 4 = exec.fileoff % 4) (hfits : g + 12 ≤ data.length) (hsc : Scar out g) :
    ¬ PatchedExactly data out reported := fun hp => by
  have hoff : ∀ f ∈ reported, f < g + 4 → ∀ q, g ≤ q → ¬ InStub data f q := by
    intro f hf hlt q hq hin
    obtain ⟨x, hs⟩ := hS f hf
    have hfa := hS.aligned hf
    obtain rfl := hs.pacibsp_inside hga (by unfold InStub at hin ⊢; omega) hpac
    exact hnew hf
  have hmove := hsc.move ((pacibsp_patched_iff hp hS hga).mpr hpac)
  -- a reported function that starts inside the scar would have its own words there
  have hfirst : g + 4 ∉ reported := fun hmem => by
    by_cases hpac4 : wordAt data (g + 4) = pacibsp
    · exact absurd ((stub_entry_pac hp hmem hpac4).symm.trans hmove) (by decide)
    · have hlays := (hp.stub (g + 4) hmem).word
      rw [stubWords, if_neg hpac4] at hlays
      have hret : wordAt out (g + 4 + 4) = ret := hlays 1 (by decide)
      exact absurd (hret.symm.trans hsc.ret) (by decide)
  have hsecond : g + 8 ∉ reported := fun hmem => by
    by_cases hpac8 : wordAt data (g + 8) = pacibsp
    · exact absurd ((stub_entry_pac hp hmem hpac8).symm.trans hsc.ret) (by decide)
    · exact absurd ((stub_entry_plain hp hmem hpac8).symm.trans hsc.ret) (by decide)
  have hsame : ∀ q, g + 4 ≤ q → q ≤ g + 8 → q % 4 = g % 4 → wordAt out q = wordAt data q := by
    intro q hlo hhi hqa
    refine word_outside hp hS (by omega) fun f hf hin => ?_
    have hfa := hS.aligned hf
    have hge : ¬ f < g + 4 := fun hlt => hoff f hf hlt q (by omega) hin
    have hle := hin.1
    obtain rfl | rfl : f = g + 4 ∨ f = g + 8 := by omega
    · exact hfirst hf
    · exact hsecond hf
  refine hnot ⟨hfits, hpac, ?_, ?_⟩
  · exact (hsame (g + 4) le_rfl (by omega) (by omega)).symm.trans hmove
  · exact (hsame (g + 8) (by omega) le_rfl (by omega)).symm.trans hsc.ret

theorem not_patched_of_tail (hf : FoundOn data exec funcs) (hga : g % 4 = exec.fileoff % 4)
    (hg4 : 4 ≤ g) (hret : ReturnsAt data funcs (g - 4)) (hpro : isPrologueStart (wordAt data g))
    (htail : isStubTail (wordAt out g)) : ¬ PatchedExactly data out reported := fun hp => by
  have hback : g - 4 + 4 = g := Nat.sub_add_cancel hg4
  have hsame : wordAt out g = wordAt data g := by
    refine word_outside hp hS hga fun f hfm hin => ?_
    obtain ⟨x, hs⟩ := hS f hfm
    have heq := hs.entry_inside hf (p := g - 4) (by omega) hret (hback.symm ▸ hpro)
      (hback.symm ▸ hin)
    rw [hback] at heq
    exact hnew (heq ▸ hfm)
  rw [hsame] at htail
  rw [not_isPrologueStart_of_isStubTail htail] at hpro
  exact Bool.false_ne_true hpro

end Astray

/-- Whatever patches follow, they end, and the file has not exactly the reported stubs. -/
def Spoiled (data : Bytes) (segs : Segments) (reported : List ℕ) (out : Bytes) : Prop :=
  ∀ (todo : List (String × String)) (applied : ℕ), ∃ out' applied',
    todo.foldlM (applyPatch segs) (out, applied) = .ok (out', applied') ∧
      ¬ PatchedExactly data out' reported ∧ applied ≤ applied'

/-- Stubbing a function that is not reported spoils the file. -/
theorem applyPatches_astray {data out out₁ : Bytes} {segs : Segments} {text exec : Segment}
    {funcs reported : List ℕ} {g : ℕ} {needle : Bytes} (ht : segs.get "__TEXT" = some text)
    (he : segs.get "__TEXT_EXEC" = some exec) (hp : PatchedExactly data out funcs)
    (hf : FoundOn data exec funcs) (hS : FoundOn data exec reported)
    (hlead : leads data text exec funcs needle = some g) (hnew : g ∉ reported)
    (hnot : ¬ IsStub data g) (hw : PatchedExactly out out₁ [g]) :
    Spoiled data segs reported out₁ := by
  intro todo applied
  obtain ⟨x, hs⟩ := site_of_leads hp hf hlead
  have hword := word_of_leads hp hf hlead
  have hga := hs.func_aligned.trans hs.aligned
  by_cases hpac : wordAt data g = pacibsp
  · have hfits : g + 12 ≤ data.length := by
      have hstub := hs.stub_le
      have hsz := stubSize_pac (hword.trans hpac)
      have hx := hs.fits
      have hlen := hp.length_eq
      omega
    have hlays := hw.stub g List.mem_cons_self
    rw [hword, hpac] at hlays
    obtain ⟨-, -, h1, h2⟩ := lays_pac_iff.mp hlays
    have hsc : Scar out₁ g := ⟨fun _ => h1, decide_eq_true (.inl h1), h2⟩
    obtain ⟨out', applied', hrun, hsc', hle⟩ :=
      applyPatches_keeps ht he (fun hs hw => Scar.kept hs hw hga) todo applied hsc
    exact ⟨out', applied', hrun, not_patched_of_scar hS hnew hpac hnot hga hfits hsc', hle⟩
  · have hmov : wordAt out₁ g = movX0Zero :=
      stub_entry_plain hw List.mem_cons_self (hword ▸ hpac)
    obtain ⟨out', applied', hrun, htail, hle⟩ := applyPatches_keeps ht he
      (fun hs hw => isStubTail_kept hs hw hga) todo applied (decide_eq_true (.inl hmov))
    -- without PACIBSP it was found behind a return
    obtain ⟨y, -, hentry⟩ := Option.bind_eq_some_iff.mp hlead
    obtain ⟨off, -, hstop⟩ := List.exists_of_findSome?_eq_some hentry
    rw [stopLeft] at hstop
    split_ifs at hstop with hoff hret
    · exact absurd (Option.some.inj hstop ▸ hoff) hpac
    · obtain rfl := Option.some.inj hstop
      exact ⟨out', applied', hrun, not_patched_of_tail hS hnew hf hga (by omega)
        (by rw [Nat.add_sub_cancel]; exact hret.1) hret.2.1 htail, hle⟩

end SecureWorld.Patcher
