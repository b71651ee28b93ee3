import SecureWorld.Patcher.StubbedCode

/-! # One patch among the others

Both scripts as searches for the needles, and what one patch does to an image that already has the
stubs of the functions `funcs`.
-/
namespace SecureWorld.Patcher
open Foundations
set_option autoImplicit false

/-! ## The two scripts as searches -/

theorem findAdrpAddXref_firstMatch (data : Bytes) (exec : Segment) (strVa : ℕ) :
    findAdrpAddXref data exec.vmaddr exec.fileoff exec.filesize strVa =
      .ok (firstMatch data exec strVa) := findAdrpAddXref_eq data _ _ _ strVa

theorem PairAt.walk {data : Bytes} {exec : Segment} {x : ℕ} (h : PairAt data exec x) :
    walkBackToPrologue data x = .ok (nearestEntry data x) := walkBackToPrologue_eq h.fits

section Located
variable {segs : Segments} {text exec : Segment} (ht : segs.get "__TEXT" = some text)
  (he : segs.get "__TEXT_EXEC" = some exec)
include ht he

theorem patchByString_eq (data : Bytes) (needle : String) :
    patchByString data segs needle =
      match anchorFunc data text exec (asciiBytes needle) with
      | none => .ok (data, false)
      | some f => stubFunction data f := by
  unfold patchByString
  rw [ht]
  dsimp only
  rw [he]
  dsimp only
  rw [anchorFunc, anchorXref]
  cases findStringInSection data text.fileoff text.filesize (asciiBytes needle) with
  | none => rfl
  | some strFoff =>
    dsimp only
    rw [findAdrpAddXref_firstMatch, ok_bind, Option.bind_some]
    cases hx : firstMatch data exec (text.vmaddr + (strFoff - text.fileoff)) with
    | none => rfl
    | some x =>
      dsimp only
      rw [(pairAt_of_firstMatch hx).walk, ok_bind, Option.bind_some]
      cases nearestEntry data x with
      | none => rfl
      | some f => rfl

theorem resolve_eq {data : Bytes} {kext : String} {kextFileoff kextVmaddr : ℕ}
    (hentry : parseFilesetEntry data kext = .ok (some (kextFileoff, kextVmaddr)))
    (hsegs : parseKextSegments data kextFileoff = .ok segs) (needle : String) :
    ∃ r, resolveKextStringFunc data kext needle = .ok r ∧
      r.xrefFoff = anchorXref data text exec (asciiBytes needle) ∧
      r.funcFoff = anchorFunc data text exec (asciiBytes needle) := by
  unfold resolveKextStringFunc
  rw [hentry, ok_bind]
  dsimp only
  rw [hsegs, ok_bind, ht]
  dsimp only
  rw [he]
  dsimp only
  rw [anchorFunc, anchorXref]
  cases findStringInSection data text.fileoff text.filesize (asciiBytes needle) with
  | none => exact ⟨_, rfl, rfl, rfl⟩
  | some strFoff =>
    dsimp only
    rw [findAdrpAddXref_firstMatch, ok_bind, Option.bind_some]
    cases hx : firstMatch data exec (text.vmaddr + (strFoff - text.fileoff)) with
    | none => exact ⟨_, rfl, rfl, rfl⟩
    | some x =>
      have hpair := pairAt_of_firstMatch hx
      dsimp only
      rw [hpair.walk, ok_bind, Option.bind_some]
      cases hf : nearestEntry data x with
      | none => exact ⟨_, rfl, rfl, rfl⟩
      | some f =>
        have hsite : Site data exec x f := ⟨hpair, hf⟩
        have hlt := hsite.func_lt
        have hfits := hpair.fits
        have hread : f + 4 ≤ data.length := by omega
        dsimp only
        rw [unpackI_ok hread, ok_bind]
        exact ⟨_, rfl, rfl, rfl⟩

end Located

/-- The report `r` says where `needle` leads. -/
structure Answers (data : Bytes) (text exec : Segment) (needle : String) (r : AnchorReport) :
    Prop where
  xref : r.xrefFoff = anchorXref data text exec (asciiBytes needle)
  func : r.funcFoff = anchorFunc data text exec (asciiBytes needle)

def stubbedFuncs (reports : List AnchorReport) : List ℕ := reports.filterMap (·.funcFoff)

theorem mem_stubbedFuncs {reports : List AnchorReport} {f : ℕ} :
    f ∈ stubbedFuncs reports ↔ ∃ r ∈ reports, r.funcFoff = some f := List.mem_filterMap

theorem Answers.site {data : Bytes} {text exec : Segment} {needle : String} {r : AnchorReport}
    (h : Answers data text exec needle r) {f : ℕ} (hf : r.funcFoff = some f) :
    ∃ x, r.xrefFoff = some x ∧ Site data exec x f := by
  rw [h.func] at hf
  obtain ⟨x, hx, hentry⟩ := Option.bind_eq_some_iff.mp hf
  exact ⟨x, h.xref.trans hx, pairAt_of_anchorXref hx, hentry⟩

theorem foundOn_reported {data : Bytes} {text exec : Segment} {todo : List (String × String)}
    {reports : List AnchorReport}
    (hall : List.Forall₂ (fun p r => Answers data text exec p.1 r) todo reports) :
    FoundOn data exec (stubbedFuncs reports) := fun f hf => by
  obtain ⟨r, hr, hfr⟩ := mem_stubbedFuncs.mp hf
  obtain ⟨p, -, h⟩ := forall₂_mem_right hall r hr
  obtain ⟨x, -, hs⟩ := h.site hfr
  exact ⟨x, hs⟩

/-! ## Functions that are stubs already -/

/-- `pacibsp; mov x0, #0; retab` is at `f`. -/
def IsStub (data : Bytes) (f : ℕ) : Prop :=
  f + 12 ≤ data.length ∧ wordAt data f = pacibsp ∧ wordAt data (f + 4) = movX0Zero ∧
    wordAt data (f + 8) = retab

instance (data : Bytes) (f : ℕ) : Decidable (IsStub data f) :=
  inferInstanceAs (Decidable (_ ∧ _))

theorem lays_pac_iff {data : Bytes} {f : ℕ} :
    Lays data f (stubWords pacibsp) ↔ IsStub data f := by
  constructor
  · intro h
    exact ⟨h.fits, h.word 0 (by decide), h.word 1 (by decide), h.word 2 (by decide)⟩
  · rintro ⟨hfits, h0, h1, h2⟩
    refine ⟨hfits, fun k hk => ?_⟩
    have hlen : (stubWords pacibsp).length = 3 := rfl
    obtain rfl | rfl | rfl : k = 0 ∨ k = 1 ∨ k = 2 := by omega
    · exact h0
    · exact h1
    · exact h2

section
variable {data out : Bytes} {exec : Segment} {funcs reported : List ℕ} {g : ℕ}
  (hp : PatchedExactly data out funcs) (hf : FoundOn data exec funcs)
include hp hf

/-- No stub of another function touches it. -/
theorem IsStub.patched (h : IsStub data g) (hga : g % 4 = exec.fileoff % 4) : IsStub out g := by
  obtain ⟨hfits, h0, h1, h2⟩ := h
  by_cases hmem : g ∈ funcs
  · have hlays := hp.stub g hmem
    rw [h0] at hlays
    exact lays_pac_iff.mp hlays
  · have hclear : ∀ q, g ≤ q → q ≤ g + 8 → q % 4 = g % 4 → wordAt out q = wordAt data q := by
      intro q hlo hhi hqa
      refine word_outside hp hf (by omega) fun f hfm hin => ?_
      obtain ⟨x, hs⟩ := hf f hfm
      have hfa := hf.aligned hfm
      have hpro := hs.prologue
      rcases Nat.lt_or_ge g f with hlt | hge
      · -- the words behind the first are no entries
        have hle := hin.1
        obtain rfl | rfl : f = g + 4 ∨ f = g + 8 := by omega
        · exact absurd (h1 ▸ hpro) (by decide)
        · exact absurd (h2 ▸ hpro) (by decide)
      · obtain rfl := hs.pacibsp_inside hga ⟨hge, by have := hin.2; omega⟩ h0
        exact hmem hfm
    refine ⟨hp.length_eq ▸ hfits, (hclear g le_rfl (by omega) rfl).trans h0, ?_, ?_⟩
    · exact (hclear (g + 4) (by omega) (by omega) (by omega)).trans h1
    · exact (hclear (g + 8) (by omega) le_rfl (by omega)).trans h2

/-- The image has exactly the stubs of `reported` iff those still missing were there before. -/
theorem patchedExactly_iff (hS : FoundOn data exec reported) (hsub : ∀ f ∈ funcs, f ∈ reported) :
    PatchedExactly data out reported ↔ ∀ g ∈ reported, ¬ IsStub data g → g ∈ funcs := by
  constructor
  · intro hall g hg hnot
    by_contra hnew
    obtain ⟨x, hs⟩ := hS g hg
    have hga := hS.aligned hg
    have hsame : ∀ q, InStub data g q → q % 4 = g % 4 → wordAt out q = wordAt data q := by
      intro q hin hqa
      refine word_outside hp hf (by omega) fun f hfm hin' => ?_
      obtain ⟨xf, hfs⟩ := hf f hfm
      have hstub := hs.stub_le
      unfold InStub at hin hin'
      rcases stub_apart hfs hs (fun h => hnew (h ▸ hfm)) with h | h <;> omega
    have hlays := hall.stub g hg
    rcases stubSize_cases data g with ⟨hpac, hsz⟩ | ⟨hpac, hsz⟩
    · rw [hpac] at hlays
      obtain ⟨hfits, h0, h1, h2⟩ := lays_pac_iff.mp hlays
      refine hnot ⟨hp.length_eq ▸ hfits, hpac, ?_, ?_⟩
      · exact (hsame (g + 4) (by unfold InStub; omega) (by omega)).symm.trans h1
      · exact (hsame (g + 8) (by unfold InStub; omega) (by omega)).symm.trans h2
    · have hmov := stub_entry_plain hall hg hpac
      rw [hsame g (by unfold InStub; omega) rfl] at hmov
      have hpro := hs.prologue
      rw [hmov] at hpro
      exact absurd hpro (by decide)
  · intro hrest
    refine ⟨hp.length_eq, fun g hg => ?_, fun i hi => hp.frame i fun f hfm => hi f (hsub f hfm)⟩
    by_cases hstub : IsStub data g
    · rw [hstub.2.1]
      exact lays_pac_iff.mpr (hstub.patched hp hf (hS.aligned hg))
    · exact hp.stub g (hrest g hg hstub)

end

/-! ## One patch -/

/-- What `needle` leads to, unless that is a stub already. -/
def newStubs (data : Bytes) (text exec : Segment) (funcs : List ℕ) (needle : String) : List ℕ :=
  (leads data text exec funcs (asciiBytes needle)).toList.filter fun g => ¬ IsStub data g

/-- The functions that become stubs when each needle is looked up among the stubs of those before
it. -/
def ledTo (data : Bytes) (text exec : Segment) : List ℕ → List String → List ℕ
  | funcs, [] => funcs
  | funcs, needle :: needles =>
      ledTo data text exec (funcs ++ newStubs data text exec funcs needle) needles

theorem subset_ledTo {data : Bytes} {text exec : Segment} : ∀ {needles : List String}
    {funcs : List ℕ} {f : ℕ}, f ∈ funcs → f ∈ ledTo data text exec funcs needles
  | [], _, _, h => h
  | _ :: _, _, _, h => by
      rw [ledTo]
      exact subset_ledTo (List.mem_append_left _ h)

theorem newStubs_none {data : Bytes} {text exec : Segment} {funcs : List ℕ} {needle : String}
    (h : leads data text exec funcs (asciiBytes needle) = none) :
    newStubs data text exec funcs needle = [] := by
  rw [newStubs, h, Option.toList_none, List.filter_nil]

theorem newStubs_some {data : Bytes} {text exec : Segment} {funcs : List ℕ} {needle : String}
    {g : ℕ} (h : leads data text exec funcs (asciiBytes needle) = some g) :
    newStubs data text exec funcs needle = if IsStub data g then [] else [g] := by
  rw [newStubs, h, Option.toList_some]
  by_cases hstub : IsStub data g
  · rw [List.filter_cons_of_neg (by simpa using hstub), List.filter_nil, if_pos hstub]
  · rw [List.filter_cons_of_pos (by simpa using hstub), List.filter_nil, if_neg hstub]

section Step
variable {data out : Bytes} {segs : Segments} {text exec : Segment} {funcs : List ℕ} {g : ℕ}
  {needle : String} (ht : segs.get "__TEXT" = some text)
  (he : segs.get "__TEXT_EXEC" = some exec) (hp : PatchedExactly data out funcs)
  (hf : FoundOn data exec funcs)
include hp hf

theorem site_of_leads {bytes : Bytes} (h : leads data text exec funcs bytes = some g) :
    ∃ x, Site out exec x g := by
  rw [← anchorFunc_patched hp hf] at h
  obtain ⟨x, hx, hentry⟩ := Option.bind_eq_some_iff.mp h
  exact ⟨x, pairAt_of_anchorXref hx, hentry⟩

/-- The entry that is found has its original word. -/
theorem word_of_leads {bytes : Bytes} (h : leads data text exec funcs bytes = some g) :
    wordAt out g = wordAt data g := by
  obtain ⟨x, hs⟩ := site_of_leads hp hf h
  have hpro := hs.prologue
  rcases word_cases hp hf (hs.func_aligned.trans hs.aligned) with heq | hmov | ⟨f, -, -, hret⟩
  · exact heq
  · rw [hmov] at hpro
    exact absurd hpro (by decide)
  · rw [not_isPrologueStart_of_isReturn hret] at hpro
    exact absurd hpro (by decide)

include ht he

theorem patchByString_none (h : leads data text exec funcs (asciiBytes needle) = none) :
    patchByString out segs needle = .ok (out, false) := by
  rw [patchByString_eq ht he, anchorFunc_patched hp hf, h]

/-- A function that is a stub already, or a PACIBSP function stubbed before, stays as it is. -/
theorem patchByString_again (h : leads data text exec funcs (asciiBytes needle) = some g)
    (hold : IsStub data g ∨ g ∈ funcs) : patchByString out segs needle = .ok (out, true) := by
  rw [patchByString_eq ht he, anchorFunc_patched hp hf, h]
  refine stubFunction_self ?_
  obtain ⟨x, hs⟩ := site_of_leads hp hf h
  rcases hold with hstub | hmem
  · exact lays_pac_iff.mpr (hstub.patched hp hf (hs.func_aligned.trans hs.aligned))
  · have hlays := hp.stub g hmem
    have hpac : wordAt data g = pacibsp := by
      by_contra hne
      have hpro := hs.prologue
      rw [stub_entry_plain hp hmem hne] at hpro
      exact absurd hpro (by decide)
    rwa [hpac] at hlays

theorem patchByString_found (h : leads data text exec funcs (asciiBytes needle) = some g) :
    ∃ out', patchByString out segs needle = .ok (out', true) ∧ PatchedExactly out out' [g] := by
  obtain ⟨x, hs⟩ := site_of_leads hp hf h
  rw [patchByString_eq ht he, anchorFunc_patched hp hf, h]
  exact stub_found (patchedExactly_nil out) (fun _ hf => absurd hf List.not_mem_nil) hs rfl

theorem patchByString_new (h : leads data text exec funcs (asciiBytes needle) = some g) {x : ℕ}
    (hs : Site data exec x g) : ∃ out', patchByString out segs needle = .ok (out', true) ∧
      PatchedExactly data out' (funcs ++ [g]) := by
  rw [patchByString_eq ht he, anchorFunc_patched hp hf, h]
  exact stub_found hp hf hs (word_of_leads hp hf h)

end Step
end SecureWorld.Patcher
