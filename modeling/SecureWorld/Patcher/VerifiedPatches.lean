import SecureWorld.Patcher.MisplacedStub

/-! # The patcher patches what the verifier reported

The final image is the original with exactly the reported stubs iff no needle, looked up among the
stubs of those before it, leads outside the reported functions, and none of these is left out.
-/
namespace SecureWorld.Patcher
open Foundations
set_option autoImplicit false

/-- The image has the kext, with the segments the scripts use. -/
structure Located (data : Bytes) (segs : Segments) (text exec : Segment) : Prop where
  parsed : ∃ kextFileoff kextVmaddr,
    parseFilesetEntry data appleImage4 = .ok (some (kextFileoff, kextVmaddr)) ∧
      parseKextSegments data kextFileoff = .ok segs
  text : segs.get "__TEXT" = some text
  exec : segs.get "__TEXT_EXEC" = some exec

/-- The kext's `__TEXT` and `__TEXT_EXEC`, as both scripts find them. -/
def kextSegments (data : Bytes) : Option (Segment × Segment) :=
  match parseFilesetEntry data appleImage4 with
  | .ok (some (kextFileoff, _)) =>
      match parseKextSegments data kextFileoff with
      | .ok segs =>
          match segs.get "__TEXT", segs.get "__TEXT_EXEC" with
          | some text, some exec => some (text, exec)
          | _, _ => none
      | .error _ => none
  | _ => none

theorem Located.kextSegments_eq {data : Bytes} {segs : Segments} {text exec : Segment}
    (h : Located data segs text exec) : kextSegments data = some (text, exec) := by
  obtain ⟨⟨kextFileoff, kextVmaddr, hentry, hsegs⟩, ht, he⟩ := h
  simp only [kextSegments, hentry, hsegs, ht, he]

/-! ## Images without the kext or its segments -/

theorem resolve_missing {data : Bytes} {kextFileoff kextVmaddr : ℕ} {segs : Segments}
    (hentry : parseFilesetEntry data appleImage4 = .ok (some (kextFileoff, kextVmaddr)))
    (hsegs : parseKextSegments data kextFileoff = .ok segs)
    (hmiss : segs.get "__TEXT" = none ∨ segs.get "__TEXT_EXEC" = none) (needle : String) :
    ∃ r, resolveKextStringFunc data appleImage4 needle = .ok r ∧ r.funcFoff = none := by
  unfold resolveKextStringFunc
  rw [hentry, ok_bind]
  dsimp only
  rw [hsegs, ok_bind]
  cases ht : segs.get "__TEXT" with
  | none => exact ⟨_, rfl, rfl⟩
  | some text =>
    have he : segs.get "__TEXT_EXEC" = none := hmiss.resolve_left (by simp [ht])
    dsimp only
    rw [he]
    exact ⟨_, rfl, rfl⟩

theorem patchByString_missing {segs : Segments}
    (hmiss : segs.get "__TEXT" = none ∨ segs.get "__TEXT_EXEC" = none) (out : Bytes)
    (needle : String) : patchByString out segs needle = .ok (out, false) := by
  unfold patchByString
  cases ht : segs.get "__TEXT" with
  | none => rfl
  | some text =>
    have he : segs.get "__TEXT_EXEC" = none := hmiss.resolve_left (by simp [ht])
    dsimp only
    rw [he]
    rfl

theorem applyPatches_missing {segs : Segments}
    (hmiss : segs.get "__TEXT" = none ∨ segs.get "__TEXT_EXEC" = none) (out : Bytes) (applied : ℕ) :
    ∀ todo : List (String × String),
      todo.foldlM (applyPatch segs) (out, applied) = .ok (out, applied)
  | [] => rfl
  | p :: todo => by
      rw [List.foldlM_cons, applyPatch, patchByString_missing hmiss]
      exact applyPatches_missing hmiss out applied todo

theorem stubbedFuncs_eq_nil {reports : List AnchorReport} (h : ∀ r ∈ reports, r.funcFoff = none) :
    stubbedFuncs reports = [] := List.filterMap_eq_nil_iff.mpr h

/-- With the segments at hand, the script's result is that of its loop. -/
theorem patch_of_loop {data : Bytes} {kextFileoff kextVmaddr : ℕ} {segs : Segments}
    (hentry : parseFilesetEntry data appleImage4 = .ok (some (kextFileoff, kextVmaddr)))
    (hsegs : parseKextSegments data kextFileoff = .ok segs) {out : Bytes} {applied : ℕ}
    (hrun : patches.foldlM (applyPatch segs) (data, 0) = .ok (out, applied)) :
    patchImg4MagazineBypass data = .ok (if applied > 0 then out else data) := by
  unfold patchImg4MagazineBypass
  rw [hentry, ok_bind]
  dsimp only
  rw [hsegs, ok_bind, hrun]
  rfl

/-- Each needle has its report. -/
def Reported (data : Bytes) (reports : List AnchorReport) : Prop :=
  List.Forall₂ (fun p r => resolveKextStringFunc data appleImage4 p.1 = .ok r) patches reports

/-- Without the kext or its segments nothing is found, and nothing is patched. -/
def NothingFound (data : Bytes) (reports : List AnchorReport) : Prop :=
  stubbedFuncs reports = [] ∧ kextSegments data = none ∧ patchImg4MagazineBypass data = .ok data

theorem nothingFound_of_no_entry {data : Bytes} {reports : List AnchorReport}
    (hall : Reported data reports) (hentry : parseFilesetEntry data appleImage4 = .ok none) :
    NothingFound data reports := by
  refine ⟨stubbedFuncs_eq_nil fun r hr => ?_, ?_⟩
  · obtain ⟨p, -, hr⟩ := forall₂_mem_right hall r hr
    rw [resolveKextStringFunc, hentry] at hr
    rw [← Except.ok.inj hr]
    rfl
  · exact ⟨by rw [kextSegments, hentry], by rw [patchImg4MagazineBypass, hentry]; rfl⟩

theorem nothingFound_of_missing {data : Bytes} {reports : List AnchorReport}
    {kextFileoff kextVmaddr : ℕ} {segs : Segments} (hall : Reported data reports)
    (hentry : parseFilesetEntry data appleImage4 = .ok (some (kextFileoff, kextVmaddr)))
    (hsegs : parseKextSegments data kextFileoff = .ok segs)
    (hmiss : segs.get "__TEXT" = none ∨ segs.get "__TEXT_EXEC" = none) :
    NothingFound data reports := by
  refine ⟨stubbedFuncs_eq_nil fun r hr => ?_, ?_⟩
  · obtain ⟨p, -, hr⟩ := forall₂_mem_right hall r hr
    obtain ⟨r', hr', hnone⟩ := resolve_missing hentry hsegs hmiss p.1
    rw [← Except.ok.inj (hr'.symm.trans hr)]
    exact hnone
  · refine ⟨?_, patch_of_loop hentry hsegs (applyPatches_missing hmiss data 0 patches)⟩
    simp only [kextSegments, hentry, hsegs]
    rcases hmiss with h | h
    · rw [h]
    · rw [h]
      cases segs.get "__TEXT" <;> rfl

/-- A finished verification either found nothing to patch, and nothing is patched, or it answers
every needle. -/
theorem verify_cases {data : Bytes} {reports : List AnchorReport}
    (hver : verifyImg4 data = .ok reports) :
    NothingFound data reports ∨
      ∃ segs text exec, Located data segs text exec ∧
        List.Forall₂ (fun p r => Answers data text exec p.1 r) patches reports := by
  have hall : Reported data reports := forall₂_of_mapM_ok hver
  obtain ⟨r₀, hfirst⟩ : ∃ r, resolveKextStringFunc data appleImage4
      "failed to read nonce slot data" = .ok r := by
    cases hall with
    | cons h _ => exact ⟨_, h⟩
  -- the first needle was answered, so the entry and its segments were parsed
  rw [resolveKextStringFunc, bind_eq_ok_iff] at hfirst
  obtain ⟨entry, hentry, hfirst⟩ := hfirst
  cases entry with
  | none => exact .inl (nothingFound_of_no_entry hall hentry)
  | some kext =>
    obtain ⟨segs, hsegs, -⟩ := bind_eq_ok_iff.mp hfirst
    by_cases hmiss : segs.get "__TEXT" = none ∨ segs.get "__TEXT_EXEC" = none
    · exact .inl (nothingFound_of_missing hall hentry hsegs hmiss)
    · rw [not_or] at hmiss
      obtain ⟨text, ht⟩ := Option.ne_none_iff_exists'.mp hmiss.1
      obtain ⟨exec, he⟩ := Option.ne_none_iff_exists'.mp hmiss.2
      refine .inr ⟨segs, text, exec, ⟨⟨kext.1, kext.2, hentry, hsegs⟩, ht, he⟩, ?_⟩
      refine hall.imp fun p r hr => ?_
      obtain ⟨r', hr', hx, hf⟩ := resolve_eq ht he hentry hsegs p.1
      rw [← Except.ok.inj (hr'.symm.trans hr)]
      exact ⟨hx, hf⟩

/-! ## The loop -/

section Loop
variable {data : Bytes} {segs : Segments} {text exec : Segment} {reported : List ℕ}

/-- With `funcs` stubbed, the other needles lead to reported functions only, and all of these are
stubs in the end. -/
structure LedRight (data : Bytes) (text exec : Segment) (reported funcs : List ℕ)
    (needles : List String) : Prop where
  inside : ∀ g ∈ ledTo data text exec funcs needles, g ∈ reported
  complete : ∀ g ∈ reported, ¬ IsStub data g → g ∈ ledTo data text exec funcs needles

theorem ledRight_cons {funcs : List ℕ} {needle : String} {needles : List String} :
    LedRight data text exec reported funcs (needle :: needles) ↔
      LedRight data text exec reported (funcs ++ newStubs data text exec funcs needle) needles :=
  ⟨fun h => ⟨h.inside, h.complete⟩, fun h => ⟨h.inside, h.complete⟩⟩

/-- One patch on an image with the stubs of `funcs`: it adds the stub of the function the needle
leads to, or stubs a function that is not reported and spoils the file. -/
theorem patchByString_step (ht : segs.get "__TEXT" = some text)
    (he : segs.get "__TEXT_EXEC" = some exec) (hS : FoundOn data exec reported) {funcs : List ℕ}
    {out : Bytes} (hp : PatchedExactly data out funcs) (hsub : ∀ f ∈ funcs, f ∈ reported)
    (needle : String) :
    ∃ out₁ ok, patchByString out segs needle = .ok (out₁, ok) ∧ (ok = false → out₁ = out) ∧
      ((PatchedExactly data out₁ (funcs ++ newStubs data text exec funcs needle) ∧
          ∀ g ∈ newStubs data text exec funcs needle, g ∈ reported) ∨
        ok = true ∧ (∃ g ∈ newStubs data text exec funcs needle, g ∉ reported) ∧
          Spoiled data segs reported out₁) := by
  have hf : FoundOn data exec funcs := fun f h => hS f (hsub f h)
  cases hlead : leads data text exec funcs (asciiBytes needle) with
  | none =>
    rw [newStubs_none hlead, List.append_nil]
    exact ⟨out, false, patchByString_none ht he hp hf hlead, fun _ => rfl,
      .inl ⟨hp, List.forall_mem_nil _⟩⟩
  | some g =>
    rw [newStubs_some hlead]
    by_cases hstub : IsStub data g
    · rw [if_pos hstub, List.append_nil]
      exact ⟨out, true, patchByString_again ht he hp hf hlead (.inl hstub), fun _ => rfl,
        .inl ⟨hp, List.forall_mem_nil _⟩⟩
    rw [if_neg hstub]
    by_cases hmem : g ∈ funcs
    · have hsame : ∀ f, f ∈ funcs ++ [g] ↔ f ∈ funcs := fun f => by
        rw [List.mem_append, List.mem_singleton]
        exact or_iff_left_of_imp fun h => h ▸ hmem
      exact ⟨out, true, patchByString_again ht he hp hf hlead (.inr hmem), fun _ => rfl,
        .inl ⟨hp.congr hsame, List.forall_mem_singleton.mpr (hsub g hmem)⟩⟩
    by_cases hrep : g ∈ reported
    · obtain ⟨x, hs⟩ := hS g hrep
      obtain ⟨out₁, hstep, hp₁⟩ := patchByString_new ht he hp hf hlead hs
      exact ⟨out₁, true, hstep, fun h => absurd h (by decide),
        .inl ⟨hp₁, List.forall_mem_singleton.mpr hrep⟩⟩
    · obtain ⟨out₁, hstep, hw⟩ := patchByString_found ht he hp hf hlead
      exact ⟨out₁, true, hstep, fun h => absurd h (by decide),
        .inr ⟨rfl, ⟨g, List.mem_singleton_self g, hrep⟩,
          applyPatches_astray ht he hp hf hS hlead hrep hstub hw⟩⟩

/-- The loop from an image with the stubs of `funcs`; nothing is written unless it is counted. -/
theorem applyPatches_iff (ht : segs.get "__TEXT" = some text)
    (he : segs.get "__TEXT_EXEC" = some exec) (hS : FoundOn data exec reported) :
    ∀ (todo : List (String × String)) {funcs : List ℕ} {out : Bytes} (applied : ℕ),
      PatchedExactly data out funcs → (∀ f ∈ funcs, f ∈ reported) →
      ∃ out' applied', todo.foldlM (applyPatch segs) (out, applied) = .ok (out', applied') ∧
        applied ≤ applied' ∧ (applied' = applied → out' = out) ∧
        (PatchedExactly data out' reported ↔
          LedRight data text exec reported funcs (todo.map Prod.fst))
  | [], funcs, out, applied, hp, hsub => by
      have hf : FoundOn data exec funcs := fun f h => hS f (hsub f h)
      refine ⟨out, applied, rfl, le_rfl, fun _ => rfl, ?_⟩
      rw [patchedExactly_iff hp hf hS hsub]
      exact ⟨fun h => ⟨hsub, h⟩, fun h => h.complete⟩
  | p :: todo, funcs, out, applied, hp, hsub => by
      obtain ⟨out₁, ok, hstep, hsame, hnext⟩ := patchByString_step ht he hS hp hsub p.1
      rw [List.foldlM_cons, applyPatch, List.map_cons, ledRight_cons, hstep, ok_bind]
      rcases hnext with ⟨hp₁, hnew⟩ | ⟨rfl, ⟨g, hg, hrep⟩, hspoiled⟩
      · obtain ⟨out', applied', hrun, hle, hkept, hiff⟩ :=
          applyPatches_iff ht he hS todo (if ok then applied + 1 else applied) hp₁ fun f h =>
            (List.mem_append.mp h).elim (hsub f) (hnew f)
        refine ⟨out', applied', hrun, ?_, ?_, hiff⟩
        · exact le_trans (by split_ifs <;> omega) hle
        · intro h
          cases ok with
          | true => exact absurd (h ▸ hle) (Nat.not_succ_le_self applied)
          | false => exact (hkept h).trans (hsame rfl)
      · -- led astray: the loop goes on, but the file is lost
        obtain ⟨out', applied', hrun, hnot, hle⟩ := hspoiled todo (applied + 1)
        refine ⟨out', applied', hrun, by omega, fun h => by omega, iff_of_false hnot fun h => ?_⟩
        exact hrep (h.inside g (subset_ledTo (List.mem_append_right _ hg)))

end Loop

/-! ## Every image -/

/-- No needle is led astray by the stubs of those before it. -/
def NotMisled (data : Bytes) (reported : List ℕ) : Prop :=
  ∀ segs ∈ kextSegments data, LedRight data segs.1 segs.2 reported [] (patches.map Prod.fst)

instance (data : Bytes) (text exec : Segment) (reported funcs : List ℕ) (needles : List String) :
    Decidable (LedRight data text exec reported funcs needles) :=
  decidable_of_iff ((∀ g ∈ ledTo data text exec funcs needles, g ∈ reported) ∧
      ∀ g ∈ reported, ¬ IsStub data g → g ∈ ledTo data text exec funcs needles)
    ⟨fun h => ⟨h.1, h.2⟩, fun h => ⟨h.inside, h.complete⟩⟩

instance (data : Bytes) (reported : List ℕ) : Decidable (NotMisled data reported) :=
  inferInstanceAs (Decidable (∀ segs ∈ kextSegments data, _))

/-- The patched file is the original with exactly the stubs at the reported offsets iff no needle
is led astray. -/
theorem patches_what_was_verified {data : Bytes} {reports : List AnchorReport}
    (hver : verifyImg4 data = .ok reports) :
    (∃ out, patchImg4MagazineBypass data = .ok out ∧
        PatchedExactly data out (stubbedFuncs reports)) ↔
      NotMisled data (stubbedFuncs reports) := by
  rcases verify_cases hver with ⟨hnil, hseg, hrun⟩ | ⟨segs, text, exec, hloc, hall⟩
  · refine iff_of_true ⟨data, hrun, hnil ▸ patchedExactly_nil data⟩ fun segs hsegs => ?_
    rw [hseg] at hsegs
    exact absurd hsegs (Option.not_mem_none segs)
  · obtain ⟨out, applied, hloop, -, hsame, hiff⟩ := applyPatches_iff hloc.text hloc.exec
      (foundOn_reported hall) patches 0 (patchedExactly_nil data)
      fun f hf => absurd hf List.not_mem_nil
    have hmisled : NotMisled data (stubbedFuncs reports) ↔ LedRight data text exec
        (stubbedFuncs reports) [] (patches.map Prod.fst) := by
      rw [NotMisled, hloc.kextSegments_eq]
      exact ⟨fun h => h _ rfl, fun h segs hs => Option.some.inj hs ▸ h⟩
    obtain ⟨⟨kextFileoff, kextVmaddr, hentry, hsegs⟩, -, -⟩ := hloc
    have hpatch := patch_of_loop hentry hsegs hloop
    have hout : (if applied > 0 then out else data) = out := by
      split_ifs with hpos
      · rfl
      · exact (hsame (by omega)).symm
    rw [hout] at hpatch
    rw [hmisled, ← hiff]
    constructor
    · rintro ⟨out', hrun, hp⟩
      obtain rfl := Except.ok.inj (hpatch.symm.trans hrun)
      exact hp
    · exact fun hp => ⟨out, hpatch, hp⟩

/-! ## Two needles in one function -/

def le64 (n : ℕ) : Bytes := leBytes 8 n

def le32 (n : ℕ) : Bytes := leBytes 4 n

/-- The load command of a segment; its address is its file offset plus 0x1000. -/
def segmentCommand (name : String) (fileoff filesize : ℕ) : Bytes :=
  let segname := asciiBytes name
  le32 0x19 ++ le32 72 ++ segname ++ List.replicate (16 - segname.length) 0 ++
    le64 (fileoff + 0x1000) ++ le64 filesize ++ le64 fileoff ++ le64 filesize ++
    List.replicate 16 0

/-- A fileset with AppleImage4 at 96, the strings of two needles at 272 and the code at 324. -/
def sampleImage (code : List (BitVec 32)) : Bytes :=
  le32 0xFEEDFACF ++ List.replicate 8 0 ++ le32 12 ++ le32 1 ++ List.replicate 12 0 ++
    (le32 0x80000035 ++ le32 64 ++ le64 0x1060 ++ le64 96 ++ le32 32 ++ le32 0 ++
      asciiBytes appleImage4 ++ [0, 0]) ++
    (le32 0xFEEDFACF ++ List.replicate 12 0 ++ le32 2 ++ List.replicate 12 0) ++
    segmentCommand "__TEXT" 272 52 ++ segmentCommand "__TEXT_EXEC" 324 (4 * code.length) ++
    asciiBytes "failed to get nonce:" ++ [0] ++ asciiBytes "failed to set supervisor nonce" ++
    [0] ++ code.flatMap fun w => le32 w.toNat

/-- `pacibsp; stp x29, x30, [sp, #-16]!; mov x29, sp; nop` and the two references. -/
def shortPrologueImage : Bytes :=
  sampleImage [pacibsp, 0xA9BF7BFD, 0x910003FD, 0xD503201F, 0x90000000, 0x91044000, 0x90000000,
    0x91049400, retab, 0xD503201F]

/-- `pacibsp; sub sp, sp, #0x40; stp x22, x21, [sp, #16]; stp x29, x30, [sp, #48]` and the two
references: the usual entry of a function that saves registers. -/
def longPrologueImage : Bytes :=
  sampleImage [pacibsp, 0xD10103FF, 0xA90157F6, 0xA9037BFD, 0x90000000, 0x91044000, 0x90000000,
    0x91049400, retab, 0xD503201F]

def reportsOf (data : Bytes) : List AnchorReport :=
  match verifyImg4 data with
  | .ok reports => reports
  | .error _ => []

theorem verify_shortPrologue :
    verifyImg4 shortPrologueImage = .ok (reportsOf shortPrologueImage) := by decide +kernel

theorem verify_longPrologue :
    verifyImg4 longPrologueImage = .ok (reportsOf longPrologueImage) := by decide +kernel

theorem stubbedFuncs_shortPrologue :
    stubbedFuncs (reportsOf shortPrologueImage) = [324, 324] := by decide +kernel

theorem stubbedFuncs_longPrologue :
    stubbedFuncs (reportsOf longPrologueImage) = [324, 324] := by decide +kernel

theorem short_prologue_patched : ∃ out, patchImg4MagazineBypass shortPrologueImage = .ok out ∧
    PatchedExactly shortPrologueImage out [324, 324] := by
  have h := (patches_what_was_verified verify_shortPrologue).mpr (by decide +kernel)
  rwa [stubbedFuncs_shortPrologue] at h

/-- The second patch of the shared function overwrites its frame save at 336. -/
theorem long_prologue_broken :
    ¬ ∀ (data : Bytes) (reports : List AnchorReport), verifyImg4 data = .ok reports →
      ∃ out, patchImg4MagazineBypass data = .ok out ∧
        PatchedExactly data out (stubbedFuncs reports) := by
  intro h
  obtain ⟨out, hrun, hp⟩ := h _ _ verify_longPrologue
  rw [stubbedFuncs_longPrologue] at hp
  have hnew : (patchImg4MagazineBypass longPrologueImage).map (wordAt · 336) = .ok movX0Zero := by
    decide +kernel
  rw [hrun] at hnew
  have hsize : stubSize longPrologueImage 324 = 12 := by decide +kernel
  have hold : wordAt out 336 = wordAt longPrologueImage 336 :=
    wordAt_congr fun k hk => hp.frame _ fun f hf hin => by
      simp only [List.mem_cons, List.not_mem_nil, or_false, or_self] at hf
      rw [hf, InStub, hsize] at hin
      omega
  have hmov : wordAt out 336 = movX0Zero := Except.ok.inj hnew
  have hframe : wordAt longPrologueImage 336 ≠ movX0Zero := by decide +kernel
  exact hframe (hold.symm.trans hmov)

end SecureWorld.Patcher
