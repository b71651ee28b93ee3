import SecureWorld.Patcher.SsvRerun

/-! # The dry run of the root-volume patches

With `--dry-run` every search looks at the untouched image; without it each one looks at what the
patches before it left. On an image that settles the reported functions are the ones stubbed, and a
reported gate is overwritten unless a stub lies over it.
-/
namespace SecureWorld.Patcher
open Foundations Armv8
set_option autoImplicit false

/-! ## The script with `dry_run=True` -/

/-- The offsets reported, of the functions and of the branches. -/
structure SsvSites where
  sealIsBroken : Option ℕ
  mountAuth : Option ℕ
  rootauth : Option ℕ
  asmb : Option ℕ
deriving DecidableEq

def SsvSites.funcs (sites : SsvSites) : List ℕ :=
  sites.sealIsBroken.toList ++ sites.mountAuth.toList

def SsvSites.gates (sites : SsvSites) : List ℕ := sites.rootauth.toList ++ sites.asmb.toList

/-- `_patch_apfs_func_return` up to "Would stub:". -/
def dryApfsFuncReturn (data : Bytes) (needle : String) : Except PyError (Option ℕ) := do
  let some (exc, strVa) ← kextAnchor data apfsKext needle | return none
  let some xref ← findAdrpAddXref data exc.vmaddr exc.fileoff exc.filesize strVa | return none
  walkBackToPrologue data xref

def dryApfsVfsopMountAuth (data : Bytes) : Except PyError (Option ℕ) := do
  if let some func ← dryApfsFuncReturn data rootHashIosNeedle then return some func
  dryApfsFuncReturn data rootHashNeedle

def dryBsdInitRootauth (cs : Capstone) (data : Bytes) : Except PyError (Option ℕ) := do
  let some (exc, strVa) ← kernelAnchor data | return none
  let some xref ← findAdrpAddXref data exc.vmaddr exc.fileoff exc.filesize strVa | return none
  return findBranchInto cs data xref exc.vmaddr exc.fileoff

def dryImage4AsmbSetup (cs : Capstone) (data : Bytes) : Except PyError (Option ℕ) := do
  let some (exc, strVa) ← kextAnchor data image4Kext asmbNeedle | return none
  let some xref ← findAdrpAddXref data exc.vmaddr exc.fileoff exc.filesize strVa | return none
  return findAsmbGate cs data xref

def drySsvBypass (cs : Capstone) (withAsmb : Bool) (data : Bytes) : Except PyError SsvSites := do
  let sealIsBroken ← dryApfsFuncReturn data sealNeedle
  let mountAuth ← dryApfsVfsopMountAuth data
  let rootauth ← dryBsdInitRootauth cs data
  let asmb ← if withAsmb then dryImage4AsmbSetup cs data else pure none
  return ⟨sealIsBroken, mountAuth, rootauth, asmb⟩

/-! ## What is reported -/

theorem dryApfsFuncReturn_eq {data : Bytes} {needle : String} {a : Option (Segment × ℕ)}
    (h : kextAnchor data apfsKext needle = .ok a) :
    dryApfsFuncReturn data needle = .ok (entryOf data a) := by
  rw [dryApfsFuncReturn, h, ok_bind]
  cases a with
  | none => rfl
  | some a =>
    dsimp only
    rw [findAdrpAddXref_firstMatch, ok_bind, entryOf, pairOf, Option.bind_some]
    cases hx : firstMatch data a.1 a.2 with
    | none => rfl
    | some x =>
      dsimp only
      rw [(pairAt_of_firstMatch hx).walk, Option.bind_some]

theorem dryBsdInitRootauth_eq {cs : Capstone} {data : Bytes} {a : Option (Segment × ℕ)}
    (h : kernelAnchor data = .ok a) :
    dryBsdInitRootauth cs data = .ok (rootauthSearch cs data data).head? := by
  rw [dryBsdInitRootauth, rootauthSearch, anchored_ok h, h, ok_bind]
  cases a with
  | none => rfl
  | some a =>
    dsimp only
    rw [findAdrpAddXref_firstMatch, ok_bind]
    cases firstMatch data a.1 a.2 with
    | none => rfl
    | some x =>
      dsimp only
      rw [findBranchInto_eq]
      rfl

theorem dryImage4AsmbSetup_eq {cs : Capstone} {data : Bytes} {a : Option (Segment × ℕ)}
    (h : asmbAnchor data = .ok a) :
    dryImage4AsmbSetup cs data = .ok (asmbSearch cs data data).head? := by
  have h' : kextAnchor data image4Kext asmbNeedle = .ok a := h
  rw [dryImage4AsmbSetup, asmbSearch, anchored_ok h, h', ok_bind]
  cases a with
  | none => rfl
  | some a =>
    dsimp only
    rw [findAdrpAddXref_firstMatch, ok_bind, pairOf, Option.bind_some]
    cases firstMatch data a.1 a.2 with
    | none => rfl
    | some x =>
      dsimp only
      rw [findAsmbGate_eq]
      rfl

/-- A report that did not raise read the anchor, and is the entry found from it. -/
theorem dryApfsFuncReturn_ok {data : Bytes} {needle : String} {r : Option ℕ}
    (h : dryApfsFuncReturn data needle = .ok r) :
    kextAnchor data apfsKext needle = .ok (apfsAnchor data needle) ∧
      r = entryOf data (apfsAnchor data needle) := by
  obtain ⟨a, ha, -⟩ := bind_eq_ok_iff.mp (show (kextAnchor data apfsKext needle >>= _) = _ from h)
  have hanchor : apfsAnchor data needle = a := anchored_ok ha
  rw [dryApfsFuncReturn_eq ha] at h
  rw [hanchor]
  exact ⟨ha, (Except.ok.inj h).symm⟩

theorem dryApfsVfsopMountAuth_ok {data : Bytes} {r : Option ℕ}
    (h : dryApfsVfsopMountAuth data = .ok r) :
    kextAnchor data apfsKext rootHashIosNeedle = .ok (apfsAnchor data rootHashIosNeedle) ∧
      (entryOf data (apfsAnchor data rootHashIosNeedle) = none →
        kextAnchor data apfsKext rootHashNeedle = .ok (apfsAnchor data rootHashNeedle)) ∧
      r = mountEntry data := by
  obtain ⟨ios, hios, hrest⟩ := bind_eq_ok_iff.mp h
  obtain ⟨hanchor, rfl⟩ := dryApfsFuncReturn_ok hios
  refine ⟨hanchor, ?_⟩
  rw [mountEntry]
  cases hf : entryOf data (apfsAnchor data rootHashIosNeedle) with
  | some f =>
    rw [hf] at hrest
    exact ⟨fun hnone => absurd hnone (Option.some_ne_none f), (Except.ok.inj hrest).symm⟩
  | none =>
    rw [hf] at hrest
    obtain ⟨hany, rfl⟩ := dryApfsFuncReturn_ok hrest
    exact ⟨fun _ => hany, Option.none_or.symm⟩

/-! ## The stubs of the run -/

section Stubs
variable {cs : Capstone} {withAsmb : Bool} {data : Bytes} (hS : SsvSettles cs withAsmb data)
include hS

/-- The run stubs the function reported for a needle. -/
theorem stub_reported {e : Bytes} {funcs : List ℕ} {needle : String} (hn : needle ∈ apfsNeedles)
    (hp : PatchedExactly data e funcs) (hsub : funcs ⊆ ssvStubs data)
    (ha : kextAnchor data apfsKext needle = .ok (apfsAnchor data needle)) :
    ∃ e', patchApfsFuncReturn e needle =
        .ok (e', (entryOf data (apfsAnchor data needle)).isSome) ∧
      PatchedExactly data e' (funcs ++ (entryOf data (apfsAnchor data needle)).toList) ∧
      (entryOf data (apfsAnchor data needle) = none → e' = e) := by
  have hE : SsvEdited cs withAsmb data e e funcs [] :=
    ⟨hp, nopped_nil e, hsub, List.nil_subset _⟩
  rw [patchApfsFuncReturn_eq ((hE.kextAnchor_eq hS hn).trans ha), hE.entryOf_eq hS hn]
  cases hf : entryOf data (apfsAnchor data needle) with
  | none => exact ⟨e, rfl, by rwa [Option.toList_none, List.append_nil], fun _ => rfl⟩
  | some g =>
    obtain ⟨x, hx, hnear⟩ := Option.bind_eq_some_iff.mp hf
    obtain ⟨a, hanchor, hmatch⟩ := Option.bind_eq_some_iff.mp hx
    have hsite : Site data a.1 x g := ⟨pairAt_of_firstMatch hmatch, hnear⟩
    have hfound := hS.foundOn hsub (hS.apfs_aligned hn a hanchor)
    have hclear : ∀ f ∈ funcs, ClearOf data f x (some g) := hnear ▸ hS.clearOf hsub hn x hx
    obtain ⟨e', hrun, hpatched⟩ := stub_next hp hfound hsite hclear
    exact ⟨e', hrun, hpatched, fun hnone => absurd hnone (Option.some_ne_none g)⟩

theorem mount_reported {e : Bytes} {funcs : List ℕ} (hp : PatchedExactly data e funcs)
    (hsub : funcs ⊆ ssvStubs data)
    (hios : kextAnchor data apfsKext rootHashIosNeedle = .ok (apfsAnchor data rootHashIosNeedle))
    (hany : entryOf data (apfsAnchor data rootHashIosNeedle) = none →
      kextAnchor data apfsKext rootHashNeedle = .ok (apfsAnchor data rootHashNeedle)) :
    ∃ e', patchApfsVfsopMountAuth e = .ok (e', (mountEntry data).isSome) ∧
      PatchedExactly data e' (funcs ++ (mountEntry data).toList) ∧
      (mountEntry data = none → e' = e) := by
  obtain ⟨e₁, hrun, hp₁, hsame⟩ := stub_reported hS rootHashIosNeedle_mem hp hsub hios
  rw [patchApfsVfsopMountAuth, hrun, ok_bind, mountEntry]
  cases hf : entryOf data (apfsAnchor data rootHashIosNeedle) with
  | some f =>
    rw [hf] at hp₁
    exact ⟨e₁, rfl, hp₁, fun hnone => absurd hnone (Option.some_ne_none f)⟩
  | none =>
    obtain rfl := hsame hf
    rw [Option.none_or]
    exact stub_reported hS rootHashNeedle_mem hp hsub (hany hf)

end Stubs

/-! ## The gates of the run -/

/-- Whether a branch is listed is a matter of its own word. -/
def WordSearch (search : Bytes → List ℕ) : Prop :=
  ∀ {data out : Bytes}, out.length = data.length →
    ∀ g ∈ search data, wordAt out g = wordAt data g → g ∈ search out

theorem wordSearch_nil : WordSearch fun _ => [] := fun _ _ hg => absurd hg List.not_mem_nil

theorem wordSearch_into (cs : Capstone) (exec : Segment) (xref : ℕ) :
    WordSearch (gatesInto cs exec xref) := fun hlen g hg hword => by
  obtain ⟨back, hback, hinto, hpos⟩ := mem_gatesInto.mp hg
  rw [← branchesInto_congr hlen hword] at hinto
  exact mem_gatesInto.mpr ⟨back, hback, hinto, hpos⟩

theorem wordSearch_before (cs : Capstone) {xref : ℕ} (hlow : 48 ≤ xref) :
    WordSearch (gatesBefore cs xref) := fun hlen g hg hword => by
  obtain ⟨back, hback, hfits, htarget, hpos⟩ := (mem_gatesBefore hlow).mp hg
  exact (mem_gatesBefore hlow).mpr ⟨back, hback, hlen ▸ hfits, hword ▸ htarget, hpos⟩

theorem wordSearch_rootauth (cs : Capstone) (data : Bytes) :
    WordSearch (rootauthSearch cs data) := by
  rw [rootauthSearch]
  cases anchored (kernelAnchor data) with
  | none => exact wordSearch_nil
  | some a =>
    dsimp only
    cases firstMatch data a.1 a.2 with
    | none => exact wordSearch_nil
    | some x => exact wordSearch_into cs a.1 x

theorem wordSearch_asmb {cs : Capstone} {withAsmb : Bool} {data : Bytes}
    (hS : SsvSettles cs withAsmb data) : WordSearch (asmbSearch cs data) := by
  rw [asmbSearch]
  cases hx : pairOf data (anchored (asmbAnchor data)) with
  | none => exact wordSearch_nil
  | some x =>
    obtain ⟨a, ha, hmatch⟩ := Option.bind_eq_some_iff.mp hx
    exact wordSearch_before cs ((hS.beyondHeader a ha).trans (fileoff_le_of_firstMatch hmatch))

/-- The run overwrites the reported gate if its word is still there. -/
theorem nopFirst_reported {search : Bytes → List ℕ} (hs : GateSearch search)
    (hw : WordSearch search) {data e : Bytes} (hone : (search data).length ≤ 1)
    (hkept : BranchesKept data e) :
    ∃ e' b gates, nopFirst search e = .ok (e', b) ∧ Nopped e e' gates ∧
      (∀ g, g ∈ gates ↔ (search data).head? = some g ∧ wordAt e g = wordAt data g) ∧
      (b = false → e' = e) := by
  cases hsearch : search e with
  | nil =>
    refine ⟨e, false, [], nopFirst_nil hsearch, nopped_nil e, fun g => ?_, fun _ => rfl⟩
    refine iff_of_false List.not_mem_nil fun ⟨hhead, hword⟩ => ?_
    have hmem := hw hkept.length_eq g (List.mem_of_mem_head? hhead) hword
    rw [hsearch] at hmem
    exact List.not_mem_nil hmem
  | cons g rest =>
    have hg : g ∈ search e := hsearch ▸ List.mem_cons_self
    have hgdata : g ∈ search data := hs.mono hkept hg
    obtain ⟨e', hrun, he'⟩ := nopped_one (hs.aligned e g hg) (hs.fits e g hg) (hs.branch e g hg)
    refine ⟨e', true, [g], ?_, he', fun g' => ?_, fun hfalse => absurd hfalse (by decide)⟩
    · rw [nopFirst, hsearch]
      dsimp only [List.head?_cons]
      rw [hrun]
      rfl
    · have hhead : (search data).head? = some g := by
        cases hdata : search data with
        | nil => exact absurd (hdata ▸ hgdata) List.not_mem_nil
        | cons c later =>
          rw [hdata] at hone hgdata
          exact congrArg some (eq_of_length_le_one hone List.mem_cons_self hgdata)
      rw [List.mem_singleton, hhead, Option.some_inj]
      refine ⟨?_, fun h => h.1.symm⟩
      rintro rfl
      exact ⟨rfl, hkept.word g' (hs.aligned e g' hg) (hs.branch e g' hg)⟩

/-- A branch keeps its word if no stub lies over it. -/
theorem SsvEdited.word_eq_iff {cs : Capstone} {withAsmb : Bool} {data mid : Bytes}
    {funcs : List ℕ} (hS : SsvSettles cs withAsmb data)
    (hE : SsvEdited cs withAsmb data mid mid funcs []) {g : ℕ} (hg : g % 4 = 0)
    (hb : IsTestBranch (wordAt data g)) :
    wordAt mid g = wordAt data g ↔ ∀ f ∈ funcs, ¬ InStub data f g := by
  have hbase : (⟨0, 0, 0, 0⟩ : Segment).fileoff % 4 = 0 := rfl
  have hfound := hS.foundOn hE.funcs_sub hbase
  refine ⟨fun hword f hf hin => ?_, word_outside hE.stubs hfound (hg.trans hbase.symm)⟩
  rw [← hword] at hb
  rcases word_inside hE.stubs hfound (hg.trans hbase.symm) hf hin with
    ⟨-, -, hpac⟩ | hmov | ⟨-, hret⟩
  · exact not_pacibsp_of_branch hb hpac
  · rw [hmov] at hb
    exact absurd hb (by decide)
  · exact not_return_of_branch hb hret

section Gates
variable {cs : Capstone} {withAsmb : Bool} {data mid e : Bytes} {funcs gates : List ℕ}
  {r : Option ℕ} (hcs : cs.A64) (hS : SsvSettles cs withAsmb data)
  (hE : SsvEdited cs withAsmb data mid e funcs gates)
include hcs hS hE

theorem rootauth_reported (h : dryBsdInitRootauth cs data = .ok r) :
    (∀ g, r = some g → g ∈ rootauthSearch cs data data) ∧
      ∃ e' b new, patchBsdInitRootauth cs e = .ok (e', b) ∧ Nopped e e' new ∧
        (∀ g, g ∈ new ↔ r = some g ∧ wordAt e g = wordAt data g) ∧ (b = false → e' = e) := by
  obtain ⟨a, ha, -⟩ := bind_eq_ok_iff.mp (show (kernelAnchor data >>= _) = _ from h)
  obtain rfl := Except.ok.inj ((dryBsdInitRootauth_eq ha).symm.trans h)
  rw [patchBsdInitRootauth_eq ((hE.kernelAnchor_eq hS).trans ha), hE.rootauthSearch_eq hS]
  exact ⟨fun g hg => List.mem_of_mem_head? hg, nopFirst_reported (gateSearch_rootauth hcs hS)
    (wordSearch_rootauth cs data) hS.oneRootauth (hE.branchesKept hS)⟩

theorem asmb_reported
    (h : (if withAsmb then dryImage4AsmbSetup cs data else pure none) = .ok r) :
    (∀ g, r = some g → g ∈ asmbSearch cs data data) ∧
      ∃ e' b new, asmbStage cs withAsmb e = .ok (e', b) ∧ Nopped e e' new ∧
        (∀ g, g ∈ new ↔ r = some g ∧ wordAt e g = wordAt data g) ∧ (b = false → e' = e) := by
  cases withAsmb with
  | false =>
    obtain rfl := Except.ok.inj h
    refine ⟨fun g hg => absurd hg.symm (Option.some_ne_none g), e, false, [], rfl, nopped_nil e,
      fun g => ?_, fun _ => rfl⟩
    exact iff_of_false List.not_mem_nil fun hg => absurd hg.1.symm (Option.some_ne_none g)
  | true =>
    obtain ⟨a, ha, -⟩ := bind_eq_ok_iff.mp (show (asmbAnchor data >>= _) = _ from h)
    obtain rfl := Except.ok.inj ((dryImage4AsmbSetup_eq ha).symm.trans h)
    rw [asmbStage, if_pos rfl, patchImage4AsmbSetup_eq ((hE.asmbAnchor_eq hS).trans ha),
      hE.asmbSearch_eq hS]
    exact ⟨fun g hg => List.mem_of_mem_head? hg, nopFirst_reported (gateSearch_asmb hcs hS)
      (wordSearch_asmb hS) (hS.oneAsmb rfl) (hE.branchesKept hS)⟩

end Gates

/-! ## The report and the run -/

theorem patchSsvBypass_eq {cs : Capstone} {withAsmb : Bool} {data d₁ d₂ d₃ d₄ : Bytes}
    {b₁ b₂ b₃ b₄ : Bool} (h₁ : patchApfsFuncReturn data sealNeedle = .ok (d₁, b₁))
    (h₂ : patchApfsVfsopMountAuth d₁ = .ok (d₂, b₂))
    (h₃ : patchBsdInitRootauth cs d₂ = .ok (d₃, b₃))
    (h₄ : asmbStage cs withAsmb d₃ = .ok (d₄, b₄)) :
    patchSsvBypass cs withAsmb data =
      .ok (if b₁ || b₂ || b₃ || b₄ then d₄ else data) := by
  rw [patchSsvBypass, patchApfsSealIsBroken, h₁, ok_bind]
  dsimp only
  rw [h₂, ok_bind]
  dsimp only
  rw [h₃, ok_bind]
  dsimp only
  rw [asmbStage] at h₄
  cases withAsmb with
  | false =>
    obtain ⟨rfl, rfl⟩ := Prod.mk.inj (Except.ok.inj h₄)
    rfl
  | true =>
    rw [if_pos rfl] at h₄ ⊢
    rw [h₄]
    rfl

/-- On an image that settles, the run stubs the reported functions and overwrites those of the
reported branches that no stub lies over; nothing else changes. -/
theorem ssv_run_matches_report {cs : Capstone} (hcs : cs.A64) (withAsmb : Bool) (data : Bytes)
    (sites : SsvSites) (hS : SsvSettles cs withAsmb data)
    (h : drySsvBypass cs withAsmb data = .ok sites) :
    ∃ mid out gates, patchSsvBypass cs withAsmb data = .ok out ∧
      PatchedExactly data mid sites.funcs ∧ Nopped mid out gates ∧
      ∀ g, g ∈ gates ↔ g ∈ sites.gates ∧ ∀ f ∈ sites.funcs, ¬ InStub data f g := by
  obtain ⟨f₁, hdry₁, h⟩ := bind_eq_ok_iff.mp h
  obtain ⟨f₂, hdry₂, h⟩ := bind_eq_ok_iff.mp h
  obtain ⟨g₃, hdry₃, h⟩ := bind_eq_ok_iff.mp h
  have hlast : ((if withAsmb then dryImage4AsmbSetup cs data else pure none) >>= fun g₄ =>
      pure (⟨f₁, f₂, g₃, g₄⟩ : SsvSites)) = .ok sites := by
    cases withAsmb <;> exact h
  obtain ⟨g₄, hdry₄, hsites⟩ := bind_eq_ok_iff.mp hlast
  obtain rfl := (Except.ok.inj hsites).symm
  obtain ⟨hseal, rfl⟩ := dryApfsFuncReturn_ok hdry₁
  obtain ⟨hios, hany, rfl⟩ := dryApfsVfsopMountAuth_ok hdry₂
  obtain ⟨d₁, hrun₁, hp₁, hsame₁⟩ := stub_reported hS sealNeedle_mem (patchedExactly_nil data)
    (List.nil_subset _) hseal
  obtain ⟨d₂, hrun₂, hp₂, hsame₂⟩ :=
    mount_reported hS hp₁ (List.subset_append_left _ _) hios hany
  have hE₂ : SsvEdited cs withAsmb data d₂ d₂ (ssvStubs data) [] :=
    ⟨hp₂, nopped_nil d₂, List.Subset.refl _, List.nil_subset _⟩
  obtain ⟨hmem₃, d₃, b₃, gates₃, hrun₃, hnop₃, hgates₃, hsame₃⟩ :=
    rootauth_reported hcs hS hE₂ hdry₃
  have hE₃ : SsvEdited cs withAsmb data d₂ d₃ (ssvStubs data) gates₃ :=
    ⟨hp₂, hnop₃, List.Subset.refl _, fun g hg =>
      List.mem_append_left _ (hmem₃ g ((hgates₃ g).mp hg).1)⟩
  obtain ⟨hmem₄, d₄, b₄, gates₄, hrun₄, hnop₄, hgates₄, hsame₄⟩ := asmb_reported hcs hS hE₃ hdry₄
  refine ⟨d₂, d₄, gates₃ ++ gates₄, ?_, hp₂, hnop₃.trans hnop₄, fun g => ?_⟩
  · rw [patchSsvBypass_eq hrun₁ hrun₂ hrun₃ hrun₄]
    split_ifs with hany
    · rfl
    · simp only [Bool.or_eq_true, not_or, Bool.not_eq_true, Option.isSome_eq_false_iff,
        Option.isNone_iff_eq_none] at hany
      rw [hsame₄ hany.2, hsame₃ hany.1.2, hsame₂ hany.1.1.2, hsame₁ hany.1.1.1]
  · have hroot := gateSearch_rootauth hcs hS
    have hasmb := gateSearch_asmb hcs hS
    rw [List.mem_append, hgates₃, hgates₄, SsvSites.gates, List.mem_append, Option.mem_toList,
      Option.mem_toList]
    constructor
    · rintro (⟨hg, hword⟩ | ⟨hg, hword⟩)
      · have hmem := hmem₃ g hg
        exact ⟨.inl hg, (hE₂.word_eq_iff hS (hroot.aligned _ g hmem) (hroot.branch _ g hmem)).mp
          hword⟩
      · have hmem := hmem₄ g hg
        have halign := hasmb.aligned _ g hmem
        have hbranch := hasmb.branch _ g hmem
        have hkept := hnop₃.word_of_branch halign (hword ▸ hbranch)
        exact ⟨.inr hg, (hE₂.word_eq_iff hS halign hbranch).mp (hkept.symm.trans hword)⟩
    · rintro ⟨hg | hg, hfree⟩
      · have hmem := hmem₃ g hg
        exact .inl ⟨hg, (hE₂.word_eq_iff hS (hroot.aligned _ g hmem)
          (hroot.branch _ g hmem)).mpr hfree⟩
      · have hmem := hmem₄ g hg
        have halign := hasmb.aligned _ g hmem
        have hword := (hE₂.word_eq_iff hS halign (hasmb.branch _ g hmem)).mpr hfree
        by_cases hdone : g ∈ gates₃
        · exact .inl ((hgates₃ g).mp hdone)
        · exact .inr ⟨hg, (hnop₃.word_of_notMem halign hdone).trans hword⟩

theorem ssv_run_matches_report_settled :
    ∃ mid out gates, patchSsvBypass a64Capstone true settledImage = .ok out ∧
      PatchedExactly settledImage mid [480] ∧ Nopped mid out gates ∧
      ∀ g, g ∈ gates ↔ g ∈ [504] ∧ ∀ f ∈ [480], ¬ InStub settledImage f g :=
  ssv_run_matches_report a64Capstone_a64 true settledImage ⟨some 480, none, some 504, none⟩
    settledImage_settles (by decide +kernel)

end SecureWorld.Patcher
