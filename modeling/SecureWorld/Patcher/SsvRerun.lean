import SecureWorld.Patcher.SsvTargets
import SecureWorld.Patcher.VerifiedPatches

/-! # Running the root-volume patches twice

A second run finds the anchors of the first. It changes nothing if every walk ends at the stub
already in place and no gate is left to find; on other images it stubs a further function or
overwrites a further branch.
-/
namespace SecureWorld.Patcher
open Foundations Armv8
set_option autoImplicit false

/-! ## The stubs -/

theorem stubWords_no_branch {w : BitVec 32} (h : w ∈ stubWords pacibsp) : ¬ IsTestBranch w := by
  have hwords : stubWords pacibsp = [pacibsp, movX0Zero, retab] := if_pos (Eq.refl pacibsp)
  simp only [hwords, List.mem_cons, List.not_mem_nil, or_false] at h
  rcases h with rfl | rfl | rfl <;> decide

section Stubs
variable {cs : Capstone} {withAsmb : Bool} {data : Bytes} (hS : SsvSettles cs withAsmb data)
include hS

/-- The patch acts on the entry that the needle leads to on the original. -/
theorem SsvEdited.patchApfsFuncReturn_ok {mid e e' : Bytes} {funcs gates : List ℕ} {b : Bool}
    {needle : String} (hE : SsvEdited cs withAsmb data mid e funcs gates)
    (hn : needle ∈ apfsNeedles) (h : patchApfsFuncReturn e needle = .ok (e', b)) :
    match entryOf data (apfsAnchor data needle) with
    | none => e' = e ∧ b = false
    | some f => stubFunction e f = .ok (e', b) := by
  obtain ⟨a, ha, -⟩ := bind_eq_ok_iff.mp (show (kextAnchor e apfsKext needle >>= _) = _ from h)
  have hanchor : apfsAnchor data needle = a := anchored_ok (hE.kextAnchor_eq hS hn ▸ ha)
  rw [patchApfsFuncReturn_eq ha, ← hanchor, hE.entryOf_eq hS hn] at h
  cases hf : entryOf data (apfsAnchor data needle) with
  | none =>
    rw [hf] at h
    obtain ⟨rfl, rfl⟩ := Prod.mk.inj (Except.ok.inj h)
    exact ⟨rfl, rfl⟩
  | some f =>
    rw [hf] at h
    exact h

/-- The first run stubs that entry. -/
theorem stub_first {e e' : Bytes} {funcs : List ℕ} {b : Bool} {needle : String}
    (hn : needle ∈ apfsNeedles) (hp : PatchedExactly data e funcs) (hsub : funcs ⊆ ssvStubs data)
    (h : patchApfsFuncReturn e needle = .ok (e', b)) :
    b = (entryOf data (apfsAnchor data needle)).isSome ∧
      PatchedExactly data e' (funcs ++ (entryOf data (apfsAnchor data needle)).toList) := by
  have hE : SsvEdited cs withAsmb data e e funcs [] :=
    ⟨hp, nopped_nil e, hsub, List.nil_subset _⟩
  have hpatch := hE.patchApfsFuncReturn_ok hS hn h
  cases hf : entryOf data (apfsAnchor data needle) with
  | none =>
    rw [hf] at hpatch
    obtain ⟨rfl, rfl⟩ := hpatch
    exact ⟨rfl, by rwa [Option.toList_none, List.append_nil]⟩
  | some g =>
    rw [hf] at hpatch
    obtain ⟨x, hx, hnear⟩ := Option.bind_eq_some_iff.mp hf
    obtain ⟨a, ha, hmatch⟩ := Option.bind_eq_some_iff.mp hx
    have hsite : Site data a.1 x g := ⟨pairAt_of_firstMatch hmatch, hnear⟩
    have hfound := hS.foundOn hsub (hS.apfs_aligned hn a ha)
    have hclear : ∀ f ∈ funcs, ClearOf data f x (some g) := hnear ▸ hS.clearOf hsub hn x hx
    obtain ⟨out', hrun, hpatched⟩ := stub_next hp hfound hsite hclear
    obtain ⟨rfl, rfl⟩ := Prod.mk.inj (Except.ok.inj (hrun.symm.trans hpatch))
    exact ⟨rfl, hpatched⟩

/-- A later run finds the stub in place. -/
theorem stub_again {mid e e' : Bytes} {funcs gates : List ℕ} {b : Bool} {needle : String}
    (hE : SsvEdited cs withAsmb data mid e funcs gates) (hn : needle ∈ apfsNeedles)
    (hdone : ∀ f ∈ entryOf data (apfsAnchor data needle), f ∈ funcs)
    (h : patchApfsFuncReturn e needle = .ok (e', b)) :
    e' = e ∧ b = (entryOf data (apfsAnchor data needle)).isSome := by
  have hpatch := hE.patchApfsFuncReturn_ok hS hn h
  cases hf : entryOf data (apfsAnchor data needle) with
  | none =>
    rw [hf] at hpatch
    exact hpatch
  | some f =>
    rw [hf] at hpatch
    have hmem := hdone f hf
    have hlays := hE.stubs.stub f hmem
    have hbase : (⟨0, 0, 0, 0⟩ : Segment).fileoff % 4 = 0 := rfl
    obtain ⟨x, hsite⟩ := hS.foundOn hE.funcs_sub hbase f hmem
    have hfa : f % 4 = 0 := hsite.func_aligned.trans hsite.aligned
    rw [(hS.pac f (hE.funcs_sub hmem)).1] at hlays
    have hself := stubFunction_self (hE.nops.lays hlays hfa fun w => stubWords_no_branch)
    obtain ⟨rfl, rfl⟩ := Prod.mk.inj (Except.ok.inj (hpatch.symm.trans hself))
    exact ⟨rfl, rfl⟩

end Stubs

/-! ## The two needles of the mount -/

/-- The generic needle is tried only where the iOS one leads nowhere. -/
theorem patchApfsVfsopMountAuth_ok {e e' : Bytes} {b : Bool}
    (h : patchApfsVfsopMountAuth e = .ok (e', b)) :
    ∃ e₁ b₁, patchApfsFuncReturn e rootHashIosNeedle = .ok (e₁, b₁) ∧
      if b₁ then e' = e₁ ∧ b = true else patchApfsFuncReturn e₁ rootHashNeedle = .ok (e', b) := by
  obtain ⟨⟨e₁, b₁⟩, hios, hrest⟩ := bind_eq_ok_iff.mp h
  refine ⟨e₁, b₁, hios, ?_⟩
  cases b₁ with
  | false => exact hrest
  | true =>
    obtain ⟨rfl, rfl⟩ := Prod.mk.inj (Except.ok.inj hrest)
    exact ⟨rfl, rfl⟩

section Mount
variable {cs : Capstone} {withAsmb : Bool} {data : Bytes} (hS : SsvSettles cs withAsmb data)
include hS

theorem mount_first {e e' : Bytes} {funcs : List ℕ} {b : Bool} (hp : PatchedExactly data e funcs)
    (hsub : funcs ⊆ ssvStubs data) (h : patchApfsVfsopMountAuth e = .ok (e', b)) :
    PatchedExactly data e' (funcs ++ (mountEntry data).toList) := by
  obtain ⟨e₁, b₁, hios, hrest⟩ := patchApfsVfsopMountAuth_ok h
  obtain ⟨rfl, hp₁⟩ := stub_first hS rootHashIosNeedle_mem hp hsub hios
  rw [mountEntry]
  cases hf : entryOf data (apfsAnchor data rootHashIosNeedle) with
  | some f =>
    rw [hf] at hrest hp₁
    rw [Option.some_or]
    exact hrest.1 ▸ hp₁
  | none =>
    rw [hf] at hrest hp₁
    rw [Option.toList_none, List.append_nil] at hp₁
    rw [Option.none_or]
    exact (stub_first hS rootHashNeedle_mem hp₁ hsub hrest).2

theorem mount_again {mid e e' : Bytes} {gates : List ℕ} {b : Bool}
    (hE : SsvEdited cs withAsmb data mid e (ssvStubs data) gates)
    (h : patchApfsVfsopMountAuth e = .ok (e', b)) : e' = e := by
  obtain ⟨e₁, b₁, hios, hrest⟩ := patchApfsVfsopMountAuth_ok h
  have hdone : ∀ f ∈ mountEntry data, f ∈ ssvStubs data := fun f hf =>
    List.mem_append_right _ (Option.mem_toList.mpr hf)
  rw [mountEntry] at hdone
  cases hf : entryOf data (apfsAnchor data rootHashIosNeedle) with
  | some f =>
    rw [hf, Option.some_or] at hdone
    obtain ⟨rfl, rfl⟩ := stub_again hS hE rootHashIosNeedle_mem (hf ▸ hdone) hios
    rw [hf] at hrest
    exact hrest.1
  | none =>
    rw [hf, Option.none_or] at hdone
    have hnone : ∀ g ∈ entryOf data (apfsAnchor data rootHashIosNeedle), g ∈ ssvStubs data :=
      fun g hg => absurd (hf.symm.trans hg) (Option.some_ne_none g).symm
    obtain ⟨rfl, rfl⟩ := stub_again hS hE rootHashIosNeedle_mem hnone hios
    rw [hf] at hrest
    exact (stub_again hS hE rootHashNeedle_mem hdone hrest).1

end Mount

/-! ## The gates -/

/-- A pair found from a kernel or Image4 string lies on a word boundary. -/
theorem SsvSettles.gatePair_aligned {cs : Capstone} {withAsmb : Bool} {data : Bytes}
    (hS : SsvSettles cs withAsmb data) {r : Except PyError (Option (Segment × ℕ))}
    (hr : r ∈ [kernelAnchor data, asmbAnchor data]) {x : ℕ} (hx : x ∈ pairOf data (anchored r)) :
    x % 4 = 0 := by
  obtain ⟨a, ha, hmatch⟩ := Option.bind_eq_some_iff.mp hx
  exact (pairAt_of_firstMatch hmatch).aligned.trans
    (hS.aligned r (List.mem_append_right _ hr) a ha)

theorem fileoff_le_of_firstMatch {data : Bytes} {exec : Segment} {strVa x : ℕ}
    (h : firstMatch data exec strVa = some x) : exec.fileoff ≤ x := by
  obtain ⟨i, -, hsome⟩ := List.exists_of_findSome?_eq_some h
  have heq := (Option.ite_none_right_eq_some.mp hsome).2
  have hx := Option.some.inj heq
  omega

section Gates
variable {cs : Capstone} {withAsmb : Bool} {data : Bytes} (hcs : cs.A64)
  (hS : SsvSettles cs withAsmb data)
include hcs hS

theorem gateSearch_rootauth : GateSearch (rootauthSearch cs data) := by
  rw [rootauthSearch]
  cases ha : anchored (kernelAnchor data) with
  | none => exact gateSearch_nil
  | some a =>
    dsimp only
    cases hx : firstMatch data a.1 a.2 with
    | none => exact gateSearch_nil
    | some x =>
      refine gateSearch_into hcs (hS.gatePair_aligned (r := kernelAnchor data) (by simp) ?_)
      rwa [ha, pairOf, Option.bind_some]

theorem gateSearch_asmb : GateSearch (asmbSearch cs data) := by
  rw [asmbSearch]
  cases hx : pairOf data (anchored (asmbAnchor data)) with
  | none => exact gateSearch_nil
  | some x =>
    obtain ⟨a, ha, hmatch⟩ := Option.bind_eq_some_iff.mp hx
    have hlow := (hS.beyondHeader a ha).trans (fileoff_le_of_firstMatch hmatch)
    exact gateSearch_before hcs (hS.gatePair_aligned (by simp) hx) hlow

end Gates

section Searches
variable {cs : Capstone} {withAsmb : Bool} {data mid e : Bytes} {funcs gates : List ℕ}
  (hS : SsvSettles cs withAsmb data) (hE : SsvEdited cs withAsmb data mid e funcs gates)
include hS hE

theorem SsvEdited.pairOf_eq {r : Except PyError (Option (Segment × ℕ))}
    (hr : r ∈ [kernelAnchor data, asmbAnchor data]) :
    pairOf e (anchored r) = pairOf data (anchored r) := by
  cases ha : anchored r with
  | none => simp only [pairOf, Option.bind_none]
  | some a =>
    rw [pairOf, Option.bind_some, pairOf, Option.bind_some]
    refine hE.firstMatch_eq hS (hS.aligned r (List.mem_append_right _ hr) a ha) fun x hx f hf => ?_
    rw [hS.stubSize_eq (hE.funcs_sub hf)]
    exact hS.pairsApart r hr x (by rwa [ha, pairOf, Option.bind_some]) f (hE.funcs_sub hf)

/-- The searches look around the pairs of the original. -/
theorem SsvEdited.rootauthSearch_eq : rootauthSearch cs e = rootauthSearch cs data := by
  have hpair := hE.pairOf_eq hS (r := kernelAnchor data) (by simp)
  rw [rootauthSearch, rootauthSearch, hE.kernelAnchor_eq hS]
  cases ha : anchored (kernelAnchor data) with
  | none => rfl
  | some a =>
    rw [ha, pairOf, Option.bind_some, pairOf, Option.bind_some] at hpair
    dsimp only
    rw [hpair]

theorem SsvEdited.asmbSearch_eq : asmbSearch cs e = asmbSearch cs data := by
  rw [asmbSearch, asmbSearch, hE.asmbAnchor_eq hS, hE.pairOf_eq hS (by simp)]

theorem SsvEdited.patchBsdInitRootauth_ok {r : Bytes × Bool}
    (h : patchBsdInitRootauth cs e = .ok r) : nopFirst (rootauthSearch cs data) e = .ok r := by
  obtain ⟨a, ha, -⟩ := bind_eq_ok_iff.mp (show (kernelAnchor e >>= _) = _ from h)
  rwa [patchBsdInitRootauth_eq ha, hE.rootauthSearch_eq hS] at h

theorem SsvEdited.patchImage4AsmbSetup_ok {r : Bytes × Bool}
    (h : patchImage4AsmbSetup cs e = .ok r) : nopFirst (asmbSearch cs data) e = .ok r := by
  obtain ⟨a, ha, -⟩ := bind_eq_ok_iff.mp (show (asmbAnchor e >>= _) = _ from h)
  rwa [patchImage4AsmbSetup_eq ha, hE.asmbSearch_eq hS] at h

end Searches

/-! ## The run -/

/-- The last patch, which is optional. -/
def asmbStage (cs : Capstone) (withAsmb : Bool) (data : Bytes) : Except PyError (Bytes × Bool) :=
  if withAsmb then patchImage4AsmbSetup cs data else pure (data, false)

/-- The four patches of a run that returns. -/
structure SsvRun (cs : Capstone) (withAsmb : Bool) (data d₁ d₂ d₃ d₄ out : Bytes) : Prop where
  sealIsBroken : ∃ b, patchApfsFuncReturn data sealNeedle = .ok (d₁, b)
  mountAuth : ∃ b, patchApfsVfsopMountAuth d₁ = .ok (d₂, b)
  rootauth : ∃ b, patchBsdInitRootauth cs d₂ = .ok (d₃, b)
  asmb : ∃ b, asmbStage cs withAsmb d₃ = .ok (d₄, b)
  written : out = d₄ ∨ out = data

theorem patchSsvBypass_ok {cs : Capstone} {withAsmb : Bool} {data out : Bytes}
    (h : patchSsvBypass cs withAsmb data = .ok out) :
    ∃ d₁ d₂ d₃ d₄, SsvRun cs withAsmb data d₁ d₂ d₃ d₄ out := by
  obtain ⟨⟨d₁, b₁⟩, h₁, h⟩ := bind_eq_ok_iff.mp h
  obtain ⟨⟨d₂, b₂⟩, h₂, h⟩ := bind_eq_ok_iff.mp h
  obtain ⟨⟨d₃, b₃⟩, h₃, h⟩ := bind_eq_ok_iff.mp h
  have hlast : (asmbStage cs withAsmb d₃ >>= fun r =>
      pure (if b₁ || b₂ || b₃ || r.2 then r.1 else data)) = .ok out := by
    cases withAsmb <;> exact h
  obtain ⟨⟨d₄, b₄⟩, h₄, h⟩ := bind_eq_ok_iff.mp hlast
  refine ⟨d₁, d₂, d₃, d₄, ⟨b₁, h₁⟩, ⟨b₂, h₂⟩, ⟨b₃, h₃⟩, ⟨b₄, h₄⟩, ?_⟩
  have hout := Except.ok.inj h
  split_ifs at hout
  · exact .inl hout.symm
  · exact .inr hout.symm

section Run
variable {cs : Capstone} {withAsmb : Bool} {data : Bytes} (hcs : cs.A64)
  (hS : SsvSettles cs withAsmb data)
include hcs hS

/-- The first run leaves the stubs in place and no gate to find. -/
theorem ssv_first {d₁ d₂ d₃ d₄ out : Bytes} (h : SsvRun cs withAsmb data d₁ d₂ d₃ d₄ out) :
    ∃ gates, SsvEdited cs withAsmb data d₂ d₄ (ssvStubs data) gates ∧
      rootauthSearch cs data d₄ = [] ∧ (withAsmb → asmbSearch cs data d₄ = []) := by
  obtain ⟨b₁, h₁⟩ := h.sealIsBroken
  obtain ⟨b₂, h₂⟩ := h.mountAuth
  obtain ⟨b₃, h₃⟩ := h.rootauth
  obtain ⟨b₄, h₄⟩ := h.asmb
  have hp₁ := (stub_first hS sealNeedle_mem (patchedExactly_nil data)
    (List.nil_subset _) h₁).2
  have hp₂ := mount_first hS hp₁ (List.subset_append_left _ _) h₂
  have hE₂ : SsvEdited cs withAsmb data d₂ d₂ (ssvStubs data) [] :=
    ⟨hp₂, nopped_nil d₂, List.Subset.refl _, List.nil_subset _⟩
  obtain ⟨e₃, b, new₃, hrun₃, hnop₃, hsub₃, hnil₃⟩ :=
    nopFirst_step (gateSearch_rootauth hcs hS) hS.oneRootauth (hE₂.branchesKept hS)
  have hrun₃' := hE₂.patchBsdInitRootauth_ok hS h₃
  obtain ⟨rfl, rfl⟩ := Prod.mk.inj (Except.ok.inj (hrun₃.symm.trans hrun₃'))
  have hE₃ : SsvEdited cs withAsmb data d₂ e₃ (ssvStubs data) new₃ :=
    ⟨hp₂, hnop₃, List.Subset.refl _, List.Subset.trans hsub₃ (List.subset_append_left _ _)⟩
  cases withAsmb with
  | false =>
    obtain ⟨rfl, rfl⟩ := Prod.mk.inj (Except.ok.inj h₄)
    exact ⟨new₃, hE₃, hnil₃, fun hasmb => absurd hasmb Bool.false_ne_true⟩
  | true =>
    obtain ⟨e₄, b, new₄, hrun₄, hnop₄, hsub₄, hnil₄⟩ :=
      nopFirst_step (gateSearch_asmb hcs hS) (hS.oneAsmb rfl) (hE₃.branchesKept hS)
    have hrun₄' := hE₃.patchImage4AsmbSetup_ok hS h₄
    obtain ⟨rfl, rfl⟩ := Prod.mk.inj (Except.ok.inj (hrun₄.symm.trans hrun₄'))
    refine ⟨new₃ ++ new₄, ⟨hp₂, hnop₃.trans hnop₄, List.Subset.refl _, ?_⟩, ?_, fun _ => hnil₄⟩
    · exact List.append_subset.mpr ⟨hE₃.gates_sub,
        List.Subset.trans hsub₄ (List.subset_append_right _ _)⟩
    · have hmono := (gateSearch_rootauth hcs hS).mono hnop₄.branchesKept
      rw [hnil₃] at hmono
      exact List.subset_nil.mp hmono

omit hcs in
/-- A run over the result of the first one changes nothing. -/
theorem ssv_again {mid e d₁ d₂ d₃ d₄ out : Bytes} {gates : List ℕ}
    (hE : SsvEdited cs withAsmb data mid e (ssvStubs data) gates)
    (hroot : rootauthSearch cs data e = []) (hasmb : withAsmb → asmbSearch cs data e = [])
    (h : SsvRun cs withAsmb e d₁ d₂ d₃ d₄ out) : out = e := by
  obtain ⟨b₁, h₁⟩ := h.sealIsBroken
  obtain ⟨b₂, h₂⟩ := h.mountAuth
  obtain ⟨b₃, h₃⟩ := h.rootauth
  obtain ⟨b₄, h₄⟩ := h.asmb
  have hdone : ∀ f ∈ entryOf data (apfsAnchor data sealNeedle), f ∈ ssvStubs data := fun f hf =>
    List.mem_append_left _ (Option.mem_toList.mpr hf)
  obtain ⟨rfl, -⟩ := stub_again hS hE sealNeedle_mem hdone h₁
  obtain rfl := mount_again hS hE h₂
  have hrun₃ := hE.patchBsdInitRootauth_ok hS h₃
  rw [nopFirst_nil hroot] at hrun₃
  obtain ⟨rfl, -⟩ := Prod.mk.inj (Except.ok.inj hrun₃)
  have h₄' : d₄ = d₂ := by
    cases withAsmb with
    | false => exact ((Prod.mk.inj (Except.ok.inj h₄)).1).symm
    | true =>
      have hrun₄ := hE.patchImage4AsmbSetup_ok hS h₄
      rw [nopFirst_nil (hasmb rfl)] at hrun₄
      exact ((Prod.mk.inj (Except.ok.inj hrun₄)).1).symm
  exact h.written.elim (·.trans h₄') id

end Run

/-- The image after a run is the image after two. -/
theorem ssv_rerun_unchanged {cs : Capstone} (hcs : cs.A64) (withAsmb : Bool) (data : Bytes)
    (h : SsvSettles cs withAsmb data) :
    ssvImage cs withAsmb (ssvImage cs withAsmb data) = ssvImage cs withAsmb data := by
  cases hrun : patchSsvBypass cs withAsmb data with
  | error err =>
    have hsame : ssvImage cs withAsmb data = data := by rw [ssvImage, hrun]
    rw [hsame, hsame]
  | ok out =>
    have himage : ssvImage cs withAsmb data = out := by rw [ssvImage, hrun]
    obtain ⟨d₁, d₂, d₃, d₄, hfirst⟩ := patchSsvBypass_ok hrun
    rcases hfirst.written with rfl | rfl
    · obtain ⟨gates, hE, hroot, hasmb⟩ := ssv_first hcs h hfirst
      rw [himage, ssvImage]
      cases hagain : patchSsvBypass cs withAsmb out with
      | error err => rfl
      | ok out' =>
        obtain ⟨e₁, e₂, e₃, e₄, hsecond⟩ := patchSsvBypass_ok hagain
        exact ssv_again h hE hroot hasmb hsecond
    · rw [himage, himage]

/-! ## Images of each kind -/

/-- A fileset with apfs at 240, its seal string at 416, the panic string at 440 and code at 480. -/
def rootVolumeImage (code : List (BitVec 32)) : Bytes :=
  le32 0xFEEDFACF ++ List.replicate 8 0 ++ le32 12 ++ le32 3 ++ List.replicate 12 0 ++
    segmentCommand "__TEXT" 416 64 ++ segmentCommand "__TEXT_EXEC" 480 (4 * code.length) ++
    (le32 0x80000035 ++ le32 64 ++ le64 0x10F0 ++ le64 240 ++ le32 32 ++ le32 0 ++
      asciiBytes apfsKext ++ List.replicate 6 0) ++
    (le32 0xFEEDFACF ++ List.replicate 12 0 ++ le32 2 ++ List.replicate 12 0) ++
    segmentCommand "__TEXT" 416 64 ++ segmentCommand "__TEXT_EXEC" 480 (4 * code.length) ++
    asciiBytes sealNeedle ++ [0] ++ asciiBytes panicNeedle ++ [0] ++
    code.flatMap fun w => le32 w.toNat

/-- `pacibsp; stp x29, x30, [sp, #-16]!; mov x29, sp` and the seal string, then `cbnz x1` into the
block with the panic string. -/
def settledImage : Bytes :=
  rootVolumeImage [pacibsp, 0xA9BF7BFD, 0x910003FD, 0x90000000, 0x91068000, retab, 0xB5000021,
    0x90000000, 0x9106E000, 0xD503201F]

/-- The same with a second branch into that block. -/
def twoGateImage : Bytes :=
  rootVolumeImage [pacibsp, 0xA9BF7BFD, 0x910003FD, 0x90000000, 0x91068000, retab, 0xB4000040,
    0xB5000021, 0x90000000, 0x9106E000, 0xD503201F]

/-- The seal string in a function that starts with `stp`, behind another function. -/
def plainEntryImage : Bytes :=
  rootVolumeImage [pacibsp, 0xD503201F, retab, 0xA9BF7BFD, 0x910003FD, 0x90000000, 0x91068000,
    ret, 0xD503201F]

/-- The seal string in a function that saves registers behind its first three words. -/
def longEntryImage : Bytes :=
  rootVolumeImage [pacibsp, 0xD10103FF, 0xA90157F6, 0xA9037BFD, 0x90000000, 0x91068000, retab]

theorem settled_headersBelow : HeadersBelow 480 settledImage where
  header := by decide
  commands := by decide +kernel
  kexts kext hkext entry hentry := by
    have hoff : ∀ kext ∈ [apfsKext, image4Kext],
        ∀ entry ∈ (parseFilesetEntry settledImage kext).toOption.join, entry.1 = 240 := by
      decide +kernel
    rw [hoff kext hkext entry hentry]
    exact ⟨by decide, by decide +kernel, by decide +kernel⟩

theorem settledImage_settles : SsvSettles a64Capstone true settledImage where
  aligned := by decide +kernel
  beyondHeader := by decide +kernel
  unread _ := unread_of_headersBelow settled_headersBelow (by decide +kernel) (by decide +kernel)
  pac := by decide +kernel
  behind := by decide +kernel
  pairsApart := by decide +kernel
  oneRootauth := by decide +kernel
  oneAsmb _ := by decide +kernel

theorem ssv_rerun_unchanged_settled : ssvImage a64Capstone true settledImage ≠ settledImage ∧
    ssvImage a64Capstone true (ssvImage a64Capstone true settledImage) =
      ssvImage a64Capstone true settledImage :=
  ⟨by decide +kernel, ssv_rerun_unchanged a64Capstone_a64 true settledImage settledImage_settles⟩

/-- A second run overwrites the other branch, stubs the function before the one it stubbed, or
stubs the middle of it. -/
theorem ssv_rerun_changes :
    ssvImage a64Capstone false (ssvImage a64Capstone false twoGateImage) ≠
        ssvImage a64Capstone false twoGateImage ∧
      ssvImage a64Capstone false (ssvImage a64Capstone false plainEntryImage) ≠
        ssvImage a64Capstone false plainEntryImage ∧
      ssvImage a64Capstone false (ssvImage a64Capstone false longEntryImage) ≠
        ssvImage a64Capstone false longEntryImage := by
  decide +kernel

end SecureWorld.Patcher
