import SecureWorld.Patcher.GateSearch
import SecureWorld.Patcher.PatchRun
import SecureWorld.Patcher.SsvHeaders

/-! # The targets of the root-volume patches

What the script finds on an image, and what it still finds on that image with stubs and NOPs in it.
The script does not know an image it has already patched: `SsvSettles` says of an original image
that its strings stay where they are, every walk ends where it ended, and one gate is all there is.
-/
namespace SecureWorld.Patcher
open Foundations Armv8
set_option autoImplicit false

/-! ## The targets on one image -/

/-- The anchor, if one was found. -/
def anchored (r : Except PyError (Option (Segment × ℕ))) : Option (Segment × ℕ) := r.toOption.join

/-- The pair that loads the anchor's string, and the function's entry found from it. -/
def pairOf (data : Bytes) (anchor : Option (Segment × ℕ)) : Option ℕ :=
  anchor.bind fun a => firstMatch data a.1 a.2

def entryOf (data : Bytes) (anchor : Option (Segment × ℕ)) : Option ℕ :=
  (pairOf data anchor).bind (nearestEntry data)

def apfsNeedles : List String := [sealNeedle, rootHashIosNeedle, rootHashNeedle]

theorem sealNeedle_mem : sealNeedle ∈ apfsNeedles := by simp [apfsNeedles]

theorem rootHashIosNeedle_mem : rootHashIosNeedle ∈ apfsNeedles := by simp [apfsNeedles]

theorem rootHashNeedle_mem : rootHashNeedle ∈ apfsNeedles := by simp [apfsNeedles]

def apfsAnchor (data : Bytes) (needle : String) : Option (Segment × ℕ) :=
  anchored (kextAnchor data apfsKext needle)

def asmbAnchor (data : Bytes) : Except PyError (Option (Segment × ℕ)) :=
  kextAnchor data image4Kext asmbNeedle

def mountEntry (data : Bytes) : Option ℕ :=
  (entryOf data (apfsAnchor data rootHashIosNeedle)).or
    (entryOf data (apfsAnchor data rootHashNeedle))

/-- The functions the first run stubs. -/
def ssvStubs (data : Bytes) : List ℕ :=
  (entryOf data (apfsAnchor data sealNeedle)).toList ++ (mountEntry data).toList

/-- The gate searches of the two patches, around the pairs found on `data`. -/
def rootauthSearch (cs : Capstone) (data : Bytes) : Bytes → List ℕ :=
  match anchored (kernelAnchor data) with
  | none => fun _ => []
  | some (exc, strVa) =>
      match firstMatch data exc strVa with
      | none => fun _ => []
      | some xref => gatesInto cs exc xref

def asmbSearch (cs : Capstone) (data : Bytes) : Bytes → List ℕ :=
  match pairOf data (anchored (asmbAnchor data)) with
  | none => fun _ => []
  | some xref => gatesBefore cs xref

/-- The branches that may be overwritten. -/
def ssvGates (cs : Capstone) (withAsmb : Bool) (data : Bytes) : List ℕ :=
  rootauthSearch cs data data ++ if withAsmb then asmbSearch cs data data else []

/-- The bytes that may be overwritten. -/
def SsvWritten (cs : Capstone) (withAsmb : Bool) (data : Bytes) (i : ℕ) : Prop :=
  (∃ f ∈ ssvStubs data, InStub data f i) ∨ ∃ g ∈ ssvGates cs withAsmb data, g ≤ i ∧ i < g + 4

def ssvAnchors (data : Bytes) : List (Except PyError (Option (Segment × ℕ))) :=
  apfsNeedles.map (kextAnchor data apfsKext) ++ [kernelAnchor data, asmbAnchor data]

/-! ## Images on which a second run finds nothing new -/

structure SsvSettles (cs : Capstone) (withAsmb : Bool) (data : Bytes) : Prop where
  /-- Code lies on word boundaries, that of the Image4 kext behind the first commands. -/
  aligned : ∀ r ∈ ssvAnchors data, ∀ a ∈ anchored r, a.1.fileoff % 4 = 0
  beyondHeader : ∀ a ∈ anchored (asmbAnchor data), 48 ≤ a.1.fileoff
  /-- The headers and strings the script reads are not among the bytes it writes. -/
  unread : ∀ e : Bytes, e.length = data.length →
    (∀ i, ¬ SsvWritten cs withAsmb data i → e[i]? = data[i]?) → ssvAnchors e = ssvAnchors data
  /-- A stubbed function starts with PACIBSP and no prologue-looking word follows the stub. -/
  pac : ∀ f ∈ ssvStubs data,
    wordAt data f = pacibsp ∧ ¬ isPrologueStart (wordAt data (f + 12))
  /-- A pair that leads to a stubbed function lies behind the stub. -/
  behind : ∀ needle ∈ apfsNeedles, ∀ x ∈ pairOf data (apfsAnchor data needle),
    ∀ f ∈ nearestEntry data x, f ∈ ssvStubs data → f + 12 ≤ x
  /-- No stub is written over the pair of a gate. -/
  pairsApart : ∀ r ∈ [kernelAnchor data, asmbAnchor data], ∀ x ∈ pairOf data (anchored r),
    ∀ f ∈ ssvStubs data, x + 8 ≤ f ∨ f + 12 ≤ x
  /-- Each gate is the only one in reach. -/
  oneRootauth : (rootauthSearch cs data data).length ≤ 1
  oneAsmb : withAsmb → (asmbSearch cs data data).length ≤ 1

/-- Headers and strings below every write are not among the bytes it writes. -/
theorem unread_of_headersBelow {cs : Capstone} {withAsmb : Bool} {bound : ℕ} {data : Bytes}
    (hb : HeadersBelow bound data) (hstubs : ∀ f ∈ ssvStubs data, bound ≤ f)
    (hgates : ∀ g ∈ ssvGates cs withAsmb data, bound ≤ g) {e : Bytes}
    (hlen : e.length = data.length)
    (hkept : ∀ i, ¬ SsvWritten cs withAsmb data i → e[i]? = data[i]?) :
    ssvAnchors e = ssvAnchors data := by
  have hagree : AgreeBelow bound data e := by
    refine ⟨hlen, fun i hi => hkept i ?_⟩
    rintro (⟨f, hf, hin⟩ | ⟨g, hg, hin⟩)
    · exact absurd hin.1 (Nat.not_le.mpr (hi.trans_le (hstubs f hf)))
    · exact absurd hin.1 (Nat.not_le.mpr (hi.trans_le (hgates g hg)))
  have hapfs : ∀ needle ∈ apfsNeedles, kextAnchor e apfsKext needle =
      kextAnchor data apfsKext needle := fun needle _ =>
    kextAnchor_congr hb hagree List.mem_cons_self needle
  have himage4 : asmbAnchor e = asmbAnchor data :=
    kextAnchor_congr hb hagree (by simp) asmbNeedle
  rw [ssvAnchors, ssvAnchors, List.map_congr_left hapfs, kernelAnchor_congr hb hagree, himage4]

/-! ## The patches as searches -/

theorem anchored_ok {r : Except PyError (Option (Segment × ℕ))} {a : Option (Segment × ℕ)}
    (h : r = .ok a) : anchored r = a := by
  rw [h]
  cases a <;> rfl

theorem patchApfsFuncReturn_eq {data : Bytes} {needle : String} {a : Option (Segment × ℕ)}
    (h : kextAnchor data apfsKext needle = .ok a) :
    patchApfsFuncReturn data needle =
      match entryOf data a with
      | none => .ok (data, false)
      | some f => stubFunction data f := by
  rw [patchApfsFuncReturn, h, ok_bind]
  cases a with
  | none => rfl
  | some a =>
    dsimp only
    rw [findAdrpAddXref_firstMatch, ok_bind, entryOf, pairOf, Option.bind_some]
    cases hx : firstMatch data a.1 a.2 with
    | none => rfl
    | some x =>
      dsimp only
      rw [(pairAt_of_firstMatch hx).walk, ok_bind, Option.bind_some]
      cases nearestEntry data x <;> rfl

theorem patchBsdInitRootauth_eq {cs : Capstone} {data : Bytes} {a : Option (Segment × ℕ)}
    (h : kernelAnchor data = .ok a) :
    patchBsdInitRootauth cs data = nopFirst (rootauthSearch cs data) data := by
  rw [patchBsdInitRootauth, rootauthSearch, anchored_ok h, h, ok_bind]
  cases a with
  | none => rfl
  | some a =>
    dsimp only
    rw [findAdrpAddXref_firstMatch, ok_bind]
    cases firstMatch data a.1 a.2 with
    | none => rfl
    | some x =>
      dsimp only
      rw [findBranchInto_eq]
      rfl

theorem patchImage4AsmbSetup_eq {cs : Capstone} {data : Bytes} {a : Option (Segment × ℕ)}
    (h : asmbAnchor data = .ok a) :
    patchImage4AsmbSetup cs data = nopFirst (asmbSearch cs data) data := by
  have h' : kextAnchor data image4Kext asmbNeedle = .ok a := h
  rw [patchImage4AsmbSetup, asmbSearch, anchored_ok h, h', ok_bind]
  cases a with
  | none => rfl
  | some a =>
    dsimp only
    rw [findAdrpAddXref_firstMatch, ok_bind, pairOf, Option.bind_some]
    cases firstMatch data a.1 a.2 with
    | none => rfl
    | some x =>
      dsimp only
      rw [findAsmbGate_eq]
      rfl

/-! ## Sites on the original image -/

theorem Site.retarget {data : Bytes} {exec exec' : Segment} {x f : ℕ} (h : Site data exec x f)
    (ha : exec.fileoff % 4 = exec'.fileoff % 4) : Site data exec' x f :=
  ⟨⟨h.adrp, h.add, h.fits, h.aligned.trans ha⟩, h.entry⟩

theorem mem_ssvStubs {data : Bytes} {f : ℕ} (h : f ∈ ssvStubs data) :
    ∃ needle ∈ apfsNeedles, entryOf data (apfsAnchor data needle) = some f := by
  rcases List.mem_append.mp h with hseal | hmount
  · exact ⟨sealNeedle, sealNeedle_mem, Option.mem_toList.mp hseal⟩
  · rcases Option.or_eq_some_iff.mp (Option.mem_toList.mp hmount) with hios | ⟨-, hany⟩
    · exact ⟨rootHashIosNeedle, rootHashIosNeedle_mem, hios⟩
    · exact ⟨rootHashNeedle, rootHashNeedle_mem, hany⟩

section Settled
variable {cs : Capstone} {withAsmb : Bool} {data : Bytes} (hS : SsvSettles cs withAsmb data)
include hS

theorem SsvSettles.apfs_aligned {needle : String} (hn : needle ∈ apfsNeedles) :
    ∀ a ∈ apfsAnchor data needle, a.1.fileoff % 4 = 0 :=
  hS.aligned _ (List.mem_append_left _ (List.mem_map_of_mem hn))

theorem SsvSettles.stubSize_eq {f : ℕ} (hf : f ∈ ssvStubs data) : stubSize data f = 12 :=
  stubSize_pac (hS.pac f hf).1

/-- The stubbed functions are sites, wherever the aligned code that is searched starts. -/
theorem SsvSettles.foundOn {funcs : List ℕ} (hsub : funcs ⊆ ssvStubs data) {exec : Segment}
    (he : exec.fileoff % 4 = 0) : FoundOn data exec funcs := fun f hf => by
  obtain ⟨needle, hn, hentry⟩ := mem_ssvStubs (hsub hf)
  obtain ⟨x, hx, hnear⟩ := Option.bind_eq_some_iff.mp hentry
  obtain ⟨a, ha, hmatch⟩ := Option.bind_eq_some_iff.mp hx
  have hsite : Site data a.1 x f := ⟨pairAt_of_firstMatch hmatch, hnear⟩
  exact ⟨x, hsite.retarget ((hS.apfs_aligned hn a ha).trans he.symm)⟩

/-- No stub disturbs a search for a function to stub. -/
theorem SsvSettles.clearOf {funcs : List ℕ} (hsub : funcs ⊆ ssvStubs data) {needle : String}
    (hn : needle ∈ apfsNeedles) : ∀ x ∈ pairOf data (apfsAnchor data needle),
      ∀ f ∈ funcs, ClearOf data f x (nearestEntry data x) := fun x hx f hf => by
  have hsize := hS.stubSize_eq (hsub hf)
  obtain ⟨hpac, hpro⟩ := hS.pac f (hsub hf)
  rw [ClearOf, hsize]
  exact ⟨fun hentry => ⟨hpac, hS.behind needle hn x hx f hentry (hsub hf), hpro⟩,
    fun _ _ => hpro⟩

end Settled

/-! ## Images in the middle of a run -/

/-- `e` is `data` with stubs over `funcs` (this is `mid`) and then NOP over `gates`. -/
structure SsvEdited (cs : Capstone) (withAsmb : Bool) (data mid e : Bytes)
    (funcs gates : List ℕ) : Prop where
  stubs : PatchedExactly data mid funcs
  nops : Nopped mid e gates
  funcs_sub : funcs ⊆ ssvStubs data
  gates_sub : gates ⊆ ssvGates cs withAsmb data

section Edited
variable {cs : Capstone} {withAsmb : Bool} {data mid e : Bytes} {funcs gates : List ℕ}
  (hS : SsvSettles cs withAsmb data) (hE : SsvEdited cs withAsmb data mid e funcs gates)
include hS hE

theorem SsvEdited.anchors_eq : ssvAnchors e = ssvAnchors data := by
  refine hS.unread e (hE.nops.length_eq.trans hE.stubs.length_eq) fun i hi => ?_
  rw [SsvWritten, not_or] at hi
  have hgates : ∀ g ∈ gates, i < g ∨ g + 4 ≤ i := fun g hg => by
    by_contra hin
    exact hi.2 ⟨g, hE.gates_sub hg, by omega⟩
  rw [hE.nops.frame i hgates]
  exact hE.stubs.frame i fun f hf hin => hi.1 ⟨f, hE.funcs_sub hf, hin⟩

theorem SsvEdited.kextAnchor_eq {needle : String} (hn : needle ∈ apfsNeedles) :
    kextAnchor e apfsKext needle = kextAnchor data apfsKext needle := by
  have hall := List.append_inj_left (hE.anchors_eq hS) (by simp)
  exact List.map_inj_left.mp hall needle hn

theorem SsvEdited.kernelAnchor_eq : kernelAnchor e = kernelAnchor data := by
  have hall := List.append_inj_right (hE.anchors_eq hS) (by simp)
  exact (List.cons.inj hall).1

theorem SsvEdited.asmbAnchor_eq : asmbAnchor e = asmbAnchor data := by
  have hall := List.append_inj_right (hE.anchors_eq hS) (by simp)
  exact (List.cons.inj (List.cons.inj hall).2).1

theorem SsvEdited.branchesKept : BranchesKept data e := by
  have he : (⟨0, 0, 0, 0⟩ : Segment).fileoff % 4 = 0 := rfl
  exact (hE.stubs.branchesKept (hS.foundOn hE.funcs_sub he) he).trans hE.nops.branchesKept

/-- Pairs off the stubs are found where they were. -/
theorem SsvEdited.firstMatch_eq {exec : Segment} (he : exec.fileoff % 4 = 0) {strVa : ℕ}
    (hapart : ∀ x ∈ firstMatch data exec strVa, ∀ f ∈ funcs,
      x + 8 ≤ f ∨ f + stubSize data f ≤ x) :
    firstMatch e exec strVa = firstMatch data exec strVa := by
  have hfound := hS.foundOn hE.funcs_sub he
  rw [hE.nops.firstMatch_eq he]
  cases hx : firstMatch data exec strVa with
  | none => exact firstMatch_none hE.stubs hfound hx
  | some x => exact firstMatch_some hE.stubs hfound hx (hapart x hx)

/-- The search for a function to stub ends where it ends on the original. -/
theorem SsvEdited.entryOf_eq {needle : String} (hn : needle ∈ apfsNeedles) :
    entryOf e (apfsAnchor data needle) = entryOf data (apfsAnchor data needle) := by
  cases ha : apfsAnchor data needle with
  | none => simp only [entryOf, pairOf, Option.bind_none]
  | some a =>
    have he := hS.apfs_aligned hn a ha
    have hclear : ∀ x ∈ firstMatch data a.1 a.2, ∀ f ∈ funcs,
        ClearOf data f x (nearestEntry data x) := fun x hx =>
      hS.clearOf hE.funcs_sub hn x (by rwa [ha, pairOf, Option.bind_some])
    have hfound := hS.foundOn hE.funcs_sub he
    have hmatch : firstMatch e a.1 a.2 = firstMatch data a.1 a.2 := by
      refine hE.firstMatch_eq hS he fun x hx => ?_
      have hpair := pairAt_of_firstMatch hx
      have hof := hclear x hx
      cases hnear : nearestEntry data x with
      | none => exact pair_clear_of_none hfound hpair hnear
      | some g =>
        rw [hnear] at hof
        exact pair_clear_of_site hfound ⟨hpair, hnear⟩ hof
    rw [entryOf, pairOf, Option.bind_some, hmatch, entryOf, pairOf, Option.bind_some]
    cases hx : firstMatch data a.1 a.2 with
    | none => simp only [Option.bind_none]
    | some x =>
      have hpair := pairAt_of_firstMatch hx
      have hof := hclear x hx
      have hxa : x % 4 = 0 := hpair.aligned.trans he
      rw [Option.bind_some, Option.bind_some, hE.nops.nearestEntry_eq hxa]
      cases hnear : nearestEntry data x with
      | none =>
        rw [hnear] at hof
        exact nearestEntry_none hE.stubs hfound hpair hnear hof
      | some g =>
        rw [hnear] at hof
        exact nearestEntry_some hE.stubs hfound ⟨hpair, hnear⟩ hof

end Edited

end SecureWorld.Patcher
