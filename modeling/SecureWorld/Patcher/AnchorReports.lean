import SecureWorld.Patcher.SsvDryRun

/-! # All reports of the verifier (`darwinvm_verify_anchors.py`)

Besides the seven needles of AppleImage4 the verifier looks for the two gates and the two functions
of the root-volume patches. Its searches are its own for the gate of Image4 and for the order of the
two root-hash needles.
-/
namespace SecureWorld.Patcher
open Foundations Armv8
set_option autoImplicit false

/-! ## The script -/

structure GateReport where
  kext : String
  needle : String
  ok : Bool
  error : Option String
  strVa : Option ℕ
  xrefVa : Option ℕ
  xrefFoff : Option ℕ
  gateVa : Option ℤ
  gateFoff : Option ℤ
deriving DecidableEq

def GateReport.start (kext needle : String) : GateReport :=
  ⟨kext, needle, false, none, none, none, none, none, none⟩

/-- The nearest preceding conditional branch, or -1. -/
def conditionalGate (cs : Capstone) (data : Bytes) (xref : ℕ) : ℤ :=
  ((List.range' 1 12).findSome? fun back : ℕ =>
    let foff : ℤ := xref - (back : ℤ) * 4
    if (wordOffset data foff).any fun o => (cs.branchTarget (wordAt data o) 0).isSome then some foff
    else none).getD (-1)

/-- `_resolve_kext_string_func` up to the string: `fail` is the report on an error, and `found` goes
on from the code of the kext and the address of the string. -/
def resolveKextString {ρ : Type} (data : Bytes) (kextName needle : String) (fail : String → ρ)
    (found : Segment → ℕ → Except PyError ρ) : Except PyError ρ := do
  let some (kextFileoff, _) ← parseFilesetEntry data kextName
    | return fail (kextName ++ " not found")
  let segs ← parseKextSegments data kextFileoff
  let some text := segs.get "__TEXT" | return fail "missing __TEXT/__TEXT_EXEC"
  let some exc := segs.get "__TEXT_EXEC" | return fail "missing __TEXT/__TEXT_EXEC"
  let some strFoff := findStringInSection data text.fileoff text.filesize (asciiBytes needle)
    | return fail "string not found"
  found exc (text.vmaddr + (strFoff - text.fileoff))

/-- With `want_prologue`. -/
def funcReport (data : Bytes) (r : AnchorReport) (exc : Segment) (strVa : ℕ) :
    Except PyError AnchorReport := do
  let r := { r with strVa := some strVa }
  let some xref ← findAdrpAddXref data exc.vmaddr exc.fileoff exc.filesize strVa
    | return { r with error := some "no ADRP+ADD xref" }
  let r := { r with xrefVa := some (exc.vmaddr + (xref - exc.fileoff)), xrefFoff := some xref }
  let some func ← walkBackToPrologue data xref | return { r with error := some "no prologue" }
  let first ← unpackI data func
  return { r with
    funcVa := some ((exc.vmaddr : ℤ) + (func - exc.fileoff)), funcFoff := some func,
    prologue := some first, ok := true }

theorem resolveKextStringFunc_eq (data : Bytes) (kextName needle : String) :
    resolveKextStringFunc data kextName needle =
      resolveKextString data kextName needle
        (fun e => { AnchorReport.start kextName needle with error := some e })
        (funcReport data (AnchorReport.start kextName needle)) := rfl

/-- With `want_prologue=False`. -/
def resolveKextStringGate (cs : Capstone) (data : Bytes) (kextName needle : String) :
    Except PyError GateReport :=
  let r := GateReport.start kextName needle
  resolveKextString data kextName needle (fun e => { r with error := some e }) fun exc strVa => do
    let r := { r with strVa := some strVa }
    let some xref ← findAdrpAddXref data exc.vmaddr exc.fileoff exc.filesize strVa
      | return { r with error := some "no ADRP+ADD xref" }
    let r := { r with xrefVa := some (exc.vmaddr + (xref - exc.fileoff)), xrefFoff := some xref }
    let gate := conditionalGate cs data xref
    if gate < 0 then return { r with error := some "no conditional gate near xref" }
    return { r with
      gateVa := some ((exc.vmaddr : ℤ) + (gate - exc.fileoff)), gateFoff := some gate, ok := true }

/-- The first of the two needles that resolves, or the report on the second. -/
def resolveRootHash (data : Bytes) : Except PyError AnchorReport := do
  let r ← resolveKextStringFunc data apfsKext rootHashIosNeedle
  if r.ok then return r
  resolveKextStringFunc data apfsKext rootHashNeedle

def resolveRootauth (cs : Capstone) (data : Bytes) : Except PyError GateReport := do
  let r := GateReport.start "kernel" panicNeedle
  let some strVa ← segContainingStr data panicNeedle
    | return { r with error := some "panic string not found" }
  let r := { r with strVa := some strVa }
  let ncmds ← unpackI data 16
  let some exc ← kernelExecFrom data ncmds.toNat 32
    | return { r with error := some "kernel __TEXT_EXEC not found" }
  let some xref ← findAdrpAddXref data exc.vmaddr exc.fileoff exc.filesize strVa
    | return { r with error := some "no xref to panic string" }
  let r := { r with xrefVa := some (exc.vmaddr + (xref - exc.fileoff)) }
  let some gate := findBranchInto cs data xref exc.vmaddr exc.fileoff
    | return { r with error := some "no gate branches into panic block" }
  return { r with gateVa := some ((exc.vmaddr : ℤ) + (gate - exc.fileoff)), ok := true }

structure AnchorReports where
  img4 : List AnchorReport
  asmb : GateReport
  sealIsBroken : AnchorReport
  rootHash : AnchorReport
  rootauth : GateReport

def AnchorReports.oks (v : AnchorReports) : List Bool :=
  v.img4.map (·.ok) ++ [v.asmb.ok, v.sealIsBroken.ok, v.rootHash.ok, v.rootauth.ok]

/-- `verify`, with what it returns. -/
def verifyAnchors (cs : Capstone) (data : Bytes) : Except PyError (AnchorReports × Bool) := do
  let img4 ← verifyImg4 data
  let asmb ← resolveKextStringGate cs data image4Kext asmbNeedle
  let sealIsBroken ← resolveKextStringFunc data apfsKext sealNeedle
  let rootHash ← resolveRootHash data
  let rootauth ← resolveRootauth cs data
  let v : AnchorReports := ⟨img4, asmb, sealIsBroken, rootHash, rootauth⟩
  return (v, (v.oks.filter id).length = v.oks.length)

/-! ## One report -/

/-- A report is an error without an anchor, and else goes on from the anchor. -/
theorem resolveKextString_ok {ρ : Type} {data : Bytes} {kext needle : String} {fail : String → ρ}
    {found : Segment → ℕ → Except PyError ρ} {r : ρ}
    (h : resolveKextString data kext needle fail found = .ok r) :
    (kextAnchor data kext needle = .ok none ∧ ∃ e, r = fail e) ∨
      ∃ exc strVa, kextAnchor data kext needle = .ok (some (exc, strVa)) ∧
        found exc strVa = .ok r := by
  rw [resolveKextString] at h
  obtain ⟨entry, hentry, h⟩ := bind_eq_ok_iff.mp h
  rw [kextAnchor, hentry, ok_bind]
  cases entry with
  | none => exact .inl ⟨rfl, _, (Except.ok.inj h).symm⟩
  | some entry =>
    obtain ⟨segs, hsegs, h⟩ := bind_eq_ok_iff.mp h
    dsimp only
    rw [hsegs, ok_bind]
    cases htext : segs.get "__TEXT" with
    | none =>
      rw [htext] at h
      exact .inl ⟨rfl, _, (Except.ok.inj h).symm⟩
    | some text =>
      rw [htext] at h
      dsimp only at h ⊢
      cases hexc : segs.get "__TEXT_EXEC" with
      | none =>
        rw [hexc] at h
        exact .inl ⟨rfl, _, (Except.ok.inj h).symm⟩
      | some exc =>
        rw [hexc] at h
        dsimp only at h ⊢
        cases hstr : findStringInSection data text.fileoff text.filesize (asciiBytes needle) with
        | none =>
          rw [hstr] at h
          exact .inl ⟨rfl, _, (Except.ok.inj h).symm⟩
        | some strFoff =>
          rw [hstr] at h
          exact .inr ⟨exc, _, rfl, h⟩

/-- The function reported is the one the dry run reports. -/
theorem func_reported {data : Bytes} {needle : String} {r : AnchorReport}
    (h : resolveKextStringFunc data apfsKext needle = .ok r) :
    dryApfsFuncReturn data needle = .ok r.funcFoff ∧ r.ok = r.funcFoff.isSome := by
  rw [resolveKextStringFunc_eq] at h
  rcases resolveKextString_ok h with ⟨hanchor, e, rfl⟩ | ⟨exc, strVa, hanchor, h⟩
  · exact ⟨dryApfsFuncReturn_eq hanchor, rfl⟩
  · rw [dryApfsFuncReturn, hanchor, ok_bind]
    rw [funcReport] at h
    dsimp only at h ⊢
    rw [findAdrpAddXref_firstMatch, ok_bind] at h ⊢
    cases hx : firstMatch data exc strVa with
    | none =>
      rw [hx] at h
      obtain rfl := Except.ok.inj h
      exact ⟨rfl, rfl⟩
    | some x =>
      rw [hx] at h
      dsimp only at h ⊢
      obtain ⟨func, hfunc, h⟩ := bind_eq_ok_iff.mp h
      rw [hfunc]
      cases func with
      | none =>
        obtain rfl := Except.ok.inj h
        exact ⟨rfl, rfl⟩
      | some f =>
        obtain ⟨first, -, h⟩ := bind_eq_ok_iff.mp h
        obtain rfl := Except.ok.inj h
        exact ⟨rfl, rfl⟩

/-- So is the predicate of the root hash. -/
theorem rootHash_reported {data : Bytes} {r : AnchorReport} (h : resolveRootHash data = .ok r) :
    dryApfsVfsopMountAuth data = .ok r.funcFoff ∧ r.ok = r.funcFoff.isSome := by
  obtain ⟨ios, hios, h⟩ := bind_eq_ok_iff.mp h
  obtain ⟨hdry, hok⟩ := func_reported hios
  rw [dryApfsVfsopMountAuth, hdry, ok_bind]
  cases hf : ios.funcFoff with
  | some f =>
    rw [hf] at hok
    rw [hok, if_pos (show (some f).isSome = true from rfl)] at h
    obtain rfl := Except.ok.inj h
    rw [hok, hf]
    exact ⟨rfl, rfl⟩
  | none =>
    rw [hf] at hok
    rw [hok, if_neg (show ¬ (none : Option ℕ).isSome = true by decide)] at h
    exact func_reported h

/-! ## The gates -/

/-- Whether a word is a conditional branch does not depend on its address. -/
def Capstone.Positionless (cs : Capstone) : Prop :=
  ∀ w va va', (cs.branchTarget w va).isSome = (cs.branchTarget w va').isSome

theorem a64Capstone_positionless : a64Capstone.Positionless := fun w va va' => by
  show (testBranchTarget w va).isSome = (testBranchTarget w va').isSome
  rw [testBranchTarget, testBranchTarget]
  split_ifs <;> rfl

/-- Far enough from the start of the file, the verifier's gate is the one the patch overwrites. -/
theorem conditionalGate_eq {cs : Capstone} (hcs : cs.Positionless) (data : Bytes) {x : ℕ}
    (hx : 48 ≤ x) :
    conditionalGate cs data x = ((findAsmbGate cs data x).map fun g : ℕ => (g : ℤ)).getD (-1) := by
  rw [conditionalGate, findAsmbGate, List.map_findSome?]
  refine congrArg (Option.getD · (-1)) (findSome?_congr fun back hback => ?_)
  have hle : back ≤ 12 := by
    have hmem := List.mem_range'_1.mp hback
    omega
  dsimp only [Function.comp_apply]
  rw [wordOffset, if_pos (show (0 : ℤ) ≤ x - back * 4 by omega)]
  split_ifs with hfits hbranch hbranch
  · rw [Option.any_some] at hbranch
    rw [Option.filter_some, hcs _ _ 0, if_pos hbranch, Option.map_some]
    exact congrArg some (Int.toNat_of_nonneg (by omega)).symm
  · rw [Option.any_some] at hbranch
    rw [Option.filter_some, hcs _ _ 0, if_neg hbranch, Option.map_none]
  · exact absurd hbranch (by simp)
  · rfl

/-- The address of an offset in the code of an anchor. -/
def anchorVa (a : Option (Segment × ℕ)) (g : ℕ) : ℤ :=
  a.elim 0 fun a => (a.1.vmaddr : ℤ) + (g - a.1.fileoff)

theorem asmb_gate_reported {cs : Capstone} (hcs : cs.Positionless) {data : Bytes} {r : GateReport}
    (h : resolveKextStringGate cs data image4Kext asmbNeedle = .ok r) :
    ∃ gate, dryImage4AsmbSetup cs data = .ok gate ∧
      ((∀ x ∈ pairOf data (anchored (asmbAnchor data)), 48 ≤ x) →
        r.gateFoff = gate.map (fun g : ℕ => (g : ℤ)) ∧ r.ok = gate.isSome) := by
  rw [resolveKextStringGate] at h
  rcases resolveKextString_ok h with ⟨hanchor, e, rfl⟩ | ⟨exc, strVa, hanchor, h⟩
  · refine ⟨none, ?_, fun _ => ⟨rfl, rfl⟩⟩
    rw [dryImage4AsmbSetup, hanchor]
    rfl
  · rw [dryImage4AsmbSetup, hanchor, ok_bind]
    dsimp only at h ⊢
    rw [findAdrpAddXref_firstMatch, ok_bind] at h ⊢
    cases hmatch : firstMatch data exc strVa with
    | none =>
      rw [hmatch] at h
      obtain rfl := Except.ok.inj h
      exact ⟨none, rfl, fun _ => ⟨rfl, rfl⟩⟩
    | some x =>
      refine ⟨findAsmbGate cs data x, rfl, fun hx => ?_⟩
      have hfar : 48 ≤ x := hx x (by rw [asmbAnchor, anchored_ok hanchor]; exact hmatch)
      rw [hmatch] at h
      dsimp only at h
      rw [conditionalGate_eq hcs data hfar] at h
      cases hg : findAsmbGate cs data x with
      | none =>
        rw [hg] at h
        obtain rfl := Except.ok.inj h
        exact ⟨rfl, rfl⟩
      | some g =>
        rw [hg, Option.map_some, Option.getD_some, if_neg (Int.not_lt.mpr (Int.natCast_nonneg g))]
          at h
        obtain rfl := Except.ok.inj h
        exact ⟨rfl, rfl⟩

theorem rootauth_gate_reported {cs : Capstone} {data : Bytes} {r : GateReport}
    (h : resolveRootauth cs data = .ok r) :
    ∃ gate, dryBsdInitRootauth cs data = .ok gate ∧
      r.gateVa = gate.map (anchorVa (anchored (kernelAnchor data))) ∧ r.ok = gate.isSome := by
  rw [resolveRootauth] at h
  obtain ⟨str, hstr, h⟩ := bind_eq_ok_iff.mp h
  rw [dryBsdInitRootauth, kernelAnchor, hstr, ok_bind]
  cases str with
  | none =>
    obtain rfl := Except.ok.inj h
    exact ⟨none, rfl, rfl, rfl⟩
  | some strVa =>
    dsimp only at h ⊢
    obtain ⟨ncmds, hncmds, h⟩ := bind_eq_ok_iff.mp h
    obtain ⟨exc, hexc, h⟩ := bind_eq_ok_iff.mp h
    rw [hncmds, ok_bind, hexc, ok_bind]
    cases exc with
    | none =>
      obtain rfl := Except.ok.inj h
      exact ⟨none, rfl, rfl, rfl⟩
    | some exc =>
      dsimp only at h ⊢
      obtain ⟨xref, hxref, h⟩ := bind_eq_ok_iff.mp h
      show ∃ gate, (findAdrpAddXref data exc.vmaddr exc.fileoff exc.filesize strVa >>= _) =
        .ok gate ∧ _
      rw [hxref, ok_bind]
      cases xref with
      | none =>
        obtain rfl := Except.ok.inj h
        exact ⟨none, rfl, rfl, rfl⟩
      | some x =>
        dsimp only at h ⊢
        refine ⟨findBranchInto cs data x exc.vmaddr exc.fileoff, rfl, ?_⟩
        cases hg : findBranchInto cs data x exc.vmaddr exc.fileoff with
        | none =>
          rw [hg] at h
          obtain rfl := Except.ok.inj h
          exact ⟨rfl, rfl⟩
        | some g =>
          rw [hg] at h
          obtain rfl := Except.ok.inj h
          exact ⟨rfl, rfl⟩

/-! ## The verifier against the dry run -/

/-- A verifier that does not raise has found what the dry run of the root-volume patches reports, the
gate of Image4 included unless its string is loaded in the first 48 bytes of the file; and it passes
exactly if every report is good. -/
theorem verify_agrees_with_dry_run (cs : Capstone) (hcs : cs.Positionless) (data : Bytes)
    (v : AnchorReports) (passed : Bool) (h : verifyAnchors cs data = .ok (v, passed)) :
    ∃ sites, drySsvBypass cs true data = .ok sites ∧
      v.sealIsBroken.funcFoff = sites.sealIsBroken ∧ v.rootHash.funcFoff = sites.mountAuth ∧
      v.rootauth.gateVa = sites.rootauth.map (anchorVa (anchored (kernelAnchor data))) ∧
      (passed = true ↔ (∀ r ∈ v.img4, r.ok = true) ∧ sites.sealIsBroken.isSome ∧
        sites.mountAuth.isSome ∧ sites.rootauth.isSome ∧ v.asmb.ok = true) ∧
      ((∀ x ∈ pairOf data (anchored (asmbAnchor data)), 48 ≤ x) →
        v.asmb.gateFoff = sites.asmb.map (fun g : ℕ => (g : ℤ)) ∧
          v.asmb.ok = sites.asmb.isSome) := by
  obtain ⟨img4, -, h⟩ := bind_eq_ok_iff.mp h
  obtain ⟨asmb, hasmb, h⟩ := bind_eq_ok_iff.mp h
  obtain ⟨sealIsBroken, hseal, h⟩ := bind_eq_ok_iff.mp h
  obtain ⟨rootHash, hroot, h⟩ := bind_eq_ok_iff.mp h
  obtain ⟨rootauth, hauth, h⟩ := bind_eq_ok_iff.mp h
  obtain ⟨rfl, hpassed⟩ := Prod.mk.inj (Except.ok.inj h)
  obtain ⟨hsealDry, hsealOk⟩ := func_reported hseal
  obtain ⟨hrootDry, hrootOk⟩ := rootHash_reported hroot
  obtain ⟨gate, hgateDry, hgate, hgateOk⟩ := rootauth_gate_reported hauth
  obtain ⟨asmbGate, hasmbDry, hasmbGate⟩ := asmb_gate_reported hcs hasmb
  refine ⟨⟨sealIsBroken.funcFoff, rootHash.funcFoff, gate, asmbGate⟩, ?_, rfl, rfl, hgate, ?_,
    hasmbGate⟩
  · rw [drySsvBypass, hsealDry, ok_bind, hrootDry, ok_bind, hgateDry, ok_bind, if_pos rfl,
      hasmbDry, ok_bind]
    rfl
  · rw [← hpassed, decide_eq_true_eq, List.length_filter_eq_length_iff, AnchorReports.oks,
      List.forall_mem_append, List.forall_mem_map]
    dsimp only [id_eq]
    rw [hsealOk, hrootOk, hgateOk]
    refine and_congr_right fun _ => ?_
    simp only [List.forall_mem_cons]
    tauto

/-- A fileset with Image4 at 96, its string at 272 and `cbz x0` in front of the pair at 308. -/
def asmbGateImage : Bytes :=
  le32 0xFEEDFACF ++ List.replicate 8 0 ++ le32 12 ++ le32 1 ++ List.replicate 12 0 ++
    (le32 0x80000035 ++ le32 64 ++ le64 0x1060 ++ le64 96 ++ le32 32 ++ le32 0 ++
      asciiBytes image4Kext ++ List.replicate 7 0) ++
    (le32 0xFEEDFACF ++ List.replicate 12 0 ++ le32 2 ++ List.replicate 12 0) ++
    segmentCommand "__TEXT" 272 36 ++ segmentCommand "__TEXT_EXEC" 308 16 ++
    asciiBytes asmbNeedle ++ [0, 0, 0] ++
    ([0xB4000040, 0x90000000, 0x91044000, ret] : List (BitVec 32)).flatMap fun w => le32 w.toNat

theorem verify_agrees_with_dry_run_gate :
    ∃ v passed, verifyAnchors a64Capstone asmbGateImage = .ok (v, passed) ∧
      v.asmb.gateFoff = some 308 ∧ ∃ sites, drySsvBypass a64Capstone true asmbGateImage = .ok sites ∧
        v.sealIsBroken.funcFoff = sites.sealIsBroken ∧ v.rootHash.funcFoff = sites.mountAuth ∧
        v.rootauth.gateVa =
          sites.rootauth.map (anchorVa (anchored (kernelAnchor asmbGateImage))) ∧
        (passed = true ↔ (∀ r ∈ v.img4, r.ok = true) ∧ sites.sealIsBroken.isSome ∧
          sites.mountAuth.isSome ∧ sites.rootauth.isSome ∧ v.asmb.ok = true) ∧
        v.asmb.gateFoff = sites.asmb.map (fun g : ℕ => (g : ℤ)) ∧
        v.asmb.ok = sites.asmb.isSome := by
  have hgate : (verifyAnchors a64Capstone asmbGateImage).map (fun r => r.1.asmb.gateFoff) =
      .ok (some 308) := by decide +kernel
  obtain ⟨⟨v, passed⟩, hv, hfoff⟩ := map_eq_ok_iff.mp hgate
  obtain ⟨sites, hdry, hseal, hroot, hauth, hpassed, hasmb⟩ := verify_agrees_with_dry_run
    a64Capstone a64Capstone_positionless asmbGateImage v passed hv
  exact ⟨v, passed, hv, hfoff, sites, hdry, hseal, hroot, hauth, hpassed,
    hasmb (by decide +kernel)⟩

end SecureWorld.Patcher
