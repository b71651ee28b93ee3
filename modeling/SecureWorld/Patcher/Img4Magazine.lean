import SecureWorld.Patcher.Fileset
import SecureWorld.Patcher.Prologue
import SecureWorld.Patcher.Xref

/-! # The AppleImage4 magazine patches and their verifier

`darwinvm_patch_img4_magazine.py` stubs seven functions, found by their error strings, one after
another in one buffer. `darwinvm_verify_anchors.py` reports where the same seven needles lead on the
untouched image. Printing and the disassembly in the report are left out.
-/
namespace SecureWorld.Patcher
open Foundations
set_option autoImplicit false

/-- `mov x0, #0` -/
def movX0Zero : BitVec 32 := 0xD2800000

/-- The needles and the names of the patches. -/
def patches : List (String × String) :=
  [("failed to read nonce slot data", "nonce_slot_read"),
    ("failed to entangle nonce", "nonce_entangle"),
    ("failed to get nonce:", "nonce_get"),
    ("demand magazine i/o failed", "magazine_io"),
    ("failed to set supervisor nonce", "nonce_set_supervisor"),
    ("failed to roll supervisor nonce", "nonce_roll_supervisor"),
    ("failed to write slot after rolling", "nonce_write_slot")]

def appleImage4 : String := "com.apple.security.AppleImage4"

/-! ## The patcher -/

/-- Overwrites a function to return 0 in its own convention, unless its entry is no prologue. -/
def stubFunction (data : Bytes) (funcFileoff : ℕ) : Except PyError (Bytes × Bool) := do
  let before ← unpackI data funcFileoff
  if ¬ isPrologueStart before then return (data, false)
  if before = pacibsp then
    let data ← packI data funcFileoff pacibsp
    let data ← packI data (funcFileoff + 4) movX0Zero
    let data ← packI data (funcFileoff + 8) retab
    return (data, true)
  else
    let data ← packI data funcFileoff movX0Zero
    let data ← packI data (funcFileoff + 4) ret
    return (data, true)

def patchByString (data : Bytes) (kextSegs : Segments) (needleStr : String) :
    Except PyError (Bytes × Bool) := do
  let some textSeg := kextSegs.get "__TEXT" | return (data, false)
  let some execSeg := kextSegs.get "__TEXT_EXEC" | return (data, false)
  let needle := asciiBytes needleStr
  let some strFoff := findStringInSection data textSeg.fileoff textSeg.filesize needle
    | return (data, false)
  let strVa := textSeg.vmaddr + (strFoff - textSeg.fileoff)
  let some xrefFoff ← findAdrpAddXref data execSeg.vmaddr execSeg.fileoff execSeg.filesize strVa
    | return (data, false)
  let some funcFoff ← walkBackToPrologue data xrefFoff | return (data, false)
  stubFunction data funcFoff

/-- The loop over the patches: the buffer and the number of patches applied. -/
def applyPatch (segs : Segments) (state : Bytes × ℕ) (patch : String × String) :
    Except PyError (Bytes × ℕ) := do
  let (data, applied) := state
  let (data, ok) ← patchByString data segs patch.1
  return (data, if ok then applied + 1 else applied)

/-- The file's content after the script. -/
def patchImg4MagazineBypass (data : Bytes) : Except PyError Bytes := do
  let some (kextFileoff, _) ← parseFilesetEntry data appleImage4 | return data
  let segs ← parseKextSegments data kextFileoff
  let (out, applied) ← patches.foldlM (applyPatch segs) (data, 0)
  return if applied > 0 then out else data

/-! ## The verifier -/

/-- What the report on one needle says. -/
structure AnchorReport where
  kext : String
  needle : String
  ok : Bool
  error : Option String
  strVa : Option ℕ
  xrefVa : Option ℕ
  xrefFoff : Option ℕ
  funcVa : Option ℤ
  funcFoff : Option ℕ
  prologue : Option (BitVec 32)
deriving DecidableEq

def AnchorReport.start (kext needle : String) : AnchorReport :=
  ⟨kext, needle, false, none, none, none, none, none, none, none⟩

/-- With `want_prologue`, as for the seven needles. -/
def resolveKextStringFunc (data : Bytes) (kextName needle : String) :
    Except PyError AnchorReport := do
  let r := AnchorReport.start kextName needle
  let some (kextFileoff, _) ← parseFilesetEntry data kextName
    | return { r with error := some (kextName ++ " not found") }
  let segs ← parseKextSegments data kextFileoff
  let some text := segs.get "__TEXT" | return { r with error := some "missing __TEXT/__TEXT_EXEC" }
  let some exc := segs.get "__TEXT_EXEC"
    | return { r with error := some "missing __TEXT/__TEXT_EXEC" }
  let some strFoff := findStringInSection data text.fileoff text.filesize (asciiBytes needle)
    | return { r with error := some "string not found" }
  let strVa := text.vmaddr + (strFoff - text.fileoff)
  let r := { r with strVa := some strVa }
  let some xref ← findAdrpAddXref data exc.vmaddr exc.fileoff exc.filesize strVa
    | return { r with error := some "no ADRP+ADD xref" }
  let r := { r with xrefVa := some (exc.vmaddr + (xref - exc.fileoff)), xrefFoff := some xref }
  let some func ← walkBackToPrologue data xref | return { r with error := some "no prologue" }
  let first ← unpackI data func
  return { r with
    funcVa := some ((exc.vmaddr : ℤ) + (func - exc.fileoff)), funcFoff := some func,
    prologue := some first, ok := true }

/-- The reports on the seven needles. -/
def verifyImg4 (data : Bytes) : Except PyError (List AnchorReport) :=
  patches.mapM fun p => resolveKextStringFunc data appleImage4 p.1

end SecureWorld.Patcher
