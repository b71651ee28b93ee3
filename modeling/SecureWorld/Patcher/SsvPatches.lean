import SecureWorld.Patcher.Img4Magazine

/-! # The root-volume patches (`darwinvm_patch_ssv.py`)

Two predicates of the apfs kext are stubbed, then one conditional branch before the panic of
`bsd_init` and, on request, one before a log of the Image4 kext are overwritten with NOP. All
patches edit one buffer and each looks for its target in the buffer as it finds it. The
disassembler is not part of the repository and is a parameter. Printing and the dry run, which
writes nothing, are left out.
-/
namespace SecureWorld.Patcher
open Foundations
set_option autoImplicit false

/-- The disassembler's answer on the word at an address: the target, if it is cbz, cbnz, tbz or
tbnz. -/
structure Capstone where
  branchTarget : BitVec 32 → BitVec 64 → Option (BitVec 64)

def nop32 : BitVec 32 := 0xD503201F

def apfsKext : String := "com.apple.filesystems.apfs"

def image4Kext : String := "com.apple.security.Image4"

/-! ## Where the strings are -/

/-- The code segment of the kext and the address of the string around the needle. -/
def kextAnchor (data : Bytes) (kext needle : String) : Except PyError (Option (Segment × ℕ)) := do
  let some (kextFileoff, _) ← parseFilesetEntry data kext | return none
  let segs ← parseKextSegments data kextFileoff
  let some text := segs.get "__TEXT" | return none
  let some exc := segs.get "__TEXT_EXEC" | return none
  let some strFoff := findStringInSection data text.fileoff text.filesize (asciiBytes needle)
    | return none
  return some (exc, text.vmaddr + (strFoff - text.fileoff))

/-- The loop of `_seg_containing_str`: the address of the needle itself. -/
def segContainingStrFrom (data needle : Bytes) : ℕ → ℕ → Except PyError (Option ℕ)
  | 0, _ => .ok none
  | n + 1, off => do
      let cmd ← unpackI data off
      let cmdsize ← unpackI data (off + 4)
      if cmd = lcSegment64 then
        let segname := untilNul (slice data (off + 8) (off + 24))
        let vmaddr ← unpackQ data (off + 24)
        let _vmsize ← unpackQ data (off + 32)
        let fileoff ← unpackQ data (off + 40)
        let filesize ← unpackQ data (off + 48)
        if segname ∈ [asciiBytes "__TEXT", asciiBytes "__PRELINK_TEXT"] then
          if let some idx := findSub (slice data fileoff (fileoff + filesize)) needle then
            return some (vmaddr + idx)
      segContainingStrFrom data needle n (off + cmdsize.toNat)

def segContainingStr (data : Bytes) (needle : String) : Except PyError (Option ℕ) := do
  let ncmds ← unpackI data 16
  segContainingStrFrom data (asciiBytes needle) ncmds.toNat 32

/-- The search of `patch_bsd_init_rootauth` for the kernel's code; the size in memory is not
read. -/
def kernelExecFrom (data : Bytes) : ℕ → ℕ → Except PyError (Option Segment)
  | 0, _ => .ok none
  | n + 1, off => do
      let cmd ← unpackI data off
      let cmdsize ← unpackI data (off + 4)
      if cmd = lcSegment64 then
        let segname := untilNul (slice data (off + 8) (off + 24))
        if segname = asciiBytes "__TEXT_EXEC" then
          let ev ← unpackQ data (off + 24)
          let ef ← unpackQ data (off + 40)
          let efs ← unpackQ data (off + 48)
          return some ⟨ev, 0, ef, efs⟩
      kernelExecFrom data n (off + cmdsize.toNat)

def panicNeedle : String := "rootvp not authenticated after mounting"

def kernelAnchor (data : Bytes) : Except PyError (Option (Segment × ℕ)) := do
  let some strVa ← segContainingStr data panicNeedle | return none
  let ncmds ← unpackI data 16
  let some exc ← kernelExecFrom data ncmds.toNat 32 | return none
  return some (exc, strVa)

/-! ## Stubs -/

/-- `_patch_apfs_func_return`: stubs the function that loads the string. -/
def patchApfsFuncReturn (data : Bytes) (needle : String) : Except PyError (Bytes × Bool) := do
  let some (exc, strVa) ← kextAnchor data apfsKext needle | return (data, false)
  let some xref ← findAdrpAddXref data exc.vmaddr exc.fileoff exc.filesize strVa
    | return (data, false)
  let some func ← walkBackToPrologue data xref | return (data, false)
  stubFunction data func

def sealNeedle : String := "authapfs_seal_is_broken"

def rootHashIosNeedle : String := "is_root_hash_authentication_required_ios"

def rootHashNeedle : String := "is_root_hash_authentication_required"

def patchApfsSealIsBroken (data : Bytes) : Except PyError (Bytes × Bool) :=
  patchApfsFuncReturn data sealNeedle

/-- The iOS variant first, else the generic predicate. -/
def patchApfsVfsopMountAuth (data : Bytes) : Except PyError (Bytes × Bool) := do
  let (data, ok) ← patchApfsFuncReturn data rootHashIosNeedle
  if ok then return (data, true)
  patchApfsFuncReturn data rootHashNeedle

/-! ## Gates -/

/-- The word at `foff` branches into the block around the cross reference at `xrefVa`. -/
def branchesInto (cs : Capstone) (data : Bytes) (va xrefVa foff : ℕ) : Bool :=
  foff + 4 ≤ data.length &&
    match cs.branchTarget (wordAt data foff) (BitVec.ofNat 64 va) with
    | some target => (xrefVa : ℤ) - 0x80 ≤ target.toNat && target.toNat ≤ xrefVa + 4
    | none => false

/-- `range(1, window_back)` up to the start of the segment. -/
def windowBack (xrefFoff segFileoff : ℕ) : List ℕ :=
  (List.range' 1 1199).takeWhile fun back => segFileoff + back * 4 ≤ xrefFoff

def findBranchInto (cs : Capstone) (data : Bytes) (xrefFoff segVmaddr segFileoff : ℕ) :
    Option ℕ :=
  (windowBack xrefFoff segFileoff).findSome? fun back =>
    let foff := xrefFoff - back * 4
    if branchesInto cs data (segVmaddr + (foff - segFileoff))
        (segVmaddr + (xrefFoff - segFileoff)) foff then some foff
    else none

def patchBsdInitRootauth (cs : Capstone) (data : Bytes) : Except PyError (Bytes × Bool) := do
  let some (exc, strVa) ← kernelAnchor data | return (data, false)
  let some xref ← findAdrpAddXref data exc.vmaddr exc.fileoff exc.filesize strVa
    | return (data, false)
  let some gate := findBranchInto cs data xref exc.vmaddr exc.fileoff | return (data, false)
  let data ← packI data gate nop32
  return (data, true)

/-- Where `data[foff : foff + 4]` and `pack_into` at `foff` point: a negative offset counts from
the end. -/
def wordOffset (data : Bytes) (foff : ℤ) : Option ℕ :=
  if 0 ≤ foff then if foff + 4 ≤ data.length then some foff.toNat else none
  else if foff < -4 ∧ 0 ≤ data.length + foff then some (data.length + foff).toNat
  else none

def asmbNeedle : String := "unable to setup /chosen/asmb node"

/-- The nearest of the twelve words before the cross reference that is a conditional branch. -/
def findAsmbGate (cs : Capstone) (data : Bytes) (xref : ℕ) : Option ℕ :=
  (List.range' 1 12).findSome? fun back : ℕ =>
    let foff : ℤ := xref - (back : ℤ) * 4
    (wordOffset data foff).filter fun o =>
      (cs.branchTarget (wordAt data o) (BitVec.ofInt 64 foff)).isSome

def patchImage4AsmbSetup (cs : Capstone) (data : Bytes) : Except PyError (Bytes × Bool) := do
  let some (exc, strVa) ← kextAnchor data image4Kext asmbNeedle | return (data, false)
  let some xref ← findAdrpAddXref data exc.vmaddr exc.fileoff exc.filesize strVa
    | return (data, false)
  let some gate := findAsmbGate cs data xref | return (data, false)
  let data ← packI data gate nop32
  return (data, true)

/-! ## The script -/

def patchSsvBypass (cs : Capstone) (withAsmb : Bool) (data : Bytes) : Except PyError Bytes := do
  let (out, sealStub) ← patchApfsSealIsBroken data
  let (out, mountStub) ← patchApfsVfsopMountAuth out
  let (out, rootauthGate) ← patchBsdInitRootauth cs out
  let (out, asmbGate) ← if withAsmb then patchImage4AsmbSetup cs out else pure (out, false)
  return if sealStub || mountStub || rootauthGate || asmbGate then out else data

/-- The file after a run; a run that raises has written nothing. -/
def ssvImage (cs : Capstone) (withAsmb : Bool) (data : Bytes) : Bytes :=
  match patchSsvBypass cs withAsmb data with
  | .ok out => out
  | .error _ => data

end SecureWorld.Patcher
