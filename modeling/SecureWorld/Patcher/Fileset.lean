import SecureWorld.Foundations.Utf8
import SecureWorld.Patcher.PyBytes

/-! # Kexts and segments of a fileset kernelcache

`_parse_fileset_entry`, `_parse_kext_segments` and `_find_string_in_section` of
`darwinvm_patch_img4_magazine.py`. A field outside the data raises `struct.error`, a segment name
that is no text raises `UnicodeDecodeError`.
-/
namespace SecureWorld.Patcher
open Foundations
set_option autoImplicit false

/-- The ASCII strings of the scripts, as bytes. -/
def asciiBytes (s : String) : Bytes := encodeUtf8 s.toList

/-- `b.split(b"\0")[0]` -/
def untilNul (b : Bytes) : Bytes := b.takeWhile (· ≠ 0)

def mhMagic64 : BitVec 32 := 0xFEEDFACF

def mhFileset : BitVec 32 := 12

def lcSegment64 : BitVec 32 := 0x19

def lcFilesetEntry : BitVec 32 := 0x80000035

/-- One pass per load command from `off` on. -/
def filesetEntryFrom (data : Bytes) (name : String) : ℕ → ℕ → Except PyError (Option (ℕ × ℕ))
  | 0, _ => .ok none
  | n + 1, off =>
      if data.length < off + 8 then .ok none
      else do
        let cmd ← unpackI data off
        let cmdsize ← unpackI data (off + 4)
        if cmd = lcFilesetEntry then
          let vmaddr ← unpackQ data (off + 8)
          let fileoff ← unpackQ data (off + 16)
          let entryIdOff ← unpackI data (off + 24)
          let entryId := decodeUtf8Replace
            (untilNul (slice data (off + entryIdOff.toNat) (off + cmdsize.toNat)))
          if entryId = name.toList then return some (fileoff, vmaddr)
        filesetEntryFrom data name n (off + cmdsize.toNat)

/-- The file offset and address of the kext `name`. -/
def parseFilesetEntry (data : Bytes) (name : String) : Except PyError (Option (ℕ × ℕ)) := do
  let magic ← unpackI data 0
  if magic ≠ mhMagic64 then return none
  let filetype ← unpackI data 12
  if filetype ≠ mhFileset then return none
  let ncmds ← unpackI data 16
  filesetEntryFrom data name ncmds.toNat 32

structure Segment where
  vmaddr : ℕ
  vmsize : ℕ
  fileoff : ℕ
  filesize : ℕ
deriving DecidableEq

/-- The dictionary of segments, latest first: a name defined twice has its latest value. -/
abbrev Segments := List (List Char × Segment)

def Segments.get (segs : Segments) (name : String) : Option Segment := segs.lookup name.toList

def kextSegmentsFrom (kext : Bytes) : ℕ → ℕ → Segments → Except PyError Segments
  | 0, _, segs => .ok segs
  | n + 1, off, segs =>
      if kext.length < off + 8 then .ok segs
      else do
        let cmd ← unpackI kext off
        let cmdsize ← unpackI kext (off + 4)
        if cmd = lcSegment64 then
          let some segname := decodeUtf8 (untilNul (slice kext (off + 8) (off + 24)))
            | throw .unicode
          let vmaddr ← unpackQ kext (off + 24)
          let vmsize ← unpackQ kext (off + 32)
          let fileoff ← unpackQ kext (off + 40)
          let filesize ← unpackQ kext (off + 48)
          kextSegmentsFrom kext n (off + cmdsize.toNat)
            ((segname, ⟨vmaddr, vmsize, fileoff, filesize⟩) :: segs)
        else kextSegmentsFrom kext n (off + cmdsize.toNat) segs

def parseKextSegments (data : Bytes) (kextFileoff : ℕ) : Except PyError Segments := do
  let kext := data.drop kextFileoff
  let magic ← unpackI kext 0
  if magic ≠ mhMagic64 then return []
  let ncmds ← unpackI kext 16
  kextSegmentsFrom kext ncmds.toNat 32 []

/-! ## Strings -/

/-- `region.find(needle)` -/
def findSub (region needle : Bytes) : Option ℕ :=
  (List.range (region.length + 1)).find? fun i => needle.isPrefixOf (region.drop i)

/-- From a match back to the byte after the previous NUL. -/
def cstringStart (region : Bytes) : ℕ → ℕ
  | 0 => 0
  | start + 1 => if region.getD start 0 ≠ 0 then cstringStart region start else start + 1

def findStringInSection (data : Bytes) (sectionFileoff sectionSize : ℕ) (needle : Bytes) :
    Option ℕ :=
  let region := slice data sectionFileoff (sectionFileoff + sectionSize)
  (findSub region needle).map fun idx => sectionFileoff + cstringStart region idx

end SecureWorld.Patcher
