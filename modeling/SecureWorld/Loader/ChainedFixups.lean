import SecureWorld.Foundations.Memory

/-! # CL4's chained fixups (`apply_cl4_fixups`, `hw/arm/xnuboot_sptm.c`)

The loader walks the dyld starts-in-image table of the CL4 Mach-O in host memory and rewrites the
chained pointers of `__DATA` in guest memory. The walk of one chain is a `for (;;)` loop; it takes
fuel here and yields `none` when the fuel runs out. `writes` is a history variable: the guest
stores made, in order, each with the word it replaced. `macho_find_sect` belongs to the base tree
and is a parameter.
-/
namespace SecureWorld.Loader
open Foundations
set_option autoImplicit false

/-- A file loaded in host memory, by offset. -/
abbrev HostBytes := ℕ → UInt8

def HostBytes.read (p : HostBytes) (off n : ℕ) : ℕ :=
  leNat ((List.range n).map fun k => p (off + k))

theorem HostBytes.read_lt (p : HostBytes) (off n : ℕ) : p.read off n < 256 ^ n := by
  have h := leNat_lt ((List.range n).map fun k => p (off + k))
  rwa [List.length_map, List.length_range] at h

structure Section where
  offset : ℕ
  size : ℕ

/-! ## The starts-in-image table -/

structure StartsInSegment where
  pageSize : ℕ
  segOff : ℕ
  pageCount : ℕ
  pageStart : ℕ → ℕ
  pageSize_lt : pageSize < 2 ^ 16
  pageCount_lt : pageCount < 2 ^ 16

def readSegment (macho : HostBytes) (seg : ℕ) : StartsInSegment where
  pageSize := macho.read (seg + 4) 2
  segOff := macho.read (seg + 8) 8
  pageCount := macho.read (seg + 20) 2
  pageStart := fun pi => macho.read (seg + 22 + 2 * pi) 2
  pageSize_lt := macho.read_lt (seg + 4) 2
  pageCount_lt := macho.read_lt (seg + 20) 2

structure StartsTable where
  segCount : ℕ
  /-- `none` where the segment offset is 0: the segment has no chains. -/
  seg : ℕ → Option StartsInSegment

def readStarts (macho : HostBytes) (si : ℕ) : StartsTable where
  segCount := macho.read si 4
  seg := fun sg =>
    let off := macho.read (si + 4 + 4 * sg) 4
    if off = 0 then none else some (readSegment macho (si + off))

/-- The table behind the section `cf`. -/
def chainStarts (macho : HostBytes) (cf : Section) : StartsTable :=
  readStarts macho (cf.offset + macho.read (cf.offset + 4) 4)

/-! ## One pointer -/

def dataSegOff : ℕ := 0x68c000

def targetOf (raw : BitVec 64) : BitVec 64 :=
  let auth := (raw >>> 63) &&& 1
  if auth ≠ 0 then raw &&& 0xffffffff else raw &&& 0x7ffffffffff

def nextOf (raw : BitVec 64) : BitVec 64 := (raw >>> 51) &&& 0x7ff

def rebase (rxPhys rwPhys lePhys target : BitVec 64) : BitVec 64 :=
  if target < 0x68c000 then rxPhys + target
  else if target < 0x6d4000 then rwPhys + (target - 0x68c000)
  else lePhys + (target - 0x6d4000)

structure FixupWrite where
  slot : BitVec 64
  raw : BitVec 64
  value : BitVec 64
deriving DecidableEq

structure FixupState where
  mem : Memory
  applied : BitVec 32
  writes : List FixupWrite

def FixupState.init (mem : Memory) : FixupState := ⟨mem, 0, []⟩

section Walk
variable (rxPhys rwPhys lePhys : BitVec 64)

/-- The slot at offset `off` of `__DATA` and the word in it. -/
def slotAt (off : ℕ) : BitVec 64 := rwPhys + BitVec.ofNat 64 off

def rawAt (mem : Memory) (slot : BitVec 64) : BitVec 64 := BitVec.ofNat 64 (mem.load slot 8)

def fixSlot (s : FixupState) (slot : BitVec 64) : FixupState :=
  let raw := rawAt s.mem slot
  let nv := rebase rxPhys rwPhys lePhys (targetOf raw)
  { mem := s.mem.store slot 8 nv.toNat
    applied := s.applied + 1
    writes := s.writes ++ [⟨slot, raw, nv⟩] }

def walkChain : ℕ → FixupState → BitVec 64 → Option FixupState
  | 0, _, _ => none
  | fuel + 1, s, off =>
      let slot := rwPhys + off
      let next := nextOf (rawAt s.mem slot)
      let s' := fixSlot rxPhys rwPhys lePhys s slot
      if next = 0 then some s' else walkChain fuel s' (off + next * 8)

def fixPage (fuel : ℕ) (seg : StartsInSegment) (s : FixupState) (pi : ℕ) : Option FixupState :=
  if seg.pageStart pi = 0xFFFF then some s
  else
    walkChain rxPhys rwPhys lePhys fuel s (BitVec.ofNat 64 (pi * seg.pageSize + seg.pageStart pi))

def fixSegment (fuel : ℕ) (table : StartsTable) (s : FixupState) (sg : ℕ) : Option FixupState :=
  match table.seg sg with
  | none => some s
  | some seg =>
      -- only the __DATA segment carries our chains
      if seg.segOff ≠ dataSegOff then some s
      else (List.range seg.pageCount).foldlM (fixPage rxPhys rwPhys lePhys fuel seg) s

def applyCl4Fixups (machoFindSect : HostBytes → String → String → Option Section) (fuel : ℕ)
    (macho : HostBytes) (mem : Memory) : Option FixupState :=
  match machoFindSect macho "__TEXT" "__chain_fixups" with
  | none => some (.init mem)
  | some cf =>
      if cf.size = 0 then some (.init mem)
      else
        let table := chainStarts macho cf
        (List.range table.segCount).foldlM (fixSegment rxPhys rwPhys lePhys fuel table) (.init mem)

end Walk

end SecureWorld.Loader
