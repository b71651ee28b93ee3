import SecureWorld.Foundations.DyldStarts
import SecureWorld.Loader.Traversal

/-! # The dyld layout of CL4's chains

The starts table and the chained pointers as dyld lays them out, byte by byte and bit by bit, with
no use of the loader's decode; and that the loader reads them so, visits every slot of `__DATA`
once, and leaves in it what the slot asks for.
-/
namespace SecureWorld.Loader
open Foundations
set_option autoImplicit false

/-! ## The starts table in the file -/

/-- The `n` bytes of the file from `off` on are the digits of `v`, the lowest first. -/
structure Field (macho : HostBytes) (off n v : ℕ) : Prop where
  lt : v < 256 ^ n
  digit : ∀ k < n, (macho (off + k)).toNat = v / 256 ^ k % 256

/-- `dyld_chained_fixups_header` at `fx`, and the starts table it refers to. -/
structure FixupsLaidOut (macho : HostBytes) (fx startsOffset : ℕ)
    (table : List (Option DyldSegment)) : Prop where
  header : Field macho (fx + 4) 4 startsOffset
  starts : StartsLaidOut (Field macho) (fx + startsOffset) table

/-! ## The chained pointers in memory -/

/-- Bit `i` of the word at `a`. -/
def wordBit (mem : Memory) (a : BitVec 64) (i : ℕ) : Bool :=
  (mem (a + BitVec.ofNat 64 (i / 8))).toBitVec.getLsbD (i % 8)

/-- Bits 51 to 61 count the words to the next slot. -/
def Link (mem : Memory) (a : BitVec 64) (n : ℕ) : Prop := BitField (wordBit mem a) 51 11 n

/-- The image offset a slot asks for: 32 bits of a signed pointer (bit 63), 43 of another. -/
def AsksFor (mem : Memory) (a : BitVec 64) (t : ℕ) : Prop :=
  BitField (wordBit mem a) 0 (if wordBit mem a 63 then 32 else 43) t

section Slots
variable (rwPhys : BitVec 64) (mem : Memory)

/-- Page `pi` of `seg` has a chain, and the slot at `off` is on it. -/
def OnDyldPage (seg : DyldSegment) (pi off : ℕ) : Prop :=
  ∃ start, seg.pageStarts[pi]? = some (some start) ∧
    OnDyldChain (fun o n => Link mem (slotAt rwPhys o) n) 8 (pi * seg.pageSize + start) off

/-- Entry `sg` is that of `__DATA`. -/
def IsDataEntry (table : List (Option DyldSegment)) (sg : ℕ) (seg : DyldSegment) : Prop :=
  table[sg]? = some (some seg) ∧ seg.segmentOffset = 0x68c000

def IsDyldSlot (table : List (Option DyldSegment)) (off : ℕ) : Prop :=
  ∃ sg seg, IsDataEntry table sg seg ∧ ∃ pi, OnDyldPage rwPhys mem seg pi off

/-- Segments of an image start at different offsets, and each chain stays inside its page. -/
structure DyldWellFormed (table : List (Option DyldSegment)) : Prop where
  data_unique : ∀ {sg sg' seg seg'}, IsDataEntry table sg seg → IsDataEntry table sg' seg' →
    sg = sg'
  in_page : ∀ {sg seg}, IsDataEntry table sg seg → ∀ pi off, OnDyldPage rwPhys mem seg pi off →
    off + 8 ≤ (pi + 1) * seg.pageSize

end Slots

/-! ## The loader reads the table -/

theorem Field.read {macho : HostBytes} {off n v : ℕ} (h : Field macho off n v) :
    macho.read off n = v := by
  have hlen : ((List.range n).map fun k => macho (off + k)).length = n := by
    rw [List.length_map, List.length_range]
  refine leNat_eq_of_digits (hlen.symm ▸ h.lt) fun k b hb => ?_
  have hk : k < n := hlen ▸ (List.getElem?_eq_some_iff.mp hb).1
  rw [List.getElem?_map, List.getElem?_range hk, Option.map_some] at hb
  rw [← Option.some.inj hb]
  exact h.digit k hk

/-- What the loader reads of a segment. -/
structure Reads (s : StartsInSegment) (seg : DyldSegment) : Prop where
  pageSize : s.pageSize = seg.pageSize
  segOff : s.segOff = seg.segmentOffset
  pageCount : s.pageCount = seg.pageStarts.length
  pageStart : ∀ pi (start : Option ℕ), seg.pageStarts[pi]? = some start →
    s.pageStart pi = start.getD 0xFFFF
  start_ne : some 0xFFFF ∉ seg.pageStarts

theorem readSegment_reads {macho : HostBytes} {off : ℕ} {seg : DyldSegment}
    (h : SegmentLaidOut (Field macho) off seg) : Reads (readSegment macho off) seg where
  pageSize := h.pageSize.read
  segOff := h.segmentOffset.read
  pageCount := h.pageCount.read
  pageStart pi start hstart := (h.pageStart pi start hstart).read
  start_ne := h.start_ne

section Table
variable {macho : HostBytes} {cf : Section} {startsOffset : ℕ} {table : List (Option DyldSegment)}
  (h : FixupsLaidOut macho cf.offset startsOffset table)
include h

theorem FixupsLaidOut.chainStarts_eq :
    chainStarts macho cf = readStarts macho (cf.offset + startsOffset) := by
  rw [chainStarts, h.header.read]

theorem FixupsLaidOut.isData_of_entry {sg : ℕ} {seg : DyldSegment} (hd : IsDataEntry table sg seg) :
    ∃ s, (chainStarts macho cf).IsData sg s ∧ Reads s seg := by
  obtain ⟨off, hoff, hfield, hseg⟩ := h.starts.present sg seg hd.1
  have hreads := readSegment_reads hseg
  refine ⟨_, ⟨?_, ?_, hreads.segOff.trans hd.2⟩, hreads⟩
  · rw [h.chainStarts_eq, readStarts, h.starts.segCount.read]
    exact (List.getElem?_eq_some_iff.mp hd.1).1
  · rw [h.chainStarts_eq, readStarts]
    simp only [hfield.read, if_neg hoff]

theorem FixupsLaidOut.entry_of_isData {sg : ℕ} {s : StartsInSegment}
    (hd : (chainStarts macho cf).IsData sg s) :
    ∃ seg, IsDataEntry table sg seg ∧ Reads s seg := by
  rw [h.chainStarts_eq] at hd
  obtain ⟨hlt, hentry, hdata⟩ := hd
  have hcount : sg < table.length := h.starts.segCount.read ▸ hlt
  cases hsg : table[sg]? with
  | none => exact absurd (List.getElem?_eq_none_iff.mp hsg) (Nat.not_le.mpr hcount)
  | some entry =>
    cases entry with
    | none =>
      -- its offset is 0, and the loader passes it over
      simp only [readStarts, (h.starts.absent sg hsg).read, if_true] at hentry
      exact absurd hentry (Option.some_ne_none s).symm
    | some seg =>
      obtain ⟨off, hoff, hfield, hseg⟩ := h.starts.present sg seg hsg
      simp only [readStarts, hfield.read, if_neg hoff, Option.some.injEq] at hentry
      subst hentry
      have hreads := readSegment_reads hseg
      exact ⟨seg, ⟨hsg, hreads.segOff.symm.trans hdata⟩, hreads⟩

end Table

/-! ## The loader reads the links and targets -/

theorem rawAt_testBit (mem : Memory) (a : BitVec 64) {i : ℕ} (hi : i < 64) :
    (rawAt mem a).toNat.testBit i = wordBit mem a i := by
  have hbyte : ((List.range 8).map fun k => mem (a + BitVec.ofNat 64 k))[i / 8]? =
      some (mem (a + BitVec.ofNat 64 (i / 8))) := by
    rw [List.getElem?_map, List.getElem?_range (by omega), Option.map_some]
  have hbit := leNat_testBit hbyte (Nat.mod_lt i (by decide))
  rw [Nat.div_add_mod] at hbit
  rw [rawAt, BitVec.testBit_toNat, BitVec.getLsbD_ofNat, decide_eq_true hi, Bool.true_and]
  exact hbit

theorem link_nextOf (mem : Memory) (a : BitVec 64) :
    Link mem a (nextOf (rawAt mem a)).toNat := by
  have hread : (nextOf (rawAt mem a)).toNat = ((rawAt mem a).toNat >>> 51) &&& (2 ^ 11 - 1) := by
    rw [nextOf, BitVec.toNat_and, BitVec.toNat_ushiftRight]
    rfl
  rw [Link, hread]
  exact bitField_shift_and fun i hi => rawAt_testBit mem a (by omega)

theorem link_iff {mem : Memory} {a : BitVec 64} {n : ℕ} :
    Link mem a n ↔ (nextOf (rawAt mem a)).toNat = n :=
  ⟨fun h => (link_nextOf mem a).unique h, fun h => h ▸ link_nextOf mem a⟩

theorem authBit_iff (raw : BitVec 64) : (raw >>> 63) &&& 1 ≠ 0 ↔ raw.getLsbD 63 = true := by
  have hraw := raw.isLt
  have hone : (raw >>> 63) &&& (1 : BitVec 64) = raw >>> 63 := by
    apply BitVec.eq_of_toNat_eq
    rw [BitVec.toNat_and, BitVec.toNat_ushiftRight, Nat.shiftRight_eq_div_pow]
    exact Nat.and_two_pow_sub_one_of_lt_two_pow (n := 1) (by omega)
  rw [hone, ← BitVec.testBit_toNat, Nat.testBit_eq_decide_div_mod_eq, decide_eq_true_iff, ne_eq,
    ← BitVec.toNat_inj, BitVec.toNat_ushiftRight, Nat.shiftRight_eq_div_pow]
  change ¬ raw.toNat / 2 ^ 63 = 0 ↔ _
  omega

theorem asksFor_targetOf (mem : Memory) (a : BitVec 64) :
    AsksFor mem a (targetOf (rawAt mem a)).toNat := by
  have hauth : ((rawAt mem a) >>> 63) &&& 1 ≠ 0 ↔ wordBit mem a 63 = true := by
    rw [authBit_iff, ← BitVec.testBit_toNat, rawAt_testBit mem a (by decide)]
  have hmasked (width : ℕ) (hw : width ≤ 64) :
      BitField (wordBit mem a) 0 width ((rawAt mem a).toNat &&& (2 ^ width - 1)) := by
    have hbits : ∀ i < width, (rawAt mem a).toNat.testBit (0 + i) = wordBit mem a (0 + i) :=
      fun i hi => rawAt_testBit mem a (by omega)
    have hfield := bitField_shift_and hbits
    rwa [Nat.shiftRight_zero] at hfield
  rw [AsksFor, targetOf]
  by_cases h : wordBit mem a 63 = true
  · rw [if_pos (hauth.mpr h), if_pos h, BitVec.toNat_and]
    exact hmasked 32 (by decide)
  · rw [if_neg (mt hauth.mp h), if_neg h, BitVec.toNat_and]
    exact hmasked 43 (by decide)

theorem AsksFor.targetOf {mem : Memory} {a : BitVec 64} {t : ℕ} (h : AsksFor mem a t) :
    (targetOf (rawAt mem a)).toNat = t := (asksFor_targetOf mem a).unique h

/-! ## The loader's slots are those of the layout -/

section Walk
variable {rwPhys : BitVec 64} {mem : Memory}

theorem onDyldChain_iff_onChain {start off : ℕ} :
    OnDyldChain (fun o n => Link mem (slotAt rwPhys o) n) 8 start off ↔
      OnChain (strideAt rwPhys mem) start off :=
  onDyldChain_iff (fun o => (nextOf (rawAt mem (slotAt rwPhys o))).toNat) (by decide)
    fun _ _ => link_iff

theorem Reads.onPage_iff {s : StartsInSegment} {seg : DyldSegment} (h : Reads s seg) {pi off : ℕ} :
    pi < s.pageCount ∧ OnPage rwPhys mem s pi off ↔ OnDyldPage rwPhys mem seg pi off := by
  rw [OnPage, StartsInSegment.chainStart, h.pageSize, h.pageCount]
  constructor
  · rintro ⟨hpi, hsome, on⟩
    have hread := h.pageStart pi _ (List.getElem?_eq_getElem hpi)
    cases hstart : seg.pageStarts[pi] with
    | none =>
      rw [hstart] at hread
      exact absurd hread hsome
    | some start =>
      rw [hstart, Option.getD_some] at hread
      refine ⟨start, ?_, onDyldChain_iff_onChain.mpr (hread ▸ on)⟩
      rw [List.getElem?_eq_getElem hpi, hstart]
  · rintro ⟨start, hstart, on⟩
    have hread : s.pageStart pi = start := h.pageStart pi _ hstart
    rw [hread]
    refine ⟨(List.getElem?_eq_some_iff.mp hstart).1, fun hnone => h.start_ne ?_,
      onDyldChain_iff_onChain.mp on⟩
    exact hnone ▸ List.mem_of_getElem? hstart

variable {macho : HostBytes} {cf : Section} {startsOffset : ℕ} {table : List (Option DyldSegment)}
  (h : FixupsLaidOut macho cf.offset startsOffset table)
include h

theorem FixupsLaidOut.isSlot_iff {off : ℕ} :
    IsSlot rwPhys mem (chainStarts macho cf) off ↔ IsDyldSlot rwPhys mem table off := by
  constructor
  · rintro ⟨sg, s, hd, pi, hpi, on⟩
    obtain ⟨seg, hentry, hreads⟩ := h.entry_of_isData hd
    exact ⟨sg, seg, hentry, pi, hreads.onPage_iff.mp ⟨hpi, on⟩⟩
  · rintro ⟨sg, seg, hentry, pi, on⟩
    obtain ⟨s, hd, hreads⟩ := h.isData_of_entry hentry
    obtain ⟨hpi, on'⟩ := hreads.onPage_iff.mpr on
    exact ⟨sg, s, hd, pi, hpi, on'⟩

theorem FixupsLaidOut.wellFormed (wf : DyldWellFormed rwPhys mem table) :
    WellFormed rwPhys mem (chainStarts macho cf) where
  data_unique hd hd' := by
    obtain ⟨seg, hentry, -⟩ := h.entry_of_isData hd
    obtain ⟨seg', hentry', -⟩ := h.entry_of_isData hd'
    exact wf.data_unique hentry hentry'
  in_page hd pi hpi off on := by
    obtain ⟨seg, hentry, hreads⟩ := h.entry_of_isData hd
    rw [hreads.pageSize]
    exact wf.in_page hentry pi off (hreads.onPage_iff.mp ⟨hpi, on⟩)

/-- The walk ends; it stores to every slot on a chain of `__DATA` once, in ascending order, and each
slot ends up with the place of the image offset that its original word asks for. No other byte
changes, and `applied` counts the slots. -/
theorem every_slot_rewritten_once
    {machoFindSect : HostBytes → String → String → Option Section}
    (hcf : machoFindSect macho "__TEXT" "__chain_fixups" = some cf) (hsize : cf.size ≠ 0)
    (wf : DyldWellFormed rwPhys mem table) (rxPhys lePhys : BitVec 64) :
    ∃ offs : List ℕ, (∀ off, off ∈ offs ↔ IsDyldSlot rwPhys mem table off) ∧
      offs.Pairwise (fun a b => a + 8 ≤ b) ∧ (offs.map (slotAt rwPhys)).Nodup ∧
      ∃ s, (∀ fuel, chainFuel ≤ fuel →
          applyCl4Fixups rxPhys rwPhys lePhys machoFindSect fuel macho mem = some s) ∧
        s.writes.map FixupWrite.slot = offs.map (slotAt rwPhys) ∧
        (∀ off ∈ offs, ∃ t, AsksFor mem (slotAt rwPhys off) t ∧
          s.mem.load (slotAt rwPhys off) 8 =
            (rebase rxPhys rwPhys lePhys (BitVec.ofNat 64 t)).toNat) ∧
        (∀ a, (∀ off ∈ offs, ¬ Memory.Covers (slotAt rwPhys off) 8 a) → s.mem a = mem a) ∧
        s.applied.toNat = offs.length := by
  have hwf := h.wellFormed wf
  obtain ⟨offs, hoffs, hpair, s, hs, hrun⟩ :=
    applyCl4Fixups_rewrites hcf hsize hwf rxPhys lePhys
  have hlim : ∀ off ∈ offs, off + 8 ≤ offLimit := fun off ho =>
    ((hoffs off).mp ho).le_offLimit hwf
  have hcount : offs.length * 8 ≤ offLimit - 0 :=
    length_mul_le_of_pairwise hpair fun o ho => ⟨Nat.zero_le o, hlim o ho⟩
  refine ⟨offs, fun off => (hoffs off).trans h.isSlot_iff, hpair, slots_nodup hpair hlim, s, hrun,
    ?_, fun off ho => ⟨_, asksFor_targetOf mem (slotAt rwPhys off), ?_⟩, hs.frame, ?_⟩
  · rw [hs.writes, List.map_map]
    rfl
  · rw [hs.loads off ho, BitVec.ofNat_toNat, BitVec.setWidth_eq]
    rfl
  · rw [hs.applied, BitVec.toNat_ofNat]
    unfold offLimit at hcount
    exact Nat.mod_eq_of_lt (by omega)

end Walk

/-! ## The two-slot image -/

def twoSlotTable : List (Option DyldSegment) := [some ⟨0x4000, 0x68c000, [some 0]⟩]

theorem twoSlot_laidOut : FixupsLaidOut twoSlotMacho 0 8 twoSlotTable where
  header := ⟨by decide, by decide⟩
  starts :=
    { segCount := ⟨by decide, by decide⟩
      absent := fun sg hsg => by
        cases sg <;> simp [twoSlotTable] at hsg
      present := fun sg seg hsg => by
        obtain rfl : sg = 0 := by
          have hlt : sg < 1 := (List.getElem?_eq_some_iff.mp hsg).1
          omega
        obtain rfl : _ = seg := Option.some.inj (Option.some.inj hsg)
        refine ⟨8, by decide, ⟨by decide, by decide⟩, ⟨by decide, by decide⟩,
          ⟨by decide, by decide⟩, ⟨by decide, by decide⟩, fun pi start hstart => ?_, by decide⟩
        obtain rfl : pi = 0 := by
          have hlt : pi < 1 := (List.getElem?_eq_some_iff.mp hstart).1
          omega
        obtain rfl : some 0 = start := Option.some.inj hstart
        exact ⟨by decide, by decide⟩ }

theorem twoSlot_slot_iff (off : ℕ) :
    IsDyldSlot 0x10006F10000 (twoSlotMem 0x10006F10000) twoSlotTable off ↔ off ∈ [0, 8] := by
  constructor
  · rintro ⟨sg, seg, ⟨hsg, -⟩, pi, start, hstart, on⟩
    obtain rfl : sg = 0 := by
      have hlt : sg < 1 := (List.getElem?_eq_some_iff.mp hsg).1
      omega
    obtain rfl : _ = seg := Option.some.inj (Option.some.inj hsg)
    obtain rfl : pi = 0 := by
      have hlt : pi < 1 := (List.getElem?_eq_some_iff.mp hstart).1
      omega
    obtain rfl : 0 = start := Option.some.inj (Option.some.inj hstart)
    exact (twoSlot_chain.mem_iff off).mpr (onDyldChain_iff_onChain.mp on)
  · intro hoff
    exact ⟨0, _, ⟨rfl, rfl⟩, 0, 0, rfl,
      onDyldChain_iff_onChain.mpr ((twoSlot_chain.mem_iff off).mp hoff)⟩

theorem twoSlot_dyldWellFormed :
    DyldWellFormed 0x10006F10000 (twoSlotMem 0x10006F10000) twoSlotTable where
  data_unique {sg sg' _ _} hd hd' := by
    have hlt : sg < 1 := (List.getElem?_eq_some_iff.mp hd.1).1
    have hlt' : sg' < 1 := (List.getElem?_eq_some_iff.mp hd'.1).1
    omega
  in_page {sg seg} hd pi off on := by
    have hslot := (twoSlot_slot_iff off).mp ⟨sg, seg, hd, pi, on⟩
    obtain rfl : sg = 0 := by
      have hlt : sg < 1 := (List.getElem?_eq_some_iff.mp hd.1).1
      omega
    obtain rfl : _ = seg := Option.some.inj (Option.some.inj hd.1)
    change off + 8 ≤ (pi + 1) * 0x4000
    simp only [List.mem_cons, List.not_mem_nil, or_false] at hslot
    omega

/-- The slots at 0 and 8 are stored to, the first with a place in the tail, the second with one in
`__TEXT`. -/
theorem two_slots_rewritten :
    ∃ s, (∀ fuel, chainFuel ≤ fuel →
        applyCl4Fixups 0x10006884000 0x10006F10000 0x10006F98000 findTwoSlot fuel twoSlotMacho
          (twoSlotMem 0x10006F10000) = some s) ∧
      s.writes.map FixupWrite.slot = [0x10006F10000, 0x10006F10008] ∧
      s.mem.load 0x10006F10000 8 = 0x10006FC4000 ∧ s.mem.load 0x10006F10008 8 = 0x10006885000 ∧
      s.mem 0x10006F10010 = 0 ∧ s.applied.toNat = 2 := by
  have hlayout : FixupsLaidOut twoSlotMacho (Section.mk 0 64).offset 8 twoSlotTable :=
    twoSlot_laidOut
  have hcf : findTwoSlot twoSlotMacho "__TEXT" "__chain_fixups" = some ⟨0, 64⟩ := rfl
  obtain ⟨offs, hoffs, hpair, -, s, hrun, hwrites, hloads, hframe, hcount⟩ :=
    every_slot_rewritten_once hlayout hcf (by decide) twoSlot_dyldWellFormed 0x10006884000
      0x10006F98000
  have hlt : offs.Pairwise (· < ·) := hpair.imp fun h => by omega
  obtain rfl : offs = [0, 8] := by
    have hperm := (List.perm_ext_iff_of_nodup (hlt.imp Nat.ne_of_lt) (by decide)).mpr fun off =>
      (hoffs off).trans (twoSlot_slot_iff off)
    exact hperm.eq_of_pairwise (fun a b _ _ hab hba => absurd hab (Nat.lt_asymm hba)) hlt
      (by decide)
  obtain ⟨t, ht, hfirst⟩ := hloads 0 (by decide)
  obtain ⟨u, hu, hsecond⟩ := hloads 8 (by decide)
  obtain rfl : 0x700000 = t := ht.targetOf
  obtain rfl : 0x1000 = u := hu.targetOf
  refine ⟨s, hrun, hwrites, hfirst, hsecond, ?_, hcount⟩
  rw [hframe _ (by decide)]
  rfl

end SecureWorld.Loader
