import Mathlib.Order.Bounds.Basic
import SecureWorld.Kernelcache.FixupLayout

/-! # What `chained.py` reads of the kernelcache

The script, and that it takes load commands, chain starts, links and targets for what the layout
says they are.
-/
namespace SecureWorld.Kernelcache
open Foundations Patcher
set_option autoImplicit false

/-! ## The script -/

/-- The segments, and the offset of the last `LC_DYLD_CHAINED_FIXUPS` data. -/
def commandsFrom (D : Bytes) : ℕ → ℕ → Option ℕ → Except KcError (List KcSegment × Option ℕ)
  | 0, _, cf => .ok ([], cf)
  | n + 1, off, cf => do
      let cmd ← readField D off 4
      let cs ← readField D (off + 4) 4
      if cmd = 0x19 then
        let s ← readSegment D off
        let (segs, cf) ← commandsFrom D n (off + cs) cf
        return (s :: segs, cf)
      else if cmd = 0x80000034 then
        let dataoff ← readField D (off + 8) 4
        let _datasize ← readField D (off + 12) 4
        commandsFrom D n (off + cs) (some dataoff)
      else commandsFrom D n (off + cs) cf

/-- The chain starts of the segment whose table is at `p`. -/
def segmentStarts (D : Bytes) (p : ℕ) : Except KcError (List ℕ) := do
  let _size ← readField D p 4
  let pageSize ← readField D (p + 4) 2
  let _pointerFormat ← readField D (p + 6) 2
  let segoff ← readField D (p + 8) 8
  let _maxValidPointer ← readField D (p + 16) 4
  let pageCount ← readField D (p + 20) 2
  let pageStart ← (List.range pageCount).mapM fun k => readField D (p + 22 + 2 * k) 2
  return pageStart.zipIdx.filterMap fun (start, pi) =>
    if start = 0xFFFF then none else some (segoff + pi * pageSize + start)

def chainStarts (D : Bytes) (so : ℕ) : Except KcError (List ℕ) := do
  let segCount ← readField D so 4
  let offs ← (List.range segCount).mapM fun k => readField D (so + 4 + 4 * k) 4
  let starts ← (offs.filter (· ≠ 0)).mapM fun o => segmentStarts D (so + o)
  return starts.flatten

def rawAt (D : Bytes) (cur : ℕ) : ℕ := field D cur 8

def nextOf (raw : ℕ) : ℕ := (raw >>> 51) &&& 0xFFF

/-- The slots from `cur` on. A pass goes on by four bytes or more, so one for each byte of the file
is enough. -/
def chainSlots (D : Bytes) : ℕ → ℕ → Except KcError (List ℕ)
  | 0, _ => .error .struct
  | n + 1, cur => do
      let raw ← readField D cur 8
      let nxt := nextOf raw
      if nxt = 0 then return [cur]
      let rest ← chainSlots D n (cur + nxt * 4)
      return cur :: rest

/-- `min(vm for … in SEGS)` -/
def imageBase : List KcSegment → Except KcError ℕ
  | [] => .error .empty
  | s :: segs => .ok (segs.foldl (fun m t => min m t.vm) s.vm)

structure FixupTables where
  segs : List KcSegment
  imgBase : ℕ
  starts : List ℕ
deriving DecidableEq

def readTables (D : Bytes) : Except KcError FixupTables := do
  let ncmds ← readField D 16 4
  let (segs, cf) ← commandsFrom D ncmds 32 none
  let imgBase ← imageBase segs
  let some base := cf | throw .none
  let starts ← chainStarts D (base + 0x1c)
  return ⟨segs, imgBase, starts⟩

def targetOf (t : FixupTables) (raw : ℕ) : ℕ := t.imgBase + (raw &&& 0x3FFFFFFF)

/-- A printed line. -/
structure FixupLine where
  v : ℕ
  fo : ℕ
  raw : ℕ
  isauth : ℕ
  seg : List Char
deriving DecidableEq

/-- The line for the slot at `cur`; an address that is `None` cannot be formatted. -/
def fixupLine (D : Bytes) (segs : List KcSegment) (cur : ℕ) : Except KcError FixupLine :=
  match f2v segs cur with
  | some v => .ok ⟨v, cur, rawAt D cur, (rawAt D cur >>> 63) &&& 1, segname segs v⟩
  | none => .error .none

/-- The number of fixups and the lines. -/
def chainedReport (D : Bytes) (target : ℤ) : Except KcError (ℕ × List FixupLine) := do
  let t ← readTables D
  let chains ← t.starts.mapM fun start => chainSlots D (D.length + 1) start
  let found := chains.flatten.filter fun cur => (targetOf t (rawAt D cur) : ℤ) = target
  let lines ← found.mapM (fixupLine D t.segs)
  return (chains.flatten.length, lines)

/-! ## The script reads the layout -/

section Pointers
variable (D : Bytes) (off : ℕ)

theorem link_nextOf : Link D off (nextOf (rawAt D off)) :=
  bitField_shift_and fun i hi => field_testBit D off (by omega)

theorem pointsTo_rawAt : PointsTo D off (rawAt D off &&& 0x3FFFFFFF) :=
  bitField_shift_and (x := rawAt D off) fun i hi => field_testBit D off (by omega)

theorem isSigned_rawAt : IsSigned D off ((rawAt D off >>> 63) &&& 1) :=
  bitField_shift_and fun i hi => field_testBit D off (by omega)

variable {D off}

theorem link_iff {n : ℕ} : Link D off n ↔ nextOf (rawAt D off) = n :=
  ⟨fun h => (link_nextOf D off).unique h, fun h => h ▸ link_nextOf D off⟩

end Pointers

theorem segmentStarts_reads {D : Bytes} {p : ℕ} {starts : List ℕ}
    (h : segmentStarts D p = .ok starts) :
    ∃ seg, SegmentLaidOut (HoldsField D) p seg ∧ starts = startsIn seg := by
  rw [segmentStarts] at h
  obtain ⟨_, -, h⟩ := bind_eq_ok_iff.mp h
  obtain ⟨pageSize, hsize, h⟩ := bind_eq_ok_iff.mp h
  obtain ⟨_, -, h⟩ := bind_eq_ok_iff.mp h
  obtain ⟨segoff, hsegoff, h⟩ := bind_eq_ok_iff.mp h
  obtain ⟨_, -, h⟩ := bind_eq_ok_iff.mp h
  obtain ⟨pageCount, hcount, h⟩ := bind_eq_ok_iff.mp h
  obtain ⟨pageStart, hpages, h⟩ := bind_eq_ok_iff.mp h
  have hread := forall₂_of_mapM_ok hpages
  have hlen : pageStart.length = pageCount := by rw [← hread.length_eq, List.length_range]
  have hpage (pi s : ℕ) (hs : pageStart[pi]? = some s) : HoldsField D (p + 22 + 2 * pi) 2 s := by
    have hrel := forall₂_getElem? hread pi
    rw [hs, List.getElem?_range (hlen ▸ (List.getElem?_eq_some_iff.mp hs).1)] at hrel
    cases hrel with
    | some hok => exact (readField_eq_ok_iff (by decide)).mp hok
  refine ⟨⟨pageSize, segoff, pageStart.map fun s => if s = 0xFFFF then none else some s⟩,
    ⟨(readField_eq_ok_iff (by decide)).mp hsize, (readField_eq_ok_iff (by decide)).mp hsegoff,
      ?_, fun pi start hstart => ?_, fun hmem => ?_⟩, ?_⟩
  · rw [List.length_map, hlen]
    exact (readField_eq_ok_iff (by decide)).mp hcount
  · rw [List.getElem?_map, Option.map_eq_some_iff] at hstart
    obtain ⟨s, hs, rfl⟩ := hstart
    have hheld := hpage pi s hs
    split_ifs with hnone
    · exact hnone ▸ hheld
    · exact hheld
  · obtain ⟨s, -, hs⟩ := List.mem_map.mp hmem
    split_ifs at hs with hnone
    exact hnone (Option.some.inj hs)
  · obtain rfl := Except.ok.inj h
    rw [startsIn, List.zipIdx_map, List.filterMap_map]
    refine List.filterMap_congr fun entry _ => ?_
    obtain ⟨s, pi⟩ := entry
    simp only [Function.comp, Prod.map]
    split_ifs <;> rfl

/-- The tables of the segments that have one. -/
theorem startsOfSegments_reads {D : Bytes} {so : ℕ} : ∀ {offs : List ℕ} {starts : List (List ℕ)},
    (offs.filter (· ≠ 0)).mapM (fun o => segmentStarts D (so + o)) = .ok starts →
      ∃ table, List.Forall₂ (fun o entry => (o = 0 ∧ entry = none) ∨
          (o ≠ 0 ∧ ∃ seg, entry = some seg ∧ SegmentLaidOut (HoldsField D) (so + o) seg))
        offs table ∧ starts.flatten = tableStarts table
  | [], starts, h => by
      obtain rfl := Except.ok.inj h
      exact ⟨[], .nil, rfl⟩
  | o :: offs, starts, h => by
      by_cases ho : o = 0
      · rw [List.filter_cons_of_neg (by simpa using ho)] at h
        obtain ⟨table, htable, heq⟩ := startsOfSegments_reads h
        exact ⟨none :: table, .cons (.inl ⟨ho, rfl⟩) htable, heq⟩
      · rw [List.filter_cons_of_pos (by simpa using ho), List.mapM_cons] at h
        obtain ⟨here, hhere, h⟩ := bind_eq_ok_iff.mp h
        obtain ⟨rest, hrest, h⟩ := bind_eq_ok_iff.mp h
        obtain rfl := Except.ok.inj h
        obtain ⟨seg, hseg, rfl⟩ := segmentStarts_reads hhere
        obtain ⟨table, htable, heq⟩ := startsOfSegments_reads hrest
        refine ⟨some seg :: table, .cons (.inr ⟨ho, seg, rfl, hseg⟩) htable, ?_⟩
        rw [List.flatten_cons, heq]
        rfl

theorem chainStarts_reads {D : Bytes} {so : ℕ} {starts : List ℕ}
    (h : chainStarts D so = .ok starts) :
    ∃ table, StartsLaidOut (HoldsField D) so table ∧ starts = tableStarts table := by
  rw [chainStarts] at h
  obtain ⟨segCount, hcount, h⟩ := bind_eq_ok_iff.mp h
  obtain ⟨offs, hoffs, h⟩ := bind_eq_ok_iff.mp h
  obtain ⟨segStarts, hstarts, h⟩ := bind_eq_ok_iff.mp h
  obtain rfl := Except.ok.inj h
  obtain ⟨table, htable, heq⟩ := startsOfSegments_reads hstarts
  have hread := forall₂_of_mapM_ok hoffs
  have hlen : table.length = segCount := by
    rw [← htable.length_eq, ← hread.length_eq, List.length_range]
  -- the offset of entry `sg`, and what the table has there
  have hentry (sg : ℕ) (entry : Option DyldSegment) (he : table[sg]? = some entry) :
      ∃ o, HoldsField D (so + 4 + 4 * sg) 4 o ∧ ((o = 0 ∧ entry = none) ∨
        (o ≠ 0 ∧ ∃ seg, entry = some seg ∧ SegmentLaidOut (HoldsField D) (so + o) seg)) := by
    have hlt : sg < segCount := hlen ▸ (List.getElem?_eq_some_iff.mp he).1
    have hrel := forall₂_getElem? htable sg
    have hrel' := forall₂_getElem? hread sg
    rw [he] at hrel
    rw [List.getElem?_range hlt] at hrel'
    cases ho : offs[sg]? with
    | none =>
      rw [ho] at hrel
      cases hrel
    | some o =>
      rw [ho] at hrel hrel'
      cases hrel with
      | some hlaid =>
        cases hrel' with
        | some hok => exact ⟨o, (readField_eq_ok_iff (by decide)).mp hok, hlaid⟩
  refine ⟨table, ⟨hlen ▸ (readField_eq_ok_iff (by decide)).mp hcount, fun sg hsg => ?_,
    fun sg seg hsg => ?_⟩, heq⟩
  · obtain ⟨o, hheld, ⟨rfl, -⟩ | ⟨-, seg, hsome, -⟩⟩ := hentry sg none hsg
    · exact hheld
    · exact absurd hsome (Option.some_ne_none seg).symm
  · obtain ⟨o, hheld, ⟨-, hnone⟩ | ⟨ho, seg', hsome, hlaid⟩⟩ := hentry sg (some seg) hsg
    · exact absurd hnone (Option.some_ne_none seg)
    · obtain rfl := Option.some.inj hsome
      exact ⟨o, ho, hheld, hlaid⟩

/-- Reading `n` commands behind `off` turns `cf` into `cf'`: the last fixups command wins. -/
def FixupsRead (D : Bytes) (n off : ℕ) (cf cf' : Option ℕ) : Prop :=
  (cf' = cf ∧ ∀ j < n, ∀ off', CommandAt D off j off' → ¬ IsFixupsCommand D off') ∨
    ∃ fx, cf' = some fx ∧ LastFixups D off n fx

theorem fixupsRead_cons {D : Bytes} {n off size : ℕ} {cf cf₁ cf' : Option ℕ}
    (hsize : HoldsField D (off + 4) 4 size)
    (hhere : (cf₁ = cf ∧ ¬ IsFixupsCommand D off) ∨
      ∃ fx, cf₁ = some fx ∧ IsFixupsCommand D off ∧ HoldsField D (off + 8) 4 fx)
    (h : FixupsRead D n (off + size) cf₁ cf') : FixupsRead D (n + 1) off cf cf' := by
  have hbehind (j off' : ℕ) (hat : CommandAt D off (j + 1) off') :
      CommandAt D (off + size) j off' := by
    cases hat with
    | behind hsize' hat => exact hsize.unique hsize' ▸ hat
  rcases h with ⟨rfl, hnone⟩ | ⟨fx, rfl, i, hi, o, hat, hcommand, hfx, hlater⟩
  · rcases hhere with ⟨rfl, hno⟩ | ⟨fx, rfl, hcommand, hfx⟩
    · refine .inl ⟨rfl, fun j hj off' hat => ?_⟩
      cases j with
      | zero =>
        cases hat
        exact hno
      | succ j => exact hnone j (by omega) off' (hbehind j off' hat)
    · refine .inr ⟨fx, rfl, 0, Nat.succ_pos n, off, .first, hcommand, hfx,
        fun j hj hpos off' hat => ?_⟩
      cases j with
      | zero => exact absurd hpos (Nat.lt_irrefl 0)
      | succ j => exact hnone j (by omega) off' (hbehind j off' hat)
  · refine .inr ⟨fx, rfl, i + 1, by omega, o, .behind hsize hat, hcommand, hfx,
      fun j hj hij off' hat' => ?_⟩
    cases j with
    | zero => exact absurd hij (Nat.not_lt_zero _)
    | succ j => exact hlater j (by omega) (by omega) off' (hbehind j off' hat')

theorem commandsFrom_reads {D : Bytes} : ∀ {n off : ℕ} {cf cf' : Option ℕ} {segs : List KcSegment},
    commandsFrom D n off cf = .ok (segs, cf') → FixupsRead D n off cf cf'
  | 0, off, cf, cf', segs, h => by
      obtain rfl := congrArg Prod.snd (Except.ok.inj h)
      exact .inl ⟨rfl, fun j hj => absurd hj (Nat.not_lt_zero j)⟩
  | n + 1, off, cf, cf', segs, h => by
      rw [commandsFrom] at h
      obtain ⟨cmd, hcmd, h⟩ := bind_eq_ok_iff.mp h
      obtain ⟨size, hsize, h⟩ := bind_eq_ok_iff.mp h
      have hcmd := (readField_eq_ok_iff (by decide)).mp hcmd
      have hsize := (readField_eq_ok_iff (by decide)).mp hsize
      have hother (hne : cmd ≠ 0x80000034) : ¬ IsFixupsCommand D off :=
        fun hcommand => hne (hcmd.unique hcommand)
      split_ifs at h with hsegment hfixups
      · obtain ⟨s, -, h⟩ := bind_eq_ok_iff.mp h
        obtain ⟨⟨rest, cf₁⟩, hrest, h⟩ := bind_eq_ok_iff.mp h
        obtain rfl := congrArg Prod.snd (Except.ok.inj h)
        exact fixupsRead_cons hsize (.inl ⟨rfl, hother (hsegment ▸ by decide)⟩)
          (commandsFrom_reads hrest)
      · obtain ⟨fx, hfx, h⟩ := bind_eq_ok_iff.mp h
        obtain ⟨_, -, h⟩ := bind_eq_ok_iff.mp h
        rw [hfixups] at hcmd
        exact fixupsRead_cons hsize
          (.inr ⟨fx, rfl, hcmd, (readField_eq_ok_iff (by decide)).mp hfx⟩) (commandsFrom_reads h)
      · exact fixupsRead_cons hsize (.inl ⟨rfl, hother hfixups⟩) (commandsFrom_reads h)

theorem foldl_min_spec (segs : List KcSegment) (m : ℕ) :
    segs.foldl (fun m t => min m t.vm) m ≤ m ∧
      (∀ t ∈ segs, segs.foldl (fun m t => min m t.vm) m ≤ t.vm) ∧
      (segs.foldl (fun m t => min m t.vm) m = m ∨
        ∃ t ∈ segs, t.vm = segs.foldl (fun m t => min m t.vm) m) := by
  induction segs generalizing m with
  | nil => exact ⟨le_rfl, List.forall_mem_nil _, .inl rfl⟩
  | cons s segs ih =>
    obtain ⟨hle, hall, hattained⟩ := ih (min m s.vm)
    rw [List.foldl_cons]
    refine ⟨hle.trans (min_le_left _ _),
      List.forall_mem_cons.mpr ⟨hle.trans (min_le_right _ _), hall⟩, ?_⟩
    rcases hattained with heq | ⟨t, ht, hvm⟩
    · rcases min_choice m s.vm with hm | hs
      · exact .inl (heq.trans hm)
      · exact .inr ⟨s, List.mem_cons_self, (heq.trans hs).symm⟩
    · exact .inr ⟨t, List.mem_cons_of_mem s ht, hvm⟩

theorem imageBase_isLeast {segs : List KcSegment} {base : ℕ} (h : imageBase segs = .ok base) :
    IsLeast {vm | ∃ s ∈ segs, s.vm = vm} base := by
  cases segs with
  | nil => cases h
  | cons s segs =>
    obtain rfl := Except.ok.inj h
    obtain ⟨hle, hall, hattained⟩ := foldl_min_spec segs s.vm
    constructor
    · rcases hattained with heq | ⟨t, ht, hvm⟩
      · exact ⟨s, List.mem_cons_self, heq.symm⟩
      · exact ⟨t, List.mem_cons_of_mem s ht, hvm⟩
    · rintro _ ⟨t, ht, rfl⟩
      rcases List.mem_cons.mp ht with rfl | ht
      · exact hle
      · exact hall t ht

/-- What the script takes from the file: the least address of a segment, and the chain starts of the
table that starts 28 bytes into the data of the last fixups command. -/
structure TablesRead (D : Bytes) (t : FixupTables) : Prop where
  base : IsLeast {vm | ∃ s ∈ t.segs, s.vm = vm} t.imgBase
  starts : ∃ ncmds fx table, HoldsField D 16 4 ncmds ∧ LastFixups D 32 ncmds fx ∧
    StartsLaidOut (HoldsField D) (fx + 0x1c) table ∧ t.starts = tableStarts table

theorem readTables_reads {D : Bytes} {t : FixupTables} (h : readTables D = .ok t) :
    TablesRead D t := by
  rw [readTables] at h
  obtain ⟨ncmds, hncmds, h⟩ := bind_eq_ok_iff.mp h
  obtain ⟨⟨segs, cf⟩, hcommands, h⟩ := bind_eq_ok_iff.mp h
  obtain ⟨imgBase, hbase, h⟩ := bind_eq_ok_iff.mp h
  cases cf with
  | none => cases h
  | some fx =>
    obtain ⟨starts, hstarts, h⟩ := bind_eq_ok_iff.mp h
    obtain rfl := Except.ok.inj h
    obtain ⟨table, htable, heq⟩ := chainStarts_reads hstarts
    rcases commandsFrom_reads hcommands with ⟨hnone, -⟩ | ⟨fx', hfx, hlast⟩
    · exact absurd hnone (Option.some_ne_none fx)
    · obtain rfl := Option.some.inj hfx
      exact ⟨imageBase_isLeast hbase, ncmds, fx, table,
        (readField_eq_ok_iff (by decide)).mp hncmds, hlast, htable, heq⟩

end SecureWorld.Kernelcache
