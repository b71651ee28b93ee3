import SecureWorld.Foundations.LastWrite
import SecureWorld.Patcher.SsvHeaders
import Mathlib.Data.List.DropRight

/-! # Two readers of a fileset kernelcache

`_parse_fileset_entry` and `_parse_kext_segments` follow the stored offset of an entry's id and keep
the last segment of a name. `fileset_fileoff` and `text_exec` of the RTBuddy scripts take the id to be
right behind the fixed part of the command and return the first `__TEXT_EXEC`.
-/
namespace SecureWorld.Patcher
open Foundations
set_option autoImplicit false

/-! ## The RTBuddy scripts -/

/-- The loop over `macho_cmds`, with a body that may return. -/
def machoCmdsFrom {α : Type} (d : Bytes) (body : ℕ → BitVec 32 → Except PyError (Option α)) :
    ℕ → ℕ → Except PyError (Option α)
  | 0, _ => .ok none
  | n + 1, p => do
      let cmd ← unpackI d p
      let cs ← unpackI d (p + 4)
      if let some a ← body p cmd then return some a
      machoCmdsFrom d body n (p + cs.toNat)

def machoCmds {α : Type} (d : Bytes) (off : ℕ)
    (body : ℕ → BitVec 32 → Except PyError (Option α)) : Except PyError (Option α) := do
  let ncmds ← unpackI d (off + 16)
  machoCmdsFrom d body ncmds.toNat (off + 32)

/-- `d[p:d.find(b'\0', p)]`, where a search that finds nothing is -1. -/
def cstringAt (d : Bytes) (p : ℕ) : Bytes :=
  if 0 ∈ d.drop p then untilNul (d.drop p) else slice d p (d.length - 1)

def filesetFileoff (d name : Bytes) : Except PyError (Option ℕ) :=
  machoCmds d 0 fun p cmd =>
    if cmd = lcFilesetEntry then do
      let _ ← unpackQ d (p + 8)
      let fileoff ← unpackQ d (p + 16)
      return if cstringAt d (p + 32) = name then some fileoff else none
    else .ok none

/-- `segname.rstrip(b'\0')` -/
def rstripNul (b : Bytes) : Bytes := b.rdropWhile (· = 0)

/-- The first segment with the name `__TEXT_EXEC`. -/
def textExecSegment (d : Bytes) (fo : ℕ) : Except PyError (Option Segment) :=
  machoCmds d fo fun p cmd =>
    if cmd = lcSegment64 then do
      let vmaddr ← unpackQ d (p + 24)
      let vmsize ← unpackQ d (p + 32)
      let foff ← unpackQ d (p + 40)
      let fsz ← unpackQ d (p + 48)
      return if rstripNul (slice d (p + 8) (p + 24)) = asciiBytes "__TEXT_EXEC" then
        some ⟨vmaddr, vmsize, foff, fsz⟩ else none
    else .ok none

/-- `text_exec` of `patch_rtbuddy_secureproxy_v2.py` -/
def SecureproxyV2.textExec (d : Bytes) (fo : ℕ) : Except PyError (Option (ℕ × ℕ)) :=
  (textExecSegment d fo).map (Option.map fun s => (s.vmaddr, s.fileoff))

/-- `text_exec` of `patch_rtbuddy_route_skip.py` -/
def RouteSkip.textExec (d : Bytes) (fo : ℕ) : Except PyError (Option (ℕ × ℕ × ℕ)) :=
  (textExecSegment d fo).map (Option.map fun s => (s.vmaddr, s.fileoff, s.filesize))

/-! ## What the readers find -/

/-- The file offset of a kext, with the address and the file offset of its `__TEXT_EXEC`. -/
abbrev Found := Option (ℕ × Option (ℕ × ℕ))

def darwinvmFinds (data : Bytes) (name : String) : Except PyError Found := do
  let some (fileoff, _) ← parseFilesetEntry data name | return none
  let segs ← parseKextSegments data fileoff
  return some (fileoff, (segs.get "__TEXT_EXEC").map fun s => (s.vmaddr, s.fileoff))

def rtbuddyFinds (textExec : Bytes → ℕ → Except PyError (Option (ℕ × ℕ))) (data : Bytes)
    (name : String) : Except PyError Found := do
  let some fileoff ← filesetFileoff data (asciiBytes name) | return none
  let found ← textExec data fileoff
  return some (fileoff, found)

def secureproxyFinds : Bytes → String → Except PyError Found := rtbuddyFinds SecureproxyV2.textExec

def routeSkipFinds : Bytes → String → Except PyError Found :=
  rtbuddyFinds fun d fo => (RouteSkip.textExec d fo).map (Option.map fun s => (s.1, s.2.1))

/-- All readers return, and they return the same. -/
def ReadersAgree (data : Bytes) (name : String) : Prop :=
  ∃ found, darwinvmFinds data name = .ok found ∧ secureproxyFinds data name = .ok found ∧
    routeSkipFinds data name = .ok found

theorem routeSkipFinds_eq : routeSkipFinds = secureproxyFinds := by
  unfold routeSkipFinds secureproxyFinds
  congr 1
  funext d fo
  rw [RouteSkip.textExec, SecureproxyV2.textExec]
  cases textExecSegment d fo with
  | error e => rfl
  | ok found => cases found <;> rfl

/-! ## Well-formed images -/

def loadCommands (data : Bytes) (base : ℕ) : List ℕ :=
  commandOffsets data (wordAt data (base + 16)).toNat (base + 32)

def cmdsizeAt (data : Bytes) (o : ℕ) : ℕ := (wordAt data (o + 4)).toNat

def entryIdOff (data : Bytes) (o : ℕ) : ℕ := (wordAt data (o + 24)).toNat

/-- A 64-bit Mach-O header whose load commands are in the data. -/
structure WellFormedMachO (data : Bytes) : Prop where
  header : 32 ≤ data.length
  magic : wordAt data 0 = mhMagic64
  commands : ∀ o ∈ loadCommands data 0, 8 ≤ cmdsizeAt data o ∧ o + cmdsizeAt data o ≤ data.length
  segments : ∀ o ∈ loadCommands data 0, wordAt data o = lcSegment64 → 72 ≤ cmdsizeAt data o

/-- Each entry has its id, with a NUL, inside its command and names a Mach-O image. -/
structure WellFormedFileset (data : Bytes) : Prop extends WellFormedMachO data where
  filetype : wordAt data 12 = mhFileset
  entryId : ∀ o ∈ loadCommands data 0, wordAt data o = lcFilesetEntry →
    32 ≤ entryIdOff data o ∧ entryIdOff data o < cmdsizeAt data o ∧
      0 ∈ slice data (o + entryIdOff data o) (o + cmdsizeAt data o)
  kext : ∀ o ∈ loadCommands data 0, wordAt data o = lcFilesetEntry →
    WellFormedMachO (data.drop (field data (o + 16) 8))

instance (data : Bytes) : Decidable (WellFormedMachO data) :=
  decidable_of_iff (32 ≤ data.length ∧ wordAt data 0 = mhMagic64 ∧
    (∀ o ∈ loadCommands data 0, 8 ≤ cmdsizeAt data o ∧ o + cmdsizeAt data o ≤ data.length) ∧
    ∀ o ∈ loadCommands data 0, wordAt data o = lcSegment64 → 72 ≤ cmdsizeAt data o)
    ⟨fun h => ⟨h.1, h.2.1, h.2.2.1, h.2.2.2⟩, fun h => ⟨h.1, h.2, h.3, h.4⟩⟩

instance (data : Bytes) : Decidable (WellFormedFileset data) :=
  decidable_of_iff (WellFormedMachO data ∧ wordAt data 12 = mhFileset ∧
    (∀ o ∈ loadCommands data 0, wordAt data o = lcFilesetEntry →
      32 ≤ entryIdOff data o ∧ entryIdOff data o < cmdsizeAt data o ∧
        0 ∈ slice data (o + entryIdOff data o) (o + cmdsizeAt data o)) ∧
    ∀ o ∈ loadCommands data 0, wordAt data o = lcFilesetEntry →
      WellFormedMachO (data.drop (field data (o + 16) 8)))
    ⟨fun h => ⟨h.1, h.2.1, h.2.2.1, h.2.2.2⟩, fun h => ⟨h.1, h.2, h.3, h.4⟩⟩

theorem unpackQ_ok {data : Bytes} {off : ℕ} (h : off + 8 ≤ data.length) :
    unpackQ data off = .ok (field data off 8) := if_pos h

theorem unpackI_drop (data : Bytes) (fo off : ℕ) :
    unpackI (data.drop fo) off = unpackI data (fo + off) := by
  unfold unpackI wordAt field
  rw [List.drop_drop, List.length_drop]
  exact if_congr (by omega) rfl rfl

theorem unpackQ_drop (data : Bytes) (fo off : ℕ) :
    unpackQ (data.drop fo) off = unpackQ data (fo + off) := by
  unfold unpackQ field
  rw [List.drop_drop, List.length_drop]
  exact if_congr (by omega) rfl rfl

theorem slice_drop (data : Bytes) (fo a b : ℕ) :
    slice (data.drop fo) a b = slice data (fo + a) (fo + b) := by
  unfold slice
  rw [List.take_drop, List.drop_drop]

/-! ## The entries -/

/-- The text of an entry's id at its stored offset. -/
def storedId (data : Bytes) (o : ℕ) : List Char :=
  decodeUtf8Replace (untilNul (slice data (o + entryIdOff data o) (o + cmdsizeAt data o)))

/-- The bytes of an entry's id right behind the fixed part. -/
def fixedId (data : Bytes) (o : ℕ) : Bytes := untilNul (data.drop (o + 32))

def kextOffset (data : Bytes) (o : ℕ) : ℕ := field data (o + 16) 8

/-- The command at `o` is an entry with the name at its stored offset. -/
def StoredName (data : Bytes) (name : String) (o : ℕ) : Prop :=
  wordAt data o = lcFilesetEntry ∧ storedId data o = name.toList

/-- The command at `o` is an entry with the name right behind the fixed part. -/
def FixedName (data : Bytes) (name : String) (o : ℕ) : Prop :=
  wordAt data o = lcFilesetEntry ∧ fixedId data o = asciiBytes name

instance (data : Bytes) (name : String) : DecidablePred (StoredName data name) :=
  fun _ => inferInstanceAs (Decidable (_ ∧ _))

instance (data : Bytes) (name : String) : DecidablePred (FixedName data name) :=
  fun _ => inferInstanceAs (Decidable (_ ∧ _))

/-- The file offset of the first entry that is named so. -/
def firstEntry (named : ℕ → Prop) [DecidablePred named] (data : Bytes) : Option ℕ :=
  (loadCommands data 0).findSome? fun o => if named o then some (kextOffset data o) else none

theorem commandOffsets_succ {d : Bytes} {p : ℕ} (h : p + 8 ≤ d.length) (n : ℕ) :
    commandOffsets d (n + 1) p = p :: commandOffsets d n (p + (wordAt d (p + 4)).toNat) := by
  rw [commandOffsets, unpackI_ok (by omega : p + 4 + 4 ≤ d.length)]

theorem machoCmdsFrom_eq {α : Type} {d : Bytes} {body : ℕ → BitVec 32 → Except PyError (Option α)}
    {found : ℕ → Option α} (n p : ℕ)
    (hall : ∀ o ∈ commandOffsets d n p, (8 ≤ cmdsizeAt d o ∧ o + cmdsizeAt d o ≤ d.length) ∧
      body o (wordAt d o) = .ok (found o)) :
    machoCmdsFrom d body n p = .ok ((commandOffsets d n p).findSome? found) := by
  induction n generalizing p with
  | zero => rfl
  | succ n ih =>
    obtain ⟨⟨hsize, hfits⟩, hbody⟩ := hall p List.mem_cons_self
    have hcs : unpackI d (p + 4) = .ok (wordAt d (p + 4)) := unpackI_ok (by omega)
    rw [machoCmdsFrom, unpackI_ok (by omega : p + 4 ≤ d.length), ok_bind, hcs, ok_bind, hbody,
      ok_bind, commandOffsets_succ (by omega), List.findSome?_cons]
    cases found p with
    | some a => rfl
    | none => exact ih _ (commandOffsets_rest hcs hall)

section WellFormed
variable {data : Bytes} {name : String}

theorem WellFormedMachO.machoCmds_eq (h : WellFormedMachO data) {α : Type}
    {body : ℕ → BitVec 32 → Except PyError (Option α)} {found : ℕ → Option α}
    (hbody : ∀ o ∈ loadCommands data 0, body o (wordAt data o) = .ok (found o)) :
    machoCmds data 0 body = .ok ((loadCommands data 0).findSome? found) := by
  have hheader := h.header
  rw [machoCmds, unpackI_ok (by omega), ok_bind]
  exact machoCmdsFrom_eq _ _ fun o ho => ⟨h.commands o ho, hbody o ho⟩

theorem cstringAt_of_entry (h : WellFormedFileset data) {o : ℕ} (ho : o ∈ loadCommands data 0)
    (hcmd : wordAt data o = lcFilesetEntry) : cstringAt data (o + 32) = fixedId data o := by
  obtain ⟨hoff, hlt, hnul⟩ := h.entryId o ho hcmd
  refine if_pos ?_
  have hsub : slice data (o + entryIdOff data o) (o + cmdsizeAt data o) ⊆ data.drop (o + 32) := by
    rw [slice, show o + entryIdOff data o = o + 32 + (entryIdOff data o - 32) by omega,
      ← List.drop_drop]
    refine List.Subset.trans (List.drop_subset _ _) ?_
    rw [List.drop_take]
    exact List.take_subset _ _
  exact hsub hnul

theorem filesetFileoff_eq (h : WellFormedFileset data) :
    filesetFileoff data (asciiBytes name) = .ok (firstEntry (FixedName data name) data) := by
  refine h.machoCmds_eq fun o ho => ?_
  obtain ⟨hsize, hfits⟩ := h.commands o ho
  by_cases hcmd : wordAt data o = lcFilesetEntry
  · obtain ⟨hoff, hlt, -⟩ := h.entryId o ho hcmd
    rw [if_pos hcmd, unpackQ_ok (by omega), ok_bind, unpackQ_ok (by omega), ok_bind,
      cstringAt_of_entry h ho hcmd]
    simp only [FixedName, hcmd, true_and]
    rfl
  · rw [if_neg hcmd, if_neg fun hand => hcmd hand.1]

theorem filesetEntryFrom_eq (n off : ℕ)
    (hall : ∀ o ∈ commandOffsets data n off,
      (8 ≤ cmdsizeAt data o ∧ o + cmdsizeAt data o ≤ data.length) ∧
        (wordAt data o = lcFilesetEntry → 32 ≤ cmdsizeAt data o)) :
    filesetEntryFrom data name n off = .ok ((commandOffsets data n off).findSome? fun o =>
      if StoredName data name o then some (kextOffset data o, field data (o + 8) 8) else none) := by
  induction n generalizing off with
  | zero => rfl
  | succ n ih =>
    obtain ⟨⟨hsize, hfits⟩, hentry⟩ := hall off List.mem_cons_self
    have hcs : unpackI data (off + 4) = .ok (wordAt data (off + 4)) := unpackI_ok (by omega)
    have hrest := ih _ (commandOffsets_rest hcs hall)
    rw [filesetEntryFrom, if_neg (by omega), unpackI_ok (by omega : off + 4 ≤ data.length), ok_bind,
      hcs, ok_bind, commandOffsets_succ (by omega), List.findSome?_cons]
    by_cases hcmd : wordAt data off = lcFilesetEntry
    · have hlarge := hentry hcmd
      rw [if_pos hcmd, unpackQ_ok (by omega), ok_bind, unpackQ_ok (by omega), ok_bind,
        unpackI_ok (by omega), ok_bind]
      by_cases hid : storedId data off = name.toList
      · rw [if_pos (show StoredName data name off from ⟨hcmd, hid⟩)]
        exact if_pos hid
      · have hnot : ¬StoredName data name off := fun hand => hid hand.2
        rw [if_neg hnot]
        exact (if_neg hid).trans hrest
    · rw [if_neg hcmd, if_neg fun hand => hcmd hand.1]
      exact hrest

theorem parseFilesetEntry_eq (h : WellFormedFileset data) :
    ∃ found, parseFilesetEntry data name = .ok found ∧
      found.map Prod.fst = firstEntry (StoredName data name) data := by
  have hheader := h.header
  rw [parseFilesetEntry, unpackI_ok (by omega), ok_bind, if_neg (not_not.mpr h.magic),
    unpackI_ok (by omega), ok_bind, if_neg (not_not.mpr h.filetype), unpackI_ok (by omega), ok_bind]
  refine ⟨_, filesetEntryFrom_eq _ _ fun o ho => ⟨h.commands o ho, fun hcmd => ?_⟩, ?_⟩
  · obtain ⟨hoff, hlt, -⟩ := h.entryId o ho hcmd
    omega
  · rw [List.map_findSome?, firstEntry]
    congr 1
    funext o
    rw [Function.comp_apply, apply_ite (Option.map Prod.fst)]
    rfl

/-! ## The segments -/

def segmentAt (kext : Bytes) (o : ℕ) : Segment :=
  ⟨field kext (o + 24) 8, field kext (o + 32) 8, field kext (o + 40) 8, field kext (o + 48) 8⟩

def segnameAt (kext : Bytes) (o : ℕ) : Bytes := slice kext (o + 8) (o + 24)

/-- The segment at `o`, if it is one that `nameOf` calls `__TEXT_EXEC`. -/
def textExecAt (nameOf : Bytes → Bytes) (kext : Bytes) (o : ℕ) : Option Segment :=
  if wordAt kext o = lcSegment64 ∧ nameOf (segnameAt kext o) = asciiBytes "__TEXT_EXEC" then
    some (segmentAt kext o)
  else none

theorem machoCmdsFrom_drop {α : Type} {fo : ℕ}
    {body body' : ℕ → BitVec 32 → Except PyError (Option α)}
    (hbody : ∀ p cmd, body' p cmd = body (fo + p) cmd) (n p : ℕ) :
    machoCmdsFrom (data.drop fo) body' n p = machoCmdsFrom data body n (fo + p) := by
  induction n generalizing p with
  | zero => rfl
  | succ n ih =>
    unfold machoCmdsFrom
    simp only [unpackI_drop, hbody, ih, Nat.add_assoc]

/-- The reader of a whole image reads a kext as if the image began there. -/
theorem textExecSegment_drop (fo : ℕ) :
    textExecSegment data fo = textExecSegment (data.drop fo) 0 := by
  unfold textExecSegment machoCmds
  rw [unpackI_drop, Nat.zero_add]
  refine bind_congr fun ncmds => (machoCmdsFrom_drop (fun p cmd => ?_) _ _).symm
  simp only [unpackQ_drop, slice_drop, Nat.add_assoc]

theorem textExecSegment_eq {kext : Bytes} (h : WellFormedMachO kext) :
    textExecSegment kext 0 = .ok ((loadCommands kext 0).findSome? (textExecAt rstripNul kext)) := by
  refine h.machoCmds_eq fun o ho => ?_
  obtain ⟨hsize, hfits⟩ := h.commands o ho
  rw [textExecAt]
  by_cases hcmd : wordAt kext o = lcSegment64
  · have hlarge := h.segments o ho hcmd
    rw [if_pos hcmd, unpackQ_ok (by omega), ok_bind, unpackQ_ok (by omega), ok_bind,
      unpackQ_ok (by omega), ok_bind, unpackQ_ok (by omega), ok_bind]
    simp only [hcmd, true_and]
    rfl
  · rw [if_neg hcmd, if_neg fun hand => hcmd hand.1]

/-- Every segment name is text. -/
def NamesAreText (kext : Bytes) (os : List ℕ) : Prop :=
  ∀ o ∈ os, wordAt kext o = lcSegment64 → (decodeUtf8 (untilNul (segnameAt kext o))).isSome

instance (kext : Bytes) (os : List ℕ) : Decidable (NamesAreText kext os) := by
  unfold NamesAreText
  infer_instance

theorem asciiBytes_eq_iff {b : Bytes} {text : List Char} {s : String}
    (h : decodeUtf8 b = some text) : b = asciiBytes s ↔ s.toList = text := by
  obtain rfl := decodeUtf8_eq_some_iff.mp h
  exact ⟨fun heq => (encodeUtf8_inj heq).symm, fun heq => heq ▸ rfl⟩

theorem Segments.get_cons (text : List Char) (seg : Segment) (segs : Segments) (s : String) :
    Segments.get ((text, seg) :: segs) s = if s.toList = text then some seg else segs.get s := by
  rw [Segments.get, List.lookup_cons]
  by_cases htext : s.toList = text
  · rw [beq_iff_eq.mpr htext, if_pos htext]
  · rw [beq_eq_false_iff_ne.mpr htext, if_neg htext]
    rfl

/-- A segment under its name. -/
theorem get_segmentAt {kext : Bytes} {o : ℕ} {text : List Char} (segs : Segments)
    (hcmd : wordAt kext o = lcSegment64)
    (hname : decodeUtf8 (untilNul (segnameAt kext o)) = some text) :
    Segments.get ((text, segmentAt kext o) :: segs) "__TEXT_EXEC" =
      (textExecAt untilNul kext o).or (segs.get "__TEXT_EXEC") := by
  have hmatch := asciiBytes_eq_iff (s := "__TEXT_EXEC") hname
  rw [Segments.get_cons, textExecAt]
  by_cases htext : "__TEXT_EXEC".toList = text
  · rw [if_pos htext, if_pos ⟨hcmd, hmatch.mpr htext⟩, Option.some_or]
  · rw [if_neg htext, if_neg fun hand => htext (hmatch.mp hand.2), Option.none_or]

/-- The loop returns exactly where the names are text, and the dictionary then has the last segment
of the name. -/
theorem kextSegmentsFrom_spec {kext : Bytes} (n off : ℕ) (segs : Segments)
    (hall : ∀ o ∈ commandOffsets kext n off,
      (8 ≤ cmdsizeAt kext o ∧ o + cmdsizeAt kext o ≤ kext.length) ∧
        (wordAt kext o = lcSegment64 → 72 ≤ cmdsizeAt kext o)) :
    (NamesAreText kext (commandOffsets kext n off) →
      ∃ segs', kextSegmentsFrom kext n off segs = .ok segs' ∧ segs'.get "__TEXT_EXEC" =
        (lastWrite (textExecAt untilNul kext) (commandOffsets kext n off)).or
          (segs.get "__TEXT_EXEC")) ∧
    (¬NamesAreText kext (commandOffsets kext n off) →
      kextSegmentsFrom kext n off segs = .error .unicode) := by
  induction n generalizing off segs with
  | zero => exact ⟨fun _ => ⟨segs, rfl, rfl⟩, fun hnot => absurd (fun o ho => by cases ho) hnot⟩
  | succ n ih =>
    obtain ⟨⟨hsize, hfits⟩, hsegment⟩ := hall off List.mem_cons_self
    have hcs : unpackI kext (off + 4) = .ok (wordAt kext (off + 4)) := unpackI_ok (by omega)
    have hrest := fun segs => ih _ segs (commandOffsets_rest hcs hall)
    rw [kextSegmentsFrom, if_neg (by omega), unpackI_ok (by omega : off + 4 ≤ kext.length), ok_bind,
      hcs, ok_bind, commandOffsets_succ (by omega), NamesAreText, List.forall_mem_cons]
    by_cases hcmd : wordAt kext off = lcSegment64
    · have hlarge := hsegment hcmd
      rw [if_pos hcmd]
      cases hname : decodeUtf8 (untilNul (segnameAt kext off)) with
      | none =>
        have hname' : decodeUtf8 (untilNul (slice kext (off + 8) (off + 24))) = none := hname
        rw [hname']
        exact ⟨fun hall => absurd (hall.1 hcmd) (by simp), fun _ => rfl⟩
      | some text =>
        have hname' : decodeUtf8 (untilNul (slice kext (off + 8) (off + 24))) = some text := hname
        rw [hname']
        dsimp only
        rw [unpackQ_ok (by omega), ok_bind, unpackQ_ok (by omega), ok_bind, unpackQ_ok (by omega),
          ok_bind, unpackQ_ok (by omega), ok_bind]
        obtain ⟨hok, herror⟩ := hrest ((text, segmentAt kext off) :: segs)
        refine ⟨fun hnames => ?_, fun hnot => herror fun hnames => hnot ⟨fun _ => rfl, hnames⟩⟩
        obtain ⟨segs', hsegs', hget⟩ := hok hnames.2
        refine ⟨segs', hsegs', ?_⟩
        rw [hget, get_segmentAt segs hcmd hname, lastWrite, Option.or_assoc]
    · rw [if_neg hcmd]
      obtain ⟨hok, herror⟩ := hrest segs
      refine ⟨fun hnames => ?_, fun hnot => herror fun hnames =>
        hnot ⟨fun heq => absurd heq hcmd, hnames⟩⟩
      obtain ⟨segs', hsegs', hget⟩ := hok hnames.2
      refine ⟨segs', hsegs', ?_⟩
      rw [hget, lastWrite, textExecAt, if_neg fun hand => hcmd hand.1, Option.or_none]

theorem parseKextSegments_spec {fo : ℕ} (h : WellFormedMachO (data.drop fo)) :
    (NamesAreText (data.drop fo) (loadCommands (data.drop fo) 0) →
      ∃ segs, parseKextSegments data fo = .ok segs ∧ segs.get "__TEXT_EXEC" =
        lastWrite (textExecAt untilNul (data.drop fo)) (loadCommands (data.drop fo) 0)) ∧
    (¬NamesAreText (data.drop fo) (loadCommands (data.drop fo) 0) →
      parseKextSegments data fo = .error .unicode) := by
  have hheader := h.header
  have hparse : parseKextSegments data fo =
      kextSegmentsFrom (data.drop fo) (wordAt (data.drop fo) 16).toNat 32 [] := by
    rw [parseKextSegments, unpackI_ok (by omega), ok_bind, if_neg (not_not.mpr h.magic),
      unpackI_ok (by omega), ok_bind]
  obtain ⟨hok, herror⟩ := kextSegmentsFrom_spec (wordAt (data.drop fo) 16).toNat 32 []
    fun o ho => ⟨h.commands o ho, h.segments o ho⟩
  rw [hparse]
  refine ⟨fun hnames => ?_, herror⟩
  obtain ⟨segs, hsegs, hget⟩ := hok hnames
  exact ⟨segs, hsegs, hget.trans Option.or_none⟩

/-! ## When they agree -/

/-- The segment at `o` is called `__TEXT_EXEC` up to a NUL. -/
def TextExec (kext : Bytes) (o : ℕ) : Prop :=
  wordAt kext o = lcSegment64 ∧ asciiBytes "__TEXT_EXEC" ++ [0] <+: segnameAt kext o

/-- Its name is `__TEXT_EXEC`, padded with NULs. -/
def PaddedTextExec (kext : Bytes) (o : ℕ) : Prop :=
  wordAt kext o = lcSegment64 ∧ segnameAt kext o = asciiBytes "__TEXT_EXEC" ++ List.replicate 5 0

instance (kext : Bytes) : DecidablePred (TextExec kext) :=
  fun _ => inferInstanceAs (Decidable (_ ∧ _))

instance (kext : Bytes) : DecidablePred (PaddedTextExec kext) :=
  fun _ => inferInstanceAs (Decidable (_ ∧ _))

def addressAndOffset (s : Segment) : ℕ × ℕ := (s.vmaddr, s.fileoff)

/-- All names are text, and if a segment is called `__TEXT_EXEC` up to a NUL, the last such and the
first with the padded name are at one address and file offset. -/
structure SegmentsMeet (kext : Bytes) : Prop where
  names : NamesAreText kext (loadCommands kext 0)
  textExec : ∀ p, LastWith (TextExec kext) (loadCommands kext 0) p →
    ∃ q, FirstWith (PaddedTextExec kext) (loadCommands kext 0) q ∧
      addressAndOffset (segmentAt kext q) = addressAndOffset (segmentAt kext p)

/-- If an entry has the name at its stored offset, the first such and the first with the name right
behind the fixed part are at one file offset, and the segments of that kext meet; if none has, no
entry has the name behind the fixed part. -/
structure ReadersMeet (data : Bytes) (name : String) : Prop where
  entries : ∀ o, FirstWith (StoredName data name) (loadCommands data 0) o →
    ∃ o', FirstWith (FixedName data name) (loadCommands data 0) o' ∧
      kextOffset data o' = kextOffset data o
  absent : (∀ o ∈ loadCommands data 0, ¬StoredName data name o) →
    ∀ o ∈ loadCommands data 0, ¬FixedName data name o
  segments : ∀ o, FirstWith (StoredName data name) (loadCommands data 0) o →
    SegmentsMeet (data.drop (kextOffset data o))

/-- A name up to the first NUL. -/
theorem untilNul_eq_iff {b x : Bytes} (hx : 0 ∉ x) (hlen : x.length < b.length) :
    untilNul b = x ↔ x ++ [0] <+: b := by
  constructor
  · rintro rfl
    have hsplit : untilNul b ++ b.dropWhile (· ≠ 0) = b := List.takeWhile_append_dropWhile
    cases hrest : b.dropWhile (· ≠ 0) with
    | nil =>
      rw [hrest, List.append_nil] at hsplit
      exact absurd (congrArg List.length hsplit) (Nat.ne_of_lt hlen)
    | cons c rest =>
      have hc : c = 0 := by
        have hhead := List.head?_dropWhile_not (fun c : UInt8 => decide (c ≠ 0)) b
        rw [hrest] at hhead
        simpa using hhead
      rw [hrest, hc] at hsplit
      exact ⟨rest, by rw [List.append_assoc, List.singleton_append, hsplit]⟩
  · rintro ⟨rest, rfl⟩
    rw [untilNul, List.append_assoc, List.takeWhile_append_of_pos fun c hc => by
      simpa using fun hzero : c = 0 => hx (hzero ▸ hc)]
    simp

/-- A name without its trailing NULs. -/
theorem rstripNul_eq_iff {b x : Bytes} (hx : 0 ∉ x) :
    rstripNul b = x ↔ b = x ++ List.replicate (b.length - x.length) 0 := by
  constructor
  · rintro rfl
    have hsplit : rstripNul b ++ b.rtakeWhile (· = 0) = b := List.rdropWhile_append_rtakeWhile
    have hzeros : b.rtakeWhile (· = 0) = List.replicate (b.rtakeWhile (· = 0)).length 0 :=
      List.eq_replicate_iff.mpr ⟨rfl, fun c hc => by simpa using List.mem_rtakeWhile_imp hc⟩
    have hlen := congrArg List.length hsplit
    rw [List.length_append] at hlen
    rw [← hlen, Nat.add_sub_cancel_left, ← hzeros, hsplit]
  · intro h
    rw [h]
    generalize b.length - x.length = n
    induction n with
    | zero =>
      rw [List.replicate_zero, List.append_nil]
      exact List.rdropWhile_eq_self_iff.mpr fun hne => by
        simpa using fun hzero : x.getLast hne = 0 => hx (hzero ▸ List.getLast_mem hne)
    | succ n ih =>
      rw [List.replicate_succ', ← List.append_assoc, rstripNul,
        List.rdropWhile_concat_pos _ _ _ (by simp)]
      exact ih

theorem textExec_name : (0 : UInt8) ∉ asciiBytes "__TEXT_EXEC" ∧
    (asciiBytes "__TEXT_EXEC").length = 11 := by decide +kernel

theorem WellFormedMachO.segnameAt_length {kext : Bytes} (h : WellFormedMachO kext) {o : ℕ}
    (ho : o ∈ loadCommands kext 0) (hcmd : wordAt kext o = lcSegment64) :
    (segnameAt kext o).length = 16 := by
  have hfits := (h.commands o ho).2
  have hlarge := h.segments o ho hcmd
  rw [segnameAt, slice_length]
  omega

theorem WellFormedMachO.textExec_iff {kext : Bytes} (h : WellFormedMachO kext) {o : ℕ}
    (ho : o ∈ loadCommands kext 0) : (wordAt kext o = lcSegment64 ∧
      untilNul (segnameAt kext o) = asciiBytes "__TEXT_EXEC") ↔ TextExec kext o := by
  refine and_congr_right fun hcmd => untilNul_eq_iff textExec_name.1 ?_
  rw [h.segnameAt_length ho hcmd, textExec_name.2]
  decide

theorem WellFormedMachO.paddedTextExec_iff {kext : Bytes} (h : WellFormedMachO kext) {o : ℕ}
    (ho : o ∈ loadCommands kext 0) : (wordAt kext o = lcSegment64 ∧
      rstripNul (segnameAt kext o) = asciiBytes "__TEXT_EXEC") ↔ PaddedTextExec kext o := by
  refine and_congr_right fun hcmd => ?_
  rw [rstripNul_eq_iff textExec_name.1, h.segnameAt_length ho hcmd, textExec_name.2]

theorem untilNul_append {a : Bytes} (h : 0 ∈ a) (b : Bytes) :
    untilNul (a ++ b) = untilNul a := by
  induction a with
  | nil => cases h
  | cons c a ih =>
    rw [List.cons_append, untilNul, untilNul, List.takeWhile_cons, List.takeWhile_cons]
    split_ifs with hc
    · have hmem : 0 ∈ a := by
        rcases List.mem_cons.mp h with rfl | hmem
        · simp at hc
        · exact hmem
      exact congrArg _ (ih hmem)
    · rfl

/-- An id that is text and right behind the fixed part is found by both. -/
theorem storedName_iff_fixedName (h : WellFormedFileset data) {o : ℕ}
    (ho : o ∈ loadCommands data 0) (hoff : wordAt data o = lcFilesetEntry → entryIdOff data o = 32)
    (htext : wordAt data o = lcFilesetEntry → (decodeUtf8 (fixedId data o)).isSome) :
    StoredName data name o ↔ FixedName data name o := by
  refine and_congr_right fun hcmd => ?_
  have hnul := (h.entryId o ho hcmd).2.2
  obtain ⟨text, hid⟩ := Option.isSome_iff_exists.mp (htext hcmd)
  have hbytes : untilNul (slice data (o + entryIdOff data o) (o + cmdsizeAt data o)) =
      fixedId data o := by
    rw [hoff hcmd, slice, List.drop_take] at hnul
    rw [fixedId, hoff hcmd, slice, List.drop_take, ← untilNul_append hnul, List.take_append_drop]
  have hencode := encodeUtf8_of_decodeUtf8 hid
  rw [storedId, hbytes, ← hencode, decodeUtf8Replace_encodeUtf8]
  exact ⟨fun heq => heq ▸ rfl, fun heq => encodeUtf8_inj heq⟩

theorem PaddedTextExec.textExec {kext : Bytes} {o : ℕ} (h : PaddedTextExec kext o) :
    TextExec kext o := by
  refine ⟨h.1, List.replicate 4 0, ?_⟩
  rw [h.2, List.append_assoc]
  rfl

/-- Images with each id text and right behind the fixed part of its command, segment names that are
text, and at most one `__TEXT_EXEC` in a kext, with a padded name. -/
theorem readersMeet_of_plain (h : WellFormedFileset data)
    (hoff : ∀ o ∈ loadCommands data 0, wordAt data o = lcFilesetEntry → entryIdOff data o = 32)
    (htext : ∀ o ∈ loadCommands data 0, wordAt data o = lcFilesetEntry →
      (decodeUtf8 (fixedId data o)).isSome)
    (hkext : ∀ o ∈ loadCommands data 0, wordAt data o = lcFilesetEntry →
      let kext := data.drop (kextOffset data o)
      NamesAreText kext (loadCommands kext 0) ∧
      (∀ p ∈ loadCommands kext 0, TextExec kext p → PaddedTextExec kext p) ∧
      ∀ p ∈ loadCommands kext 0, ∀ q ∈ loadCommands kext 0, TextExec kext p → TextExec kext q →
        p = q) : ReadersMeet data name := by
  have hsame : ∀ o ∈ loadCommands data 0, (StoredName data name o ↔ FixedName data name o) :=
    fun o ho => storedName_iff_fixedName h ho (hoff o ho) (htext o ho)
  refine ⟨fun o ho => ⟨o, ho.congr hsame, rfl⟩,
    fun hnone o ho => mt (hsame o ho).mpr (hnone o ho), fun o ho => ?_⟩
  obtain ⟨hin, hentry⟩ := ho.prop
  obtain ⟨hnames, hpadded, hone⟩ := hkext o hin hentry.1
  refine ⟨hnames, fun p hp => ?_⟩
  obtain ⟨hpin, hexec⟩ := hp.prop
  obtain ⟨q, hq⟩ := FirstWith.exists_of_mem hpin (hpadded p hpin hexec)
  obtain rfl := hone p hpin q hq.prop.1 hexec hq.prop.2.textExec
  exact ⟨p, hq, rfl⟩

theorem firstEntry_kext (h : WellFormedFileset data) {named : ℕ → Prop} [DecidablePred named]
    (hentry : ∀ o, named o → wordAt data o = lcFilesetEntry) {fo : ℕ}
    (hfo : firstEntry named data = some fo) : WellFormedMachO (data.drop fo) := by
  obtain ⟨o, ho, rfl⟩ := findSome?_ite_eq_some_iff.mp hfo
  exact h.kext o ho.prop.1 (hentry o ho.prop.2)

theorem secureproxyFinds_eq (h : WellFormedFileset data) :
    secureproxyFinds data name = .ok ((firstEntry (FixedName data name) data).map fun fo =>
      (fo, ((loadCommands (data.drop fo) 0).findSome?
        (textExecAt rstripNul (data.drop fo))).map addressAndOffset)) := by
  rw [secureproxyFinds, rtbuddyFinds, filesetFileoff_eq h, ok_bind]
  cases hfo : firstEntry (FixedName data name) data with
  | none => rfl
  | some fo =>
    dsimp only
    rw [SecureproxyV2.textExec, textExecSegment_drop,
      textExecSegment_eq (firstEntry_kext h (fun _ ho => ho.1) hfo)]
    rfl

theorem darwinvmFinds_spec (h : WellFormedFileset data) :
    (firstEntry (StoredName data name) data = none → darwinvmFinds data name = .ok none) ∧
    ∀ fo, firstEntry (StoredName data name) data = some fo →
      (NamesAreText (data.drop fo) (loadCommands (data.drop fo) 0) →
        darwinvmFinds data name = .ok (some (fo, (lastWrite (textExecAt untilNul (data.drop fo))
          (loadCommands (data.drop fo) 0)).map addressAndOffset))) ∧
      (¬NamesAreText (data.drop fo) (loadCommands (data.drop fo) 0) →
        darwinvmFinds data name = .error .unicode) := by
  obtain ⟨found, hfound, hfirst⟩ := @parseFilesetEntry_eq data name h
  rw [darwinvmFinds, hfound, ok_bind, ← hfirst]
  cases found with
  | none => exact ⟨fun _ => rfl, fun fo hfo => by cases hfo⟩
  | some entry =>
    refine ⟨fun hnone => (by cases hnone), fun fo hfo => ?_⟩
    obtain rfl : entry.1 = fo := Option.some.inj hfo
    obtain ⟨hok, herror⟩ :=
      parseKextSegments_spec (firstEntry_kext h (fun _ ho => ho.1) hfirst.symm)
    dsimp only
    constructor
    · intro hnames
      obtain ⟨segs, hsegs, hget⟩ := hok hnames
      rw [hsegs, ok_bind, hget]
      rfl
    · intro hnot
      rw [herror hnot]
      rfl

/-! ## The condition on the commands -/

/-- What the two readers take for `__TEXT_EXEC` is the same exactly when the segments meet. -/
theorem segmentsMeet_iff {kext : Bytes} (h : WellFormedMachO kext) : SegmentsMeet kext ↔
    NamesAreText kext (loadCommands kext 0) ∧
      (lastWrite (textExecAt untilNul kext) (loadCommands kext 0)).map addressAndOffset =
        ((loadCommands kext 0).findSome? (textExecAt rstripNul kext)).map addressAndOffset := by
  have huntil := fun o (ho : o ∈ loadCommands kext 0) => h.textExec_iff ho
  have hpadded := fun o (ho : o ∈ loadCommands kext 0) => h.paddedTextExec_iff ho
  constructor
  · rintro ⟨hnames, hmeet⟩
    refine ⟨hnames, ?_⟩
    cases hlast : lastWrite (textExecAt untilNul kext) (loadCommands kext 0) with
    | none =>
      have hnone : (loadCommands kext 0).findSome? (textExecAt rstripNul kext) = none :=
        findSome?_ite_eq_none_iff.mpr fun o ho hname =>
          lastWrite_ite_eq_none_iff.mp hlast o ho
            ((huntil o ho).mpr ((hpadded o ho).mp hname).textExec)
      rw [hnone]
    | some seg =>
      obtain ⟨p, hp, rfl⟩ := lastWrite_ite_eq_some_iff.mp hlast
      obtain ⟨q, hq, heq⟩ := hmeet p (hp.congr huntil)
      have hfirst : (loadCommands kext 0).findSome? (textExecAt rstripNul kext) =
          some (segmentAt kext q) :=
        findSome?_ite_eq_some_iff.mpr ⟨q, hq.congr fun o ho => (hpadded o ho).symm, rfl⟩
      rw [hfirst, Option.map_some, Option.map_some, heq]
  · rintro ⟨hnames, heq⟩
    refine ⟨hnames, fun p hp => ?_⟩
    have hlast : lastWrite (textExecAt untilNul kext) (loadCommands kext 0) =
        some (segmentAt kext p) :=
      lastWrite_ite_eq_some_iff.mpr ⟨p, hp.congr fun o ho => (huntil o ho).symm, rfl⟩
    rw [hlast, Option.map_some] at heq
    obtain ⟨seg, hfirst, hseg⟩ := Option.map_eq_some_iff.mp heq.symm
    obtain ⟨q, hq, rfl⟩ := findSome?_ite_eq_some_iff.mp hfirst
    exact ⟨q, hq.congr hpadded, hseg⟩

theorem readersMeet_iff : ReadersMeet data name ↔
    firstEntry (StoredName data name) data = firstEntry (FixedName data name) data ∧
      ∀ fo, firstEntry (StoredName data name) data = some fo →
        SegmentsMeet (data.drop fo) := by
  constructor
  · rintro ⟨hentries, habsent, hsegments⟩
    cases hstored : firstEntry (StoredName data name) data with
    | none =>
      have hnone := habsent (findSome?_ite_eq_none_iff.mp hstored)
      exact ⟨(findSome?_ite_eq_none_iff.mpr hnone).symm, fun fo hfo => by cases hfo⟩
    | some fo =>
      obtain ⟨o, ho, rfl⟩ := findSome?_ite_eq_some_iff.mp hstored
      obtain ⟨o', ho', heq⟩ := hentries o ho
      refine ⟨(findSome?_ite_eq_some_iff.mpr ⟨o', ho', heq⟩).symm, fun fo hfo => ?_⟩
      cases hfo
      exact hsegments o ho
  · rintro ⟨heq, hsegments⟩
    have hfirst {o : ℕ} (ho : FirstWith (StoredName data name) (loadCommands data 0) o) :
        firstEntry (StoredName data name) data = some (kextOffset data o) :=
      findSome?_ite_eq_some_iff.mpr ⟨o, ho, rfl⟩
    refine ⟨fun o ho => ?_, fun hnone => ?_, fun o ho => hsegments _ (hfirst ho)⟩
    · exact findSome?_ite_eq_some_iff.mp (heq.symm.trans (hfirst ho))
    · exact findSome?_ite_eq_none_iff.mp (heq.symm.trans (findSome?_ite_eq_none_iff.mpr hnone))

/-- The readers agree on a name exactly when the first entries with it and their kexts meet. -/
theorem readersAgree_iff (h : WellFormedFileset data) :
    ReadersAgree data name ↔ ReadersMeet data name := by
  obtain ⟨hnone, hsome⟩ := @darwinvmFinds_spec data name h
  rw [ReadersAgree, readersMeet_iff, routeSkipFinds_eq, secureproxyFinds_eq h]
  cases hstored : firstEntry (StoredName data name) data with
  | none =>
    rw [hnone hstored]
    constructor
    · rintro ⟨found, hfound, hfixed, -⟩
      cases hfound
      exact ⟨(Option.map_eq_none_iff.mp (Except.ok.inj hfixed)).symm, fun fo hfo => by cases hfo⟩
    · rintro ⟨hfixed, -⟩
      rw [← hfixed]
      exact ⟨none, rfl, rfl, rfl⟩
  | some fo =>
    obtain ⟨hok, herror⟩ := hsome fo hstored
    have hkext := firstEntry_kext h (fun _ ho => ho.1) hstored
    constructor
    · rintro ⟨found, hfound, hfixed, -⟩
      by_cases hnames : NamesAreText (data.drop fo) (loadCommands (data.drop fo) 0)
      · rw [hok hnames] at hfound
        cases hfound
        obtain ⟨fo', hfo', heq⟩ := Option.map_eq_some_iff.mp (Except.ok.inj hfixed)
        obtain ⟨rfl, hsegment⟩ := Prod.mk.inj heq
        refine ⟨hfo'.symm, fun fo hfo => ?_⟩
        cases hfo
        exact (segmentsMeet_iff hkext).mpr ⟨hnames, hsegment.symm⟩
      · rw [herror hnames] at hfound
        cases hfound
    · rintro ⟨hfixed, hmeet⟩
      obtain ⟨hnames, hsegment⟩ := (segmentsMeet_iff hkext).mp (hmeet fo rfl)
      rw [hok hnames, ← hfixed, Option.map_some, hsegment]
      exact ⟨_, rfl, rfl, rfl⟩

end WellFormed

/-- One entry called `k`, 16 bytes for its id, and a kext with one `__TEXT_EXEC`. -/
def oneKext (idOff : ℕ) (idArea : Bytes) : Bytes :=
  leBytes 4 0xFEEDFACF ++ List.replicate 8 0 ++ leBytes 4 12 ++ leBytes 4 1 ++
    List.replicate 12 0 ++
    (leBytes 4 0x80000035 ++ leBytes 4 48 ++ leBytes 8 0xfffffe0007004000 ++ leBytes 8 80 ++
      leBytes 4 idOff ++ List.replicate 4 0 ++ idArea) ++
    (leBytes 4 0xFEEDFACF ++ List.replicate 12 0 ++ leBytes 4 1 ++ List.replicate 12 0) ++
    (leBytes 4 0x19 ++ leBytes 4 72 ++ asciiBytes "__TEXT_EXEC" ++ List.replicate 5 0 ++
      leBytes 8 0xfffffe0007008000 ++ leBytes 8 0x4000 ++ leBytes 8 0x4000 ++ leBytes 8 0x4000 ++
      List.replicate 16 0)

theorem plain_image_readersAgree :
    WellFormedFileset (oneKext 32 (0x6b :: List.replicate 15 0)) ∧
      ReadersAgree (oneKext 32 (0x6b :: List.replicate 15 0)) "k" := by
  have hwf : WellFormedFileset (oneKext 32 (0x6b :: List.replicate 15 0)) := by decide +kernel
  refine ⟨hwf, (readersAgree_iff hwf).mpr (readersMeet_of_plain hwf ?_ ?_ ?_)⟩
  all_goals decide +kernel

/-- The id is eight bytes further on. -/
def laterId : Bytes := oneKext 40 (List.replicate 8 0 ++ 0x6b :: List.replicate 7 0)

theorem later_id_not_found : ¬∀ (data : Bytes) (name : String), WellFormedFileset data →
    ReadersAgree data name := by
  intro hall
  have hwf : WellFormedFileset laterId := by decide +kernel
  have hmissed : firstEntry (FixedName laterId "k") laterId = none := by decide +kernel
  have hthere : firstEntry (StoredName laterId "k") laterId = some 80 := by decide +kernel
  obtain ⟨found, hfound, hfixed, -⟩ := hall laterId "k" hwf
  rw [secureproxyFinds_eq hwf, hmissed] at hfixed
  rw [((darwinvmFinds_spec hwf).2 80 hthere).1 (by decide +kernel)] at hfound
  cases hfixed
  cases hfound

end SecureWorld.Patcher
