import SecureWorld.Patcher.MountAuth
import SecureWorld.Patcher.Prologue
import SecureWorld.Patcher.SsvHeaders
import SecureWorld.Patcher.Xref

/-! # How the shared-region probes find `shared_region_check_np`

The probes look for a trace string in the whole file and for the code that loads its address. What
they find stays where it is when words are rewritten above the headers and the string, as long as
a rewritten word neither was nor becomes part of a pair.
-/
namespace SecureWorld.Patcher
open Foundations
set_option autoImplicit false

/-! ## Reading the file -/

/-- `segs[name] = segment`: a name that is there keeps its place. -/
def Segments.assign (segs : Segments) (name : List Char) (segment : Segment) : Segments :=
  if segs.any (·.1 = name) then segs.map fun p => if p.1 = name then (name, segment) else p
  else segs ++ [(name, segment)]

def segsFrom (data : Bytes) : ℕ → ℕ → Segments → Except PyError Segments
  | 0, _, segs => .ok segs
  | n + 1, off, segs => do
      let cmd ← unpackI data off
      let cmdsize ← unpackI data (off + 4)
      if cmd = lcSegment64 then
        let name := decodeUtf8Replace (untilNul (slice data (off + 8) (off + 24)))
        let vmaddr ← unpackQ data (off + 24)
        let vmsize ← unpackQ data (off + 32)
        let fileoff ← unpackQ data (off + 40)
        let filesize ← unpackQ data (off + 48)
        segsFrom data n (off + cmdsize.toNat)
          (segs.assign name ⟨vmaddr, vmsize, fileoff, filesize⟩)
      else segsFrom data n (off + cmdsize.toNat) segs

def probeSegs (data : Bytes) : Except PyError Segments := do
  let ncmds ← unpackI data 16
  segsFrom data ncmds.toNat 32 []

/-- `_foff_to_va`, whose -1 goes on into the search. -/
def foffToVa (segs : Segments) (foff : ℕ) : ℤ :=
  match segs.find? fun (_, s) => s.fileoff ≤ foff ∧ foff < s.fileoff + s.filesize with
  | some (_, s) => (s.vmaddr + (foff - s.fileoff) : ℕ)
  | none => -1

def findCstringStart (data needle : Bytes) : Option ℕ :=
  (findSub data needle).map (cstringStart data)

/-- `_find_adrp_add_xref`, for an address that may be -1. -/
def findXref (data : Bytes) (ev ef efs : ℕ) (strVa : ℤ) : Except PyError (Option ℕ) :=
  let tp := strVa - strVa % 0x1000
  let tpoff := strVa % 0x1000
  let code := slice data ef (ef + efs)
  (rangeUp (code.length - 8) 4).findSomeM? fun i => do
    let a ← unpackI code i
    let b ← unpackI code (i + 4)
    if a &&& 0x9F000000 ≠ 0x90000000 ∨ b &&& 0xFFC00000 ≠ 0x91000000 then return none
    let pc := ev + i
    if clearPageOff pc + adrpImm a = tp ∧ (addImm b).toNat = tpoff then return some (ef + i)
    return none

def checkNpAnchor : Bytes := asciiBytes "check_np(0x%llx) vm_shared_region_auth_remap() failed"

/-- The code of the kernel, and where in it the trace string is loaded. -/
def checkNpXref (data : Bytes) : Except PyError (Option (Segment × ℕ)) := do
  let segs ← probeSegs data
  let some exe := segs.get "__TEXT_EXEC" | return none
  let some strFoff := findCstringStart data checkNpAnchor | return none
  let some xref ← findXref data exe.vmaddr exe.fileoff exe.filesize (foffToVa segs strFoff)
    | return none
  return some (exe, xref)

/-- Where in the code of the kernel a string with `needle` in it is loaded. -/
def stringXref (needle data : Bytes) : Except PyError (Option (Segment × ℕ)) := do
  let segs ← probeSegs data
  let some exe := segs.get "__TEXT_EXEC" | return none
  let some strFoff := findCstringStart data needle | return none
  let some xref ← findXref data exe.vmaddr exe.fileoff exe.filesize (foffToVa segs strFoff)
    | return none
  return some (exe, xref)

theorem checkNpXref_eq (data : Bytes) : checkNpXref data = stringXref checkNpAnchor data := rfl

theorem fits_of_unpackI {data : Bytes} {off : ℕ} {w : BitVec 32} (h : unpackI data off = .ok w) :
    off + 4 ≤ data.length := by
  rw [unpackI] at h
  split_ifs at h with hfit
  exact hfit

/-! ## The pair -/

/-- The words `a`, `b` at `pc` load `strVa`. -/
structure LoadsAddress (pc : ℕ) (strVa : ℤ) (a b : BitVec 32) : Prop where
  adrp : a &&& 0x9F000000 = 0x90000000
  add : b &&& 0xFFC00000 = 0x91000000
  page : clearPageOff pc + adrpImm a = strVa - strVa % 0x1000
  pageoff : (addImm b).toNat = strVa % 0x1000

instance (pc : ℕ) (strVa : ℤ) (a b : BitVec 32) : Decidable (LoadsAddress pc strVa a b) :=
  decidable_of_iff (a &&& 0x9F000000 = 0x90000000 ∧ b &&& 0xFFC00000 = 0x91000000 ∧
      clearPageOff pc + adrpImm a = strVa - strVa % 0x1000 ∧ (addImm b).toNat = strVa % 0x1000)
    ⟨fun h => ⟨h.1, h.2.1, h.2.2.1, h.2.2.2⟩, fun h => ⟨h.adrp, h.add, h.page, h.pageoff⟩⟩

/-- The search never raises: it is one for the first pair. -/
theorem findXref_eq (data : Bytes) (ev ef efs : ℕ) (strVa : ℤ) :
    findXref data ev ef efs strVa =
      .ok ((rangeUp (codeLength data ef efs - 8) 4).findSome? fun i =>
        if LoadsAddress (ev + i) strVa (wordAt data (ef + i)) (wordAt data (ef + i + 4)) then
          some (ef + i) else none) := by
  refine findSomeM?_eq_ok fun i hi => ?_
  have hlt : i < codeLength data ef efs - 8 := ((mem_rangeUp (by decide)).mp hi).1
  rw [codeLength] at hlt
  have ha : i + 4 ≤ (slice data ef (ef + efs)).length := by omega
  have hb : i + 4 + 4 ≤ (slice data ef (ef + efs)).length := by omega
  rw [unpackI_ok ha, unpackI_ok hb, wordAt_slice ha, wordAt_slice hb, ok_bind, ok_bind,
    ← Nat.add_assoc]
  dsimp only
  by_cases hm : LoadsAddress (ev + i) strVa (wordAt data (ef + i)) (wordAt data (ef + i + 4))
  · rw [if_pos hm, if_neg (not_or.mpr ⟨not_not.mpr hm.adrp, not_not.mpr hm.add⟩),
      if_pos ⟨hm.page, hm.pageoff⟩]
    rfl
  · rw [if_neg hm]
    split_ifs with hwords hpair
    · rfl
    · obtain ⟨hadrp, hadd⟩ := not_or.mp hwords
      exact absurd ⟨not_not.mp hadrp, not_not.mp hadd, hpair.1, hpair.2⟩ hm
    · rfl

/-- A word that is neither of the two of a pair. -/
def PairFree (w : BitVec 32) : Prop :=
  ¬ w &&& 0x9F000000 = 0x90000000 ∧ ¬ w &&& 0xFFC00000 = 0x91000000

/-- A pair of the code at `x`, on a word boundary of it and inside the file. -/
structure PairFound (base : ℕ) (data : Bytes) (x : ℕ) : Prop where
  aligned : x % 4 = base % 4
  fits : x + 8 ≤ data.length
  first : ¬ PairFree (wordAt data x)
  second : ¬ PairFree (wordAt data (x + 4))

theorem findXref_some {data : Bytes} {ev ef efs x : ℕ} {strVa : ℤ}
    (h : findXref data ev ef efs strVa = .ok (some x)) : PairFound ef data x := by
  rw [findXref_eq] at h
  obtain ⟨i, hi, hhit, -⟩ := (findSome?_rangeUp (by decide) _ _).mp (Except.ok.inj h)
  rw [Option.ite_none_right_eq_some, Option.some_inj] at hhit
  obtain ⟨hm, rfl⟩ := hhit
  obtain ⟨hlt, k, rfl⟩ := (mem_rangeUp (by decide)).mp hi
  have hle := codeLength_le data ef efs
  exact ⟨by omega, by omega, fun hfree => hfree.1 hm.adrp, fun hfree => hfree.2 hm.add⟩

theorem stringXref_some {needle data : Bytes} {exe : Segment} {xref : ℕ}
    (h : stringXref needle data = .ok (some (exe, xref))) : PairFound exe.fileoff data xref := by
  obtain ⟨segs, -, h⟩ := bind_eq_ok_iff.mp h
  cases hexe : segs.get "__TEXT_EXEC" with
  | none =>
    rw [hexe] at h
    exact absurd (Except.ok.inj h) (Option.some_ne_none _).symm
  | some exe' =>
    rw [hexe] at h
    cases hs : findCstringStart data needle with
    | none =>
      rw [hs] at h
      exact absurd (Except.ok.inj h) (Option.some_ne_none _).symm
    | some strFoff =>
      rw [hs] at h
      obtain ⟨found, hfound, h⟩ := bind_eq_ok_iff.mp h
      cases found with
      | none => exact absurd (Except.ok.inj h) (Option.some_ne_none _).symm
      | some x =>
        obtain ⟨rfl, rfl⟩ := Prod.mk.inj (Option.some.inj (Except.ok.inj h))
        exact findXref_some hfound

/-! ## What the search depends on -/

/-- The load commands and the trace string lie below `bound`. -/
structure ProbeBelow (bound : ℕ) (data : Bytes) : Prop where
  header : 20 ≤ bound
  commands : ∀ o ∈ commandOffsets data (wordAt data 16).toNat 32, CommandBelow bound data o
  anchor : ∀ idx ∈ findSub data checkNpAnchor, idx + checkNpAnchor.length ≤ bound

/-- The same for any string. -/
structure StringBelow (needle : Bytes) (bound : ℕ) (data : Bytes) : Prop where
  header : 20 ≤ bound
  commands : ∀ o ∈ commandOffsets data (wordAt data 16).toNat 32, CommandBelow bound data o
  needle : ∀ idx ∈ findSub data needle, idx + needle.length ≤ bound

theorem ProbeBelow.string {bound : ℕ} {data : Bytes} (h : ProbeBelow bound data) :
    StringBelow checkNpAnchor bound data := ⟨h.header, h.commands, h.anchor⟩

/-- Each word at a distance of whole words from `base` is kept, or is now part of no pair. -/
structure PairsKept (base : ℕ) (data out : Bytes) : Prop where
  length_eq : out.length = data.length
  word : ∀ p, p % 4 = base % 4 → wordAt out p = wordAt data p ∨ PairFree (wordAt out p)

/-- The first pair is found where it was if its own words are kept. -/
theorem findXref_kept {data out : Bytes} {ev ef efs x : ℕ} {strVa : ℤ}
    (h : PairsKept ef data out) (hfirst : wordAt out x = wordAt data x)
    (hsecond : wordAt out (x + 4) = wordAt data (x + 4))
    (hx : findXref data ev ef efs strVa = .ok (some x)) :
    findXref out ev ef efs strVa = .ok (some x) := by
  have hlen : codeLength out ef efs = codeLength data ef efs := by
    rw [codeLength, codeLength, slice_length, slice_length, h.length_eq]
  rw [findXref_eq] at hx ⊢
  obtain ⟨i, hi, hhit, hnone⟩ := (findSome?_rangeUp (by decide) _ _).mp (Except.ok.inj hx)
  refine congrArg Except.ok ((findSome?_rangeUp (by decide) _ _).mpr ⟨i, hlen ▸ hi, ?_, ?_⟩)
  · rw [Option.ite_none_right_eq_some, Option.some_inj] at hhit
    obtain ⟨hm, rfl⟩ := hhit
    rw [hfirst, hsecond, if_pos hm]
  · intro j hj hlt
    have hno := hnone j (hlen ▸ hj) hlt
    obtain ⟨-, k, rfl⟩ := (mem_rangeUp (by decide)).mp hj
    refine if_neg fun hm => ?_
    -- a pair of the new file has both words from the old one
    have hA := (h.word (ef + k * 4) (by omega)).resolve_right fun hfree => hfree.1 hm.adrp
    have hB := (h.word (ef + k * 4 + 4) (by omega)).resolve_right fun hfree => hfree.2 hm.add
    rw [hA, hB] at hm
    rw [if_pos hm] at hno
    exact Option.some_ne_none _ hno

section Readers
variable {bound : ℕ} {data out : Bytes} (h : AgreeBelow bound data out)
include h

theorem segsFrom_congr (n off : ℕ) (segs : Segments)
    (hall : ∀ o ∈ commandOffsets data n off, CommandBelow bound data o) :
    segsFrom out n off segs = segsFrom data n off segs := by
  induction n generalizing off segs with
  | zero => rfl
  | succ n ih =>
    obtain ⟨hoff, -⟩ := hall off List.mem_cons_self
    rw [segsFrom, segsFrom, h.unpackI off (by omega), h.unpackI (off + 4) (by omega)]
    cases unpackI data off with
    | error => rfl
    | ok cmd =>
      cases hsize : unpackI data (off + 4) with
      | error => rfl
      | ok cmdsize =>
        have hrest := fun segs => ih (off + cmdsize.toNat) segs (commandOffsets_rest hsize hall)
        rw [ok_bind, ok_bind, ok_bind, ok_bind, h.slice (show off + 24 ≤ bound by omega),
          h.unpackQ (off + 24) (by omega), h.unpackQ (off + 32) (by omega),
          h.unpackQ (off + 40) (by omega), h.unpackQ (off + 48) (by omega)]
        simp only [hrest]

theorem isPrefix_congr {needle : Bytes} {i : ℕ} (hi : i + needle.length ≤ bound) :
    needle <+: out.drop i ↔ needle <+: data.drop i := by
  have hslice : ∀ d : Bytes, (d.drop i).take needle.length = slice d i (i + needle.length) :=
    fun d => by rw [slice, List.drop_take, Nat.add_sub_cancel_left]
  rw [List.prefix_iff_eq_take, List.prefix_iff_eq_take, hslice, hslice, h.slice hi]

/-- The string is found where it was. -/
theorem findSub_congr {needle : Bytes} {idx : ℕ} (hidx : findSub data needle = some idx)
    (hb : idx + needle.length ≤ bound) : findSub out needle = some idx := by
  obtain ⟨hle, hhere, hfirst⟩ := findSub_eq_some.mp hidx
  refine findSub_eq_some.mpr ⟨h.length_eq ▸ hle, (isPrefix_congr h hb).mpr hhere, fun j hj => ?_⟩
  rw [isPrefix_congr h (by omega)]
  exact hfirst j hj

theorem cstringStart_congr : ∀ idx ≤ bound, cstringStart out idx = cstringStart data idx
  | 0, _ => rfl
  | idx + 1, hle => by
      have hbyte : out.getD idx 0 = data.getD idx 0 := by
        rw [List.getD_eq_getElem?_getD, List.getD_eq_getElem?_getD, h.byte idx (by omega)]
      rw [cstringStart, cstringStart, hbyte, cstringStart_congr idx (by omega)]

theorem findCstringStart_congr {needle : Bytes} {s : ℕ}
    (hs : findCstringStart data needle = some s)
    (hb : ∀ idx ∈ findSub data needle, idx + needle.length ≤ bound) :
    findCstringStart out needle = some s := by
  obtain ⟨idx, hidx, rfl⟩ := Option.map_eq_some_iff.mp hs
  have hle := hb idx hidx
  rw [findCstringStart, findSub_congr h hidx hle, Option.map_some,
    cstringStart_congr h idx (by omega)]

theorem probeSegs_congr {needle : Bytes} (hb : StringBelow needle bound data) {segs : Segments}
    (hsegs : probeSegs data = .ok segs) : probeSegs out = .ok segs := by
  have hlow := hb.header
  obtain ⟨ncmds, hncmds, hfrom⟩ := bind_eq_ok_iff.mp hsegs
  have hall := hb.commands
  rw [wordAt_of_unpackI hncmds] at hall
  rw [probeSegs, h.unpackI 16 (by omega), hncmds, ok_bind, segsFrom_congr h _ _ _ hall, hfrom]

/-- The load of the string is found where it was. -/
theorem stringXref_congr {needle : Bytes} (hb : StringBelow needle bound data) {exe : Segment}
    {xref : ℕ} (hx : stringXref needle data = .ok (some (exe, xref))) (hpairs : PairsKept exe.fileoff data out)
    (hfirst : wordAt out xref = wordAt data xref)
    (hsecond : wordAt out (xref + 4) = wordAt data (xref + 4)) :
    stringXref needle out = .ok (some (exe, xref)) := by
  obtain ⟨segs, hsegs, hx⟩ := bind_eq_ok_iff.mp hx
  rw [stringXref, probeSegs_congr h hb hsegs, ok_bind]
  cases hexe : segs.get "__TEXT_EXEC" with
  | none =>
    rw [hexe] at hx
    exact absurd (Except.ok.inj hx) (Option.some_ne_none _).symm
  | some exe' =>
    rw [hexe] at hx
    cases hs : findCstringStart data needle with
    | none =>
      rw [hs] at hx
      exact absurd (Except.ok.inj hx) (Option.some_ne_none _).symm
    | some strFoff =>
      rw [hs] at hx
      dsimp only at hx ⊢
      obtain ⟨found, hfound, hx⟩ := bind_eq_ok_iff.mp hx
      cases found with
      | none => exact absurd (Except.ok.inj hx) (Option.some_ne_none _).symm
      | some x =>
        obtain ⟨rfl, rfl⟩ := Prod.mk.inj (Option.some.inj (Except.ok.inj hx))
        rw [findCstringStart_congr h hs hb.needle]
        dsimp only
        rw [findXref_kept hpairs hfirst hsecond hfound]
        rfl

end Readers

end SecureWorld.Patcher
