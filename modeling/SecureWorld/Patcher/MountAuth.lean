import SecureWorld.Patcher.SsvTargets
import SecureWorld.Patcher.VerifiedPatches
import SecureWorld.Patcher.XrefCompleteness

/-! # The anchor of the mount patch

The root-hash predicate is found by its name: the first string with the name in it, the first pair
that loads that string, the entry found from that pair. A later string or pair is not tried, and of
the two names the generic one is a prefix of the other.
-/
namespace SecureWorld.Patcher
open Foundations Armv8
set_option autoImplicit false

/-! ## The first string with the needle in it -/

structure FirstOccurrence (region needle : Bytes) (idx : ℕ) : Prop where
  le_length : idx ≤ region.length
  here : needle <+: region.drop idx
  first : ∀ j < idx, ¬ needle <+: region.drop j

/-- The C string around `idx` starts at `start`. -/
structure StringStart (region : Bytes) (start idx : ℕ) : Prop where
  le : start ≤ idx
  bound : start = 0 ∨ region.getD (start - 1) 0 = 0
  inside : ∀ k, start ≤ k → k < idx → region.getD k 0 ≠ 0

/-- `s` is where the first string of the section that contains the needle starts. -/
def FirstString (data : Bytes) (text : Segment) (needle : Bytes) (s : ℕ) : Prop :=
  let region := slice data text.fileoff (text.fileoff + text.filesize)
  ∃ start idx, FirstOccurrence region needle idx ∧ StringStart region start idx ∧
    s = text.fileoff + start

theorem findSub_eq_some {region needle : Bytes} {idx : ℕ} :
    findSub region needle = some idx ↔ FirstOccurrence region needle idx := by
  rw [findSub, List.find?_range_eq_some, List.isPrefixOf_iff_prefix, List.mem_range]
  constructor
  · rintro ⟨hhere, hlt, hfirst⟩
    refine ⟨by omega, hhere, fun j hj hpre => ?_⟩
    have hnot := hfirst j hj
    rw [List.isPrefixOf_iff_prefix.mpr hpre] at hnot
    exact Bool.false_ne_true hnot
  · rintro ⟨hle, hhere, hfirst⟩
    refine ⟨hhere, by omega, fun j hj => ?_⟩
    rw [Bool.not_eq_true', ← Bool.not_eq_true, List.isPrefixOf_iff_prefix]
    exact hfirst j hj

theorem cstringStart_spec (region : Bytes) : ∀ idx : ℕ,
    StringStart region (cstringStart region idx) idx
  | 0 => ⟨le_rfl, .inl rfl, fun _ _ hk => absurd hk (Nat.not_lt_zero _)⟩
  | idx + 1 => by
      rw [cstringStart]
      split_ifs with hbyte
      · obtain ⟨hle, hbound, hinside⟩ := cstringStart_spec region idx
        refine ⟨hle.trans (Nat.le_succ idx), hbound, fun k hlo hhi => ?_⟩
        rcases Nat.lt_succ_iff_lt_or_eq.mp hhi with hlt | rfl
        · exact hinside k hlo hlt
        · exact hbyte
      · exact ⟨le_rfl, .inr (not_not.mp hbyte), fun k hlo hhi => absurd hhi (Nat.not_lt.mpr hlo)⟩

theorem StringStart.unique {region : Bytes} {a b idx : ℕ} (ha : StringStart region a idx)
    (hb : StringStart region b idx) : a = b := by
  by_contra hne
  rcases Nat.lt_or_gt_of_ne hne with hlt | hlt
  · have hbyte := hb.bound.resolve_left (by omega)
    exact ha.inside (b - 1) (by omega) (by have hle := hb.le; omega) hbyte
  · have hbyte := ha.bound.resolve_left (by omega)
    exact hb.inside (a - 1) (by omega) (by have hle := ha.le; omega) hbyte

theorem findStringInSection_iff {data : Bytes} {text : Segment} {needle : Bytes} {s : ℕ} :
    findStringInSection data text.fileoff text.filesize needle = some s ↔
      FirstString data text needle s := by
  rw [findStringInSection, Option.map_eq_some_iff]
  constructor
  · rintro ⟨idx, hidx, rfl⟩
    exact ⟨_, idx, findSub_eq_some.mp hidx, cstringStart_spec _ idx, rfl⟩
  · rintro ⟨start, idx, hidx, hstart, rfl⟩
    refine ⟨idx, findSub_eq_some.mpr hidx, ?_⟩
    rw [(cstringStart_spec _ idx).unique hstart]

/-! ## The lowest pair -/

/-- `x` is the lowest pair before the last two slots that passes the finder's tests. -/
structure LowestPair (data : Bytes) (exec : Segment) (strVa x : ℕ) : Prop where
  mapped : exec.fileoff ≤ x
  aligned : (x - exec.fileoff) % 4 = 0
  early : x - exec.fileoff + 8 < codeLength data exec.fileoff exec.filesize
  pair : MatchAt data exec.vmaddr exec.fileoff strVa (x - exec.fileoff)
  lowest : ∀ j, j % 4 = 0 → j < x - exec.fileoff →
    ¬ MatchAt data exec.vmaddr exec.fileoff strVa j

theorem firstMatch_iff {data : Bytes} {exec : Segment} {strVa x : ℕ} :
    firstMatch data exec strVa = some x ↔ LowestPair data exec strVa x := by
  rw [firstMatch, findSome?_rangeUp (by decide)]
  constructor
  · rintro ⟨i, hi, hfound, hfirst⟩
    obtain ⟨hlt, k, rfl⟩ := (mem_rangeUp (by decide)).mp hi
    obtain ⟨hmatch, hx⟩ := Option.ite_none_right_eq_some.mp hfound
    obtain rfl := Option.some.inj hx
    have hoff : exec.fileoff + k * 4 - exec.fileoff = k * 4 := by omega
    refine ⟨by omega, by omega, by omega, hoff.symm ▸ hmatch, fun j hj hjlt hjm => ?_⟩
    have hnone := hfirst j ((mem_rangeUp (by decide)).mpr ⟨by omega, j / 4, by omega⟩) (by omega)
    rw [if_pos hjm] at hnone
    exact absurd hnone (Option.some_ne_none _)
  · rintro ⟨hmapped, haligned, hearly, hpair, hlowest⟩
    refine ⟨x - exec.fileoff, (mem_rangeUp (by decide)).mpr ⟨by omega, (x - exec.fileoff) / 4,
      by omega⟩, ?_, fun j hj hjlt => ?_⟩
    · rw [if_pos hpair, Nat.add_sub_cancel' hmapped]
    · obtain ⟨-, k, rfl⟩ := (mem_rangeUp (by decide)).mp hj
      exact if_neg (hlowest _ (by omega) hjlt)

/-! ## Anchors -/

/-- The two segments of the apfs kext that the patch works on. -/
def ApfsSegments (data : Bytes) (text exec : Segment) : Prop :=
  ∃ kextFileoff kextVmaddr segs,
    parseFilesetEntry data apfsKext = .ok (some (kextFileoff, kextVmaddr)) ∧
      parseKextSegments data kextFileoff = .ok segs ∧
      segs.get "__TEXT" = some text ∧ segs.get "__TEXT_EXEC" = some exec

/-- The needle leads to the string at `s`, the pair at `x` and the entry at `f`. -/
structure Anchor (data : Bytes) (text exec : Segment) (needle : String) (s x f : ℕ) : Prop where
  string : FirstString data text (asciiBytes needle) s
  pair : LowestPair data exec (text.vmaddr + (s - text.fileoff)) x
  entry : walkBackToPrologue data x = .ok (some f)

theorem ApfsSegments.kextAnchor_eq {data : Bytes} {text exec : Segment}
    (h : ApfsSegments data text exec) (needle : String) :
    kextAnchor data apfsKext needle =
      .ok ((findStringInSection data text.fileoff text.filesize (asciiBytes needle)).map
        fun s => (exec, text.vmaddr + (s - text.fileoff))) := by
  obtain ⟨kextFileoff, kextVmaddr, segs, hentry, hsegs, ht, he⟩ := h
  rw [kextAnchor, hentry, ok_bind]
  dsimp only
  rw [hsegs, ok_bind, ht]
  dsimp only
  rw [he]
  dsimp only
  cases findStringInSection data text.fileoff text.filesize (asciiBytes needle) <;> rfl

theorem entryOf_iff {data : Bytes} {text exec : Segment} {needle : String} {f : ℕ} :
    entryOf data ((findStringInSection data text.fileoff text.filesize (asciiBytes needle)).map
        fun s => (exec, text.vmaddr + (s - text.fileoff))) = some f ↔
      ∃ s x, Anchor data text exec needle s x f := by
  rw [entryOf, pairOf, Option.bind_eq_some_iff]
  constructor
  · rintro ⟨x, hx, hnear⟩
    obtain ⟨a, ha, hmatch⟩ := Option.bind_eq_some_iff.mp hx
    obtain ⟨s, hs, rfl⟩ := Option.map_eq_some_iff.mp ha
    refine ⟨s, x, findStringInSection_iff.mp hs, firstMatch_iff.mp hmatch, ?_⟩
    rw [(pairAt_of_firstMatch hmatch).walk, hnear]
  · rintro ⟨s, x, hs, hpair, hentry⟩
    have hmatch := firstMatch_iff.mpr hpair
    rw [(pairAt_of_firstMatch hmatch).walk] at hentry
    refine ⟨x, ?_, Except.ok.inj hentry⟩
    rw [findStringInSection_iff.mpr hs, Option.map_some, Option.bind_some]
    exact hmatch

theorem apfsFuncReturn_cases {data : Bytes} {text exec : Segment} (h : ApfsSegments data text exec)
    (needle : String) :
    (∃ s x f out, Anchor data text exec needle s x f ∧
        patchApfsFuncReturn data needle = .ok (out, true) ∧ PatchedExactly data out [f]) ∨
      (∀ s x f, ¬ Anchor data text exec needle s x f) ∧
        patchApfsFuncReturn data needle = .ok (data, false) := by
  have hrun := patchApfsFuncReturn_eq (h.kextAnchor_eq needle)
  cases hentry : entryOf data ((findStringInSection data text.fileoff text.filesize
      (asciiBytes needle)).map fun s => (exec, text.vmaddr + (s - text.fileoff))) with
  | none =>
    rw [hentry] at hrun
    refine .inr ⟨fun s x f hanchor => ?_, hrun⟩
    have hsome := entryOf_iff.mpr ⟨s, x, hanchor⟩
    exact absurd (hentry.symm.trans hsome) (Option.some_ne_none f).symm
  | some f =>
    rw [hentry] at hrun
    obtain ⟨s, x, hanchor⟩ := entryOf_iff.mp hentry
    have hmatch := firstMatch_iff.mpr hanchor.pair
    have hsite : Site data exec x f := by
      refine ⟨pairAt_of_firstMatch hmatch, ?_⟩
      have hwalk := hanchor.entry
      rw [(pairAt_of_firstMatch hmatch).walk] at hwalk
      exact Except.ok.inj hwalk
    obtain ⟨out, hstub, hpatched⟩ := stub_next (patchedExactly_nil data)
      (fun _ hf => absurd hf List.not_mem_nil) hsite (fun _ hf => absurd hf List.not_mem_nil)
    exact .inl ⟨s, x, f, out, hanchor, hrun.trans hstub, hpatched⟩

theorem Anchor.unique {data : Bytes} {text exec : Segment} {needle : String} {s x f s' x' f' : ℕ}
    (h : Anchor data text exec needle s x f) (h' : Anchor data text exec needle s' x' f') :
    f = f' := by
  have hf := entryOf_iff.mpr ⟨s, x, h⟩
  have hf' := entryOf_iff.mpr ⟨s', x', h'⟩
  exact Option.some.inj (hf.symm.trans hf')

/-! ## The two names -/

/-- What the patch does to the code, by the anchors of the two names. -/
structure MountAuthStubs (data : Bytes) (text exec : Segment) : Prop where
  ios : ∀ s x f, Anchor data text exec rootHashIosNeedle s x f →
    ∃ out, patchApfsVfsopMountAuth data = .ok (out, true) ∧ PatchedExactly data out [f]
  fallback : (∀ s x f, ¬ Anchor data text exec rootHashIosNeedle s x f) →
    ∀ s x f, Anchor data text exec rootHashNeedle s x f →
      ∃ out, patchApfsVfsopMountAuth data = .ok (out, true) ∧ PatchedExactly data out [f]
  sound : ∀ out, patchApfsVfsopMountAuth data = .ok (out, true) →
    ∃ needle ∈ [rootHashIosNeedle, rootHashNeedle], ∃ s x f,
      Anchor data text exec needle s x f ∧ PatchedExactly data out [f]

/-- The patch stubs the function that the first string with the iOS name in it leads to, else the
one that the first string with the generic name leads to, and no other. -/
theorem mountAuth_stubs_anchor (data : Bytes) (text exec : Segment)
    (h : ApfsSegments data text exec) : MountAuthStubs data text exec := by
  rcases apfsFuncReturn_cases h rootHashIosNeedle with
    ⟨s, x, f, out, hanchor, hios, hpatched⟩ | ⟨hnone, hios⟩
  · have hrun : patchApfsVfsopMountAuth data = .ok (out, true) := by
      rw [patchApfsVfsopMountAuth, hios]
      rfl
    refine ⟨fun s' x' f' hanchor' => ?_, fun hno => absurd hanchor (hno s x f), fun out' hout => ?_⟩
    · rw [hanchor'.unique hanchor]
      exact ⟨out, hrun, hpatched⟩
    · obtain ⟨rfl, -⟩ := Prod.mk.inj (Except.ok.inj (hrun.symm.trans hout))
      exact ⟨rootHashIosNeedle, List.mem_cons_self, s, x, f, hanchor, hpatched⟩
  · have hrun : patchApfsVfsopMountAuth data = patchApfsFuncReturn data rootHashNeedle := by
      rw [patchApfsVfsopMountAuth, hios]
      rfl
    refine ⟨fun s x f hanchor => absurd hanchor (hnone s x f), fun _ s' x' f' hanchor' => ?_,
      fun out' hout => ?_⟩
    · rcases apfsFuncReturn_cases h rootHashNeedle with
        ⟨s, x, f, out, hanchor, hgeneric, hpatched⟩ | ⟨hno, -⟩
      · rw [hanchor'.unique hanchor]
        exact ⟨out, hrun.trans hgeneric, hpatched⟩
      · exact absurd hanchor' (hno s' x' f')
    · have hout' := hrun.symm.trans hout
      rcases apfsFuncReturn_cases h rootHashNeedle with
        ⟨s, x, f, out, hanchor, hgeneric, hpatched⟩ | ⟨-, hgeneric⟩
      · obtain ⟨rfl, -⟩ := Prod.mk.inj (Except.ok.inj (hgeneric.symm.trans hout'))
        exact ⟨rootHashNeedle, by simp, s, x, f, hanchor, hpatched⟩
      · obtain ⟨-, hfalse⟩ := Prod.mk.inj (Except.ok.inj (hgeneric.symm.trans hout'))
        exact absurd hfalse Bool.false_ne_true

/-! ## Usable anchors that are not found -/

/-- A string that is the name, a pair that forms its address, and an entry before the pair. -/
structure UsableAnchor (data : Bytes) (text exec : Segment) (name : String) (s i f : ℕ) : Prop where
  mapped : text.fileoff ≤ s ∧ s + (asciiBytes name).length < text.fileoff + text.filesize
  start : s = text.fileoff ∨ data[s - 1]? = some 0
  string : slice data s (s + (asciiBytes name).length + 1) = asciiBytes name ++ [0]
  early : i % 4 = 0 ∧ i + 8 < codeLength data exec.fileoff exec.filesize
  pair : AddressPair data exec.vmaddr exec.fileoff (text.vmaddr + (s - text.fileoff)) i
  entry : walkBackToPrologue data (exec.fileoff + i) = .ok (some f)

/-- A fileset with apfs at 96, 80 bytes of strings at 272 and the code at 352. -/
def apfsImage (strings : Bytes) (code : List (BitVec 32)) : Bytes :=
  le32 0xFEEDFACF ++ List.replicate 8 0 ++ le32 12 ++ le32 1 ++ List.replicate 12 0 ++
    (le32 0x80000035 ++ le32 64 ++ le64 0x1060 ++ le64 96 ++ le32 32 ++ le32 0 ++
      asciiBytes apfsKext ++ List.replicate 6 0) ++
    (le32 0xFEEDFACF ++ List.replicate 12 0 ++ le32 2 ++ List.replicate 12 0) ++
    segmentCommand "__TEXT" 272 80 ++ segmentCommand "__TEXT_EXEC" 352 (4 * code.length) ++
    strings ++ List.replicate (80 - strings.length) 0 ++ code.flatMap fun w => le32 w.toNat

def apfsText : Segment := ⟨0x1110, 80, 272, 80⟩

def apfsExec (words : ℕ) : Segment := ⟨0x1160, 4 * words, 352, 4 * words⟩

/-- The generic name behind a string that contains it, and `pacibsp; adrp; add; retab`. -/
def containedNameImage : Bytes :=
  apfsImage (asciiBytes "no " ++ asciiBytes rootHashNeedle ++ [0] ++ asciiBytes rootHashNeedle ++
    [0]) [pacibsp, 0x90000000, 0x9104E000, retab]

/-- The generic name in a pair before every function, and in `pacibsp; adrp; add; retab`. -/
def earlyPairImage : Bytes :=
  apfsImage (asciiBytes rootHashNeedle ++ [0])
    [0x90000000, 0x91044000, pacibsp, 0x90000000, 0x91044000, retab]

theorem containedNameImage_segments : ApfsSegments containedNameImage apfsText (apfsExec 4) := by
  refine ⟨96, 0x1060, [("__TEXT_EXEC".toList, apfsExec 4), ("__TEXT".toList, apfsText)],
    ?_, ?_, ?_, ?_⟩
  all_goals decide +kernel

theorem earlyPairImage_segments : ApfsSegments earlyPairImage apfsText (apfsExec 6) := by
  refine ⟨96, 0x1060, [("__TEXT_EXEC".toList, apfsExec 6), ("__TEXT".toList, apfsText)],
    ?_, ?_, ?_, ?_⟩
  all_goals decide +kernel

theorem containedNameImage_stubs : MountAuthStubs containedNameImage apfsText (apfsExec 4) :=
  mountAuth_stubs_anchor containedNameImage apfsText (apfsExec 4) containedNameImage_segments

theorem usableAnchor_of_words {data : Bytes} {text exec : Segment} {name : String} {s i f : ℕ}
    (hstring : (text.fileoff ≤ s ∧ s + (asciiBytes name).length < text.fileoff + text.filesize) ∧
      (s = text.fileoff ∨ data[s - 1]? = some 0) ∧
      slice data s (s + (asciiBytes name).length + 1) = asciiBytes name ++ [0])
    (hcode : (i % 4 = 0 ∧ i + 8 < codeLength data exec.fileoff exec.filesize) ∧
      MatchAt data exec.vmaddr exec.fileoff (text.vmaddr + (s - text.fileoff)) i ∧
      rnOf (wordAt data (exec.fileoff + i + 4)) = rdOf (wordAt data (exec.fileoff + i)) ∧
      rdOf (wordAt data (exec.fileoff + i)) ≠ 31 ∧
      walkBackToPrologue data (exec.fileoff + i) = .ok (some f)) :
    UsableAnchor data text exec name s i f := by
  obtain ⟨hmapped, hstart, hbytes⟩ := hstring
  obtain ⟨hearly, hmatch, hbase, hzr, hentry⟩ := hcode
  have haddress : pageOf (BitVec.ofNat 64 (exec.vmaddr + (exec.fileoff + i - exec.fileoff))) +
        (((wordAt data (exec.fileoff + i)).extractLsb' 5 19 ++
          (wordAt data (exec.fileoff + i)).extractLsb' 29 2) ++ 0#12).signExtend 64 +
        ((wordAt data (exec.fileoff + i + 4)).extractLsb' 10 12).setWidth 64 =
      BitVec.ofNat 64 (text.vmaddr + (s - text.fileoff)) := by
    rw [Nat.add_sub_cancel_left]
    exact hmatch.address
  refine ⟨hmapped, hstart, hbytes, hearly, ⟨hmatch.adrp, hmatch.add, hbase, ?_⟩, hentry⟩
  exact (pair_materialises_iff hmatch.adrp hmatch.add haddress).mpr ⟨hbase, hzr⟩

theorem containedNameImage_usable :
    UsableAnchor containedNameImage apfsText (apfsExec 4) rootHashNeedle 312 4 352 :=
  usableAnchor_of_words (by decide +kernel) (by decide +kernel)

theorem earlyPairImage_usable :
    UsableAnchor earlyPairImage apfsText (apfsExec 6) rootHashNeedle 272 12 360 :=
  usableAnchor_of_words (by decide +kernel) (by decide +kernel)

/-- Both images have a usable anchor, and the patch gives up on both. -/
theorem usable_anchor_not_found :
    (ApfsSegments containedNameImage apfsText (apfsExec 4) ∧
      UsableAnchor containedNameImage apfsText (apfsExec 4) rootHashNeedle 312 4 352 ∧
      patchApfsVfsopMountAuth containedNameImage = .ok (containedNameImage, false)) ∧
    ApfsSegments earlyPairImage apfsText (apfsExec 6) ∧
      UsableAnchor earlyPairImage apfsText (apfsExec 6) rootHashNeedle 272 12 360 ∧
      patchApfsVfsopMountAuth earlyPairImage = .ok (earlyPairImage, false) :=
  ⟨⟨containedNameImage_segments, containedNameImage_usable, by decide +kernel⟩,
    earlyPairImage_segments, earlyPairImage_usable, by decide +kernel⟩

end SecureWorld.Patcher
