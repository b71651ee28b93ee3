import SecureWorld.Patcher.SkipAuthProbe

/-! # Stubbing the function around a string (`darwinvm_stub_fn_by_string.py`)

The tool walks back from the load of a string to an entry and writes a stub there. A stub over a
bare prologue takes away what the walk knew the function by, so only an entry with PACIBSP or a
landing pad is found again.
-/
namespace SecureWorld.Patcher
open Foundations A64
set_option autoImplicit false

/-! ## The script -/

/-- What the walk takes for an entry behind a return. -/
def isEntryWord (c : BitVec 32) : Bool :=
  c = pacibsp || c = btiC || c &&& 0x7FC003E0 = 0x298003E0 || c &&& 0x7FC003E0 = 0x290003E0

def StubByString.walkBackPrologue (data : Bytes) (foff : ℕ) : Except PyError (Option ℕ) :=
  let maxBack := 0x2000
  (rangeDown foff (foff - maxBack) 4).findSomeM? fun off => do
    let w ← unpackI data off
    if w = pacibsp ∨ w = btiC then return some off
    if isReturn w then
      let c ← unpackI data (off + 4)
      return if isEntryWord c then some (off + 4) else none
    return none

def StubByString.entry (needle data : Bytes) : Except PyError (Option ℕ) := do
  let some (_, xref) ← stringXref needle data | return none
  StubByString.walkBackPrologue data xref

def StubByString.write (data : Bytes) (fn : ℕ) (first : BitVec 32) : Except PyError Bytes :=
  if first = pacibsp then packWords data (fn + 4) [movX0Zero, retab]
  else if first = btiC then packWords data (fn + 4) [movX0Zero, ret]
  else packWords data fn [movX0Zero, ret]

/-- `stub`: the file and whether it returned `True`. -/
def StubByString.stub (needle : Bytes) (dryRun : Bool) (data : Bytes) :
    Except PyError (Bytes × Bool) := do
  let some fn ← StubByString.entry needle data | return (data, false)
  let first ← unpackI data fn
  if dryRun then return (data, true)
  let out ← StubByString.write data fn first
  return (out, true)

/-- A word that is kept may as well be written. -/
theorem StubByString.write_eq {data : Bytes} {fn : ℕ} (hfn : fn + 4 ≤ data.length) :
    StubByString.write data fn (wordAt data fn) = stubAuthRemap data fn (wordAt data fn) := by
  rw [StubByString.write, stubAuthRemap]
  refine if_ctx_congr Iff.rfl (fun hpac => ?_) fun _ => rfl
  have hself := packI_self hfn
  rw [hpac] at hself
  conv_rhs => rw [packWords, hself, ok_bind]

/-! ## The walk -/

/-- The entry the walk sees from `off`. -/
def entryFrom (data : Bytes) (off : ℕ) : Option ℕ :=
  if wordAt data off = pacibsp ∨ wordAt data off = btiC then some off
  else if isReturn (wordAt data off) ∧ isEntryWord (wordAt data (off + 4)) then some (off + 4)
  else none

/-- The first entry on the way back from `xref` is `fn`. -/
structure NearestEntry (data : Bytes) (xref off fn : ℕ) : Prop where
  window : xref - 0x2000 < off ∧ off ≤ xref
  aligned : off % 4 = xref % 4
  found : entryFrom data off = some fn
  nearest : ∀ p, off < p → p ≤ xref → p % 4 = xref % 4 → entryFrom data p = none

theorem walkBackPrologue_some_iff {data : Bytes} {xref fn : ℕ} (hx : xref + 8 ≤ data.length) :
    StubByString.walkBackPrologue data xref = .ok (some fn) ↔
      ∃ off, NearestEntry data xref off fn := by
  have hwalk : StubByString.walkBackPrologue data xref =
      .ok ((rangeDown xref (xref - 0x2000) 4).findSome? (entryFrom data)) := by
    refine findSomeM?_eq_ok fun off hoff => ?_
    obtain ⟨-, k, hk⟩ := (mem_rangeDown (by decide)).mp hoff
    rw [unpackI_ok (show off + 4 ≤ data.length by omega), ok_bind,
      unpackI_ok (show off + 4 + 4 ≤ data.length by omega), entryFrom]
    split_ifs with hentry hret hboth hboth
    · rfl
    · exact congrArg Except.ok (if_pos hboth.2)
    · exact congrArg Except.ok (if_neg fun hword => hboth ⟨hret, hword⟩)
    · exact absurd hboth.1 hret
    · rfl
  rw [hwalk, Except.ok.injEq, findSome?_rangeDown (by decide)]
  constructor
  · rintro ⟨off, hoff, hfound, hnearest⟩
    obtain ⟨hlow, k, hk⟩ := (mem_rangeDown (by decide)).mp hoff
    refine ⟨off, ⟨hlow, by omega⟩, by omega, hfound, fun p hlt hle hal => hnearest p ?_ hlt⟩
    exact (mem_rangeDown (by decide)).mpr ⟨by omega, (xref - p) / 4, by omega⟩
  · rintro ⟨off, ⟨hlow, hle⟩, hal, hfound, hnearest⟩
    refine ⟨off, (mem_rangeDown (by decide)).mpr ⟨hlow, (xref - off) / 4, by omega⟩, hfound,
      fun p hp hlt => ?_⟩
    obtain ⟨-, k, hk⟩ := (mem_rangeDown (by decide)).mp hp
    exact hnearest p hlt (by omega) (by omega)

theorem entryFrom_eq_some {data : Bytes} {off fn : ℕ} (h : entryFrom data off = some fn) :
    (off = fn ∧ (wordAt data fn = pacibsp ∨ wordAt data fn = btiC)) ∨
      off + 4 = fn ∧ isEntryWord (wordAt data fn) := by
  rw [entryFrom] at h
  split_ifs at h with hword hret
  · obtain rfl := Option.some.inj h
    exact .inl ⟨rfl, hword⟩
  · obtain rfl := Option.some.inj h
    exact .inr ⟨rfl, hret.2⟩

/-! ## The walk over its own stub -/

/-- The entry keeps its first word. -/
def Guarded (data : Bytes) (fn : ℕ) : Prop := wordAt data fn = pacibsp ∨ wordAt data fn = btiC

section Stubbed
variable {data out : Bytes} {fn : ℕ} (h : RemapStubbed data out fn)
include h

/-- Behind its first word, a guarded entry is MOV and a return now. -/
theorem RemapStubbed.guarded_words (hg : Guarded data fn) :
    wordAt out fn = wordAt data fn ∧ wordAt out (fn + 4) = movX0Zero ∧
      isReturn (wordAt out (fn + 8)) := by
  have hlays := h.lays
  rcases hg with hpac | hbti
  · have hne : pacibsp ≠ btiC := by decide
    rw [stubStart, if_neg fun hb => hne (hpac.symm.trans hb), stubWords, if_pos hpac] at hlays
    refine ⟨(hlays.word 0 (by decide)).trans hpac.symm, hlays.word 1 (by decide), ?_⟩
    have hret : wordAt out (fn + 8) = retab := hlays.word 2 (by decide)
    rw [hret]
    decide
  · have hne : btiC ≠ pacibsp := by decide
    have hkept : wordAt out fn = wordAt data fn := by
      refine wordAt_congr fun j hj => h.frame _ (.inl ?_)
      rw [stubStart, if_pos hbti]
      omega
    rw [stubStart, if_pos hbti, hbti, stubWords, if_neg hne] at hlays
    refine ⟨hkept, hlays.word 0 (by decide), ?_⟩
    have hret : wordAt out (fn + 8) = ret := hlays.word 1 (by decide)
    rw [hret]
    decide

theorem RemapStubbed.bare_word (hg : ¬ Guarded data fn) : wordAt out fn = movX0Zero := by
  have hlays := h.lays
  obtain ⟨hpac, hbti⟩ := not_or.mp hg
  rw [stubStart, if_neg hbti, stubWords, if_neg hpac] at hlays
  exact hlays.word 0 (by decide)

theorem RemapStubbed.word_behind {p : ℕ} (hp : p % 4 = fn % 4) (hle : fn + 12 ≤ p) :
    wordAt out p = wordAt data p :=
  (h.word_cases hp).resolve_right fun hin => by omega

/-- The walk finds the entry again if it has kept its first word and the stub's return is not
followed by what the walk takes for another entry. -/
theorem RemapStubbed.found_again_iff {xref off : ℕ} (hnear : NearestEntry data xref off fn)
    (hroom : fn + 12 ≤ xref) : (∃ off', NearestEntry out xref off' fn) ↔
      Guarded data fn ∧ ¬ isEntryWord (wordAt data (fn + 12)) := by
  have hoff : off ≤ fn ∧ fn % 4 = xref % 4 := by
    have hal := hnear.aligned
    rcases entryFrom_eq_some hnear.found with ⟨rfl, -⟩ | ⟨rfl, -⟩ <;> omega
  obtain ⟨hle, hal⟩ := hoff
  have hwindow := hnear.window.1
  have hbehind : wordAt out (fn + 12) = wordAt data (fn + 12) := h.word_behind (by omega) le_rfl
  constructor
  · rintro ⟨off', hagain⟩
    have hlow := hagain.window.1
    have hoff' : off' ≤ fn ∧ (wordAt out fn = pacibsp ∨ wordAt out fn = btiC ∨
        isEntryWord (wordAt out fn)) := by
      rcases entryFrom_eq_some hagain.found with ⟨rfl, hword⟩ | ⟨hnext, hword⟩
      · exact ⟨le_rfl, hword.imp_right .inl⟩
      · exact ⟨by omega, .inr (.inr hword)⟩
    have hg : Guarded data fn := by
      by_contra hbare
      rw [h.bare_word hbare] at hoff'
      exact absurd hoff'.2 (by decide)
    refine ⟨hg, fun hentry => ?_⟩
    obtain ⟨-, -, hret⟩ := h.guarded_words hg
    -- the walk would stop at the stub's return and take the next word
    have hnone := hagain.nearest (fn + 8) (by omega) (by omega) (by omega)
    rw [← hbehind] at hentry
    rw [entryFrom] at hnone
    split_ifs at hnone with hword hboth
    exact hboth ⟨hret, hentry⟩
  · rintro ⟨hg, hentry⟩
    obtain ⟨hfirst, hmov, hret⟩ := h.guarded_words hg
    refine ⟨fn, ⟨by omega, by omega⟩, hal, ?_, fun p hlt hple hpal => ?_⟩
    · rw [entryFrom, hfirst]
      exact if_pos hg
    · by_cases hstub : fn + 12 ≤ p
      · have hold := hnear.nearest p (by omega) hple hpal
        rw [entryFrom] at hold ⊢
        rwa [h.word_behind (by omega) hstub, h.word_behind (by omega) (by omega)]
      · rw [entryFrom]
        rcases (by omega : p = fn + 4 ∨ p = fn + 8) with rfl | rfl
        · rw [hmov]
          exact (if_neg (by decide)).trans (if_neg fun hboth => absurd hboth.1 (by decide))
        · have hguard : ¬ (wordAt out (fn + 8) = pacibsp ∨ wordAt out (fn + 8) = btiC) := by
            rintro (hw | hw) <;> exact absurd (hw ▸ hret) (by decide)
          rw [if_neg hguard, if_neg fun hboth => hentry (hbehind ▸ hboth.2)]

end Stubbed

/-! ## The run -/

/-- A run that writes stubs the nearest entry before the load of the string, and the function
returns 0. With headers and string in front of the function and the load behind the stub, a second
run finds the function exactly if it starts with PACIBSP or a landing pad and the stub's return is
not followed by another entry; then it writes the same file again. -/
theorem stub_found_again_iff (needle data out : Bytes)
    (h : StubByString.stub needle false data = .ok (out, true)) :
    ∃ exe xref off fn, stringXref needle data = .ok (some (exe, xref)) ∧
      NearestEntry data xref off fn ∧ RemapStubbed data out fn ∧
      (∀ {ω : Type} (env : Env ω) (m : Machine ω),
        m.mem.Holds m.pc (slice out (stubStart data fn) (stubStart data fn + stubSize data fn)) →
          env.auth (env.sign (m.x 30) (m.x 31)) (m.x 31) = m.x 30 → ReturnsZero env m) ∧
      (fn + 12 ≤ xref → StringBelow needle fn data →
        (StubByString.entry needle out = .ok (some fn) ↔
          Guarded data fn ∧ ¬ isEntryWord (wordAt data (fn + 12))) ∧
        (Guarded data fn → ¬ isEntryWord (wordAt data (fn + 12)) →
          StubByString.stub needle false out = .ok (out, true))) := by
  obtain ⟨entry, hentry, h⟩ := bind_eq_ok_iff.mp h
  obtain _ | fn := entry
  · exact absurd (Prod.mk.inj (Except.ok.inj h)).2 Bool.false_ne_true
  dsimp only at h
  obtain ⟨first, hfirst, h⟩ := bind_eq_ok_iff.mp h
  have hfn : fn + 4 ≤ data.length := fits_of_unpackI hfirst
  obtain rfl := wordAt_of_unpackI hfirst
  rw [if_neg Bool.false_ne_true] at h
  obtain ⟨out', hwritten, h⟩ := bind_eq_ok_iff.mp h
  obtain rfl := (Prod.mk.inj (Except.ok.inj h)).1
  rw [StubByString.write_eq hfn] at hwritten
  have hstub := remapStubbed_of_written hfn hwritten
  obtain ⟨found, hfound, hwalk⟩ := bind_eq_ok_iff.mp hentry
  obtain _ | ⟨exe, xref⟩ := found
  · exact absurd (Except.ok.inj hwalk) (Option.some_ne_none _).symm
  dsimp only at hwalk
  have hpair := stringXref_some hfound
  obtain ⟨off, hnear⟩ := (walkBackPrologue_some_iff hpair.fits).mp hwalk
  refine ⟨exe, xref, off, fn, hfound, hnear, hstub,
    fun env m hmem hauth => stub_returns hstub.lays hmem hauth, fun hroom hbelow => ?_⟩
  have hal : fn % 4 = exe.fileoff % 4 := by
    have hoff := hnear.aligned
    have hxal := hpair.aligned
    rcases entryFrom_eq_some hnear.found with ⟨rfl, -⟩ | ⟨rfl, -⟩ <;> omega
  have hxal := hpair.aligned
  have hxref : stringXref needle out' = .ok (some (exe, xref)) :=
    stringXref_congr hstub.agreeBelow hbelow hfound (hstub.pairsKept hal)
      (hstub.word_behind (by omega) hroom) (hstub.word_behind (by omega) (by omega))
  have hfits : xref + 8 ≤ out'.length := hstub.length_eq ▸ hpair.fits
  have hagain : StubByString.entry needle out' = .ok (some fn) ↔
      Guarded data fn ∧ ¬ isEntryWord (wordAt data (fn + 12)) := by
    rw [StubByString.entry, hxref, ok_bind]
    exact (walkBackPrologue_some_iff hfits).trans (hstub.found_again_iff hnear hroom)
  refine ⟨hagain, fun hg hword => ?_⟩
  have hfn' : fn + 4 ≤ out'.length := hstub.length_eq ▸ hfn
  rw [StubByString.stub, hagain.mpr ⟨hg, hword⟩, ok_bind]
  dsimp only
  rw [unpackI_ok hfn', ok_bind, if_neg Bool.false_ne_true, StubByString.write_eq hfn',
    hstub.restub]
  rfl

/-- A kernel with a string at 176 and code at 232: a return, and a function of `entry` that loads the
string. -/
def bareImage (entry : List (BitVec 32)) : Bytes :=
  le32 0xFEEDFACF ++ List.replicate 12 0 ++ le32 2 ++ List.replicate 12 0 ++
    segmentCommand "__TEXT" 0 232 ++ segmentCommand "__TEXT_EXEC" 232 36 ++ checkNpAnchor ++
    List.replicate 3 0 ++
    (0xD503201F :: ret :: entry ++ [0xD503201F, 0x90000000, 0x9102C000, ret, 0xD503201F]).flatMap
      fun w => le32 w.toNat

theorem stub_found_again_iff_bare :
    StubByString.entry checkNpAnchor (bareImage [movX0Zero, ret]) = .ok none ∧
      ∃ exe xref off fn,
        stringXref checkNpAnchor (bareImage [0xA9BF7BFD, 0xD503201F]) = .ok (some (exe, xref)) ∧
        NearestEntry (bareImage [0xA9BF7BFD, 0xD503201F]) xref off fn ∧
        RemapStubbed (bareImage [0xA9BF7BFD, 0xD503201F]) (bareImage [movX0Zero, ret]) fn ∧
        (∀ {ω : Type} (env : Env ω) (m : Machine ω),
          m.mem.Holds m.pc (slice (bareImage [movX0Zero, ret])
              (stubStart (bareImage [0xA9BF7BFD, 0xD503201F]) fn)
              (stubStart (bareImage [0xA9BF7BFD, 0xD503201F]) fn +
                stubSize (bareImage [0xA9BF7BFD, 0xD503201F]) fn)) →
            env.auth (env.sign (m.x 30) (m.x 31)) (m.x 31) = m.x 30 → ReturnsZero env m) ∧
        (fn + 12 ≤ xref → StringBelow checkNpAnchor fn (bareImage [0xA9BF7BFD, 0xD503201F]) →
          (StubByString.entry checkNpAnchor (bareImage [movX0Zero, ret]) = .ok (some fn) ↔
            Guarded (bareImage [0xA9BF7BFD, 0xD503201F]) fn ∧
              ¬ isEntryWord (wordAt (bareImage [0xA9BF7BFD, 0xD503201F]) (fn + 12))) ∧
          (Guarded (bareImage [0xA9BF7BFD, 0xD503201F]) fn →
            ¬ isEntryWord (wordAt (bareImage [0xA9BF7BFD, 0xD503201F]) (fn + 12)) →
            StubByString.stub checkNpAnchor false (bareImage [movX0Zero, ret]) =
              .ok (bareImage [movX0Zero, ret], true))) :=
  ⟨by decide +kernel,
    stub_found_again_iff checkNpAnchor (bareImage [0xA9BF7BFD, 0xD503201F])
      (bareImage [movX0Zero, ret]) (by decide +kernel)⟩

end SecureWorld.Patcher
