import SecureWorld.Kernelcache.BranchScan
import SecureWorld.Patcher.MisplacedStub
import SecureWorld.Patcher.GateEdits
import SecureWorld.Patcher.ProbeReaders
import SecureWorld.Patcher.StubRuns

/-! # Skipping the remap of the authenticated pages (`darwinvm_probe_skipauthremap.py`)

The probe follows the last call in front of the trace whose result goes to x8, and has the called
function return 0. A landing pad at its entry stays there.
-/
namespace SecureWorld.Patcher
open Foundations A64 Kernelcache
set_option autoImplicit false

/-! ## The script -/

def movX8X0 : BitVec 32 := 0xAA0003E8

def btiC : BitVec 32 := 0xD503245F

/-- `_va_to_foff` -/
def vaToFoff (segs : Segments) (va : ℤ) : Option ℕ :=
  (segs.find? fun (_, s) =>
      s.vmaddr ≤ va ∧ va < s.vmaddr + s.vmsize ∧ va - s.vmaddr < s.filesize).map fun (_, s) =>
    s.fileoff + (va - s.vmaddr).toNat

def blTarget (insnWord : BitVec 32) (pc : ℕ) : ℤ :=
  if insnWord &&& 0xFC000000 ≠ 0x94000000 then -1 else pc + branchImm insnWord * 4

/-- The target of the call, from the trace backwards. -/
def findAuthRemap (data : Bytes) (exe : Segment) (xref : ℕ) : Except PyError (Option ℤ) :=
  (rangeDown (xref - 4) (max (xref - 0x100) exe.fileoff) 4).findSomeM? fun off => do
    let w ← unpackI data off
    let t := blTarget w (exe.vmaddr + (off - exe.fileoff))
    if t ≠ -1 ∧ off + 4 < data.length then
      let next ← unpackI data (off + 4)
      return if next = movX8X0 then some t else none
    return none

/-- Where in the file the called function is. -/
def authRemapEntry (data : Bytes) : Except PyError (Option ℕ) := do
  let some (exe, xref) ← checkNpXref data | return none
  let some target ← findAuthRemap data exe xref | return none
  if target < 0 then return none
  let segs ← probeSegs data
  return vaToFoff segs target

def stubAuthRemap (data : Bytes) (fn : ℕ) (first : BitVec 32) : Except PyError Bytes :=
  if first = pacibsp then packWords data fn [pacibsp, movX0Zero, retab]
  else if first = btiC then packWords data (fn + 4) [movX0Zero, ret]
  else packWords data fn [movX0Zero, ret]

/-- `probe`: the file and whether it returned `True`. -/
def skipAuthProbe (dryRun : Bool) (data : Bytes) : Except PyError (Bytes × Bool) := do
  let some fn ← authRemapEntry data | return (data, false)
  let first ← unpackI data fn
  if dryRun then return (data, true)
  let out ← stubAuthRemap data fn first
  return (out, true)

/-! ## The call -/

def callAddress (exe : Segment) (off : ℕ) : ℕ := exe.vmaddr + (off - exe.fileoff)

/-- The word at `p` calls a function whose result the next word moves to x8. -/
def ResultToX8 (data : Bytes) (exe : Segment) (p : ℕ) : Prop :=
  blTarget (wordAt data p) (callAddress exe p) ≠ -1 ∧ wordAt data (p + 4) = movX8X0

instance (data : Bytes) (exe : Segment) (p : ℕ) : Decidable (ResultToX8 data exe p) :=
  inferInstanceAs (Decidable (_ ∧ _))

/-- The last such call in the words in front of the trace. -/
structure RemapCall (data : Bytes) (exe : Segment) (xref off : ℕ) (target : ℤ) : Prop where
  window : max (xref - 0x100) exe.fileoff < off
  before : off + 4 ≤ xref
  aligned : off % 4 = xref % 4
  calls : ResultToX8 data exe off
  target_eq : blTarget (wordAt data off) (callAddress exe off) = target
  last : ∀ p, off < p → p + 4 ≤ xref → p % 4 = xref % 4 → ¬ ResultToX8 data exe p

theorem findAuthRemap_eq {data : Bytes} {exe : Segment} {xref : ℕ} (hx : xref + 4 ≤ data.length) :
    findAuthRemap data exe xref =
      .ok ((rangeDown (xref - 4) (max (xref - 0x100) exe.fileoff) 4).findSome? fun off =>
        if ResultToX8 data exe off then
          some (blTarget (wordAt data off) (callAddress exe off)) else none) := by
  refine findSomeM?_eq_ok fun off hoff => ?_
  obtain ⟨hlow, k, hk⟩ := (mem_rangeDown (by decide)).mp hoff
  rw [unpackI_ok (show off + 4 ≤ data.length by omega), ok_bind]
  dsimp only
  by_cases hbl : blTarget (wordAt data off) (callAddress exe off) ≠ -1
  · rw [if_pos ⟨hbl, by omega⟩, unpackI_ok (show off + 4 + 4 ≤ data.length by omega), ok_bind]
    exact congrArg Except.ok (if_congr ⟨fun h => ⟨hbl, h⟩, And.right⟩ rfl rfl)
  · rw [if_neg fun h => hbl h.1, if_neg fun h : ResultToX8 data exe off => hbl h.1]
    rfl

theorem remapCall_of_found {data : Bytes} {exe : Segment} {xref : ℕ} {target : ℤ}
    (hx : xref + 4 ≤ data.length) (h : findAuthRemap data exe xref = .ok (some target)) :
    ∃ off, RemapCall data exe xref off target := by
  rw [findAuthRemap_eq hx] at h
  obtain ⟨off, hoff, hhit, hlast⟩ := (findSome?_rangeDown (by decide) _ _).mp (Except.ok.inj h)
  rw [Option.ite_none_right_eq_some, Option.some_inj] at hhit
  obtain ⟨hcalls, htarget⟩ := hhit
  obtain ⟨hlow, k, hk⟩ := (mem_rangeDown (by decide)).mp hoff
  refine ⟨off, hlow, by omega, by omega, hcalls, htarget, fun p hlt hle hal hp => ?_⟩
  have hmem : p ∈ rangeDown (xref - 4) (max (xref - 0x100) exe.fileoff) 4 :=
    (mem_rangeDown (by decide)).mpr ⟨by omega, (xref - 4 - p) / 4, by omega⟩
  have hno := hlast p hmem hlt
  rw [if_pos hp] at hno
  exact Option.some_ne_none _ hno

/-- Where no address wraps around, the word is a BL to the target. -/
theorem RemapCall.branches {data : Bytes} {exe : Segment} {xref off va : ℕ}
    (h : RemapCall data exe xref off va) (hlow : 2 ^ 27 ≤ callAddress exe off)
    (hhigh : callAddress exe off + 2 ^ 27 ≤ 2 ^ 64) :
    Branches true (wordAt data off) (callAddress exe off) va := by
  have hbl := h.target_eq
  have hcall := h.calls.1
  rw [blTarget] at hbl hcall
  split_ifs at hbl hcall with hop
  have hbounds := branchImm_bounds (wordAt data off)
  exact ⟨(isBl_iff _).mp (not_not.mp hop), (target26_eq_iff _ hlow hhigh (by omega)).mp hbl⟩

/-! ## The stub -/

/-- Where the stub starts: behind the landing pad, if there is one. -/
def stubStart (data : Bytes) (fn : ℕ) : ℕ := if wordAt data fn = btiC then fn + 4 else fn

theorem stubAuthRemap_eq (data : Bytes) (fn : ℕ) : stubAuthRemap data fn (wordAt data fn) =
    packWords data (stubStart data fn) (stubWords (wordAt data fn)) := by
  unfold stubAuthRemap stubStart stubWords
  by_cases hpac : wordAt data fn = pacibsp
  · have hne : pacibsp ≠ btiC := by decide
    rw [if_pos hpac, if_neg fun h => hne (hpac.symm.trans h), if_pos hpac]
  · by_cases hbti : wordAt data fn = btiC
    · rw [if_neg hpac, if_pos hbti, if_pos hbti, if_neg hpac]
    · rw [if_neg hpac, if_neg hbti, if_neg hbti, if_neg hpac]

theorem packWords_fits : ∀ {ws : List (BitVec 32)} {data out : Bytes} {off : ℕ},
    off ≤ data.length → packWords data off ws = .ok out → off + 4 * ws.length ≤ data.length
  | [], _, _, _, hoff, _ => hoff
  | w :: ws, data, out, off, _, h => by
      obtain ⟨mid, hmid, hrest⟩ := bind_eq_ok_iff.mp h
      have hfit : off + 4 ≤ data.length := by
        rw [packI] at hmid
        split_ifs at hmid with hfit
        exact hfit
      obtain ⟨mid', hmid', hlen, -⟩ := packI_spec hfit w
      obtain rfl : mid' = mid := Except.ok.inj (hmid'.symm.trans hmid)
      have htail := packWords_fits (by omega) hrest
      rw [List.length_cons]
      omega

/-- `out` is `data` with the stub written into the function at `fn`. -/
structure RemapStubbed (data out : Bytes) (fn : ℕ) : Prop where
  length_eq : out.length = data.length
  lays : Lays out (stubStart data fn) (stubWords (wordAt data fn))
  frame : ∀ i, i < stubStart data fn ∨ stubStart data fn + stubSize data fn ≤ i → out[i]? = data[i]?

theorem stubStart_range (data : Bytes) (fn : ℕ) :
    fn ≤ stubStart data fn ∧ stubStart data fn + stubSize data fn ≤ fn + 12 := by
  rw [stubStart]
  by_cases hbti : wordAt data fn = btiC
  · have hne : btiC ≠ pacibsp := by decide
    rw [if_pos hbti, stubSize_plain (hbti ▸ hne)]
    omega
  · rw [if_neg hbti]
    rcases stubSize_cases data fn with ⟨-, hs⟩ | ⟨-, hs⟩ <;> omega

theorem remapStubbed_of_written {data out : Bytes} {fn : ℕ} (hfn : fn + 4 ≤ data.length)
    (h : stubAuthRemap data fn (wordAt data fn) = .ok out) : RemapStubbed data out fn := by
  rw [stubAuthRemap_eq] at h
  have hstart : stubStart data fn ≤ data.length := by
    rw [stubStart]
    split_ifs <;> omega
  obtain ⟨out', hout, hlen, hlays, hframe⟩ := packWords_spec _ (packWords_fits hstart h)
  obtain rfl : out' = out := Except.ok.inj (hout.symm.trans h)
  exact ⟨hlen, hlays, hframe⟩

theorem stubWords_pairFree {entry w : BitVec 32} (hw : w ∈ stubWords entry) : PairFree w := by
  have hall : allStubWords.all fun w =>
      w &&& 0x9F000000 ≠ 0x90000000 ∧ w &&& 0xFFC00000 ≠ 0x91000000 := by decide
  have hboth := List.all_eq_true.mp hall w (mem_allStubWords hw)
  rw [decide_eq_true_eq] at hboth
  exact hboth

section Stubbed
variable {data out : Bytes} {fn : ℕ} (h : RemapStubbed data out fn)
include h

/-- A word outside the stub is kept, and one inside is a word of the stub. -/
theorem RemapStubbed.word_cases {p : ℕ} (hp : p % 4 = fn % 4) : wordAt out p = wordAt data p ∨
    fn ≤ p ∧ p < fn + 12 ∧ wordAt out p ∈ stubWords (wordAt data fn) := by
  have hrange := stubStart_range data fn
  have halign : stubStart data fn % 4 = fn % 4 := by
    rw [stubStart]
    split_ifs <;> omega
  by_cases hin : stubStart data fn ≤ p ∧ p < stubStart data fn + stubSize data fn
  · have hk : (p - stubStart data fn) / 4 < (stubWords (wordAt data fn)).length := by
      rw [stubSize] at hin
      omega
    have hword := h.lays.word _ hk
    rw [show stubStart data fn + 4 * ((p - stubStart data fn) / 4) = p by omega] at hword
    exact .inr ⟨by omega, by omega, hword ▸ List.getElem_mem hk⟩
  · refine .inl (wordAt_congr fun j hj => h.frame _ ?_)
    have hsize : stubSize data fn % 4 = 0 := by
      rw [stubSize]
      omega
    omega

theorem RemapStubbed.pairsKept {base : ℕ} (hbase : fn % 4 = base % 4) :
    PairsKept base data out :=
  ⟨h.length_eq, fun _ hp => (h.word_cases (hp.trans hbase.symm)).imp_right fun hin =>
    stubWords_pairFree hin.2.2⟩

theorem RemapStubbed.agreeBelow : AgreeBelow fn data out :=
  ⟨h.length_eq, fun i hi => h.frame i (.inl (hi.trans_le (stubStart_range data fn).1))⟩

/-- The probe finds its own stub and writes it once more. -/
theorem RemapStubbed.restub : stubAuthRemap out fn (wordAt out fn) = .ok out := by
  have hlays := h.lays
  by_cases hbti : wordAt data fn = btiC
  · have hne : btiC ≠ pacibsp := by decide
    have hword : wordAt out fn = btiC := by
      rw [← hbti]
      refine wordAt_congr fun j hj => h.frame _ (.inl ?_)
      rw [stubStart, if_pos hbti]
      omega
    rw [stubStart, if_pos hbti, hbti, stubWords, if_neg hne] at hlays
    rw [stubAuthRemap, hword, if_neg hne, if_pos rfl, packWords_self hlays]
  · rw [stubStart, if_neg hbti] at hlays
    by_cases hpac : wordAt data fn = pacibsp
    · rw [stubWords, if_pos hpac] at hlays
      have hword : wordAt out fn = pacibsp := hlays.word 0 (by decide)
      rw [stubAuthRemap, hword, if_pos rfl, packWords_self hlays]
    · rw [stubWords, if_neg hpac] at hlays
      have hword : wordAt out fn = movX0Zero := hlays.word 0 (by decide)
      rw [stubAuthRemap, hword, if_neg (by decide), if_neg (by decide), packWords_self hlays]

end Stubbed

/-! ## What the caller sees -/

/-- From the entry, `m` gets behind the move that follows the call, with 0 in x8. -/
def ReadsSuccess {ω : Type} (env : Env ω) (m : Machine ω) : Prop :=
  ∃ n t, Runs env n m [] t ∧ t.pc = m.x 30 + 4 ∧ t.x 8 = 0 ∧
    (∀ r, r ≠ 0 → r ≠ 8 → r ≠ 30 → t.x r = m.x r) ∧ t.mem = m.mem

theorem ReturnsZero.readsSuccess {ω : Type} {env : Env ω} {m : Machine ω}
    (h : ReturnsZero env m) (hmov : insnIn m.mem (m.x 30) = some (.movReg 8 0)) :
    ReadsSuccess env m := by
  obtain ⟨n, t, hrun, hpc, hzero, hregs, hmem⟩ := h
  have hnext : insnIn t.mem t.pc = some (.movReg 8 0) := by rw [hmem, hpc, hmov]
  refine ⟨n + 1, exec env (.movReg 8 0) t, hrun.trans (Runs.insn hnext rfl), ?_, ?_,
    fun r h0 h8 h30 => ?_, hmem⟩
  · show t.pc + 4 = m.x 30 + 4
    rw [hpc]
  · exact hzero
  · show Function.update t.x 8 _ r = m.x r
    rw [Function.update_of_ne h8, hregs r h0 h30]

/-- The stub lies outside of the words from the window of the search up to the trace. -/
structure StubApart (exe : Segment) (xref fn : ℕ) : Prop where
  aligned : fn % 4 = exe.fileoff % 4
  apart : fn + 12 ≤ max (xref - 0x100) exe.fileoff ∨ xref + 8 ≤ fn

section Rerun
variable {data out : Bytes} {exe : Segment} {xref fn : ℕ} (h : RemapStubbed data out fn)
  (hpair : PairFound exe.fileoff data xref) (hapart : StubApart exe xref fn)
include h hpair hapart

theorem RemapStubbed.word_kept {p : ℕ} (hp : p % 4 = xref % 4)
    (hlow : max (xref - 0x100) exe.fileoff ≤ p) (hhigh : p < xref + 8) :
    wordAt out p = wordAt data p := by
  have hal := hapart.aligned
  have hpal := hpair.aligned
  rcases h.word_cases (p := p) (by omega) with heq | ⟨hle, hlt, -⟩
  · exact heq
  · rcases hapart.apart with habove | hbelow <;> omega

theorem RemapStubbed.findAuthRemap_eq :
    findAuthRemap out exe xref = findAuthRemap data exe xref := by
  have hfits := hpair.fits
  have hlen := h.length_eq
  rw [Patcher.findAuthRemap_eq (by omega), Patcher.findAuthRemap_eq (by omega)]
  refine congrArg Except.ok (findSome?_congr fun off hoff => ?_)
  obtain ⟨hlow, k, hk⟩ := (mem_rangeDown (by decide)).mp hoff
  have hcall := h.word_kept hpair hapart (p := off) (by omega) hlow.le (by omega)
  have hnext := h.word_kept hpair hapart (p := off + 4) (by omega) (by omega) (by omega)
  have hiff : ResultToX8 out exe off ↔ ResultToX8 data exe off := by
    rw [ResultToX8, ResultToX8, hcall, hnext]
  exact if_congr hiff (by rw [hcall]) rfl

end Rerun

/-! ## The run -/

/-- A run that writes has found the last call in front of the trace whose result goes to x8, and
the function it calls returns 0 now. With the stub away from that code the caller takes the call
for a success; and with headers and trace string in front of the function, the probe finds its own
stub again and changes nothing. -/
theorem skipAuthProbe_skips (data out : Bytes) (h : skipAuthProbe false data = .ok (out, true)) :
    ∃ exe xref off va fn segs, checkNpXref data = .ok (some (exe, xref)) ∧
      RemapCall data exe xref off (va : ℕ) ∧
      (2 ^ 27 ≤ callAddress exe off → callAddress exe off + 2 ^ 27 ≤ 2 ^ 64 →
        Branches true (wordAt data off) (callAddress exe off) va) ∧
      probeSegs data = .ok segs ∧ vaToFoff segs (va : ℕ) = some fn ∧ RemapStubbed data out fn ∧
      (∀ {ω : Type} (env : Env ω) (m : Machine ω),
        m.mem.Holds m.pc (slice out (stubStart data fn) (stubStart data fn + stubSize data fn)) →
          env.auth (env.sign (m.x 30) (m.x 31)) (m.x 31) = m.x 30 → ReturnsZero env m ∧
          (StubApart exe xref fn → m.mem.Holds (m.x 30) (slice out (off + 4) (off + 8)) →
            ReadsSuccess env m)) ∧
      (StubApart exe xref fn → ProbeBelow fn data → skipAuthProbe false out = .ok (out, true)) := by
  obtain ⟨entry, hentry, h⟩ := bind_eq_ok_iff.mp h
  obtain _ | fn := entry
  · exact absurd (Prod.mk.inj (Except.ok.inj h)).2 Bool.false_ne_true
  dsimp only at h
  obtain ⟨first, hfirst, h⟩ := bind_eq_ok_iff.mp h
  have hfn : fn + 4 ≤ data.length := fits_of_unpackI hfirst
  obtain rfl := wordAt_of_unpackI hfirst
  rw [if_neg Bool.false_ne_true] at h
  obtain ⟨out', hwritten, h⟩ := bind_eq_ok_iff.mp h
  obtain rfl := (Prod.mk.inj (Except.ok.inj h)).1
  have hstub := remapStubbed_of_written hfn hwritten
  obtain ⟨found, hfound, hentry⟩ := bind_eq_ok_iff.mp hentry
  obtain _ | ⟨exe, xref⟩ := found
  · exact absurd (Except.ok.inj hentry) (Option.some_ne_none _).symm
  dsimp only at hentry
  obtain ⟨call, hcall, hentry⟩ := bind_eq_ok_iff.mp hentry
  obtain _ | target := call
  · exact absurd (Except.ok.inj hentry) (Option.some_ne_none _).symm
  dsimp only at hentry
  split_ifs at hentry with hneg
  · exact absurd (Except.ok.inj hentry) (Option.some_ne_none _).symm
  obtain ⟨va, rfl⟩ := Int.eq_ofNat_of_zero_le (Int.not_lt.mp hneg)
  obtain ⟨segs, hsegs, hfoff⟩ := bind_eq_ok_iff.mp hentry
  have hfoff := Except.ok.inj hfoff
  have hpair := stringXref_some hfound
  have hfits := hpair.fits
  obtain ⟨off, hremap⟩ := remapCall_of_found (by omega) hcall
  have hwindow := hremap.window
  have hbefore := hremap.before
  have haligned := hremap.aligned
  refine ⟨exe, xref, off, va, fn, segs, hfound, hremap, hremap.branches, hsegs, hfoff, hstub,
    fun env m hmem hauth => ?_, fun hapart hbelow => ?_⟩
  · have hreturns : ReturnsZero env m := stub_returns hstub.lays hmem hauth
    refine ⟨hreturns, fun hapart hret => hreturns.readsSuccess ?_⟩
    have hword : wordAt out' (off + 4) = movX8X0 :=
      (hstub.word_kept hpair hapart (by omega) (by omega) (by omega)).trans hremap.calls.2
    have hlays : Lays out' (off + 4) [movX8X0] :=
      ⟨by rw [hstub.length_eq, List.length_singleton]; omega, fun k hk => by
        obtain rfl : k = 0 := Nat.lt_one_iff.mp hk
        exact hword⟩
    have hdecode : [movX8X0].map decode = [Insn.movReg 8 0].map some := by decide
    exact (codeAt_cons.mp (codeAt_of_lays hlays hdecode hret)).1
  · have hagree := hstub.agreeBelow
    have hxref := stringXref_congr hagree hbelow.string hfound (hstub.pairsKept hapart.aligned)
      (hstub.word_kept hpair hapart rfl (by omega) (by omega))
      (hstub.word_kept hpair hapart (by omega) (by omega) (by omega))
    have hentry' : authRemapEntry out' = .ok (some fn) := by
      rw [authRemapEntry, checkNpXref_eq, hxref, ok_bind]
      dsimp only
      rw [hstub.findAuthRemap_eq hpair hapart, hcall, ok_bind]
      dsimp only
      rw [if_neg hneg, probeSegs_congr hagree hbelow.string hsegs, ok_bind, hfoff]
      rfl
    rw [skipAuthProbe, hentry', ok_bind]
    dsimp only
    rw [unpackI_ok (hstub.length_eq ▸ hfn), ok_bind, if_neg Bool.false_ne_true, hstub.restub]
    rfl

/-- A kernel with the trace string at 176 and code at 232, which calls the function at 252. That
function has a landing pad and then `body`. -/
def remapImage (body : List (BitVec 32)) : Bytes :=
  le32 0xFEEDFACF ++ List.replicate 12 0 ++ le32 2 ++ List.replicate 12 0 ++
    segmentCommand "__TEXT" 0 232 ++ segmentCommand "__TEXT_EXEC" 232 32 ++ checkNpAnchor ++
    List.replicate 3 0 ++
    ([0xD503201F, 0x94000004, movX8X0, 0x90000000, 0x9102C000, btiC] ++ body).flatMap fun w =>
      le32 w.toNat

theorem skipAuthProbe_skips_landing :
    ∃ exe xref off va fn segs,
      checkNpXref (remapImage [0xD503201F, 0xD503201F]) = .ok (some (exe, xref)) ∧
      RemapCall (remapImage [0xD503201F, 0xD503201F]) exe xref off (va : ℕ) ∧
      (2 ^ 27 ≤ callAddress exe off → callAddress exe off + 2 ^ 27 ≤ 2 ^ 64 →
        Branches true (wordAt (remapImage [0xD503201F, 0xD503201F]) off)
          (callAddress exe off) va) ∧
      probeSegs (remapImage [0xD503201F, 0xD503201F]) = .ok segs ∧
      vaToFoff segs (va : ℕ) = some fn ∧
      RemapStubbed (remapImage [0xD503201F, 0xD503201F]) (remapImage [movX0Zero, ret]) fn ∧
      (∀ {ω : Type} (env : Env ω) (m : Machine ω),
        m.mem.Holds m.pc (slice (remapImage [movX0Zero, ret])
            (stubStart (remapImage [0xD503201F, 0xD503201F]) fn)
            (stubStart (remapImage [0xD503201F, 0xD503201F]) fn +
              stubSize (remapImage [0xD503201F, 0xD503201F]) fn)) →
          env.auth (env.sign (m.x 30) (m.x 31)) (m.x 31) = m.x 30 → ReturnsZero env m ∧
          (StubApart exe xref fn →
            m.mem.Holds (m.x 30) (slice (remapImage [movX0Zero, ret]) (off + 4) (off + 8)) →
              ReadsSuccess env m)) ∧
      (StubApart exe xref fn → ProbeBelow fn (remapImage [0xD503201F, 0xD503201F]) →
        skipAuthProbe false (remapImage [movX0Zero, ret]) =
          .ok (remapImage [movX0Zero, ret], true)) :=
  skipAuthProbe_skips (remapImage [0xD503201F, 0xD503201F]) (remapImage [movX0Zero, ret])
    (by decide +kernel)

end SecureWorld.Patcher
