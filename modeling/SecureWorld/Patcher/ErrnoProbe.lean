import Mathlib.Tactic.IntervalCases
import SecureWorld.Patcher.ProbeReaders
import SecureWorld.Patcher.VerifiedPatches

/-! # Telling the three ENOMEMs apart (`darwinvm_probe_checknp_errno.py`)

The probe lists the loads of 12 in the function around the trace and has all but the first load an
errno of its own. There are six different ones, and a probed function is not probed again.
-/
namespace SecureWorld.Patcher
open Foundations Armv8
set_option autoImplicit false

/-! ## The script -/

def walkBackPrologue (data : Bytes) (foff : ℕ) : Except PyError (Option ℕ) :=
  let maxBack := 0x1200
  (rangeDown foff (foff - maxBack) 4).findSomeM? fun off => do
    let w ← unpackI data off
    return if w = pacibsp then some off else none

/-- Behind the first return from `xref` on, or `xref`. -/
def functionEnd (data : Bytes) (xref : ℕ) : Except PyError ℕ := do
  let found ← ((rangeUp (min (xref + 0x400) (data.length - 4) - xref) 4).findSomeM? fun i => do
    let w ← unpackI data (xref + i)
    return if isReturn w then some (xref + i + 4) else none)
  return found.getD xref

/-- `_is_movz_w_imm` -/
def isMovzWImm (w : BitVec 32) (imm : ℕ) : Bool :=
  w &&& 0xFFE00000 = 0x52800000 && ((w >>> 5) &&& 0xFFFF).toNat = imm

def movzW (rd : BitVec 32) (imm : ℕ) : BitVec 32 :=
  0x52800000 ||| ((BitVec.ofNat 32 imm &&& 0xFFFF) <<< 5) ||| (rd &&& 0x1F)

def enomemSites (data : Bytes) (fn fin : ℕ) : Except PyError (List (ℕ × BitVec 32)) := do
  let words ← (rangeUp (fin - fn) 4).mapM fun i => do
    let w ← unpackI data (fn + i)
    return (fn + i, w)
  return words.filterMap fun (off, w) =>
    if isMovzWImm w 0xC then some (off, w &&& 0x1F) else none

def newErrno (i : ℕ) : ℕ := [12, 90, 91, 92, 93].getD i 99

/-- The offset, register and errno of each rewritten word. -/
def errnoPlan (sites : List (ℕ × BitVec 32)) : List (ℕ × BitVec 32 × ℕ) :=
  sites.zipIdx.filterMap fun ((off, rd), i) =>
    let want := newErrno i
    if want ≠ 12 then some (off, rd, want) else none

/-- `probe`: the file and whether it returned `True`. -/
def checkNpProbe (dryRun : Bool) (data : Bytes) : Except PyError (Bytes × Bool) := do
  let some (_, xref) ← checkNpXref data | return (data, false)
  let some fn ← walkBackPrologue data xref | return (data, false)
  let fin ← functionEnd data xref
  let sites ← enomemSites data fn fin
  if sites.length < 2 then return (data, false)
  if dryRun then return (data, true)
  let out ← (errnoPlan sites).foldlM (fun d (off, rd, want) => packI d off (movzW rd want)) data
  return (out, true)

/-! ## Words -/

/-- A word that loads a constant into a 32-bit register. -/
def IsMovzW (w : BitVec 32) : Prop := w &&& 0xFFE00000 = 0x52800000

instance (w : BitVec 32) : Decidable (IsMovzW w) := inferInstanceAs (Decidable (_ = _))

theorem movzW_low (rd : BitVec 32) (n : ℕ) : movzW rd n = movzW ((rd.setWidth 5).setWidth 32) n := by
  refine congrArg _ (BitVec.eq_of_getLsbD_eq fun i hi => ?_)
  simp only [BitVec.getLsbD_and, BitVec.getLsbD_setWidth]
  interval_cases i <;> simp

theorem movz_parts (w : BitVec 32) :
    w = (w &&& 0xFFE00000#32) ||| (((w >>> 5) &&& 0xFFFF#32) <<< 5) ||| (w &&& 0x1F#32) := by
  refine BitVec.eq_of_getLsbD_eq fun i hi => ?_
  simp only [BitVec.getLsbD_and, BitVec.getLsbD_or, BitVec.getLsbD_shiftLeft,
    BitVec.getLsbD_ushiftRight]
  interval_cases i <;> simp

/-- The constants of the plan. -/
def errnoValues : List ℕ := [12, 90, 91, 92, 93, 99]

theorem newErrno_mem (i : ℕ) : newErrno i ∈ errnoValues := by
  by_cases h : i < 5
  · interval_cases i <;> decide
  · have hlast : newErrno i = 99 := List.getD_eq_default _ _ (Nat.not_lt.mp h)
    rw [hlast]
    decide

theorem newErrno_eq_twelve {i : ℕ} : newErrno i = 12 ↔ i = 0 := by
  by_cases h : i < 5
  · interval_cases i <;> decide
  · have hlast : newErrno i = 99 := List.getD_eq_default _ _ (Nat.not_lt.mp h)
    rw [hlast]
    exact iff_of_false (by decide) (by omega)

theorem movzW_fields (rd : BitVec 32) {n : ℕ} (hn : n ∈ errnoValues) :
    IsMovzW (movzW rd n) ∧ ((movzW rd n >>> 5) &&& 0xFFFF).toNat = n := by
  have hall : ∀ r : BitVec 5, ∀ n ∈ errnoValues,
      movzW (r.setWidth 32) n &&& 0xFFE00000 = 0x52800000 ∧
        ((movzW (r.setWidth 32) n >>> 5) &&& 0xFFFF).toNat = n := by
    decide +kernel
  rw [movzW_low]
  exact hall _ n hn

theorem isMovzWImm_movzW (rd : BitVec 32) {n : ℕ} (hn : n ∈ errnoValues) (imm : ℕ) :
    isMovzWImm (movzW rd n) imm = decide (n = imm) := by
  obtain ⟨hclass, himm⟩ := movzW_fields rd hn
  have hclass' : movzW rd n &&& 0xFFE00000 = 0x52800000 := hclass
  rw [isMovzWImm, decide_eq_true hclass', Bool.true_and, himm]

theorem isMovzW_of_imm {w : BitVec 32} {imm : ℕ} (h : isMovzWImm w imm) : IsMovzW w := by
  rw [isMovzWImm, Bool.and_eq_true, decide_eq_true_eq] at h
  exact h.1

/-- A load of 12 is rebuilt from its register. -/
theorem movzW_of_isMovzWImm {w : BitVec 32} (h : isMovzWImm w 0xC) :
    movzW (w &&& 0x1F) 12 = w := by
  have hclass : w &&& 0xFFE00000#32 = 0x52800000 := isMovzW_of_imm h
  have himm : (w >>> 5) &&& 0xFFFF#32 = 12#32 :=
    BitVec.eq_of_toNat_eq (of_decide_eq_true (Bool.and_eq_true_iff.mp h).2)
  have hlow : w &&& 0x1F &&& 0x1F = w &&& 0x1F#32 := by rw [BitVec.and_assoc]; rfl
  rw [movzW, hlow]
  conv_rhs => rw [movz_parts w, hclass, himm]
  rfl

theorem IsMovzW.pairFree {w : BitVec 32} (h : IsMovzW w) : PairFree w := by
  have hclass : w &&& 0x1F000000 = 0x12000000 := and_mask_mono h (by decide)
  refine ⟨fun hadrp => ?_, fun hadd => ?_⟩
  · have hclass' : w &&& 0x1F000000 = 0x10000000 := and_mask_mono hadrp (by decide)
    exact absurd (hclass.symm.trans hclass') (by decide)
  · have hclass' : w &&& 0x1F000000 = 0x11000000 := and_mask_mono hadd (by decide)
    exact absurd (hclass.symm.trans hclass') (by decide)

theorem IsMovzW.ne_pacibsp {w : BitVec 32} (h : IsMovzW w) : w ≠ pacibsp := fun hp =>
  absurd (hp ▸ h) (by decide)

theorem IsMovzW.not_isReturn {w : BitVec 32} (h : IsMovzW w) : isReturn w = false := by
  refine Bool.eq_false_iff.mpr fun hr => ?_
  simp only [isReturn, List.mem_cons, List.not_mem_nil, or_false, decide_eq_true_eq] at hr
  rcases hr with rfl | rfl <;> exact absurd h (by decide)

/-! ## Writing several words -/

theorem packEach_spec : ∀ (ps : List (ℕ × BitVec 32)) {data : Bytes},
    (∀ p ∈ ps, p.1 + 4 ≤ data.length) → ps.Pairwise (fun p q => p.1 + 4 ≤ q.1) →
      ∃ out, ps.foldlM (fun d p => packI d p.1 p.2) data = .ok out ∧ out.length = data.length ∧
        (∀ p ∈ ps, wordAt out p.1 = p.2) ∧
        ∀ i, (∀ p ∈ ps, i < p.1 ∨ p.1 + 4 ≤ i) → out[i]? = data[i]?
  | [], data, _, _ => ⟨data, rfl, rfl, List.forall_mem_nil _, fun _ _ => rfl⟩
  | p :: ps, data, hfits, hpair => by
      obtain ⟨hp, hps⟩ := List.forall_mem_cons.mp hfits
      obtain ⟨hahead, hrest⟩ := List.pairwise_cons.mp hpair
      obtain ⟨mid, hmid, hmidLen, hword, hmidFrame⟩ := packI_spec hp p.2
      have hps' : ∀ q ∈ ps, q.1 + 4 ≤ mid.length := fun q hq => hmidLen ▸ hps q hq
      obtain ⟨out, hout, houtLen, hwords, houtFrame⟩ := packEach_spec ps hps' hrest
      refine ⟨out, ?_, houtLen.trans hmidLen, List.forall_mem_cons.mpr ⟨?_, hwords⟩, fun i hi => ?_⟩
      · rw [List.foldlM_cons, hmid]
        exact hout
      · rw [← hword]
        exact wordAt_congr fun k hk => houtFrame _ fun q hq => .inl (by have h := hahead q hq; omega)
      · obtain ⟨hip, hips⟩ := List.forall_mem_cons.mp hi
        rw [houtFrame i hips, hmidFrame i hip]

/-! ## The function around the trace -/

/-- From the nearest PACIBSP to behind the first return; without a return, up to the trace. -/
structure EnclosingFunction (data : Bytes) (xref fn fin : ℕ) : Prop where
  le : fn ≤ xref
  aligned : fn % 4 = xref % 4
  entry : wordAt data fn = pacibsp
  nearest : ∀ p, fn < p → p ≤ xref → p % 4 = xref % 4 → wordAt data p ≠ pacibsp
  ends : fin = xref ∨ xref + 4 ≤ fin ∧ isReturn (wordAt data (fin - 4))
  body : ∀ p, xref ≤ p → p + 4 < fin → p % 4 = xref % 4 → isReturn (wordAt data p) = false

theorem walkBackPrologue_eq {data : Bytes} {xref : ℕ} (h : xref + 4 ≤ data.length) :
    walkBackPrologue data xref = .ok ((rangeDown xref (xref - 0x1200) 4).findSome? fun off =>
      if wordAt data off = pacibsp then some off else none) := by
  refine findSomeM?_eq_ok fun off hoff => ?_
  obtain ⟨-, k, hk⟩ := (mem_rangeDown (by decide)).mp hoff
  rw [unpackI_ok (by omega)]
  rfl

theorem functionEnd_eq (data : Bytes) (xref : ℕ) :
    functionEnd data xref = .ok (((rangeUp (min (xref + 0x400) (data.length - 4) - xref) 4).findSome?
      fun i => if isReturn (wordAt data (xref + i)) then some (xref + i + 4) else none).getD xref) := by
  rw [functionEnd, findSomeM?_eq_ok fun i hi => ?_]
  · rfl
  · have hlt := ((mem_rangeUp (by decide)).mp hi).1
    rw [unpackI_ok (by omega)]
    rfl

theorem enclosingFunction_of_walks {data : Bytes} {xref fn fin : ℕ} (hx : xref + 4 ≤ data.length)
    (hfn : walkBackPrologue data xref = .ok (some fn)) (hfin : functionEnd data xref = .ok fin) :
    EnclosingFunction data xref fn fin := by
  rw [walkBackPrologue_eq hx] at hfn
  obtain ⟨off, hoff, hhit, hnearest⟩ :=
    (findSome?_rangeDown (by decide) _ _).mp (Except.ok.inj hfn)
  rw [Option.ite_none_right_eq_some, Option.some_inj] at hhit
  obtain ⟨hpac, rfl⟩ := hhit
  obtain ⟨hlow, k, hk⟩ := (mem_rangeDown (by decide)).mp hoff
  have hends : (fin = xref ∨ xref + 4 ≤ fin ∧ isReturn (wordAt data (fin - 4))) ∧
      ∀ p, xref ≤ p → p + 4 < fin → p % 4 = xref % 4 → isReturn (wordAt data p) = false := by
    rw [functionEnd_eq] at hfin
    obtain rfl := Except.ok.inj hfin
    cases hret : (rangeUp (min (xref + 0x400) (data.length - 4) - xref) 4).findSome? fun i =>
        if isReturn (wordAt data (xref + i)) then some (xref + i + 4) else none with
    | none => exact ⟨.inl rfl, fun p hp hlt => by rw [Option.getD_none] at hlt; omega⟩
    | some e =>
      obtain ⟨i, hi, hhit, hfirst⟩ := (findSome?_rangeUp (by decide) _ _).mp hret
      rw [Option.ite_none_right_eq_some, Option.some_inj] at hhit
      obtain ⟨hisret, rfl⟩ := hhit
      obtain ⟨hilt, m, hm⟩ := (mem_rangeUp (by decide)).mp hi
      rw [Option.getD_some]
      refine ⟨.inr ⟨by omega, by rwa [Nat.add_sub_cancel]⟩, fun p hp hlt hal => ?_⟩
      have hmem : p - xref ∈ rangeUp (min (xref + 0x400) (data.length - 4) - xref) 4 :=
        (mem_rangeUp (by decide)).mpr ⟨by omega, (p - xref) / 4, by omega⟩
      have hno := hfirst _ hmem (by omega)
      rw [Nat.add_sub_cancel' hp] at hno
      by_contra hisret'
      rw [if_pos (Bool.not_eq_false _ ▸ hisret')] at hno
      exact Option.some_ne_none _ hno
  refine ⟨by omega, by omega, hpac, fun p hlt hle hal hp => ?_, hends.1, hends.2⟩
  have hmem : p ∈ rangeDown xref (xref - 0x1200) 4 :=
    (mem_rangeDown (by decide)).mpr ⟨by omega, (xref - p) / 4, by omega⟩
  have hno := hnearest p hmem hlt
  rw [if_pos hp] at hno
  exact Option.some_ne_none _ hno

/-! ## The sites -/

/-- The offsets of the words from `fn` up to `fin` that load 12. -/
def enomemOffsets (data : Bytes) (fn fin : ℕ) : List ℕ :=
  ((rangeUp (fin - fn) 4).map (fn + ·)).filter fun p => isMovzWImm (wordAt data p) 0xC

theorem mem_enomemOffsets {data : Bytes} {fn fin p : ℕ} :
    p ∈ enomemOffsets data fn fin ↔
      (fn ≤ p ∧ p < fin ∧ p % 4 = fn % 4) ∧ isMovzWImm (wordAt data p) 0xC := by
  rw [enomemOffsets, List.mem_filter, List.mem_map]
  refine and_congr_left' ?_
  constructor
  · rintro ⟨i, hi, rfl⟩
    obtain ⟨hlt, k, rfl⟩ := (mem_rangeUp (by decide)).mp hi
    omega
  · rintro ⟨hle, hlt, hal⟩
    exact ⟨p - fn, (mem_rangeUp (by decide)).mpr ⟨by omega, (p - fn) / 4, by omega⟩, by omega⟩

theorem enomemOffsets_pairwise (data : Bytes) (fn fin : ℕ) :
    (enomemOffsets data fn fin).Pairwise (· < ·) :=
  (List.pairwise_map.mpr ((rangeUp_pairwise (by decide)).imp fun h => by omega)).filter _

theorem mapM_eq_ok {ε α β : Type} {f : α → Except ε β} {g : α → β} :
    ∀ {l : List α}, (∀ a ∈ l, f a = .ok (g a)) → l.mapM f = .ok (l.map g)
  | [], _ => rfl
  | a :: l, h => by
      obtain ⟨ha, hl⟩ := List.forall_mem_cons.mp h
      rw [List.mapM_cons, ha, mapM_eq_ok hl]
      rfl

theorem enomemSites_eq {data : Bytes} {fn fin : ℕ}
    (h : ∀ i ∈ rangeUp (fin - fn) 4, fn + i + 4 ≤ data.length) :
    enomemSites data fn fin =
      .ok ((enomemOffsets data fn fin).map fun p => (p, wordAt data p &&& 0x1F)) := by
  have hwords : ((rangeUp (fin - fn) 4).mapM fun i => do
      let w ← unpackI data (fn + i)
      return (fn + i, w)) =
        .ok ((rangeUp (fin - fn) 4).map fun i => (fn + i, wordAt data (fn + i))) :=
    mapM_eq_ok fun i hi => by rw [unpackI_ok (h i hi)]; rfl
  rw [enomemSites, hwords, ok_bind, enomemOffsets]
  refine congrArg Except.ok ?_
  induction rangeUp (fin - fn) 4 with
  | nil => rfl
  | cons i l ih =>
    rw [List.map_cons, List.filterMap_cons, ih, List.map_cons, List.filter_cons]
    cases hmov : isMovzWImm (wordAt data (fn + i)) 0xC <;> simp [hmov]

theorem enomemSites_ok {data : Bytes} {fn fin : ℕ} {sites : List (ℕ × BitVec 32)}
    (h : enomemSites data fn fin = .ok sites) :
    sites = (enomemOffsets data fn fin).map (fun p => (p, wordAt data p &&& 0x1F)) ∧
      ∀ i ∈ rangeUp (fin - fn) 4, fn + i + 4 ≤ data.length := by
  obtain ⟨words, hwords, -⟩ := bind_eq_ok_iff.mp h
  have hfits : ∀ i ∈ rangeUp (fin - fn) 4, fn + i + 4 ≤ data.length := fun i hi => by
    obtain ⟨word, -, hword⟩ := forall₂_mem_right (forall₂_of_mapM_ok hwords).flip i hi
    obtain ⟨w, hw, -⟩ := bind_eq_ok_iff.mp hword
    exact fits_of_unpackI hw
  refine ⟨?_, hfits⟩
  rw [enomemSites_eq hfits] at h
  exact (Except.ok.inj h).symm

/-! ## The writes -/

/-- The words the script writes for loads at `sites`. -/
def errnoWrites (data : Bytes) (sites : List ℕ) : List (ℕ × BitVec 32) :=
  (errnoPlan (sites.map fun p => (p, wordAt data p &&& 0x1F))).map fun (off, rd, want) =>
    (off, movzW rd want)

theorem mem_errnoWrites {data : Bytes} {sites : List ℕ} {q : ℕ × BitVec 32} :
    q ∈ errnoWrites data sites ↔ ∃ k, k ≠ 0 ∧ sites[k]? = some q.1 ∧
      q.2 = movzW (wordAt data q.1 &&& 0x1F) (newErrno k) := by
  simp only [errnoWrites, errnoPlan, List.mem_map, List.mem_filterMap, Prod.exists,
    List.mem_zipIdx_iff_getElem?, List.getElem?_map, Option.map_eq_some_iff]
  constructor
  · rintro ⟨off, rd, want, ⟨off', rd', k, ⟨p, hp, hpair⟩, hsome⟩, rfl⟩
    obtain ⟨rfl, rfl⟩ := Prod.mk.inj hpair
    rw [Option.ite_none_right_eq_some, Option.some_inj] at hsome
    obtain ⟨hne, hentry⟩ := hsome
    obtain ⟨rfl, hrest⟩ := Prod.mk.inj hentry
    obtain ⟨rfl, rfl⟩ := Prod.mk.inj hrest
    exact ⟨k, fun h => hne (newErrno_eq_twelve.mpr h), hp, rfl⟩
  · rintro ⟨k, hk, hp, hw⟩
    refine ⟨q.1, _, newErrno k, ⟨q.1, _, k, ⟨q.1, hp, rfl⟩, ?_⟩, Prod.ext rfl hw.symm⟩
    exact if_pos fun h => hk (newErrno_eq_twelve.mp h)

theorem errnoWrites_pairwise (data : Bytes) {sites : List ℕ}
    (h : sites.Pairwise fun p q => p + 4 ≤ q) :
    (errnoWrites data sites).Pairwise fun p q => p.1 + 4 ≤ q.1 := by
  have hzip : ((sites.map fun p => (p, wordAt data p &&& 0x1F)).zipIdx).Pairwise
      fun a b => a.1.1 + 4 ≤ b.1.1 := by
    have hmap : (((sites.map fun p => (p, wordAt data p &&& 0x1F)).zipIdx).map Prod.fst).Pairwise
        fun a b => a.1 + 4 ≤ b.1 := by
      rw [List.zipIdx_map_fst]
      exact List.pairwise_map.mpr h
    exact List.pairwise_map.mp hmap
  refine List.pairwise_map.mpr (hzip.filterMap _ fun a b hab q hq q' hq' => ?_)
  rw [Option.ite_none_right_eq_some, Option.some_inj] at hq hq'
  obtain ⟨-, rfl⟩ := hq
  obtain ⟨-, rfl⟩ := hq'
  exact hab

/-- `out` is `data` with the loads of 12 at `sites` but the first changed to loads of errnos. -/
structure ErrnosSet (data out : Bytes) (sites : List ℕ) : Prop where
  length_eq : out.length = data.length
  word : ∀ (k : ℕ) (hk : k < sites.length),
    wordAt out sites[k] = movzW (wordAt data sites[k] &&& 0x1F) (newErrno k)
  frame : ∀ i, (∀ p ∈ sites.tail, i < p ∨ p + 4 ≤ i) → out[i]? = data[i]?

theorem errnosSet_of_writes {data out : Bytes} {sites : List ℕ}
    (hsites : sites.Pairwise fun p q => p + 4 ≤ q)
    (hmov : ∀ p ∈ sites, p + 4 ≤ data.length ∧ isMovzWImm (wordAt data p) 0xC)
    (h : (errnoWrites data sites).foldlM (fun d p => packI d p.1 p.2) data = .ok out) :
    ErrnosSet data out sites := by
  obtain ⟨out', hout, hlen, hwords, hframe⟩ := packEach_spec (errnoWrites data sites)
    (fun q hq => by
      obtain ⟨k, -, hq, -⟩ := mem_errnoWrites.mp hq
      exact (hmov _ (List.mem_of_getElem? hq)).1)
    (errnoWrites_pairwise data hsites)
  obtain rfl := Except.ok.inj (hout.symm.trans h)
  have hkept : ∀ i, (∀ p ∈ sites.tail, i < p ∨ p + 4 ≤ i) → out'[i]? = data[i]? := by
    refine fun i hi => hframe i fun q hq => ?_
    obtain ⟨k, hk, hget, -⟩ := mem_errnoWrites.mp hq
    obtain ⟨j, rfl⟩ := Nat.exists_eq_succ_of_ne_zero hk
    refine hi _ (List.mem_of_getElem? (i := j) ?_)
    rwa [List.getElem?_tail]
  refine ⟨hlen, fun k hk => ?_, hkept⟩
  by_cases hzero : k = 0
  · subst hzero
    have hsame : wordAt out' sites[0] = wordAt data sites[0] := by
      refine wordAt_congr fun j hj => hkept _ fun p hp => .inl ?_
      obtain ⟨m, hm, rfl⟩ := List.mem_iff_getElem.mp hp
      have hlt := List.pairwise_iff_getElem.mp hsites 0 (m + 1) hk (by
        rw [List.length_tail] at hm; omega) (by omega)
      rw [List.getElem_tail]
      omega
    have hzero' : newErrno 0 = 12 := rfl
    rw [hsame, hzero', movzW_of_isMovzWImm (hmov _ (List.getElem_mem hk)).2]
  · exact hwords (sites[k], _) (mem_errnoWrites.mpr ⟨k, hzero, List.getElem?_eq_getElem hk, rfl⟩)

/-! ## The probe on a probed image -/

section Probed
variable {data out : Bytes} {sites : List ℕ} {base : ℕ} (h : ErrnosSet data out sites)
  (hmov : ∀ p ∈ sites, p % 4 = base % 4 ∧ isMovzWImm (wordAt data p) 0xC)
include h hmov

theorem ErrnosSet.word_cases {q : ℕ} (hq : q % 4 = base % 4) :
    q ∉ sites ∧ wordAt out q = wordAt data q ∨
      q ∈ sites ∧ ∃ k, sites[k]? = some q ∧
        wordAt out q = movzW (wordAt data q &&& 0x1F) (newErrno k) := by
  by_cases hmem : q ∈ sites
  · obtain ⟨k, hk, rfl⟩ := List.mem_iff_getElem.mp hmem
    exact .inr ⟨hmem, k, List.getElem?_eq_getElem hk, h.word k hk⟩
  · refine .inl ⟨hmem, wordAt_congr fun j hj => h.frame _ fun p hp => ?_⟩
    have hp' := List.mem_of_mem_tail hp
    have hal := (hmov p hp').1
    have hne : p ≠ q := fun heq => hmem (heq ▸ hp')
    omega

/-- Where a word changed, both words are loads of constants. -/
theorem ErrnosSet.loads {q : ℕ} (hq : q % 4 = base % 4) : wordAt out q = wordAt data q ∨
    IsMovzW (wordAt data q) ∧ IsMovzW (wordAt out q) := by
  rcases h.word_cases hmov hq with ⟨-, heq⟩ | ⟨hmem, k, -, hword⟩
  · exact .inl heq
  · rw [hword]
    exact .inr ⟨isMovzW_of_imm (hmov q hmem).2, (movzW_fields _ (newErrno_mem k)).1⟩

theorem ErrnosSet.pairsKept : PairsKept base data out :=
  ⟨h.length_eq, fun _ hp => (h.loads hmov hp).imp_right fun hboth => hboth.2.pairFree⟩

/-- A word of a pair is kept. -/
theorem ErrnosSet.pair_word {q : ℕ} (hq : q % 4 = base % 4) (hpair : ¬ PairFree (wordAt data q)) :
    wordAt out q = wordAt data q :=
  (h.loads hmov hq).resolve_right fun hboth => hpair hboth.1.pairFree

theorem ErrnosSet.walk_eq {xref : ℕ} (hx : xref % 4 = base % 4) (hfits : xref + 4 ≤ data.length) :
    walkBackPrologue out xref = walkBackPrologue data xref := by
  rw [walkBackPrologue_eq hfits, walkBackPrologue_eq (h.length_eq ▸ hfits)]
  refine congrArg Except.ok (findSome?_congr fun off hoff => ?_)
  obtain ⟨-, k, hk⟩ := (mem_rangeDown (by decide)).mp hoff
  rcases h.loads hmov (q := off) (by omega) with heq | ⟨hold, hnew⟩
  · rw [heq]
  · rw [if_neg hnew.ne_pacibsp, if_neg hold.ne_pacibsp]

theorem ErrnosSet.functionEnd_eq {xref : ℕ} (hx : xref % 4 = base % 4) :
    functionEnd out xref = functionEnd data xref := by
  rw [Patcher.functionEnd_eq, Patcher.functionEnd_eq, h.length_eq]
  refine congrArg (fun r => Except.ok (Option.getD r xref)) (findSome?_congr fun i hi => ?_)
  obtain ⟨-, k, rfl⟩ := (mem_rangeUp (by decide)).mp hi
  rcases h.loads hmov (q := xref + k * 4) (by omega) with heq | ⟨hold, hnew⟩
  · rw [heq]
  · rw [hnew.not_isReturn, hold.not_isReturn]

end Probed

/-- Only the first load of 12 is left. -/
theorem ErrnosSet.one_left {data out : Bytes} {fn fin : ℕ}
    (h : ErrnosSet data out (enomemOffsets data fn fin)) :
    (enomemOffsets out fn fin).length ≤ 1 := by
  have hmov : ∀ p ∈ enomemOffsets data fn fin,
      p % 4 = fn % 4 ∧ isMovzWImm (wordAt data p) 0xC := fun p hp =>
    ⟨(mem_enomemOffsets.mp hp).1.2.2, (mem_enomemOffsets.mp hp).2⟩
  have hfirst : ∀ p ∈ enomemOffsets out fn fin, (enomemOffsets data fn fin)[0]? = some p := by
    intro p hp
    obtain ⟨hrange, himm⟩ := mem_enomemOffsets.mp hp
    rcases h.word_cases hmov hrange.2.2 with ⟨hnot, heq⟩ | ⟨-, k, hk, hword⟩
    · exact absurd (mem_enomemOffsets.mpr ⟨hrange, heq ▸ himm⟩) hnot
    · rw [hword, isMovzWImm_movzW _ (newErrno_mem k), decide_eq_true_eq,
        newErrno_eq_twelve] at himm
      rwa [himm] at hk
  match hl : enomemOffsets out fn fin, enomemOffsets_pairwise out fn fin with
  | [], _ => exact Nat.zero_le 1
  | [p], _ => exact le_rfl
  | p :: q :: rest, hpair =>
    have hp := hfirst p (by rw [hl]; exact List.mem_cons_self)
    have hq := hfirst q (by rw [hl]; exact List.mem_cons_of_mem p List.mem_cons_self)
    have hlt : p < q := (List.pairwise_cons.mp hpair).1 q List.mem_cons_self
    exact absurd (Option.some.inj (hp.symm.trans hq)) (Nat.ne_of_lt hlt)

/-! ## Errnos -/

/-- What the word at `p` loads. -/
def loadedErrno (data : Bytes) (p : ℕ) : ℕ := ((wordAt data p >>> 5) &&& 0xFFFF).toNat

theorem newErrno_nodup (n : ℕ) : ((List.range n).map newErrno).Nodup ↔ n ≤ 6 := by
  constructor
  · intro hnodup
    by_contra hlt
    have h5 : 5 < ((List.range n).map newErrno).length := by
      rw [List.length_map, List.length_range]; omega
    have h6 : 6 < ((List.range n).map newErrno).length := by
      rw [List.length_map, List.length_range]; omega
    have heq : ((List.range n).map newErrno)[5] = ((List.range n).map newErrno)[6] := by
      rw [List.getElem_map, List.getElem_map, List.getElem_range, List.getElem_range]
      rfl
    exact List.pairwise_iff_getElem.mp hnodup 5 6 h5 h6 (by decide) heq
  · intro hle
    interval_cases n <;> decide

theorem ErrnosSet.loaded {data out : Bytes} {sites : List ℕ} (h : ErrnosSet data out sites) :
    sites.map (loadedErrno out) = (List.range sites.length).map newErrno := by
  refine List.ext_getElem (by simp) fun k hk hk' => ?_
  rw [List.length_map] at hk
  rw [List.getElem_map, List.getElem_map, List.getElem_range, loadedErrno, h.word k hk]
  exact (movzW_fields _ (newErrno_mem k)).2

/-! ## The run -/

/-- A kernel with the trace string at 176 and one function at 232, which loads 12 into w8 before it
loads the string, and the constant of `last` behind that. -/
def tracedImage (last : BitVec 32) : Bytes :=
  le32 0xFEEDFACF ++ List.replicate 12 0 ++ le32 2 ++ List.replicate 12 0 ++
    segmentCommand "__TEXT" 0 232 ++ segmentCommand "__TEXT_EXEC" 232 28 ++ checkNpAnchor ++
    List.replicate 3 0 ++
    [pacibsp, movzW 8 12, 0x90000000, 0x9102C000, last, retab, 0xD503201F].flatMap fun w =>
      le32 w.toNat

end SecureWorld.Patcher
