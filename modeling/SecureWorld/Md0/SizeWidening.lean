import SecureWorld.Foundations.Loops
import SecureWorld.Foundations.RegisterWidths
import Mathlib.Algebra.Order.Floor.Div

/-! # The widening plan for the size of md0 (`patch_md0_size.py`)

The finder looks for a 32-bit `<< 12` of a value that was loaded from the size field a few
instructions before. The plan gives it the 64-bit form, and after an ADD also the SUB and UDIV in the
next two slots.
-/
namespace SecureWorld.Md0
open Foundations Widths
set_option autoImplicit false

/-! ## Decoded code -/

/-- How SUB shifts its last operand to the right. -/
inductive RightShift
  | lsr (amount : ℕ)
  | asr (amount : ℕ)
deriving DecidableEq

inductive Mnemonic
  | lsl
  | add
  | sub (shift : Option RightShift)
  | udiv
  | other (name : String)
deriving DecidableEq

abbrev A64 := Insn Mnemonic

/-- A slot of four bytes. Branches end a straight-line block. -/
inductive Slot
  | insn (i : A64)
  | branch
  | undecoded
deriving DecidableEq

def binary (f : (n : ℕ) → BitVec n → BitVec n → BitVec n) : Alu where
  readsFlags := false
  value n vals _ :=
    match vals with
    | [a, b] => f n a b
    | _ => 0
  flags := none

def RightShift.shift {n : ℕ} (b : BitVec n) : Option RightShift → BitVec n
  | none => b
  | some (.lsr amount) => b >>> amount
  | some (.asr amount) => b.sshiftRight amount

/-- The other instructions of the instruction set. -/
structure OtherInsns where
  alu : String → Alu
  fixed : Mnemonic → Fixed

def a64 (others : OtherInsns) : Isa Mnemonic where
  alu
    | .lsl => binary fun n a b => a <<< (b.toNat % n)
    | .add => binary fun _ a b => a + b
    | .sub shift => binary fun _ a b => a - RightShift.shift b shift
    | .udiv => binary fun _ a b => a / b
    | .other name => others.alu name
  fixed := others.fixed

/-! ## The finder -/

/-- `lsl w<s>, w<s>, #0xc` or `add w<s>, w<x>, w<s>, lsl #12`: the register, and whether it is the
second. -/
def shiftForm : A64 → Option (Fin 31 × Bool)
  | .alu .lsl .w (.num d) [.reg (.num n), .imm v] => if d = n ∧ v = 12 then some (d, false) else none
  | .alu .add .w (.num d) [.reg (.num _), .lsl (.num m) v] =>
      if d = m ∧ v = 12 then some (d, true) else none
  | _ => none

/-- `ldr w<s>, [x<e>, #8]` -/
def isSizeLoad (szreg : Fin 31) : Slot → Bool
  | .insn (.ldr .w (.num t) (.num _) disp) => t = szreg && disp = 8
  | _ => false

structure Site where
  pos : ℕ
  insn : A64
  szreg : Fin 31
  isAdd : Bool
deriving DecidableEq

/-- The previous four slots are searched for the load. -/
def siteAt (code : List Slot) (i : ℕ) : Option Site :=
  match code[i]? with
  | some (.insn insn) =>
      match shiftForm insn with
      | some (szreg, isAdd) =>
          if ((code.take i).drop (i - 4)).any (isSizeLoad szreg) then some ⟨i, insn, szreg, isAdd⟩
          else none
      | none => none
  | _ => none

/-- The sites in the first `n` slots, those of the segment. -/
def findMdevSizeShiftSites (code : List Slot) (n : ℕ) : List Site :=
  (List.range n).filterMap (siteAt code)

/-! ## The plan -/

def Arg.hasW : Arg → Bool
  | .uxtw _ _ | .sxtw _ _ => true
  | _ => false

def Mnemonic.isSubOrUdiv : Mnemonic → Bool
  | .sub _ | .udiv => true
  | _ => false

/-- SUB or UDIV with `w` in its operands. -/
def isNarrowSubOrUdiv : A64 → Bool
  | .alu op width _ args => op.isSubOrUdiv && (width = .w || args.any Arg.hasW)
  | _ => false

/-- What `next` raises where nothing decodes. -/
inductive StopIteration
  | raised
deriving DecidableEq

def dependentEdit (code : List Slot) (k : ℕ) : Except StopIteration (List (ℕ × A64)) :=
  match code[k]? with
  | some (.insn d) => .ok (if isNarrowSubOrUdiv d then [(k, d.widen)] else [])
  | some .branch => .ok []
  | some .undecoded | none => .error .raised

def siteEdits (code : List Slot) (site : Site) : Except StopIteration (List (ℕ × A64)) :=
  if site.isAdd then do
    let second ← dependentEdit code (site.pos + 1)
    let third ← dependentEdit code (site.pos + 2)
    return (site.pos, site.insn.widen) :: (second ++ third)
  else .ok [(site.pos, site.insn.widen)]

def buildPlan (code : List Slot) (n : ℕ) : Except StopIteration (List (ℕ × A64)) :=
  ((findMdevSizeShiftSites code n).mapM (siteEdits code)).map List.flatten

def applyPlan (plan : List (ℕ × A64)) (code : List Slot) : List Slot :=
  plan.foldl (fun code edit => code.set edit.1 (.insn edit.2)) code

/-- The straight-line block that code begins with. -/
def straight : List Slot → List A64
  | .insn i :: rest => i :: straight rest
  | _ => []

/-! ## What the plan widens -/

def narrowAt (code : List Slot) (k : ℕ) : Bool :=
  match code[k]? with
  | some (.insn d) => isNarrowSubOrUdiv d
  | _ => false

/-- The site itself, and the SUB and UDIV in the two slots after an ADD. -/
def widensFor (code : List Slot) (site : Site) (k : ℕ) : Bool :=
  k = site.pos || (site.isAdd && (k = site.pos + 1 || k = site.pos + 2) && narrowAt code k)

def widensAt (code : List Slot) (n k : ℕ) : Bool :=
  (findMdevSizeShiftSites code n).any fun site => widensFor code site k

/-! ## What is to be widened -/

/-- `ldr w<r>, [x<e>, #8]` is in one of the four slots before `k`. -/
def LoadedBefore (code : List Slot) (k : ℕ) (r : Fin 31) : Prop :=
  ∃ j e, j < k ∧ k ≤ j + 4 ∧ code[j]? = some (.insn (.ldr .w (.num r) (.num e) 8))

/-- `add w<r>, w<b>, w<r>, lsl #12` at slot `k`, on the size. -/
structure SizeAdd (code : List Slot) (n k : ℕ) (b r : Fin 31) : Prop where
  inSegment : k < n
  loaded : LoadedBefore code k r
  insn : code[k]? = some (.insn (.alu .add .w (.num r) [.reg (.num b), .lsl (.num r) 12]))

/-- Slot `k` holds the 32-bit shift of the size, or a SUB or UDIV with `w` in its operands one or
two slots behind the ADD form. -/
inductive Widens (code : List Slot) (n k : ℕ) : Prop
  | lsl (r : Fin 31) (inSegment : k < n) (loaded : LoadedBefore code k r)
      (insn : code[k]? = some (.insn (.alu .lsl .w (.num r) [.reg (.num r), .imm 12])))
  | add (b r : Fin 31) (site : SizeAdd code n k b r)
  | behind (j : ℕ) (b r : Fin 31) (site : SizeAdd code n j b r) (near : k = j + 1 ∨ k = j + 2)
      (o : A64) (insn : code[k]? = some (.insn o)) (narrow : isNarrowSubOrUdiv o = true)

/-! ## What the plan changes -/

section Plan
variable {code : List Slot} {n : ℕ} {plan : List (ℕ × A64)}

theorem isSizeLoad_iff {r : Fin 31} {slot : Slot} :
    isSizeLoad r slot = true ↔ ∃ e, slot = .insn (.ldr .w (.num r) (.num e) 8) := by
  constructor
  · intro h
    unfold isSizeLoad at h
    split at h
    · simp only [Bool.and_eq_true, decide_eq_true_eq] at h
      obtain ⟨rfl, rfl⟩ := h
      exact ⟨_, rfl⟩
    · cases h
  · rintro ⟨e, rfl⟩
    simp [isSizeLoad]

theorem any_isSizeLoad_iff {i : ℕ} {r : Fin 31} :
    ((code.take i).drop (i - 4)).any (isSizeLoad r) = true ↔ LoadedBefore code i r := by
  simp only [List.any_eq_true, isSizeLoad_iff]
  constructor
  · rintro ⟨slot, hmem, e, rfl⟩
    obtain ⟨k, hk⟩ := List.mem_iff_getElem?.mp hmem
    rw [List.getElem?_drop, List.getElem?_take] at hk
    split_ifs at hk with hlt
    exact ⟨i - 4 + k, e, hlt, by omega, hk⟩
  · rintro ⟨j, e, hlt, hle, hj⟩
    refine ⟨_, List.mem_iff_getElem?.mpr ⟨j - (i - 4), ?_⟩, e, rfl⟩
    rw [List.getElem?_drop, List.getElem?_take, Nat.add_sub_cancel' (by omega), if_pos hlt, hj]

theorem shiftForm_lsl_iff {o : A64} {r : Fin 31} :
    shiftForm o = some (r, false) ↔ o = .alu .lsl .w (.num r) [.reg (.num r), .imm 12] := by
  constructor
  · intro h
    unfold shiftForm at h
    split at h
    · split_ifs at h with heq
      obtain ⟨rfl, rfl⟩ := heq
      cases h
      rfl
    · split_ifs at h
      cases h
    · cases h
  · rintro rfl
    simp [shiftForm]

theorem shiftForm_add_iff {o : A64} {r : Fin 31} :
    shiftForm o = some (r, true) ↔
      ∃ b, o = .alu .add .w (.num r) [.reg (.num b), .lsl (.num r) 12] := by
  constructor
  · intro h
    unfold shiftForm at h
    split at h
    · split_ifs at h
      cases h
    · split_ifs at h with heq
      obtain ⟨rfl, rfl⟩ := heq
      cases h
      exact ⟨_, rfl⟩
    · cases h
  · rintro ⟨b, rfl⟩
    simp [shiftForm]

theorem siteAt_eq_some_iff {i : ℕ} {site : Site} : siteAt code i = some site ↔
    site.pos = i ∧ code[i]? = some (.insn site.insn) ∧
      shiftForm site.insn = some (site.szreg, site.isAdd) ∧ LoadedBefore code i site.szreg := by
  rw [← any_isSizeLoad_iff]
  constructor
  · intro h
    rw [siteAt] at h
    split at h
    · rename_i insn hinsn
      split at h
      · rename_i szreg isAdd hform
        split_ifs at h with hload
        cases h
        exact ⟨rfl, hinsn, hform, hload⟩
      · cases h
    · cases h
  · rintro ⟨rfl, hinsn, hform, hload⟩
    simp only [siteAt, hinsn, hform, hload, if_true]

theorem mem_sites_iff {site : Site} : site ∈ findMdevSizeShiftSites code n ↔
    site.pos < n ∧ siteAt code site.pos = some site := by
  rw [findMdevSizeShiftSites, List.mem_filterMap]
  constructor
  · rintro ⟨i, hi, hsite⟩
    obtain rfl := (siteAt_eq_some_iff.mp hsite).1
    exact ⟨List.mem_range.mp hi, hsite⟩
  · rintro ⟨hi, hsite⟩
    exact ⟨_, List.mem_range.mpr hi, hsite⟩

theorem narrowAt_iff {k : ℕ} : narrowAt code k = true ↔
    ∃ o, code[k]? = some (.insn o) ∧ isNarrowSubOrUdiv o = true := by
  rw [narrowAt]
  split
  · rename_i d hd
    exact ⟨fun h => ⟨d, hd, h⟩, fun ⟨o, ho, h⟩ => by
      rw [hd] at ho
      cases ho
      exact h⟩
  · rename_i hnone
    exact iff_of_false nofun fun ⟨o, ho, _⟩ => hnone o ho

theorem SizeAdd.mem_sites {k : ℕ} {b r : Fin 31} (h : SizeAdd code n k b r) :
    ⟨k, .alu .add .w (.num r) [.reg (.num b), .lsl (.num r) 12], r, true⟩ ∈
      findMdevSizeShiftSites code n :=
  mem_sites_iff.mpr ⟨h.inSegment, siteAt_eq_some_iff.mpr
    ⟨rfl, h.insn, shiftForm_add_iff.mpr ⟨b, rfl⟩, h.loaded⟩⟩

/-- The finder and the look-ahead pick what the code says. -/
theorem widensAt_iff {k : ℕ} : widensAt code n k = true ↔ Widens code n k := by
  rw [widensAt, List.any_eq_true]
  constructor
  · rintro ⟨site, hsite, hk⟩
    obtain ⟨hlt, hat⟩ := mem_sites_iff.mp hsite
    obtain ⟨-, hinsn, hform, hload⟩ := siteAt_eq_some_iff.mp hat
    simp only [widensFor, Bool.or_eq_true, Bool.and_eq_true, decide_eq_true_eq] at hk
    cases hadd : site.isAdd with
    | false =>
      have hpos : k = site.pos := by
        rcases hk with hk | ⟨⟨hk, -⟩, -⟩
        · exact hk
        · exact absurd (hadd.symm.trans hk) (by decide)
      subst hpos
      rw [hadd] at hform
      exact .lsl site.szreg hlt hload (shiftForm_lsl_iff.mp hform ▸ hinsn)
    | true =>
      rw [hadd] at hform
      obtain ⟨b, hb⟩ := shiftForm_add_iff.mp hform
      have hsum : SizeAdd code n site.pos b site.szreg := ⟨hlt, hload, hb ▸ hinsn⟩
      rcases hk with rfl | ⟨⟨-, hnear⟩, hnarrow⟩
      · exact .add b site.szreg hsum
      · obtain ⟨o, ho, hw⟩ := narrowAt_iff.mp hnarrow
        exact .behind site.pos b site.szreg hsum hnear o ho hw
  · intro h
    cases h with
    | lsl r hlt hload hinsn =>
      exact ⟨⟨k, _, r, false⟩, mem_sites_iff.mpr ⟨hlt, siteAt_eq_some_iff.mpr
        ⟨rfl, hinsn, shiftForm_lsl_iff.mpr rfl, hload⟩⟩, by simp [widensFor]⟩
    | add b r site => exact ⟨_, site.mem_sites, by simp [widensFor]⟩
    | behind j b r site near o hinsn narrow =>
      have hnarrow : narrowAt code k = true := narrowAt_iff.mpr ⟨o, hinsn, narrow⟩
      exact ⟨_, site.mem_sites, by simp [widensFor, near, hnarrow]⟩

instance (code : List Slot) (n k : ℕ) : Decidable (Widens code n k) :=
  decidable_of_iff _ widensAt_iff

/-- Which instructions of the block at slot `i` are to be widened. -/
def toWiden (code : List Slot) (n i : ℕ) : List Bool :=
  (straight (code.drop i)).mapIdx fun k _ => decide (Widens code n (i + k))

/-- An edit gives an instruction its 64-bit form. -/
def IsEdit (code : List Slot) (edit : ℕ × A64) : Prop :=
  ∃ o, code[edit.1]? = some (.insn o) ∧ edit.2 = o.widen

/-- Edits of the code, in the slots that satisfy `f`. -/
structure EditsExactly (code : List Slot) (f : ℕ → Bool) (edits : List (ℕ × A64)) : Prop where
  isEdit : ∀ e ∈ edits, IsEdit code e
  slots : ∀ k, k ∈ edits.map Prod.fst ↔ f k

theorem EditsExactly.append {f g : ℕ → Bool} {xs ys : List (ℕ × A64)}
    (hx : EditsExactly code f xs) (hy : EditsExactly code g ys) :
    EditsExactly code (fun k => f k || g k) (xs ++ ys) where
  isEdit := List.forall_mem_append.mpr ⟨hx.isEdit, hy.isEdit⟩
  slots k := by
    rw [List.map_append, List.mem_append, hx.slots, hy.slots]
    exact (Bool.or_eq_true _ _).symm.to_iff

theorem EditsExactly.congr {f g : ℕ → Bool} {edits : List (ℕ × A64)}
    (h : EditsExactly code f edits) (hfg : ∀ k, f k = g k) : EditsExactly code g edits where
  isEdit := h.isEdit
  slots k := by rw [h.slots, hfg]

theorem editsExactly_singleton {k : ℕ} {o : A64} (h : code[k]? = some (.insn o)) :
    EditsExactly code (fun j => j = k) [(k, o.widen)] where
  isEdit := List.forall_mem_singleton.mpr ⟨o, h, rfl⟩
  slots j := by simp

theorem dependentEdit_exactly {k : ℕ} {edits : List (ℕ × A64)}
    (h : dependentEdit code k = .ok edits) :
    EditsExactly code (fun j => j = k && narrowAt code j) edits := by
  have hnone (hnarrow : narrowAt code k = false) :
      EditsExactly code (fun j => j = k && narrowAt code j) [] := by
    refine ⟨List.forall_mem_nil _, fun j => ⟨fun hj => absurd hj List.not_mem_nil, fun hj => ?_⟩⟩
    obtain ⟨hj, hat⟩ := (Bool.and_eq_true _ _).to_iff.mp hj
    rw [of_decide_eq_true hj, hnarrow] at hat
    cases hat
  rw [dependentEdit] at h
  split at h
  · rename_i d hd
    cases h
    have hat : narrowAt code k = isNarrowSubOrUdiv d := by rw [narrowAt, hd]
    by_cases hnarrow : isNarrowSubOrUdiv d
    · rw [if_pos hnarrow]
      refine (editsExactly_singleton hd).congr fun j => ?_
      by_cases hj : j = k
      · rw [hj, hat, hnarrow, Bool.and_true]
      · simp [hj]
    · rw [if_neg hnarrow]
      exact hnone (hat.trans (Bool.eq_false_iff.mpr hnarrow))
  · rename_i hbranch
    cases h
    exact hnone (by rw [narrowAt, hbranch])
  · cases h
  · cases h

theorem siteEdits_exactly {site : Site} {edits : List (ℕ × A64)}
    (hsite : code[site.pos]? = some (.insn site.insn)) (h : siteEdits code site = .ok edits) :
    EditsExactly code (widensFor code site) edits := by
  have hfirst := editsExactly_singleton hsite
  rw [siteEdits] at h
  split_ifs at h with hadd
  · obtain ⟨second, hsecond, h⟩ := bind_eq_ok_iff.mp h
    obtain ⟨third, hthird, h⟩ := bind_eq_ok_iff.mp h
    cases h
    have hall := hfirst.append
      ((dependentEdit_exactly hsecond).append (dependentEdit_exactly hthird))
    refine hall.congr fun k => ?_
    rw [widensFor, hadd, Bool.true_and, Bool.and_or_distrib_right]
  · cases h
    refine hfirst.congr fun k => ?_
    rw [widensFor, Bool.eq_false_iff.mpr hadd, Bool.false_and, Bool.false_and, Bool.or_false]

/-- The plan has an edit for exactly the slots that the code says. -/
theorem buildPlan_exactly (h : buildPlan code n = .ok plan) :
    EditsExactly code (widensAt code n) plan := by
  obtain ⟨edits, hedits, rfl⟩ := map_eq_ok_iff.mp h
  have hpairs := forall₂_of_mapM_ok hedits
  have hexact {site : Site} {es : List (ℕ × A64)} (hsite : site ∈ findMdevSizeShiftSites code n)
      (hok : siteEdits code site = .ok es) : EditsExactly code (widensFor code site) es := by
    exact siteEdits_exactly (siteAt_eq_some_iff.mp (mem_sites_iff.mp hsite).2).2.1 hok
  constructor
  · intro e he
    obtain ⟨es, hes, he⟩ := List.mem_flatten.mp he
    obtain ⟨site, hsite, hok⟩ := forall₂_mem_right hpairs es hes
    exact (hexact hsite hok).isEdit e he
  · intro k
    rw [widensAt, List.any_eq_true, List.map_flatten, List.mem_flatten]
    constructor
    · rintro ⟨ks, hks, hk⟩
      obtain ⟨es, hes, rfl⟩ := List.mem_map.mp hks
      obtain ⟨site, hsite, hok⟩ := forall₂_mem_right hpairs es hes
      exact ⟨site, hsite, ((hexact hsite hok).slots k).mp hk⟩
    · rintro ⟨site, hsite, hk⟩
      obtain ⟨es, hes, hok⟩ := forall₂_mem_right hpairs.flip site hsite
      exact ⟨es.map Prod.fst, List.mem_map.mpr ⟨es, hes, rfl⟩,
        ((hexact hsite hok).slots k).mpr hk⟩

def Slot.widen : Slot → Slot
  | .insn o => .insn o.widen
  | slot => slot

theorem applyPlan_getElem? (hedits : ∀ e ∈ plan, IsEdit code e) (k : ℕ) :
    (applyPlan plan code)[k]? =
      if k ∈ plan.map Prod.fst then code[k]?.map Slot.widen else code[k]? := by
  induction plan using List.reverseRecOn with
  | nil => rfl
  | append_singleton plan e ih =>
    obtain ⟨hplan, he⟩ := List.forall_mem_append.mp hedits
    obtain ⟨o, ho, hwiden⟩ := List.forall_mem_singleton.mp he
    have hset : applyPlan (plan ++ [e]) code = (applyPlan plan code).set e.1 (.insn e.2) := by
      rw [applyPlan, List.foldl_append]
      rfl
    rw [hset, List.map_append, List.getElem?_set]
    by_cases hk : e.1 = k
    · subst hk
      have hlt : e.1 < (applyPlan plan code).length := by
        have hsome : (applyPlan plan code)[e.1]? ≠ none := by
          rw [ih hplan, ho]
          split_ifs <;> simp
        exact (List.getElem?_eq_some_iff.mp (Option.ne_none_iff_exists'.mp hsome).choose_spec).1
      rw [if_pos rfl, if_pos hlt, if_pos (by simp), ho, hwiden]
      rfl
    · rw [if_neg hk, ih hplan]
      refine if_congr ?_ rfl rfl
      simp [Ne.symm hk]

theorem straight_of_widened {l l' : List Slot} {f : ℕ → Bool}
    (h : ∀ k, l'[k]? = if f k then l[k]?.map Slot.widen else l[k]?) :
    straight l' = widenWhere ((straight l).mapIdx fun k _ => f k) (straight l) := by
  induction l generalizing l' f with
  | nil =>
    have hnone := h 0
    cases l' with
    | nil => rfl
    | cons _ _ => split_ifs at hnone <;> cases hnone
  | cons slot l ih =>
    cases l' with
    | nil =>
      have hhead := h 0
      split_ifs at hhead <;> cases hhead
    | cons slot' l' =>
      have hhead : slot' = if f 0 then slot.widen else slot := by
        have hat := h 0
        split_ifs at hat ⊢ <;> exact Option.some.inj hat
      have hsame (hwiden : slot.widen = slot) : slot' = slot := by rw [hhead, hwiden, ite_self]
      have htail := @ih l' (fun k => f (k + 1)) fun k => h (k + 1)
      cases slot with
      | insn o =>
        have hinsn : slot' = .insn (if f 0 then o.widen else o) := by
          rw [hhead]
          split_ifs <;> rfl
        rw [hinsn, straight, straight, htail, List.mapIdx_cons]
        rfl
      | branch =>
        rw [hsame rfl]
        rfl
      | undecoded =>
        rw [hsame rfl]
        rfl

theorem straight_getElem? {l : List Slot} {k : ℕ} {o : A64} (h : (straight l)[k]? = some o) :
    l[k]? = some (.insn o) := by
  induction l generalizing k with
  | nil => cases h
  | cons slot l ih =>
    cases slot with
    | insn i =>
      cases k with
      | zero => exact congrArg (some ∘ Slot.insn) (Option.some.inj h)
      | succ k => exact ih h
    | branch => cases h
    | undecoded => cases h

/-- The patched block. -/
theorem straight_patched (h : buildPlan code n = .ok plan) (i : ℕ) :
    straight ((applyPlan plan code).drop i) =
      widenWhere (toWiden code n i) (straight (code.drop i)) := by
  have hplan := buildPlan_exactly h
  refine straight_of_widened fun k => ?_
  rw [List.getElem?_drop, List.getElem?_drop, applyPlan_getElem? hplan.isEdit]
  refine if_congr ?_ rfl rfl
  rw [hplan.slots (i + k), widensAt_iff, decide_eq_true_eq]

theorem Widens.isAlu {k : ℕ} (h : Widens code n k) {o : A64} (ho : code[k]? = some (.insn o)) :
    o.isAlu = true := by
  have hsame {o' : A64} (ho' : code[k]? = some (.insn o')) : o = o' :=
    Slot.insn.inj (Option.some.inj (ho.symm.trans ho'))
  cases h with
  | lsl r inSegment loaded insn => rw [hsame insn, Insn.isAlu]
  | add b r site => rw [hsame site.insn, Insn.isAlu]
  | behind j b r site near o' insn narrow =>
    rw [hsame insn]
    cases o' with
    | alu op width rd args => rfl
    | ldr width rt base disp => cases narrow
    | fixed op reads writes => cases narrow

theorem toWiden_widenable (code : List Slot) (n i : ℕ) :
    Widenable (toWiden code n i) (straight (code.drop i)) := by
  refine List.forall₂_iff_get.mpr ⟨List.length_mapIdx, fun k hk hk' hw => ?_⟩
  have ho : (straight (code.drop i))[k]? = some ((straight (code.drop i)).get ⟨k, hk'⟩) :=
    List.getElem?_eq_getElem hk'
  have hslot := straight_getElem? ho
  rw [List.getElem?_drop] at hslot
  simp only [toWiden, List.get_eq_getElem, List.getElem_mapIdx, decide_eq_true_eq] at hw
  exact hw.isAlu hslot

end Plan

/-! ## The full size -/

/-- The size is in the register of the site. -/
def sizeIn (r : Fin 31) : Derived where
  regs g := g = .num r
  flags := false
  mem _ := none

/-- `add w<a>, w<b>, w<a>, lsl #12; sub w<a>, w<a>, #1; udiv w<q>, w<a>, w<b>` -/
def countForm (a b q : Fin 31) : List A64 :=
  [.alu .add .w (.num a) [.reg (.num b), .lsl (.num a) 12],
    .alu (.sub none) .w (.num a) [.reg (.num a), .imm 1],
    .alu .udiv .w (.num q) [.reg (.num a), .reg (.num b)]]

/-- The block `os` from a site on, with a page count `p` in its register, and the patched block
`qs`: the size is `p * 4096`, what depends on it sees what it sees in 64 bits, and a block count is
the quotient rounded up. -/
structure FullSize (others : OtherInsns) (os qs : List A64) (r : Fin 31) (p : BitVec 32)
    (s : State) : Prop where
  size : ((Arg.lsl (.num r) 12).val 64 s).toNat = p.toNat * 4096
  seen : SeesFull (a64 others) (sizeIn r) os qs s s
  count : ∀ b q rest, os = countForm r b q ++ rest → b ≠ r → 0 < (s.get (.num b)).toNat →
    (s.get (.num b)).toNat < 2 ^ 32 →
    (((qs.take 3).foldl (fun s q => q.step (a64 others) s) s).get (.num q)).toNat =
      p.toNat * 4096 ⌈/⌉ (s.get (.num b)).toNat

section Registers

/-- What an ALU instruction in 64 bits leaves. -/
theorem step_alu (others : OtherInsns) (s : State) (op : Mnemonic) (n : Fin 31) (args : List Arg)
    (hflags : ((a64 others).alu op).flags = none) :
    (Insn.alu op .x (.num n) args).step (a64 others) s =
      s.set (.num n) (((a64 others).alu op).value 64 (args.map fun a => a.val 64 s)
        (Insn.flagsIn (a64 others) s op)) := by
  rw [Insn.step]
  simp [Insn.seen, Insn.writes, hflags, Width.bits]

/-- The three instructions in 64 bits round the quotient up. -/
theorem countForm_widened (others : OtherInsns) {r b q : Fin 31} {p : BitVec 32} {s : State}
    (hp : s.get (.num r) = p.setWidth 64) (hb : b ≠ r) (hpos : 0 < (s.get (.num b)).toNat)
    (hlt : (s.get (.num b)).toNat < 2 ^ 32) :
    ((((countForm r b q).map Insn.widen).foldl (fun s q => q.step (a64 others) s) s).get
      (.num q)).toNat = p.toNat * 4096 ⌈/⌉ (s.get (.num b)).toNat := by
  have hbr : Reg.num b ≠ .num r := fun h => hb (Reg.num.inj h)
  have hplt := p.isLt
  let sum := s.get (.num b) + p.setWidth 64 <<< 12
  have hadd : (Insn.alu .add .x (.num r) [.reg (.num b), .lsl (.num r) 12]).step (a64 others) s =
      s.set (.num r) sum := by
    rw [step_alu others s .add r _ rfl]
    simp [a64, binary, Arg.val, hp, sum]
  have hsub : (Insn.alu (.sub none) .x (.num r) [.reg (.num r), .imm 1]).step (a64 others)
      (s.set (.num r) sum) = (s.set (.num r) sum).set (.num r) (sum - 1#64) := by
    rw [step_alu others _ (.sub none) r _ rfl]
    simp [a64, binary, RightShift.shift, Arg.val]
  have hdiv : (Insn.alu .udiv .x (.num q) [.reg (.num r), .reg (.num b)]).step (a64 others)
      ((s.set (.num r) sum).set (.num r) (sum - 1#64)) =
      ((s.set (.num r) sum).set (.num r) (sum - 1#64)).set (.num q)
        ((sum - 1#64) / s.get (.num b)) := by
    rw [step_alu others _ .udiv q _ rfl]
    simp [a64, binary, Arg.val, State.get_set_of_ne _ hbr]
  have hsum : sum.toNat = (s.get (.num b)).toNat + p.toNat * 4096 := by
    simp only [sum, BitVec.toNat_add, BitVec.toNat_shiftLeft, BitVec.toNat_setWidth,
      Nat.shiftLeft_eq]
    omega
  have hpred : (sum - 1#64).toNat = p.toNat * 4096 + (s.get (.num b)).toNat - 1 := by
    rw [BitVec.toNat_sub_of_le (by rw [BitVec.le_def, hsum]; simp; omega), hsum]
    simp
    omega
  simp only [countForm, List.map_cons, List.map_nil, Insn.widen, Arg.widen, List.foldl_cons,
    List.foldl_nil]
  rw [hadd, hsub, hdiv, State.get_set_self _ (by simp), BitVec.toNat_udiv, hpred,
    Nat.ceilDiv_eq_add_pred_div]

end Registers

section Blocks
variable {code : List Slot} {n : ℕ} {plan : List (ℕ × A64)}

/-- All three instructions of a block count are widened. -/
theorem countForm_toWiden {i : ℕ} (hi : i < n) {site : Site} (hsite : siteAt code i = some site)
    {r b q : Fin 31} {rest : List A64}
    (hblock : straight (code.drop i) = countForm r b q ++ rest) :
    (widenWhere (toWiden code n i) (straight (code.drop i))).take 3 =
      (countForm r b q).map Insn.widen := by
  have hcode (k : ℕ) (hk : k < 3) : code[i + k]? = some (.insn (countForm r b q)[k]) := by
    rw [← List.getElem?_drop]
    refine straight_getElem? ?_
    rw [hblock, List.getElem?_append_left hk]
    exact List.getElem?_eq_getElem hk
  obtain ⟨-, hinsn, hform, hload⟩ := siteAt_eq_some_iff.mp hsite
  have hfirst : site.insn = .alu .add .w (.num r) [.reg (.num b), .lsl (.num r) 12] :=
    Slot.insn.inj (Option.some.inj (hinsn.symm.trans (hcode 0 (by decide))))
  have hreg : r = site.szreg := by
    rw [hfirst, shiftForm_add_iff.mpr ⟨b, rfl⟩] at hform
    exact (Prod.mk.inj (Option.some.inj hform)).1
  have hsum : SizeAdd code n i b r := ⟨hi, hreg ▸ hload, hcode 0 (by decide)⟩
  have h0 : Widens code n i := .add b r hsum
  have h1 : Widens code n (i + 1) :=
    .behind i b r hsum (.inl rfl) _ (hcode 1 (by decide)) rfl
  have h2 : Widens code n (i + 2) :=
    .behind i b r hsum (.inr rfl) _ (hcode 2 (by decide)) rfl
  rw [toWiden, hblock]
  simp [countForm, List.mapIdx_cons, widenWhere, inWidth, h0, h1, h2]

end Blocks

/-! ## The page count at a site -/

/-- The load zero-extends: between it and the site the register holds the page count. -/
theorem page_count_at_site (others : OtherInsns) {r e : Fin 31} {mid : List A64}
    (h : ∀ insn ∈ mid, .num r ∉ insn.writes) (s : State) :
    ((mid.foldl (fun s insn => insn.step (a64 others) s)
        ((Insn.ldr .w (.num r) (.num e) 8).step (a64 others) s)).get (.num r)) =
      BitVec.ofNat 64 (s.mem.load (Insn.address s (.num e) 8) 4) := by
  rw [Insn.get_run_of_not_written (a64 others) h]
  exact State.get_set_self _ (by simp) _

/-! ## Two blocks of the kernel -/

/-- STR of a whole register; no other instruction does anything. -/
def storesOnly : OtherInsns where
  alu _ := binary fun _ a _ => a
  fixed _ :=
    { loads := fun _ => []
      value := fun _ _ => []
      stores := fun vals _ =>
        match vals with
        | [v, a] => [(⟨a, 8⟩, v.toNat)]
        | _ => [] }

/-- A page count in one register and a value in another. -/
def sizeState (r g : Fin 31) (p v : BitVec 64) : State where
  x k := if k = .num r then p else if k = .num g then v else 0
  flags := ⟨false, false, false, false⟩
  mem _ := 0

/-- The block count of `mdevioctl`. -/
def blockCount : List Slot :=
  (.insn (.ldr .w (.num 9) (.num 8) 8) :: .insn (.ldr .w (.num 8) (.num 8) 0x10) ::
    (countForm 9 8 8).map .insn) ++ [.insn (.fixed (.other "str") [(.x, .num 8), (.x, .num 19)] [])]

-- a size that is stored whole and loaded back in 32 bits
example : ¬ FitsNarrow (a64 storesOnly) (sizeIn 9) [true, false, false]
    [.alu .lsl .w (.num 9) [.reg (.num 9), .imm 12],
      .fixed (.other "str") [(.x, .num 9), (.x, .sp)] [], .ldr .w (.num 10) .sp 0]
    (sizeState 9 8 0x255A00 0) := by decide +kernel

/-- The clamp of `mdevrw`. -/
def transferClamp : List Slot :=
  [.insn (.ldr .w (.num 9) (.num 9) 8), .insn (.alu .lsl .w (.num 9) [.reg (.num 9), .imm 12]),
    .insn (.alu (.sub none) .w (.num 11) [.reg (.num 9), .reg (.num 8)]),
    .insn (.alu (.other "cmp") .w .zr [.reg (.num 10), .reg (.num 11)])]

end SecureWorld.Md0
