import SecureWorld.Foundations.Run
import Mathlib.Logic.Function.Basic

/-! # Cells that keep the last value written

A cell is a part of a machine's state that an operation either overwrites or leaves alone. After a
run it holds the last value that some operation wrote, or what it held before.
-/
namespace SecureWorld.Foundations
set_option autoImplicit false

variable {σ ω β : Type}

/-- The last value the operations write, where `writes` says what each of them writes. -/
def lastWrite (writes : ω → Option β) : List ω → Option β
  | [] => none
  | o :: ops => (lastWrite writes ops).or (writes o)

theorem lastWrite_eq_none_iff {writes : ω → Option β} {ops : List ω} :
    lastWrite writes ops = none ↔ ∀ o ∈ ops, writes o = none := by
  induction ops with
  | nil => simp [lastWrite]
  | cons o ops ih => rw [lastWrite, Option.or_eq_none_iff, ih, List.forall_mem_cons, and_comm]

theorem lastWrite_eq_some_iff {writes : ω → Option β} {ops : List ω} {v : β} :
    lastWrite writes ops = some v ↔ ∃ pre o post, ops = pre ++ o :: post ∧ writes o = some v ∧
      ∀ o' ∈ post, writes o' = none := by
  induction ops with
  | nil => simp [lastWrite]
  | cons p ops ih =>
    rw [lastWrite, Option.or_eq_some_iff, ih, lastWrite_eq_none_iff]
    constructor
    · rintro (⟨pre, o, post, rfl, ho, hpost⟩ | ⟨hnone, hp⟩)
      · exact ⟨p :: pre, o, post, rfl, ho, hpost⟩
      · exact ⟨[], p, ops, rfl, hp, hnone⟩
    · rintro ⟨pre, o, post, hops, ho, hpost⟩
      cases pre with
      | nil =>
        obtain ⟨rfl, rfl⟩ := List.cons.inj hops
        exact .inr ⟨hpost, ho⟩
      | cons q pre =>
        obtain ⟨rfl, rfl⟩ := List.cons.inj hops
        exact .inl ⟨pre, o, post, rfl, ho, hpost⟩

/-- The last element with a property is at one place. -/
theorem split_last_unique {P : ω → Prop} {pre pre' post post' : List ω} {o o' : ω}
    (h : pre ++ o :: post = pre' ++ o' :: post') (ho : P o) (ho' : P o')
    (hpost : ∀ p ∈ post, ¬P p) (hpost' : ∀ p ∈ post', ¬P p) :
    pre = pre' ∧ o = o' ∧ post = post' := by
  rcases List.append_eq_append_iff.mp h with ⟨between, rfl, hrest⟩ | ⟨between, rfl, hrest⟩
  · cases between with
    | nil =>
      obtain ⟨rfl, rfl⟩ := List.cons.inj hrest
      exact ⟨(List.append_nil pre).symm, rfl, rfl⟩
    | cons p between =>
      obtain ⟨-, rfl⟩ := List.cons.inj hrest
      exact absurd ho' (hpost o' (by simp))
  · cases between with
    | nil =>
      obtain ⟨rfl, rfl⟩ := List.cons.inj hrest
      exact ⟨List.append_nil pre', rfl, rfl⟩
    | cons p between =>
      obtain ⟨-, rfl⟩ := List.cons.inj hrest
      exact absurd ho (hpost' o (by simp))

theorem lastWrite_append (writes : ω → Option β) (ops ops' : List ω) :
    lastWrite writes (ops ++ ops') = (lastWrite writes ops').or (lastWrite writes ops) := by
  induction ops with
  | nil => rw [List.nil_append, lastWrite, Option.or_none]
  | cons o ops ih => rw [List.cons_append, lastWrite, ih, lastWrite, Option.or_assoc]

/-- Where all operations that write agree on the value, their order does not matter. -/
theorem lastWrite_eq_some_of_agree {writes : ω → Option β} {ops : List ω} {v : β} {o : ω}
    (ho : o ∈ ops) (hwrites : writes o = some v)
    (hagree : ∀ o' ∈ ops, ∀ w, writes o' = some w → w = v) : lastWrite writes ops = some v := by
  cases hlast : lastWrite writes ops with
  | none =>
    rw [lastWrite_eq_none_iff.mp hlast o ho] at hwrites
    cases hwrites
  | some w =>
    obtain ⟨pre, o', post, rfl, hw, -⟩ := lastWrite_eq_some_iff.mp hlast
    rw [hagree o' (by simp) w hw]

/-! ## The first and the last with a property -/

section Extremes
variable (P : ω → Prop)

def FirstWith (ops : List ω) (o : ω) : Prop :=
  ∃ pre post, ops = pre ++ o :: post ∧ P o ∧ ∀ o' ∈ pre, ¬P o'

def LastWith (ops : List ω) (o : ω) : Prop :=
  ∃ pre post, ops = pre ++ o :: post ∧ P o ∧ ∀ o' ∈ post, ¬P o'

variable {P}

theorem FirstWith.prop {ops : List ω} {o : ω} (h : FirstWith P ops o) : o ∈ ops ∧ P o := by
  obtain ⟨pre, post, rfl, ho, -⟩ := h
  exact ⟨by simp, ho⟩

theorem LastWith.prop {ops : List ω} {o : ω} (h : LastWith P ops o) : o ∈ ops ∧ P o := by
  obtain ⟨pre, post, rfl, ho, -⟩ := h
  exact ⟨by simp, ho⟩

/-- A change of property that does not show on the list. -/
theorem FirstWith.congr {Q : ω → Prop} {ops : List ω} (hPQ : ∀ o ∈ ops, (P o ↔ Q o)) {o : ω}
    (h : FirstWith P ops o) : FirstWith Q ops o := by
  obtain ⟨pre, post, rfl, ho, hpre⟩ := h
  exact ⟨pre, post, rfl, (hPQ o (by simp)).mp ho,
    fun o' ho' hQ => hpre o' ho' ((hPQ o' (by simp [ho'])).mpr hQ)⟩

theorem LastWith.congr {Q : ω → Prop} {ops : List ω} (hPQ : ∀ o ∈ ops, (P o ↔ Q o)) {o : ω}
    (h : LastWith P ops o) : LastWith Q ops o := by
  obtain ⟨pre, post, rfl, ho, hpost⟩ := h
  exact ⟨pre, post, rfl, (hPQ o (by simp)).mp ho,
    fun o' ho' hQ => hpost o' ho' ((hPQ o' (by simp [ho'])).mpr hQ)⟩

variable [DecidablePred P] {f : ω → β} {ops : List ω}

theorem findSome?_ite_eq_none_iff :
    (ops.findSome? fun o => if P o then some (f o) else none) = none ↔ ∀ o ∈ ops, ¬P o := by
  simp [List.findSome?_eq_none_iff]

theorem findSome?_ite_eq_some_iff {v : β} :
    (ops.findSome? fun o => if P o then some (f o) else none) = some v ↔
      ∃ o, FirstWith P ops o ∧ f o = v := by
  rw [List.findSome?_eq_some_iff]
  constructor
  · rintro ⟨pre, o, post, rfl, ho, hpre⟩
    split_ifs at ho with hP
    exact ⟨o, ⟨pre, post, rfl, hP, fun o' ho' hP' => by simpa [hP'] using hpre o' ho'⟩,
      Option.some.inj ho⟩
  · rintro ⟨o, ⟨pre, post, rfl, hP, hpre⟩, rfl⟩
    exact ⟨pre, o, post, rfl, if_pos hP, fun o' ho' => if_neg (hpre o' ho')⟩

theorem FirstWith.exists_of_mem {o : ω} (ho : o ∈ ops) (hP : P o) : ∃ o', FirstWith P ops o' := by
  cases hfirst : ops.findSome? fun o => if P o then some o else none with
  | none => exact absurd hP (findSome?_ite_eq_none_iff.mp hfirst o ho)
  | some o' =>
    obtain ⟨o', h, -⟩ := findSome?_ite_eq_some_iff.mp hfirst
    exact ⟨o', h⟩

theorem lastWrite_ite_eq_none_iff :
    lastWrite (fun o => if P o then some (f o) else none) ops = none ↔ ∀ o ∈ ops, ¬P o := by
  simp [lastWrite_eq_none_iff]

theorem lastWrite_ite_eq_some_iff {v : β} :
    lastWrite (fun o => if P o then some (f o) else none) ops = some v ↔
      ∃ o, LastWith P ops o ∧ f o = v := by
  rw [lastWrite_eq_some_iff]
  constructor
  · rintro ⟨pre, o, post, rfl, ho, hpost⟩
    split_ifs at ho with hP
    exact ⟨o, ⟨pre, post, rfl, hP, fun o' ho' hP' => by simpa [hP'] using hpost o' ho'⟩,
      Option.some.inj ho⟩
  · rintro ⟨o, ⟨pre, post, rfl, hP, hpost⟩, rfl⟩
    exact ⟨pre, o, post, rfl, if_pos hP, fun o' ho' => if_neg (hpost o' ho')⟩

end Extremes

/-- Each operation writes the cell as `writes` says, or leaves it alone. -/
def IsCell (step : σ → ω → σ) (cell : σ → β) (writes : ω → Option β) : Prop :=
  ∀ s o, cell (step s o) = (writes o).getD (cell s)

theorem IsCell.run {step : σ → ω → σ} {cell : σ → β} {writes : ω → Option β}
    (h : IsCell step cell writes) (ops : List ω) (s : σ) :
    cell (run step s ops) = (lastWrite writes ops).getD (cell s) := by
  induction ops generalizing s with
  | nil => rfl
  | cons o ops ih =>
    rw [run_cons, ih, h, lastWrite]
    cases lastWrite writes ops with
    | none => rw [Option.none_or, Option.getD_none]
    | some v => rw [Option.some_or, Option.getD_some, Option.getD_some]

section Places
variable {κ : Type} [DecidableEq κ]

theorem isCell_update (place : ω → κ) (value : ω → β) (k : κ) :
    IsCell (fun (f : κ → β) o => Function.update f (place o) (value o)) (fun f => f k)
      fun o => if place o = k then some (value o) else none := by
  intro f o
  dsimp only
  split_ifs with hk
  · rw [← hk, Function.update_self, Option.getD_some]
  · rw [Function.update_of_ne (Ne.symm hk), Option.getD_none]

/-- What is written to a place that no other operation writes to stays there. -/
theorem run_update_of_nodup {place : ω → κ} (value : ω → β) {ops : List ω}
    (h : (ops.map place).Nodup) {o : ω} (ho : o ∈ ops) (f : κ → β) :
    run (fun f o => Function.update f (place o) (value o)) f ops (place o) = value o := by
  obtain ⟨pre, post, rfl⟩ := List.append_of_mem ho
  rw [List.map_append, List.map_cons, List.nodup_append, List.nodup_cons] at h
  have hlast : lastWrite (fun o' => if place o' = place o then some (value o') else none)
      (pre ++ o :: post) = some (value o) := by
    refine lastWrite_eq_some_iff.mpr ⟨pre, o, post, rfl, if_pos rfl, fun o' ho' => if_neg ?_⟩
    intro heq
    exact h.2.1.1 (heq ▸ List.mem_map_of_mem ho')
  rw [(isCell_update place value (place o)).run, hlast, Option.getD_some]

/-- A pass that rewrites a place from what the place holds and visits none twice sees the values
from before the pass only. -/
theorem run_rewrite_of_nodup {step : σ → ω → σ} (cell : σ → κ → β) (place : ω → κ)
    (rewrite : ω → β → β)
    (hstep : ∀ s o k, cell (step s o) k = if k = place o then rewrite o (cell s k) else cell s k)
    {ops : List ω} (hnodup : (ops.map place).Nodup) (s : σ) :
    (∀ o ∈ ops, cell (run step s ops) (place o) = rewrite o (cell s (place o))) ∧
      ∀ k ∉ ops.map place, cell (run step s ops) k = cell s k := by
  induction ops generalizing s with
  | nil => exact ⟨List.forall_mem_nil _, fun _ _ => rfl⟩
  | cons o ops ih =>
    rw [List.map_cons, List.nodup_cons] at hnodup
    obtain ⟨hvisited, hothers⟩ := ih hnodup.2 (step s o)
    simp only [run_cons]
    refine ⟨List.forall_mem_cons.mpr ⟨?_, fun o' ho' => ?_⟩, fun k hk => ?_⟩
    · rw [hothers _ hnodup.1, hstep, if_pos rfl]
    · have hne : place o' ≠ place o := fun h => hnodup.1 (h ▸ List.mem_map_of_mem ho')
      rw [hvisited o' ho', hstep, if_neg hne]
    · rw [List.map_cons, List.mem_cons, not_or] at hk
      rw [hothers k hk.2, hstep, if_neg hk.1]

end Places

end SecureWorld.Foundations
