import Mathlib.Data.List.Forall2
import Mathlib.Data.List.Range
import Mathlib.Data.Nat.Notation

/-! # Loops over ranges that return from the middle

`rangeUp stop step` and `rangeDown start stop step` list what a counting loop visits. A loop whose
body never raises is a search of that list; one that may raise is taken apart with
`bind_eq_ok_iff`.
-/
namespace SecureWorld.Foundations
set_option autoImplicit false

/-- `0, step, 2 * step, …` below `stop`. -/
def rangeUp (stop step : ℕ) : List ℕ := (List.range ((stop + step - 1) / step)).map (· * step)

/-- `start, start - step, …` above `stop`. -/
def rangeDown (start stop step : ℕ) : List ℕ :=
  (List.range ((start - stop + step - 1) / step)).map (start - · * step)

theorem lt_ceilDiv_iff {n step k : ℕ} (hstep : 0 < step) :
    k < (n + step - 1) / step ↔ k * step < n := by
  rw [← Nat.succ_le_iff, Nat.le_div_iff_mul_le hstep, Nat.succ_mul]
  omega

theorem mem_rangeUp {stop step i : ℕ} (hstep : 0 < step) :
    i ∈ rangeUp stop step ↔ i < stop ∧ ∃ k, i = k * step := by
  simp only [rangeUp, List.mem_map, List.mem_range, lt_ceilDiv_iff hstep]
  constructor
  · rintro ⟨k, hk, rfl⟩
    exact ⟨hk, k, rfl⟩
  · rintro ⟨hi, k, rfl⟩
    exact ⟨k, hi, rfl⟩

theorem mem_rangeDown {start stop step i : ℕ} (hstep : 0 < step) :
    i ∈ rangeDown start stop step ↔ stop < i ∧ ∃ k, start = i + k * step := by
  simp only [rangeDown, List.mem_map, List.mem_range, lt_ceilDiv_iff hstep]
  constructor
  · rintro ⟨k, hk, rfl⟩
    exact ⟨by omega, k, by omega⟩
  · rintro ⟨hi, k, rfl⟩
    exact ⟨k, by omega, by omega⟩

theorem rangeUp_pairwise {stop step : ℕ} (hstep : 0 < step) :
    (rangeUp stop step).Pairwise (· < ·) := by
  rw [rangeUp, List.pairwise_map]
  exact (List.pairwise_lt_range).imp fun hab => Nat.mul_lt_mul_of_pos_right hab hstep

theorem rangeDown_pairwise {start stop step : ℕ} (hstep : 0 < step) :
    (rangeDown start stop step).Pairwise (· > ·) := by
  rw [rangeDown, List.pairwise_map]
  refine (List.pairwise_lt_range).imp_of_mem fun {a b} _ hb hab => ?_
  have hb' := (lt_ceilDiv_iff hstep).mp (List.mem_range.mp hb)
  have hmul := Nat.mul_lt_mul_of_pos_right hab hstep
  omega

section Raising
variable {ε α β : Type}

theorem bind_eq_ok_iff {x : Except ε α} {f : α → Except ε β} {b : β} :
    (x >>= f) = .ok b ↔ ∃ a, x = .ok a ∧ f a = .ok b := by
  cases x <;> simp [bind, Except.bind]

theorem map_eq_ok_iff {x : Except ε α} {f : α → β} {b : β} :
    x.map f = .ok b ↔ ∃ a, x = .ok a ∧ f a = b := by
  cases x <;> simp [Except.map]

end Raising

section Search
variable {ε α β : Type}

theorem findSomeM?_eq_ok {f : α → Except ε (Option β)} {g : α → Option β} :
    ∀ {l : List α}, (∀ a ∈ l, f a = .ok (g a)) → l.findSomeM? f = .ok (l.findSome? g)
  | [], _ => rfl
  | a :: l, h => by
      have ha := h a List.mem_cons_self
      have hl := findSomeM?_eq_ok fun b hb => h b (List.mem_cons_of_mem a hb)
      rw [List.findSomeM?_cons, ha, List.findSome?_cons]
      cases g a with
      | none => exact hl
      | some b => rfl

theorem forall₂_mem_right {r : α → β → Prop} {as : List α} {bs : List β}
    (h : List.Forall₂ r as bs) : ∀ b ∈ bs, ∃ a ∈ as, r a b := by
  induction h with
  | nil => exact List.forall_mem_nil _
  | cons hab _ ih =>
    refine List.forall_mem_cons.mpr ⟨⟨_, List.mem_cons_self, hab⟩, fun b hb => ?_⟩
    obtain ⟨a, ha, hr⟩ := ih b hb
    exact ⟨a, List.mem_cons_of_mem _ ha, hr⟩

theorem exists_forall₂ {r : α → β → Prop} {as : List α} (h : ∀ a ∈ as, ∃ b, r a b) :
    ∃ bs, List.Forall₂ r as bs := by
  induction as with
  | nil => exact ⟨[], .nil⟩
  | cons a as ih =>
    rw [List.forall_mem_cons] at h
    obtain ⟨b, hb⟩ := h.1
    obtain ⟨bs, hbs⟩ := ih h.2
    exact ⟨b :: bs, .cons hb hbs⟩

theorem forall₂_getElem? {r : α → β → Prop} {as : List α} {bs : List β}
    (h : List.Forall₂ r as bs) (i : ℕ) : Option.Rel r as[i]? bs[i]? := by
  induction h generalizing i with
  | nil => exact .none
  | cons hab _ ih =>
    cases i with
    | zero => exact .some hab
    | succ i => exact ih i

theorem rel_bind {γ δ : Type} {r : α → β → Prop} {s : γ → δ → Prop} {a : Option α} {b : Option β}
    (h : Option.Rel r a b) {f : α → Option γ} {g : β → Option δ}
    (hfg : ∀ x y, a = some x → r x y → Option.Rel s (f x) (g y)) :
    Option.Rel s (a.bind f) (b.bind g) := by
  cases h with
  | none => exact .none
  | some hr => exact hfg _ _ rfl hr

theorem forall₂_of_mapM_ok {f : α → Except ε β} :
    ∀ {l : List α} {bs : List β}, l.mapM f = .ok bs → List.Forall₂ (fun a b => f a = .ok b) l bs
  | [], bs, h => by
      rw [List.mapM_nil] at h
      obtain rfl := Except.ok.inj h
      exact .nil
  | a :: l, bs, h => by
      rw [List.mapM_cons, bind_eq_ok_iff] at h
      obtain ⟨b, ha, h⟩ := h
      obtain ⟨rest, hl, h⟩ := bind_eq_ok_iff.mp h
      obtain rfl := Except.ok.inj h
      exact .cons ha (forall₂_of_mapM_ok hl)

theorem findSome?_congr {f g : α → Option β} {l : List α} (h : ∀ a ∈ l, f a = g a) :
    l.findSome? f = l.findSome? g := by
  induction l with
  | nil => rfl
  | cons a l ih =>
    obtain ⟨ha, hl⟩ := List.forall_mem_cons.mp h
    rw [List.findSome?_cons, List.findSome?_cons, ha, ih hl]

/-- On an ordered list the search stops at the least element with a result. -/
theorem findSome?_eq_some_of_pairwise {r : α → α → Prop} (hasymm : ∀ a b, r a b → ¬ r b a)
    {l : List α} (hl : l.Pairwise r) (g : α → Option β) (b : β) :
    l.findSome? g = some b ↔ ∃ a ∈ l, g a = some b ∧ ∀ x ∈ l, r x a → g x = none := by
  rw [List.findSome?_eq_some_iff]
  constructor
  · rintro ⟨before, a, after, rfl, ha, hbefore⟩
    obtain ⟨-, hafter, -⟩ := List.pairwise_append.mp hl
    refine ⟨a, List.mem_append_right _ List.mem_cons_self, ha, fun x hx hxa => ?_⟩
    rcases List.mem_append.mp hx with hx | hx
    · exact hbefore x hx
    · rcases List.mem_cons.mp hx with rfl | hx
      · exact absurd hxa (hasymm _ _ hxa)
      · exact absurd hxa (hasymm _ _ ((List.pairwise_cons.mp hafter).1 x hx))
  · rintro ⟨a, ha, hg, hless⟩
    obtain ⟨before, after, rfl⟩ := List.append_of_mem ha
    obtain ⟨-, -, hcross⟩ := List.pairwise_append.mp hl
    refine ⟨before, a, after, rfl, hg, fun x hx => ?_⟩
    exact hless x (List.mem_append_left _ hx) (hcross x hx a List.mem_cons_self)

theorem findSome?_rangeUp {stop step : ℕ} (hstep : 0 < step) (g : ℕ → Option β) (b : β) :
    (rangeUp stop step).findSome? g = some b ↔ ∃ i ∈ rangeUp stop step, g i = some b ∧
      ∀ j ∈ rangeUp stop step, j < i → g j = none :=
  findSome?_eq_some_of_pairwise (fun _ _ h => Nat.lt_asymm h) (rangeUp_pairwise hstep) g b

theorem findSome?_rangeDown {start stop step : ℕ} (hstep : 0 < step) (g : ℕ → Option β) (b : β) :
    (rangeDown start stop step).findSome? g = some b ↔
      ∃ i ∈ rangeDown start stop step, g i = some b ∧
        ∀ j ∈ rangeDown start stop step, i < j → g j = none :=
  findSome?_eq_some_of_pairwise (fun _ _ h => Nat.lt_asymm h) (rangeDown_pairwise hstep) g b

end Search
end SecureWorld.Foundations
