import Mathlib.Algebra.BigOperators.Group.List.Basic
import Mathlib.Algebra.Order.Ring.Nat
import Mathlib.Data.List.Basic

/-! # Spans carved off the top of a range

An allocator that only ever lowers one limit: each request takes its size off the limit, rounds
the limit down to a multiple of the grain `p` and hands out what starts there. While no request
exceeds the limit, the spans stand below one another and above the last limit.
-/
namespace SecureWorld.Foundations
set_option autoImplicit false

/-- `n` rounded down, and up, to a multiple of `p`. -/
def floorTo (p n : ℕ) : ℕ := n / p * p

def ceilTo (p n : ℕ) : ℕ := (n + p - 1) / p * p

theorem floorTo_le (p n : ℕ) : floorTo p n ≤ n := Nat.div_mul_le_self n p

theorem dvd_floorTo (p n : ℕ) : p ∣ floorTo p n := Nat.dvd_mul_left p _

theorem le_ceilTo {p : ℕ} (hp : 0 < p) (n : ℕ) : n ≤ ceilTo p n := by
  have hdiv := Nat.div_add_mod (n + p - 1) p
  have hmod := Nat.mod_lt (n + p - 1) hp
  rw [ceilTo, Nat.mul_comm]
  omega

theorem ceilTo_lt {p : ℕ} (hp : 0 < p) (n : ℕ) : ceilTo p n < n + p := by
  have hle := Nat.div_mul_le_self (n + p - 1) p
  rw [ceilTo]
  omega

/-- A multiple of the grain passes through the rounding. -/
theorem floorTo_sub {p s : ℕ} (hs : p ∣ s) (n : ℕ) : floorTo p (n - s) = floorTo p n - s := by
  obtain ⟨k, rfl⟩ := hs
  rw [floorTo, Nat.sub_mul_div, Nat.sub_mul, Nat.mul_comm k p, floorTo]

theorem le_floorTo_iff {p s : ℕ} (hs : p ∣ s) (n : ℕ) : s ≤ floorTo p n ↔ s ≤ n := by
  constructor
  · intro h
    exact h.trans (floorTo_le p n)
  · intro h
    obtain ⟨k, rfl⟩ := hs
    rcases Nat.eq_zero_or_pos p with rfl | hp
    · simp
    · rw [floorTo, Nat.mul_comm p k]
      exact Nat.mul_le_mul_right p ((Nat.le_div_iff_mul_le hp).mpr (Nat.mul_comm p k ▸ h))

/-! ## The allocator -/

structure Span where
  base : ℕ
  size : ℕ
deriving DecidableEq

/-- The two spans have no point in common. -/
def Span.Apart (a b : Span) : Prop := a.base + a.size ≤ b.base ∨ b.base + b.size ≤ a.base

/-- The limit after one request. -/
def carveTop (p top size : ℕ) : ℕ := floorTo p (top - size)

/-- The spans handed out, first request first. -/
def carveSpans (p : ℕ) : ℕ → List ℕ → List Span
  | _, [] => []
  | top, size :: sizes => ⟨carveTop p top size, size⟩ :: carveSpans p (carveTop p top size) sizes

/-- The limit after all requests. -/
def carveRest (p top : ℕ) (sizes : List ℕ) : ℕ := sizes.foldl (carveTop p) top

/-- No request exceeds the limit it meets. -/
def CarvesFit (p : ℕ) : ℕ → List ℕ → Prop
  | _, [] => True
  | top, size :: sizes => size ≤ top ∧ CarvesFit p (carveTop p top size) sizes

theorem carveTop_add_le {p top size : ℕ} (h : size ≤ top) : carveTop p top size + size ≤ top := by
  have hfloor := floorTo_le p (top - size)
  rw [carveTop]
  omega

theorem carveRest_le {p : ℕ} : ∀ {sizes : List ℕ} {top : ℕ}, carveRest p top sizes ≤ top
  | [], _ => Nat.le_refl _
  | size :: sizes, top => by
      have hrest : carveRest p (carveTop p top size) sizes ≤ carveTop p top size := carveRest_le
      have htop := floorTo_le p (top - size)
      rw [carveTop] at hrest
      rw [carveRest, List.foldl_cons]
      exact (hrest.trans htop).trans (Nat.sub_le _ _)

/-! ## One request more -/

theorem carveRest_concat (p top : ℕ) (sizes : List ℕ) (size : ℕ) :
    carveRest p top (sizes ++ [size]) = carveTop p (carveRest p top sizes) size := by
  rw [carveRest, List.foldl_append]
  rfl

theorem carveSpans_concat {p : ℕ} : ∀ (sizes : List ℕ) (top size : ℕ),
    carveSpans p top (sizes ++ [size]) =
      carveSpans p top sizes ++ [⟨carveTop p (carveRest p top sizes) size, size⟩]
  | [], _, _ => rfl
  | s :: sizes, top, size => by
      rw [List.cons_append, carveSpans, carveSpans, carveSpans_concat sizes, List.cons_append]
      rfl

theorem carvesFit_concat {p : ℕ} : ∀ (sizes : List ℕ) (top size : ℕ),
    CarvesFit p top (sizes ++ [size]) ↔ CarvesFit p top sizes ∧ size ≤ carveRest p top sizes
  | [], top, size => by simp [CarvesFit, carveRest]
  | s :: sizes, top, size => by
      rw [List.cons_append, CarvesFit, CarvesFit, carvesFit_concat sizes, and_assoc]
      rfl

/-! ## Where the spans lie -/

/-- Every span lies between the last limit and the first one, on the grain. -/
theorem carveSpans_within {p : ℕ} : ∀ {sizes : List ℕ} {top : ℕ}, CarvesFit p top sizes →
    ∀ r ∈ carveSpans p top sizes,
      carveRest p top sizes ≤ r.base ∧ r.base + r.size ≤ top ∧ p ∣ r.base
  | [], _, _ => List.forall_mem_nil _
  | size :: sizes, top, h => by
      have hstep := carveTop_add_le (p := p) h.1
      have hrest : carveRest p (carveTop p top size) sizes ≤ carveTop p top size := carveRest_le
      refine List.forall_mem_cons.mpr ⟨⟨hrest, hstep, dvd_floorTo p _⟩, fun r hr => ?_⟩
      obtain ⟨hbase, htop, hgrain⟩ := carveSpans_within h.2 r hr
      exact ⟨hbase, by omega, hgrain⟩

/-- No two spans meet: a later one ends below the limit an earlier one starts at. -/
theorem carveSpans_pairwise {p : ℕ} : ∀ {sizes : List ℕ} {top : ℕ}, CarvesFit p top sizes →
    (carveSpans p top sizes).Pairwise Span.Apart
  | [], _, _ => List.Pairwise.nil
  | _ :: _, _, h => by
      refine List.pairwise_cons.mpr ⟨fun r hr => .inr ?_, carveSpans_pairwise h.2⟩
      exact (carveSpans_within h.2 r hr).2.1

/-! ## Requests on the grain -/

theorem floorTo_of_dvd {p n : ℕ} (h : p ∣ n) : floorTo p n = n := Nat.div_mul_cancel h

theorem floorTo_carveTop {p top size : ℕ} (h : p ∣ size) :
    floorTo p (carveTop p top size) = floorTo p top - size := by
  rw [carveTop, floorTo_of_dvd (dvd_floorTo p _), floorTo_sub h]

/-- The requests take exactly their sum off the rounded limit. -/
theorem floorTo_carveRest {p : ℕ} : ∀ {sizes : List ℕ} {top : ℕ}, (∀ s ∈ sizes, p ∣ s) →
    floorTo p (carveRest p top sizes) = floorTo p top - sizes.sum
  | [], _, _ => rfl
  | size :: sizes, top, h => by
      have hrest : floorTo p (carveRest p (carveTop p top size) sizes) =
          floorTo p (carveTop p top size) - sizes.sum :=
        floorTo_carveRest fun s hs => h s (List.mem_cons_of_mem _ hs)
      rw [floorTo_carveTop (h size List.mem_cons_self), Nat.sub_sub] at hrest
      rw [List.sum_cons]
      exact hrest

theorem dvd_carveRest {p : ℕ} : ∀ {sizes : List ℕ} {top : ℕ}, sizes ≠ [] →
    p ∣ carveRest p top sizes
  | [], _, h => absurd rfl h
  | [size], top, _ => dvd_floorTo p (top - size)
  | size :: size' :: sizes, top, _ => by
      have hrest : p ∣ carveRest p (carveTop p top size) (size' :: sizes) :=
        dvd_carveRest (List.cons_ne_nil _ _)
      exact hrest

/-- They fit iff their sum fits under the rounded limit. -/
theorem carvesFit_iff {p : ℕ} : ∀ {sizes : List ℕ} {top : ℕ}, (∀ s ∈ sizes, p ∣ s) →
    (CarvesFit p top sizes ↔ sizes.sum ≤ floorTo p top)
  | [], _, _ => by simp [CarvesFit]
  | size :: sizes, top, h => by
      have hsize := h size List.mem_cons_self
      have hrest : CarvesFit p (carveTop p top size) sizes ↔
          sizes.sum ≤ floorTo p (carveTop p top size) :=
        carvesFit_iff fun s hs => h s (List.mem_cons_of_mem _ hs)
      rw [floorTo_carveTop hsize] at hrest
      rw [CarvesFit, hrest, ← le_floorTo_iff hsize, List.sum_cons]
      omega

end SecureWorld.Foundations
