import Mathlib.Logic.Relation

/-! # Detours

A program is changed at one place so that it runs through code that was not there before. The steps
from a state outside this code to the next state outside it are one excursion. Where every excursion
is one step of a specification, and every step of the specification can be made, both reach the same
states outside the new code.
-/
namespace SecureWorld.Foundations
open Relation
set_option autoImplicit false

variable {σ : Type} (step : σ → σ → Prop) (inside : σ → Prop)

/-- Relations that agree on the states reached by one of them reach the same. -/
theorem reaches_iff_of_agree {r r' : σ → σ → Prop} {s t : σ}
    (h : ∀ u, ReflTransGen r s u → ∀ v, r u v ↔ r' u v) :
    ReflTransGen r s t ↔ ReflTransGen r' s t := by
  constructor
  · intro hst
    induction hst with
    | refl => exact ReflTransGen.refl
    | tail hsu hut ih => exact ih.tail ((h _ hsu _).mp hut)
  · intro hst
    induction hst with
    | refl => exact ReflTransGen.refl
    | tail _ hut ih => exact ih.tail ((h _ ih _).mpr hut)

/-- A first step, and then steps from states inside only. -/
inductive Excursion (s : σ) : σ → Prop
  | first {t : σ} : step s t → Excursion s t
  | further {t u : σ} : Excursion s t → inside t → step t u → Excursion s u

/-- `step` makes the steps of `spec`, some of them with a detour. Nothing is said of a state from
which `spec` itself goes inside. -/
structure Detours (spec : σ → σ → Prop) : Prop where
  forth : ∀ s t, ¬inside s → ¬inside t → spec s t → ReflTransGen step s t
  back : ∀ s t, ¬inside s → (∀ u, spec s u → ¬inside u) → Excursion step inside s t → ¬inside t →
    spec s t

variable {step inside} {spec : σ → σ → Prop} (h : Detours step inside spec)
include h

theorem Detours.reaches {s t : σ} (hout : ∀ u, ReflTransGen spec s u → ¬inside u)
    (hst : ReflTransGen spec s t) : ReflTransGen step s t := by
  induction hst with
  | refl => exact ReflTransGen.refl
  | tail hsu hut ih => exact ih.trans (h.forth _ _ (hout _ hsu) (hout _ (hsu.tail hut)) hut)

/-- A state that is reached is one of the specification, or a detour from such a state is on. -/
theorem Detours.reached {s t : σ} (hout : ∀ u, ReflTransGen spec s u → ¬inside u)
    (hst : ReflTransGen step s t) :
    ¬inside t ∧ ReflTransGen spec s t ∨
      inside t ∧ ∃ u, ReflTransGen spec s u ∧ Excursion step inside u t := by
  -- an excursion from a state of the specification ends in one, or is still on
  have hends : ∀ u v, ReflTransGen spec s u → Excursion step inside u v →
      ¬inside v ∧ ReflTransGen spec s v ∨
        inside v ∧ ∃ u, ReflTransGen spec s u ∧ Excursion step inside u v := by
    intro u v hsu huv
    by_cases hv : inside v
    · exact .inr ⟨hv, u, hsu, huv⟩
    · have hnext : ∀ w, spec u w → ¬inside w := fun w huw => hout w (hsu.tail huw)
      exact .inl ⟨hv, hsu.tail (h.back u v (hout u hsu) hnext huv hv)⟩
  induction hst with
  | refl => exact .inl ⟨hout s .refl, .refl⟩
  | tail _ htv ih =>
    rcases ih with ⟨-, hsu⟩ | ⟨hin, u, hsu, hut⟩
    · exact hends _ _ hsu (.first htv)
    · exact hends u _ hsu (.further hut hin htv)

theorem Detours.reaches_iff {s t : σ} (hout : ∀ u, ReflTransGen spec s u → ¬inside u)
    (ht : ¬inside t) : ReflTransGen step s t ↔ ReflTransGen spec s t := by
  refine ⟨fun hst => ?_, h.reaches hout⟩
  rcases h.reached hout hst with ⟨-, hspec⟩ | ⟨hin, -⟩
  · exact hspec
  · exact absurd hin ht

end SecureWorld.Foundations
