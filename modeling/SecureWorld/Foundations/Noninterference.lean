import SecureWorld.Foundations.Run

/-! # Runs with some operations deleted

An observer of a machine is not interfered with by the operations outside `keep` when, at every
point of a run, what it observes is what it would observe had those operations never happened. With
kept operations acting on the observation alone, that comes down to one condition on each deleted
operation: it leaves the observation as it was.
-/
namespace SecureWorld.Foundations
set_option autoImplicit false

variable {σ ω β : Type} (step : σ → ω → σ)

/-- At every point of the run the observation is that of the run with only the kept operations. -/
def Undisturbed (obs : σ → β) (keep : ω → Bool) (s t : σ) (ops : List ω) : Prop :=
  ∀ pre, pre <+: ops → obs (run step s pre) = obs (run step t (pre.filter keep))

/-- Every deleted operation leaves the observation as it was. -/
def Silent (obs : σ → β) (keep : ω → Bool) (s : σ) (o : ω) : Prop :=
  keep o = false → obs (step s o) = obs s

theorem undisturbed_cons {obs : σ → β} {keep : ω → Bool} {s t : σ} {o : ω} {ops : List ω} :
    Undisturbed step obs keep s t (o :: ops) ↔
      obs s = obs t ∧
        Undisturbed step obs keep (step s o) (if keep o then step t o else t) ops := by
  have hfilter : ∀ pre, run step t ((o :: pre).filter keep) =
      run step (if keep o then step t o else t) (pre.filter keep) := by
    intro pre
    by_cases hk : keep o = true
    · rw [List.filter_cons_of_pos hk, run_cons, if_pos hk]
    · rw [List.filter_cons_of_neg hk, if_neg hk]
  constructor
  · intro h
    refine ⟨h [] List.nil_prefix, fun pre hpre => ?_⟩
    rw [← hfilter]
    exact h (o :: pre) (List.cons_prefix_cons.mpr ⟨rfl, hpre⟩)
  · rintro ⟨hobs, hrest⟩ pre hpre
    cases pre with
    | nil => exact hobs
    | cons o₁ pre =>
      obtain ⟨rfl, hpre'⟩ := List.cons_prefix_cons.mp hpre
      rw [hfilter]
      exact hrest pre hpre'

/-- The rule: kept operations act on the observation alone, so a run is undisturbed exactly when
every deleted operation in it is silent. -/
theorem undisturbed_iff_silent {obs : σ → β} {keep : ω → Bool} (Inv : σ → Prop) (ok : ω → Prop)
    (hinv : ∀ s o, ok o → Inv s → Inv (step s o))
    (hkeep : ∀ s t o, ok o → Inv s → Inv t → keep o = true → obs s = obs t →
      obs (step s o) = obs (step t o)) :
    ∀ (ops : List ω) (s t : σ), (∀ o ∈ ops, ok o) → Inv s → Inv t → obs s = obs t →
      (Undisturbed step obs keep s t ops ↔ EveryStep step (Silent step obs keep) s ops)
  | [], s, t, _, _, _, hobs => by
      refine ⟨fun _ => everyStep_nil step _ s, fun _ pre hpre => ?_⟩
      rw [List.prefix_nil.mp hpre]
      exact hobs
  | o :: ops, s, t, hok, hs, ht, hobs => by
      have ho : ok o := hok o List.mem_cons_self
      have hrest : ∀ o₁ ∈ ops, ok o₁ := fun o₁ h => hok o₁ (List.mem_cons_of_mem o h)
      rw [undisturbed_cons, everyStep_cons]
      by_cases hk : keep o = true
      · have ih := undisturbed_iff_silent Inv ok hinv hkeep ops (step s o) (step t o) hrest
          (hinv s o ho hs) (hinv t o ho ht) (hkeep s t o ho hs ht hk hobs)
        have hsilent : Silent step obs keep s o := fun hf => by rw [hk] at hf; cases hf
        rw [if_pos hk, ih]
        exact ⟨fun h => ⟨hsilent, h.2⟩, fun h => ⟨hobs, h.2⟩⟩
      · have hkf : keep o = false := Bool.eq_false_iff.mpr hk
        rw [if_neg hk]
        constructor
        · rintro ⟨-, hundisturbed⟩
          -- right after the operation the two observations still agree
          have hafter : obs (step s o) = obs t := hundisturbed [] List.nil_prefix
          have ih := undisturbed_iff_silent Inv ok hinv hkeep ops (step s o) t hrest
            (hinv s o ho hs) ht hafter
          exact ⟨fun _ => hafter.trans hobs.symm, ih.mp hundisturbed⟩
        · rintro ⟨hsilent, hevery⟩
          have hafter : obs (step s o) = obs t := (hsilent hkf).trans hobs
          have ih := undisturbed_iff_silent Inv ok hinv hkeep ops (step s o) t hrest
            (hinv s o ho hs) ht hafter
          exact ⟨hobs, ih.mpr hevery⟩

end SecureWorld.Foundations
