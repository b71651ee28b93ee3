import Mathlib.Data.List.Basic

/-! # Runs of a step function

A machine is a step function on its states; a run is a list of operations applied in order. What
one step preserves, every run preserves. `Always` speaks of every state a run goes through and
`EveryStep` of every step it takes; `always_iff_everyStep` is the rule for a guard that is exact:
steps that meet it keep the invariant, and a step that does not breaks the property at once.
-/
namespace SecureWorld.Foundations
set_option autoImplicit false

variable {σ ω : Type} (step : σ → ω → σ)

def run (s : σ) (ops : List ω) : σ := ops.foldl step s

@[simp] theorem run_nil (s : σ) : run step s [] = s := rfl

@[simp] theorem run_cons (s : σ) (o : ω) (ops : List ω) :
    run step s (o :: ops) = run step (step s o) ops := rfl

@[simp] theorem run_append (s : σ) (ops ops' : List ω) :
    run step s (ops ++ ops') = run step (run step s ops) ops' := List.foldl_append

theorem run_preserves (P : σ → Prop) (ok : ω → Prop)
    (hstep : ∀ s o, ok o → P s → P (step s o)) :
    ∀ (ops : List ω) (s : σ), (∀ o ∈ ops, ok o) → P s → P (run step s ops)
  | [], _, _, hs => hs
  | o :: ops, s, hok, hs =>
      run_preserves P ok hstep ops (step s o) (fun p hp => hok p (List.mem_cons_of_mem o hp))
        (hstep s o (hok o List.mem_cons_self) hs)

/-- `s` is reached from `s₀` by some run. -/
def Reachable (s₀ s : σ) : Prop := ∃ ops, s = run step s₀ ops

theorem Reachable.refl (s₀ : σ) : Reachable step s₀ s₀ := ⟨[], rfl⟩

/-- What a step that may get stuck preserves, a run that does not get stuck preserves. -/
theorem foldlM_preserves {step : σ → ω → Option σ} (P : σ → Prop)
    (hstep : ∀ s o s', step s o = some s' → P s → P s') :
    ∀ (ops : List ω) (s s' : σ), ops.foldlM step s = some s' → P s → P s'
  | [], _, _, h, hs => Option.some.inj h ▸ hs
  | o :: ops, s, s', h, hs => by
      rw [List.foldlM_cons] at h
      obtain ⟨s₁, h₁, hrest⟩ := Option.bind_eq_some_iff.mp h
      exact foldlM_preserves P hstep ops s₁ s' hrest (hstep s o s₁ h₁ hs)

/-! ## Properties of every state and guards on every step -/

/-- `P` holds in every state the run goes through, the first and the last included. -/
def Always (P : σ → Prop) (s : σ) (ops : List ω) : Prop :=
  ∀ pre, pre <+: ops → P (run step s pre)

/-- Every step of the run meets `G`, a guard on the operation and the state before it. -/
def EveryStep (G : σ → ω → Prop) (s : σ) (ops : List ω) : Prop :=
  ∀ pre o post, ops = pre ++ o :: post → G (run step s pre) o

theorem always_nil (P : σ → Prop) (s : σ) : Always step P s ([] : List ω) ↔ P s := by
  constructor
  · intro h
    exact h [] (List.prefix_refl [])
  · intro hs pre hpre
    rw [List.prefix_nil.mp hpre]
    exact hs

theorem always_cons (P : σ → Prop) (s : σ) (o : ω) (ops : List ω) :
    Always step P s (o :: ops) ↔ P s ∧ Always step P (step s o) ops := by
  constructor
  · intro h
    refine ⟨h [] List.nil_prefix, fun pre hpre => ?_⟩
    exact h (o :: pre) (List.cons_prefix_cons.mpr ⟨rfl, hpre⟩)
  · rintro ⟨hs, hrest⟩ pre hpre
    cases pre with
    | nil => exact hs
    | cons o₁ pre =>
      obtain ⟨rfl, hpre'⟩ := List.cons_prefix_cons.mp hpre
      exact hrest pre hpre'

theorem everyStep_nil (G : σ → ω → Prop) (s : σ) : EveryStep step G s [] := by
  intro pre o post h
  simp at h

theorem everyStep_cons (G : σ → ω → Prop) (s : σ) (o : ω) (ops : List ω) :
    EveryStep step G s (o :: ops) ↔ G s o ∧ EveryStep step G (step s o) ops := by
  constructor
  · intro h
    refine ⟨h [] o ops rfl, fun pre o₁ post hops => ?_⟩
    exact h (o :: pre) o₁ post (by rw [hops, List.cons_append])
  · rintro ⟨hs, hrest⟩ pre o₁ post hops
    cases pre with
    | nil =>
      obtain ⟨rfl, -⟩ := List.cons.inj hops
      exact hs
    | cons o₂ pre =>
      obtain ⟨rfl, hops'⟩ := List.cons.inj hops
      exact hrest pre o₁ post hops'

theorem Always.last {P : σ → Prop} {s : σ} {ops : List ω} (h : Always step P s ops) :
    P (run step s ops) := h ops (List.prefix_refl ops)

/-- What every step preserves holds in every state of a run. -/
theorem always_of_preserves (P : σ → Prop) (ok : ω → Prop)
    (hstep : ∀ s o, ok o → P s → P (step s o)) {ops : List ω} {s : σ} (hok : ∀ o ∈ ops, ok o)
    (hs : P s) : Always step P s ops := by
  intro pre hpre
  exact run_preserves step P ok hstep pre s (fun o ho => hok o (hpre.subset ho)) hs

/-- The rule for an exact guard on an abstract machine: while every step meets `G` the two machines
stay related, and the first step that does not breaks `P`. -/
theorem always_iff_everyStep_of_related {τ : Type} (absStep : τ → ω → τ) (P : σ → Prop)
    (R : σ → τ → Prop) (ok : ω → Prop) (G : τ → ω → Prop) (hP : ∀ s t, R s t → P s)
    (hgood : ∀ s t o, ok o → R s t → G t o → R (step s o) (absStep t o))
    (hbad : ∀ s t o, ok o → R s t → P (step s o) → G t o) :
    ∀ (ops : List ω) (s : σ) (t : τ), (∀ o ∈ ops, ok o) → R s t →
      (Always step P s ops ↔ EveryStep absStep G t ops)
  | [], s, t, _, hs => by
      rw [always_nil]
      exact ⟨fun _ => everyStep_nil absStep G t, fun _ => hP s t hs⟩
  | o :: ops, s, t, hok, hs => by
      have hrest : ∀ o₁ ∈ ops, ok o₁ := fun o₁ h => hok o₁ (List.mem_cons_of_mem o h)
      have ho : ok o := hok o List.mem_cons_self
      have ih : G t o → (Always step P (step s o) ops ↔ EveryStep absStep G (absStep t o) ops) :=
        fun hG => always_iff_everyStep_of_related absStep P R ok G hP hgood hbad ops (step s o)
          (absStep t o) hrest (hgood s t o ho hs hG)
      rw [always_cons, everyStep_cons]
      constructor
      · rintro ⟨_, halways⟩
        have hG : G t o := hbad s t o ho hs (halways [] List.nil_prefix)
        exact ⟨hG, (ih hG).mp halways⟩
      · rintro ⟨hG, hevery⟩
        exact ⟨hP s t hs, (ih hG).mpr hevery⟩

/-- The rule for an exact guard: `P` holds throughout a run exactly when every step meets `G`. -/
theorem always_iff_everyStep (P Inv : σ → Prop) (ok : ω → Prop) (G : σ → ω → Prop)
    (hinv : ∀ s, Inv s → P s) (hgood : ∀ s o, ok o → Inv s → G s o → Inv (step s o))
    (hbad : ∀ s o, ok o → Inv s → P (step s o) → G s o) (ops : List ω) (s : σ)
    (hok : ∀ o ∈ ops, ok o) (hs : Inv s) : Always step P s ops ↔ EveryStep step G s ops := by
  apply always_iff_everyStep_of_related step step P (fun s t => s = t ∧ Inv s) ok G
  · rintro s t ⟨_, h⟩
    exact hinv s h
  · rintro s t o ho ⟨rfl, h⟩ hG
    exact ⟨rfl, hgood s o ho h hG⟩
  · rintro s t o ho ⟨rfl, h⟩ hP
    exact hbad s o ho h hP
  · exact hok
  · exact ⟨rfl, hs⟩

end SecureWorld.Foundations
