import SecureWorld.Foundations.Loops

/-! # Steps that can change places

A run of steps each of which may fail. Where two different steps that succeed one after the other
also succeed the other way round, with the same end, every order of the same steps has this end.
-/
namespace SecureWorld.Foundations
set_option autoImplicit false

variable {σ ω ε : Type} (step : σ → ω → Except ε σ) (ok : ω → Prop) (P : σ → Prop)

/-- Different steps change places and keep `P`. -/
structure ChangePlaces : Prop where
  keeps : ∀ s a t, ok a → P s → step s a = .ok t → P t
  swap : ∀ s a b t u, ok a → ok b → a ≠ b → P s → step s a = .ok t → step t b = .ok u →
    ∃ t', step s b = .ok t' ∧ step t' a = .ok u

variable {step ok P}

theorem foldlM_cons_ok {s u : σ} {a : ω} {l : List ω} :
    (a :: l).foldlM step s = .ok u ↔ ∃ t, step s a = .ok t ∧ l.foldlM step t = .ok u := by
  rw [List.foldlM_cons, bind_eq_ok_iff]

theorem ChangePlaces.run_keeps (h : ChangePlaces step ok P) : ∀ {l : List ω} {s t : σ},
    (∀ a ∈ l, ok a) → P s → l.foldlM step s = .ok t → P t
  | [], _, _, _, hs, hrun => Except.ok.inj hrun ▸ hs
  | a :: l, s, t, hok, hs, hrun => by
      obtain ⟨hoka, hokl⟩ := List.forall_mem_cons.mp hok
      obtain ⟨s₁, hfirst, hrest⟩ := foldlM_cons_ok.mp hrun
      exact h.run_keeps hokl (h.keeps s a s₁ hoka hs hfirst) hrest

theorem ChangePlaces.run_perm (h : ChangePlaces step ok P) {l l' : List ω} (hperm : l.Perm l') :
    ∀ {s t : σ}, l.Nodup → (∀ a ∈ l, ok a) → P s → l.foldlM step s = .ok t →
      l'.foldlM step s = .ok t := by
  induction hperm with
  | nil => exact fun _ _ _ hrun => hrun
  | cons a _ ih =>
    intro s t hnodup hok hs hrun
    obtain ⟨hoka, hokl⟩ := List.forall_mem_cons.mp hok
    obtain ⟨s₁, hfirst, hrest⟩ := foldlM_cons_ok.mp hrun
    have hs₁ : P s₁ := h.keeps s a s₁ hoka hs hfirst
    exact foldlM_cons_ok.mpr ⟨s₁, hfirst, ih (List.nodup_cons.mp hnodup).2 hokl hs₁ hrest⟩
  | swap a b l =>
    intro s t hnodup hok hs hrun
    obtain ⟨hokb, hok'⟩ := List.forall_mem_cons.mp hok
    obtain ⟨hoka, -⟩ := List.forall_mem_cons.mp hok'
    obtain ⟨s₁, hfirst, hrest⟩ := foldlM_cons_ok.mp hrun
    obtain ⟨s₂, hsecond, hrest⟩ := foldlM_cons_ok.mp hrest
    have hne : b ≠ a := fun heq => (List.nodup_cons.mp hnodup).1 (heq ▸ List.mem_cons_self)
    obtain ⟨s₁', hfirst', hsecond'⟩ := h.swap s b a s₁ s₂ hokb hoka hne hs hfirst hsecond
    exact foldlM_cons_ok.mpr ⟨s₁', hfirst', foldlM_cons_ok.mpr ⟨s₂, hsecond', hrest⟩⟩
  | trans hab _ ih ih' =>
    intro s t hnodup hok hs hrun
    exact ih' (hab.nodup hnodup) (fun a ha => hok a (hab.mem_iff.mpr ha)) hs
      (ih hnodup hok hs hrun)

end SecureWorld.Foundations
