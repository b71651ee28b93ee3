import Mathlib.Order.Defs.Unbundled

/-! # Programs with a state that survives exceptions

`Effect ε σ` computes with a state of type `σ` and may raise an `ε`; what was written before the
exception stays written, also for a handler. `Keeps R` says of a program that `R` relates every
initial state to the final one, however the program ends.
-/
namespace SecureWorld.Foundations
set_option autoImplicit false

abbrev Effect (ε σ α : Type) : Type := ExceptT ε (StateM σ) α

section Rules
variable {ε σ α β : Type}

def Effect.exec (m : Effect ε σ α) (s : σ) : Except ε α × σ := m s

/-- A program from its result and its final state. -/
def Effect.ofExec (f : σ → Except ε α × σ) : Effect ε σ α := ExceptT.mk f

def Keeps (R : σ → σ → Prop) (m : Effect ε σ α) : Prop := ∀ s, R s (m.exec s).2

@[simp] theorem exec_ofExec (f : σ → Except ε α × σ) (s : σ) : (Effect.ofExec f).exec s = f s := rfl

theorem exec_bind (m : Effect ε σ α) (f : α → Effect ε σ β) (s : σ) :
    (m >>= f).exec s =
      match m.exec s with
      | (.ok a, s') => (f a).exec s'
      | (.error e, s') => (.error e, s') := by
  show (match m s with
    | (x, s') => ExceptT.bindCont f x s' : Except ε β × σ) = _
  unfold Effect.exec
  obtain ⟨x, s'⟩ := m s
  cases x <;> rfl

theorem exec_get_bind (f : σ → Effect ε σ β) (s : σ) : (get >>= f).exec s = (f s).exec s := rfl

theorem exec_set_bind (t : σ) (f : PUnit → Effect ε σ β) (s : σ) :
    (set t >>= f).exec s = (f ⟨⟩).exec t := rfl

theorem exec_tryCatch (m : Effect ε σ α) (handler : ε → Effect ε σ α) (s : σ) :
    (tryCatch m handler).exec s =
      match m.exec s with
      | (.ok a, s') => (.ok a, s')
      | (.error e, s') => (handler e).exec s' := by
  show (match m s with
    | (x, s') => (match x with
      | .ok a => (pure (.ok a) : StateM σ (Except ε α))
      | .error e => handler e) s' : Except ε α × σ) = _
  unfold Effect.exec
  obtain ⟨x, s'⟩ := m s
  cases x <;> rfl

theorem exec_bind_ok {m : Effect ε σ α} {f : α → Effect ε σ β} {s s' : σ} {b : β}
    (h : (m >>= f).exec s = (.ok b, s')) :
    ∃ a mid, m.exec s = (.ok a, mid) ∧ (f a).exec mid = (.ok b, s') := by
  rw [exec_bind] at h
  cases hm : m.exec s with
  | mk x mid =>
    rw [hm] at h
    cases x with
    | error e => nomatch h
    | ok a => exact ⟨a, mid, rfl, h⟩

variable {R : σ → σ → Prop}

theorem Keeps.ite {c : Prop} [Decidable c] {m n : Effect ε σ α} (hm : c → Keeps R m)
    (hn : ¬ c → Keeps R n) : Keeps R (if c then m else n) := by
  by_cases h : c
  · rw [if_pos h]
    exact hm h
  · rw [if_neg h]
    exact hn h

theorem Keeps.imp {Q : σ → σ → Prop} {m : Effect ε σ α} (h : ∀ s s', R s s' → Q s s')
    (hm : Keeps R m) : Keeps Q m := fun s => h _ _ (hm s)

section Preorder
variable [IsPreorder σ R]

theorem Keeps.pure (a : α) : Keeps R (pure a : Effect ε σ α) := fun s => refl_of R s

theorem Keeps.throw (e : ε) : Keeps R (throw e : Effect ε σ α) := fun s => refl_of R s

theorem Keeps.bind {m : Effect ε σ α} {f : α → Effect ε σ β} (hm : Keeps R m)
    (hf : ∀ a, Keeps R (f a)) : Keeps R (m >>= f) := by
  intro s
  have hfirst := hm s
  rw [exec_bind]
  cases hexec : m.exec s with
  | mk x mid =>
    rw [hexec] at hfirst
    cases x with
    | error e => exact hfirst
    | ok a => exact trans_of R hfirst (hf a mid)

/-- What a failed program wrote is kept, so the handler starts from there. -/
theorem Keeps.tryCatch {m : Effect ε σ α} {handler : ε → Effect ε σ α} (hm : Keeps R m)
    (hh : ∀ e, Keeps R (handler e)) : Keeps R (tryCatch m handler) := by
  intro s
  have hfirst := hm s
  rw [exec_tryCatch]
  cases hexec : m.exec s with
  | mk x mid =>
    rw [hexec] at hfirst
    cases x with
    | error e => exact trans_of R hfirst (hh e mid)
    | ok a => exact hfirst

theorem Keeps.forM {f : α → Effect ε σ PUnit} : ∀ {l : List α}, (∀ a ∈ l, Keeps R (f a)) →
    Keeps R (l.forM f)
  | [], _ => Keeps.pure _
  | a :: l, h => by
      rw [List.forall_mem_cons] at h
      exact h.1.bind fun _ => Keeps.forM h.2

end Preorder

end Rules
end SecureWorld.Foundations
