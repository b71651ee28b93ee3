import SecureWorld.Foundations.Loops

/-! # Rose trees and relations between them

`Rel r t u` says that `t` and `u` have the same shape and that `r` relates their labels node by
node. `rel_triangle_iff` moves three such relations between a tree and two others to the labels.
-/
namespace SecureWorld.Foundations
set_option autoImplicit false

section Lists
variable {α β γ : Type}

theorem forall₂_triangle_iff {r : α → β → Prop} {s : β → γ → Prop} {q : α → γ → Prop}
    {as : List α} :
    (∃ bs cs, List.Forall₂ r as bs ∧ List.Forall₂ s bs cs ∧ List.Forall₂ q as cs) ↔
      ∀ a ∈ as, ∃ b c, r a b ∧ s b c ∧ q a c := by
  induction as with
  | nil => exact ⟨fun _ a ha => absurd ha List.not_mem_nil, fun _ => ⟨[], [], .nil, .nil, .nil⟩⟩
  | cons a as ih =>
    rw [List.forall_mem_cons, ← ih]
    constructor
    · rintro ⟨bs, cs, hr, hs, hq⟩
      cases hr with
      | cons hab hr =>
        cases hs with
        | cons hbc hs =>
          cases hq with
          | cons hac hq => exact ⟨⟨_, _, hab, hbc, hac⟩, _, _, hr, hs, hq⟩
    · rintro ⟨⟨b, c, hab, hbc, hac⟩, bs, cs, hr, hs, hq⟩
      exact ⟨b :: bs, c :: cs, .cons hab hr, .cons hbc hs, .cons hac hq⟩

end Lists

inductive Rose (α : Type) where
  | node (label : α) (children : List (Rose α))

namespace Rose
variable {α β γ : Type}

def label : Rose α → α
  | node a _ => a

def children : Rose α → List (Rose α)
  | node _ cs => cs

theorem induct {P : Rose α → Prop} (h : ∀ a cs, (∀ c ∈ cs, P c) → P (node a cs)) :
    ∀ t : Rose α, P t
  | node a cs => h a cs fun c _ => induct h c

/-- `P` holds of every subtree. -/
inductive Everywhere (P : Rose α → Prop) : Rose α → Prop
  | node {a : α} {cs : List (Rose α)} :
      P (node a cs) → (∀ c ∈ cs, Everywhere P c) → Everywhere P (node a cs)

theorem everywhere_node_iff {P : Rose α → Prop} {a : α} {cs : List (Rose α)} :
    Everywhere P (node a cs) ↔ P (node a cs) ∧ ∀ c ∈ cs, Everywhere P c :=
  ⟨fun h => by cases h with | node ha hcs => exact ⟨ha, hcs⟩, fun h => .node h.1 h.2⟩

theorem Everywhere.imp {P Q : Rose α → Prop} (h : ∀ t, P t → Q t) {t : Rose α} :
    Everywhere P t → Everywhere Q t := by
  induction t using induct with
  | h a cs ih =>
    intro ht
    obtain ⟨ha, hcs⟩ := everywhere_node_iff.mp ht
    exact .node (h _ ha) fun c hc => ih c hc (hcs c hc)

theorem Everywhere.congr {P Q S : Rose α → Prop} (h : ∀ t, P t → (Q t ↔ S t)) {t : Rose α} :
    Everywhere P t → (Everywhere Q t ↔ Everywhere S t) := by
  induction t using induct with
  | h a cs ih =>
    intro hP
    obtain ⟨ha, hcs⟩ := everywhere_node_iff.mp hP
    rw [everywhere_node_iff, everywhere_node_iff]
    exact and_congr (h _ ha) (forall₂_congr fun c hc => ih c hc (hcs c hc))

theorem Everywhere.and {P Q : Rose α → Prop} {t : Rose α} :
    Everywhere P t → Everywhere Q t → Everywhere (fun t => P t ∧ Q t) t := by
  induction t using induct with
  | h a cs ih =>
    intro hP hQ
    obtain ⟨hPa, hPcs⟩ := everywhere_node_iff.mp hP
    obtain ⟨hQa, hQcs⟩ := everywhere_node_iff.mp hQ
    exact .node ⟨hPa, hQa⟩ fun c hc => ih c hc (hPcs c hc) (hQcs c hc)

/-! ## Trees of one shape -/

inductive Rel (r : α → β → Prop) : Rose α → Rose β → Prop
  | node {a : α} {b : β} {cs : List (Rose α)} {ds : List (Rose β)} :
      r a b → List.Forall₂ (Rel r) cs ds → Rel r (node a cs) (node b ds)

theorem rel_node_iff {r : α → β → Prop} {a : α} {cs : List (Rose α)} {u : Rose β} :
    Rel r (node a cs) u ↔ ∃ b ds, u = node b ds ∧ r a b ∧ List.Forall₂ (Rel r) cs ds := by
  constructor
  · intro h
    cases h with
    | node hab hcs => exact ⟨_, _, rfl, hab, hcs⟩
  · rintro ⟨b, ds, rfl, hab, hcs⟩
    exact .node hab hcs

theorem eq_of_rel_eq {t : Rose α} : ∀ {u : Rose α}, Rel (· = ·) t u → t = u := by
  induction t using induct with
  | h a cs ih =>
    intro u h
    obtain ⟨b, ds, rfl, rfl, hcs⟩ := rel_node_iff.mp h
    have heq : List.Forall₂ (· = ·) cs ds := by
      clear h
      induction hcs with
      | nil => exact .nil
      | cons hc _ ihs =>
        exact .cons (ih _ List.mem_cons_self hc)
          (ihs fun c hc => ih c (List.mem_cons_of_mem _ hc))
    rw [List.forall₂_eq_eq_eq] at heq
    rw [heq]

/-- What holds at every node of one tree holds at the related nodes of the other. -/
theorem Rel.everywhere {r : α → β → Prop} {P : Rose α → Prop} {Q : Rose β → Prop}
    (hPQ : ∀ a b cs ds, r a b → cs.length = ds.length → P (.node a cs) → Q (.node b ds))
    {t : Rose α} : ∀ {u : Rose β}, Rel r t u → Everywhere P t → Everywhere Q u := by
  induction t using induct with
  | h a cs ih =>
    intro u hu ht
    obtain ⟨b, ds, rfl, hab, hcs⟩ := rel_node_iff.mp hu
    obtain ⟨ha, hchildren⟩ := everywhere_node_iff.mp ht
    refine .node (hPQ a b cs ds hab hcs.length_eq ha) fun d hd => ?_
    obtain ⟨c, hc, hcd⟩ := forall₂_mem_right hcs d hd
    exact ih c hc hcd (hchildren c hc)

theorem Rel.imp {r s : α → β → Prop} (hrs : ∀ a b, r a b → s a b) {t : Rose α} :
    ∀ {u : Rose β}, Rel r t u → Rel s t u := by
  induction t using induct with
  | h a cs ih =>
    intro u hu
    obtain ⟨b, ds, rfl, hab, hcs⟩ := rel_node_iff.mp hu
    refine .node (hrs a b hab) ?_
    clear hu
    induction hcs with
    | nil => exact .nil
    | cons hc _ ihs =>
      exact .cons (ih _ List.mem_cons_self hc)
        (ihs fun c hc => ih c (List.mem_cons_of_mem _ hc))

theorem rel_triangle_iff {r : α → β → Prop} {s : β → γ → Prop} {q : α → γ → Prop}
    {t : Rose α} :
    (∃ u v, Rel r t u ∧ Rel s u v ∧ Rel q t v) ↔
      Everywhere (fun t => ∃ b c, r t.label b ∧ s b c ∧ q t.label c) t := by
  induction t using induct with
  | h a ts ih =>
    have hchildren : (∀ c ∈ ts, Everywhere (fun t => ∃ b c, r t.label b ∧ s b c ∧ q t.label c) c) ↔
        ∃ us vs, List.Forall₂ (Rel r) ts us ∧ List.Forall₂ (Rel s) us vs ∧
          List.Forall₂ (Rel q) ts vs := by
      rw [forall₂_triangle_iff]
      exact forall₂_congr fun c hc => (ih c hc).symm
    rw [everywhere_node_iff, hchildren]
    constructor
    · rintro ⟨u, v, hr, hs, hq⟩
      obtain ⟨b, us, rfl, hab, hrs⟩ := rel_node_iff.mp hr
      obtain ⟨c, vs, rfl, hbc, hss⟩ := rel_node_iff.mp hs
      obtain ⟨c', vs', heq, hac, hqs⟩ := rel_node_iff.mp hq
      obtain ⟨rfl, rfl⟩ := Rose.node.inj heq
      exact ⟨⟨b, c, hab, hbc, hac⟩, us, vs, hrs, hss, hqs⟩
    · rintro ⟨⟨b, c, hab, hbc, hac⟩, us, vs, hrs, hss, hqs⟩
      exact ⟨.node b us, .node c vs, .node hab hrs, .node hbc hss, .node hac hqs⟩

/-! ## Preorder -/

mutual

def preorder : Rose α → List α
  | .node a cs => a :: preorderAll cs

def preorderAll : List (Rose α) → List α
  | [] => []
  | c :: cs => preorder c ++ preorderAll cs

end

@[simp] theorem preorder_node (a : α) (cs : List (Rose α)) :
    preorder (.node a cs) = a :: preorderAll cs := by
  rw [preorder]

@[simp] theorem preorderAll_nil : preorderAll ([] : List (Rose α)) = [] := by
  rw [preorderAll]

@[simp] theorem preorderAll_cons (c : Rose α) (cs : List (Rose α)) :
    preorderAll (c :: cs) = preorder c ++ preorderAll cs := by
  rw [preorderAll]

@[simp] theorem preorderAll_append (cs ds : List (Rose α)) :
    preorderAll (cs ++ ds) = preorderAll cs ++ preorderAll ds := by
  induction cs with
  | nil => rw [List.nil_append, preorderAll_nil, List.nil_append]
  | cons c cs ih =>
    rw [List.cons_append, preorderAll_cons, preorderAll_cons, ih, List.append_assoc]

/-! ## Positions -/

/-- The subtree reached by child indices from the root. -/
def nodeAt : Rose α → List ℕ → Option (Rose α)
  | t, [] => some t
  | .node _ cs, i :: pos => cs[i]?.bind fun c => nodeAt c pos

/-- The labels on the way to a position, the root's left out. -/
def labelsTo : Rose α → List ℕ → List α
  | _, [] => []
  | .node _ cs, i :: pos =>
      match cs[i]? with
      | some c => c.label :: labelsTo c pos
      | none => []

end Rose

end SecureWorld.Foundations
