import Mathlib.Data.List.DropRight
import Mathlib.Data.Nat.Notation

/-! # Text as lines

`stripEnds` takes unwanted elements from both ends of a list, `joinLines` writes a list of lines
with a terminator after each, and `splitOn` reads them back.
-/
namespace SecureWorld.Foundations
set_option autoImplicit false

variable {α : Type}

/-! ## Stripping -/

def stripEnds (p : α → Bool) (l : List α) : List α := (l.dropWhile p).rdropWhile p

theorem stripEnds_sublist (p : α → Bool) (l : List α) : List.Sublist (stripEnds p l) l :=
  (List.rdropWhile_prefix p _).sublist.trans (List.dropWhile_suffix p).sublist

theorem rdropWhile_map {p : α → Bool} {f : α → α} {l : List α} (h : ∀ a ∈ l, p (f a) = p a) :
    (l.map f).rdropWhile p = (l.rdropWhile p).map f := by
  induction l using List.reverseRecOn with
  | nil => rfl
  | append_singleton l a ih =>
    rw [List.forall_mem_append, List.forall_mem_singleton] at h
    rw [List.map_append, List.map_singleton]
    by_cases ha : p a = true
    · rw [List.rdropWhile_concat_pos _ _ _ (h.2.trans ha), List.rdropWhile_concat_pos _ _ _ ha, ih h.1]
    · rw [List.rdropWhile_concat_neg _ _ _ (h.2.symm ▸ ha), List.rdropWhile_concat_neg _ _ _ ha,
        List.map_append, List.map_singleton]

theorem dropWhile_map_of_eq {p : α → Bool} {f : α → α} {l : List α} (h : ∀ a ∈ l, p (f a) = p a) :
    (l.map f).dropWhile p = (l.dropWhile p).map f := by
  induction l with
  | nil => rfl
  | cons a l ih =>
    rw [List.forall_mem_cons] at h
    rw [List.map_cons, List.dropWhile_cons, List.dropWhile_cons, h.1, ih h.2]
    split_ifs
    · rfl
    · rw [List.map_cons]

/-- A change of the elements that `p` does not notice can be made before or after stripping. -/
theorem stripEnds_map {p : α → Bool} {f : α → α} {l : List α} (h : ∀ a ∈ l, p (f a) = p a) :
    stripEnds p (l.map f) = (stripEnds p l).map f := by
  have hdrop : ∀ a ∈ l.dropWhile p, p (f a) = p a := fun a ha =>
    h a ((List.dropWhile_suffix p).subset ha)
  rw [stripEnds, dropWhile_map_of_eq h, rdropWhile_map hdrop, stripEnds]

theorem stripEnds_of_forall {p : α → Bool} {l : List α} (h : ∀ a ∈ l, p a = false) :
    stripEnds p l = l := by
  have hdrop : l.dropWhile p = l := by
    cases l with
    | nil => rfl
    | cons a l => rw [List.dropWhile_cons_of_neg (by rw [h a List.mem_cons_self]; decide)]
  rw [stripEnds, hdrop, List.rdropWhile_eq_self_iff]
  intro hne hlast
  rw [h _ (List.getLast_mem hne)] at hlast
  exact absurd hlast (by decide)

theorem stripEnds_idem (p : α → Bool) (l : List α) :
    stripEnds p (stripEnds p l) = stripEnds p l := by
  have hdrop : (stripEnds p l).dropWhile p = stripEnds p l := by
    cases hstrip : stripEnds p l with
    | nil => rfl
    | cons a rest =>
      -- what is left starts as the text without its leading part does
      obtain ⟨tail, htail⟩ := List.rdropWhile_prefix p (l.dropWhile p)
      rw [← stripEnds, hstrip, List.cons_append] at htail
      have hne : l.dropWhile p ≠ [] := by
        rw [← htail]
        exact List.cons_ne_nil _ _
      have ha : p a = false := by
        simpa only [← htail, List.head_cons] using List.head_dropWhile_not p hne
      rw [List.dropWhile_cons_of_neg (by rw [ha]; decide)]
  rw [stripEnds, hdrop, stripEnds, List.rdropWhile_idempotent]

/-! ## Lines -/

theorem not_mem_of_mem_splitOn [BEq α] [LawfulBEq α] {x : α} {xs : List α} : ∀ l ∈ xs.splitOn x, x ∉ l := by
  induction xs with
  | nil =>
    rw [List.splitOn_nil, List.forall_mem_singleton]
    exact List.not_mem_nil
  | cons a xs ih =>
    rw [List.splitOn_cons_eq_if_modifyHead]
    split_ifs with ha
    · exact List.forall_mem_cons.mpr ⟨List.not_mem_nil, ih⟩
    · cases hsplit : xs.splitOn x with
      | nil => exact List.forall_mem_nil _
      | cons first rest =>
        rw [hsplit, List.forall_mem_cons] at ih
        rw [List.modifyHead_cons, List.forall_mem_cons, List.mem_cons, not_or]
        exact ⟨⟨fun hx => ha (by rw [hx]; exact beq_self_eq_true a), ih.1⟩, ih.2⟩

theorem subset_of_mem_splitOn [BEq α] {x : α} {xs : List α} : ∀ l ∈ xs.splitOn x, l ⊆ xs := by
  induction xs with
  | nil =>
    rw [List.splitOn_nil, List.forall_mem_singleton]
    exact List.nil_subset _
  | cons a xs ih =>
    rw [List.splitOn_cons_eq_if_modifyHead]
    split_ifs with ha
    · exact List.forall_mem_cons.mpr
        ⟨List.nil_subset _, fun l hl => List.subset_cons_of_subset a (ih l hl)⟩
    · cases hsplit : xs.splitOn x with
      | nil => exact List.forall_mem_nil _
      | cons first rest =>
        rw [hsplit, List.forall_mem_cons] at ih
        rw [List.modifyHead_cons, List.forall_mem_cons]
        exact ⟨List.cons_subset_cons a ih.1, fun l hl => List.subset_cons_of_subset a (ih.2 l hl)⟩

/-- The lines with a terminator after each; a lone terminator if there are none. -/
def joinLines (x : α) (ls : List (List α)) : List α := [x].intercalate ls ++ [x]

theorem splitOn_joinLines [BEq α] [LawfulBEq α] {x : α} {ls : List (List α)}
    (h : ∀ l ∈ ls, x ∉ l) :
    (joinLines x ls).splitOn x = (if ls = [] then [[]] else ls) ++ [[]] := by
  rw [joinLines, List.splitOn_append_cons_self, List.splitOn_nil]
  split_ifs with hls
  · rw [hls, List.intercalate_nil, List.splitOn_nil]
  · rw [List.splitOn_intercalate x h hls]

theorem mem_joinLines {x c : α} {ls : List (List α)} (h : c ∈ joinLines x ls) :
    c = x ∨ ∃ l ∈ ls, c ∈ l := by
  rw [joinLines, List.mem_append, List.mem_singleton] at h
  rcases h with h | h
  · induction ls with
    | nil => exact absurd h List.not_mem_nil
    | cons l ls ih =>
      cases ls with
      | nil =>
        rw [List.intercalate_singleton] at h
        exact .inr ⟨l, List.mem_singleton_self l, h⟩
      | cons l' ls =>
        rw [List.intercalate_cons_cons, List.mem_append, List.mem_append, List.mem_singleton] at h
        rcases h with (h | h) | h
        · exact .inr ⟨l, List.mem_cons_self, h⟩
        · exact .inl h
        · rcases ih h with h | ⟨m, hm, hc⟩
          · exact .inl h
          · exact .inr ⟨m, List.mem_cons_of_mem l hm, hc⟩
  · exact .inl h

end SecureWorld.Foundations
