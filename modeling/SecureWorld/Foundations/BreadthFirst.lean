import Mathlib.Data.List.Shortlex
import Mathlib.Data.Prod.Lex
import Mathlib.Data.Set.Card
import Mathlib.Logic.Relation

/-! # Breadth-first order in a directed graph

The successors of a node are numbered by their places in its list, so a string of numbers leads from
a node to a node. Each node that can be reached has a first string in the shortlex order. A
breadth-first search lists the nodes in the order of their first strings.
-/
namespace SecureWorld.Foundations
set_option autoImplicit false

/-! ## The order of the strings -/

def Earlier (p q : List ℕ) : Prop := List.Shortlex (· < ·) p q

theorem earlier_iff {p q : List ℕ} :
    Earlier p q ↔ toLex (p.length, p) < toLex (q.length, q) := by
  rw [Prod.Lex.toLex_lt_toLex]
  exact List.shortlex_def

theorem Earlier.trans {p q r : List ℕ} (hpq : Earlier p q) (hqr : Earlier q r) : Earlier p r :=
  earlier_iff.mpr (lt_trans (earlier_iff.mp hpq) (earlier_iff.mp hqr))

theorem Earlier.irrefl (p : List ℕ) : ¬Earlier p p := fun h => lt_irrefl _ (earlier_iff.mp h)

theorem Earlier.asymm {p q : List ℕ} (hpq : Earlier p q) : ¬Earlier q p :=
  fun hqp => Earlier.irrefl p (hpq.trans hqp)

theorem earlier_or_eq_of_not {p q : List ℕ} (h : ¬Earlier q p) : Earlier p q ∨ p = q := by
  rcases lt_trichotomy (toLex (p.length, p)) (toLex (q.length, q)) with hlt | heq | hgt
  · exact .inl (earlier_iff.mpr hlt)
  · exact .inr (congrArg Prod.snd (toLex.injective heq))
  · exact absurd (earlier_iff.mpr hgt) h

theorem length_le_of_not_earlier {p q : List ℕ} (h : ¬Earlier q p) : p.length ≤ q.length := by
  by_contra hlt
  exact h (List.Shortlex.of_length_lt (by omega))

theorem lex_concat_iff {p q : List ℕ} {i j : ℕ} (h : p.length = q.length) :
    List.Lex (· < ·) (p ++ [i]) (q ++ [j]) ↔ List.Lex (· < ·) p q ∨ p = q ∧ i < j := by
  induction p generalizing q with
  | nil =>
    obtain rfl := List.eq_nil_of_length_eq_zero h.symm
    simp
  | cons a p ih =>
    cases q with
    | nil => simp at h
    | cons b q =>
      simp only [List.cons_append, List.cons_lex_cons_iff, List.cons.injEq]
      rw [ih (Nat.succ.inj h)]
      tauto

theorem earlier_concat_iff {p q : List ℕ} {i j : ℕ} :
    Earlier (p ++ [i]) (q ++ [j]) ↔ Earlier p q ∨ p = q ∧ i < j := by
  unfold Earlier
  rw [List.shortlex_def, List.shortlex_def]
  simp only [List.length_append, List.length_singleton, Nat.add_lt_add_iff_right,
    Nat.add_right_cancel_iff]
  constructor
  · rintro (hlt | ⟨hlen, hlex⟩)
    · exact .inl (.inl hlt)
    · rcases (lex_concat_iff hlen).mp hlex with hlex | heq
      · exact .inl (.inr ⟨hlen, hlex⟩)
      · exact .inr heq
  · rintro ((hlt | ⟨hlen, hlex⟩) | ⟨rfl, hij⟩)
    · exact .inl hlt
    · exact .inr ⟨hlen, (lex_concat_iff hlen).mpr (.inl hlex)⟩
    · exact .inr ⟨rfl, (lex_concat_iff rfl).mpr (.inr ⟨rfl, hij⟩)⟩

theorem nil_earlier {p : List ℕ} (h : p ≠ []) : Earlier [] p :=
  List.Shortlex.of_length_lt (List.length_pos_of_ne_nil h)

theorem earlier_concat (p : List ℕ) (i : ℕ) : Earlier p (p ++ [i]) :=
  List.Shortlex.of_length_lt (by simp)

/-! ## Strings and the nodes they lead to -/

variable {α : Type} {next : α → List α} {start : α}

def follow (next : α → List α) : α → List ℕ → Option α
  | a, [] => some a
  | a, i :: is => (next a)[i]?.bind fun b => follow next b is

theorem follow_concat (a : α) (p : List ℕ) (i : ℕ) :
    follow next a (p ++ [i]) = (follow next a p).bind fun f => (next f)[i]? := by
  induction p generalizing a with
  | nil => simp [follow]
  | cons j p ih =>
    simp only [List.cons_append, follow, Option.bind_assoc]
    exact congrArg _ (funext fun b => ih b)

theorem follow_concat_eq_some_iff {a c : α} {p : List ℕ} {i : ℕ} :
    follow next a (p ++ [i]) = some c ↔
      ∃ f, follow next a p = some f ∧ (next f)[i]? = some c := by
  rw [follow_concat, Option.bind_eq_some_iff]

/-- `p` is the first string that leads to `c`. -/
structure IsFirst (next : α → List α) (start c : α) (p : List ℕ) : Prop where
  leads : follow next start p = some c
  least : ∀ q, follow next start q = some c → ¬Earlier q p

theorem exists_isFirst {c : α} {p : List ℕ} (h : follow next start p = some c) :
    ∃ q, IsFirst next start c q := by
  obtain ⟨q, hq, hleast⟩ := (List.Shortlex.wf (r := (· < ·)) Nat.lt_wfRel.wf).has_min
    {q | follow next start q = some c} ⟨p, h⟩
  exact ⟨q, hq, hleast⟩

theorem IsFirst.unique {c : α} {p q : List ℕ} (hp : IsFirst next start c p)
    (hq : IsFirst next start c q) : p = q := by
  rcases earlier_or_eq_of_not (hp.least q hq.leads) with h | h
  · exact absurd h (hq.least p hp.leads)
  · exact h

noncomputable def firstString (next : α → List α) (start c : α) : List ℕ :=
  Classical.epsilon (IsFirst next start c)

theorem isFirst_firstString {c : α} {p : List ℕ} (h : follow next start p = some c) :
    IsFirst next start c (firstString next start c) :=
  Classical.epsilon_spec (exists_isFirst h)

theorem IsFirst.firstString_eq {c : α} {p : List ℕ} (h : IsFirst next start c p) :
    firstString next start c = p :=
  (isFirst_firstString h.leads).unique h

theorem firstString_start : firstString next start start = [] :=
  IsFirst.firstString_eq ⟨rfl, fun _ _ => List.not_shortlex_nil_right⟩

/-! ## Walks -/

/-- A walk along the edges, as the list of the nodes it visits. -/
structure IsWalk (next : α → List α) (a b : α) (w : List α) : Prop where
  head : w.head? = some a
  last : w.getLast? = some b
  edges : w.IsChain fun f c => c ∈ next f

theorem IsWalk.exists_string {a b : α} {w : List α} (h : IsWalk next a b w) :
    ∃ p, follow next a p = some b ∧ w.length = p.length + 1 := by
  obtain ⟨hhead, hlast, hedges⟩ := h
  induction w generalizing a with
  | nil => cases hhead
  | cons x w ih =>
    cases hhead
    cases w with
    | nil =>
      cases hlast
      exact ⟨[], rfl, rfl⟩
    | cons y w =>
      obtain ⟨hxy, hrest⟩ := List.isChain_cons_cons.mp hedges
      obtain ⟨i, hi⟩ := List.mem_iff_getElem?.mp hxy
      obtain ⟨p, hp, hlen⟩ := ih rfl (by rwa [List.getLast?_cons_cons] at hlast) hrest
      refine ⟨i :: p, ?_, congrArg (· + 1) hlen⟩
      rw [follow, hi, Option.bind_some, hp]

theorem IsWalk.concat {a b c : α} {w : List α} (h : IsWalk next a b w) (hc : c ∈ next b) :
    IsWalk next a c (w ++ [c]) := by
  refine ⟨?_, List.getLast?_concat, ?_⟩
  · rw [List.head?_append, h.head, Option.some_or]
  · refine h.edges.append (List.isChain_singleton c) ?_
    intro x hx y hy
    rw [h.last, Option.mem_some_iff] at hx
    rw [List.head?_cons, Option.mem_some_iff] at hy
    rwa [← hx, ← hy]

/-- There is a walk from `a` to `b`. -/
def Reaches (next : α → List α) (a b : α) : Prop := ∃ w, IsWalk next a b w

theorem exists_walk_of_follow {a b : α} {p : List ℕ} (h : follow next a p = some b) :
    ∃ w, IsWalk next a b w ∧ w.length = p.length + 1 := by
  induction p using List.reverseRecOn generalizing b with
  | nil =>
    cases h
    exact ⟨[a], ⟨rfl, rfl, List.isChain_singleton a⟩, rfl⟩
  | append_singleton p i ih =>
    obtain ⟨f, hf, hi⟩ := follow_concat_eq_some_iff.mp h
    obtain ⟨w, hw, hlen⟩ := ih hf
    exact ⟨w ++ [b], hw.concat (List.mem_of_getElem? hi), by simp [hlen]⟩

theorem reaches_iff {a b : α} : Reaches next a b ↔ ∃ p, follow next a p = some b := by
  constructor
  · rintro ⟨w, hw⟩
    obtain ⟨p, hp, -⟩ := hw.exists_string
    exact ⟨p, hp⟩
  · rintro ⟨p, hp⟩
    obtain ⟨w, hw, -⟩ := exists_walk_of_follow hp
    exact ⟨w, hw⟩

/-- A walk as long as the first string is one of the shortest. -/
theorem IsWalk.length_le {c : α} {w w' : List α} (hw : w.length = (firstString next start c).length + 1)
    (h : IsWalk next start c w') : w.length ≤ w'.length := by
  obtain ⟨q, hq, hlen⟩ := h.exists_string
  have := length_le_of_not_earlier ((isFirst_firstString hq).least q hq)
  omega

/-! ## The search -/

/-- A search has listed the nodes `done ++ f :: queue`, has taken every successor of the nodes in
`done` and the first `n` successors of `f`. -/
structure Expanding (next : α → List α) (start : α) (done : List α) (f : α) (queue : List α)
    (n : ℕ) : Prop where
  start_mem : start ∈ done ++ f :: queue
  reached : ∀ c ∈ done ++ f :: queue, ∃ p, follow next start p = some c
  sorted : (done ++ f :: queue).Pairwise fun a b =>
    Earlier (firstString next start a) (firstString next start b)
  closed : ∀ g ∈ done, next g ⊆ done ++ f :: queue
  taken : (next f).take n ⊆ done ++ f :: queue
  called : ∀ c ∈ done ++ f :: queue, c ≠ start → ∃ g i, (g ∈ done ∨ g = f ∧ i < n) ∧
    (next g)[i]? = some c ∧ firstString next start c = firstString next start g ++ [i]

/-- Between two nodes, nothing of the first in the queue has been taken. -/
structure Listing (next : α → List α) (start : α) (done queue : List α) : Prop where
  start_mem : start ∈ done ++ queue
  reached : ∀ c ∈ done ++ queue, ∃ p, follow next start p = some c
  sorted : (done ++ queue).Pairwise fun a b =>
    Earlier (firstString next start a) (firstString next start b)
  closed : ∀ g ∈ done, next g ⊆ done ++ queue
  called : ∀ c ∈ done ++ queue, c ≠ start → ∃ g i, g ∈ done ∧
    (next g)[i]? = some c ∧ firstString next start c = firstString next start g ++ [i]

/-- Where the listed nodes with a first string before `b` are all in `done`, the strings before `b`
lead into `done`. -/
theorem mem_of_follow_of_earlier {done keys : List α} {b : List ℕ} (hstart : start ∈ keys)
    (hclosed : ∀ g ∈ done, next g ⊆ keys)
    (hdone : ∀ {g}, g ∈ keys → Earlier (firstString next start g) b → g ∈ done)
    {q : List ℕ} {g : α} (hq : follow next start q = some g) (he : Earlier q b) : g ∈ done := by
  have hlisted {q : List ℕ} {g : α} (hq : follow next start q = some g) (he : Earlier q b)
      (hg : g ∈ keys) : g ∈ done := by
    refine hdone hg ?_
    rcases earlier_or_eq_of_not ((isFirst_firstString hq).least q hq) with hlt | heq
    · exact hlt.trans he
    · rwa [heq]
  refine hlisted hq he ?_
  induction q using List.reverseRecOn generalizing g with
  | nil =>
    cases hq
    exact hstart
  | append_singleton q j ih =>
    obtain ⟨g', hg', hj⟩ := follow_concat_eq_some_iff.mp hq
    have he' := (earlier_concat q j).trans he
    exact hclosed g' (hlisted hg' he' (ih hg' he')) (List.mem_of_getElem? hj)

theorem Listing.init : Listing next start [] [start] where
  start_mem := List.mem_singleton_self start
  reached _ hc := ⟨[], congrArg some (List.mem_singleton.mp hc).symm⟩
  sorted := List.pairwise_singleton _ _
  closed _ hg := absurd hg List.not_mem_nil
  called _ hc hne := absurd (List.mem_singleton.mp hc) hne

namespace Expanding

variable {done queue : List α} {f : α} {n : ℕ}

theorem of_listing (h : Listing next start done (f :: queue)) :
    Expanding next start done f queue 0 where
  start_mem := h.start_mem
  reached := h.reached
  sorted := h.sorted
  closed := h.closed
  taken := by simp
  called c hc hne := by
    obtain ⟨g, i, hg, hi⟩ := h.called c hc hne
    exact ⟨g, i, .inl hg, hi⟩

theorem earlier_of_mem_done (h : Expanding next start done f queue n) {g : α} (hg : g ∈ done) :
    Earlier (firstString next start g) (firstString next start f) :=
  (List.pairwise_append.mp h.sorted).2.2 g hg f List.mem_cons_self

theorem mem_done_of_earlier (h : Expanding next start done f queue n) {g : α}
    (hg : g ∈ done ++ f :: queue)
    (he : Earlier (firstString next start g) (firstString next start f)) : g ∈ done := by
  rcases List.mem_append.mp hg with hg | hg
  · exact hg
  · rcases List.mem_cons.mp hg with rfl | hg
    · exact absurd he (Earlier.irrefl _)
    · have hqueue := (List.pairwise_append.mp h.sorted).2.1
      exact absurd ((List.pairwise_cons.mp hqueue).1 g hg) he.asymm

/-- The strings before the first string of `f` lead into `done`. -/
theorem mem_done_of_follow (h : Expanding next start done f queue n) {q : List ℕ} {g : α}
    (hq : follow next start q = some g) (he : Earlier q (firstString next start f)) : g ∈ done :=
  mem_of_follow_of_earlier h.start_mem h.closed h.mem_done_of_earlier hq he

theorem follow_first (h : Expanding next start done f queue n) :
    follow next start (firstString next start f) = some f := by
  obtain ⟨p, hp⟩ := h.reached f (List.mem_append_right done List.mem_cons_self)
  exact (isFirst_firstString hp).leads

/-- A successor that is not listed yet is first called from `f`. -/
theorem isFirst_of_new (h : Expanding next start done f queue n) {c : α}
    (hc : (next f)[n]? = some c) (hnew : c ∉ done ++ f :: queue) :
    IsFirst next start c (firstString next start f ++ [n]) := by
  refine ⟨follow_concat_eq_some_iff.mpr ⟨f, h.follow_first, hc⟩, fun q hq he => ?_⟩
  cases q using List.reverseRecOn with
  | nil =>
    cases hq
    exact hnew h.start_mem
  | append_singleton q j =>
    obtain ⟨g, hg, hj⟩ := follow_concat_eq_some_iff.mp hq
    rcases earlier_concat_iff.mp he with he | ⟨rfl, hjn⟩
    · exact hnew (h.closed g (h.mem_done_of_follow hg he) (List.mem_of_getElem? hj))
    · obtain rfl := Option.some.inj (h.follow_first.symm.trans hg)
      refine hnew (h.taken (List.mem_of_getElem? (i := j) ?_))
      rw [List.getElem?_take_of_lt hjn, hj]

theorem step_old (h : Expanding next start done f queue n) {c : α} (hc : (next f)[n]? = some c)
    (hold : c ∈ done ++ f :: queue) : Expanding next start done f queue (n + 1) where
  start_mem := h.start_mem
  reached := h.reached
  sorted := h.sorted
  closed := h.closed
  taken := by
    rw [List.take_add_one, hc]
    refine List.append_subset.mpr ⟨h.taken, fun d hd => ?_⟩
    rwa [List.mem_singleton.mp hd]
  called d hd hne := by
    obtain ⟨g, i, hg | ⟨rfl, hi⟩, hcall⟩ := h.called d hd hne
    · exact ⟨g, i, .inl hg, hcall⟩
    · exact ⟨g, i, .inr ⟨rfl, by omega⟩, hcall⟩

theorem step_new (h : Expanding next start done f queue n) {c : α} (hc : (next f)[n]? = some c)
    (hnew : c ∉ done ++ f :: queue) :
    Expanding next start done f (queue ++ [c]) (n + 1) := by
  have hfirst := h.isFirst_of_new hc hnew
  have hkeys : done ++ f :: (queue ++ [c]) = (done ++ f :: queue) ++ [c] := by
    rw [List.append_assoc, List.cons_append]
  have hmono : done ++ f :: queue ⊆ (done ++ f :: queue) ++ [c] := List.subset_append_left _ _
  constructor
  all_goals rw [hkeys]
  · exact hmono h.start_mem
  · intro d hd
    rcases List.mem_append.mp hd with hd | hd
    · exact h.reached d hd
    · rw [List.mem_singleton.mp hd]
      exact ⟨_, hfirst.leads⟩
  · refine List.pairwise_append.mpr ⟨h.sorted, List.pairwise_singleton _ _, ?_⟩
    intro b hb d hd
    rw [List.mem_singleton.mp hd, hfirst.firstString_eq]
    by_cases hstart : b = start
    · rw [hstart, firstString_start]
      exact nil_earlier (List.append_ne_nil_of_right_ne_nil _ (List.cons_ne_nil _ _))
    · obtain ⟨g, i, hg, -, hstring⟩ := h.called b hb hstart
      rw [hstring, earlier_concat_iff]
      rcases hg with hg | ⟨rfl, hi⟩
      · exact .inl (h.earlier_of_mem_done hg)
      · exact .inr ⟨rfl, hi⟩
  · intro g hg
    exact List.Subset.trans (h.closed g hg) hmono
  · rw [List.take_add_one, hc]
    exact List.append_subset.mpr ⟨List.Subset.trans h.taken hmono,
      List.subset_append_right _ _⟩
  · intro d hd hne
    rcases List.mem_append.mp hd with hd | hd
    · obtain ⟨g, i, hg | ⟨rfl, hi⟩, hcall⟩ := h.called d hd hne
      · exact ⟨g, i, .inl hg, hcall⟩
      · exact ⟨g, i, .inr ⟨rfl, by omega⟩, hcall⟩
    · obtain rfl := List.mem_singleton.mp hd
      exact ⟨f, n, .inr ⟨rfl, by omega⟩, hc, hfirst.firstString_eq⟩

theorem finish (h : Expanding next start done f queue (next f).length) :
    Listing next start (done ++ [f]) queue := by
  have hkeys : done ++ [f] ++ queue = done ++ f :: queue := by
    rw [List.append_assoc, List.singleton_append]
  constructor
  all_goals rw [hkeys]
  · exact h.start_mem
  · exact h.reached
  · exact h.sorted
  · intro g hg
    rcases List.mem_append.mp hg with hg | hg
    · exact h.closed g hg
    · obtain rfl := List.mem_singleton.mp hg
      have htaken := h.taken
      rwa [List.take_length] at htaken
  · intro c hc hne
    obtain ⟨g, i, hg | ⟨rfl, -⟩, hcall⟩ := h.called c hc hne
    · exact ⟨g, i, List.mem_append_left _ hg, hcall⟩
    · exact ⟨g, i, List.mem_append_right _ (List.mem_singleton_self g), hcall⟩

end Expanding

/-! ## How far the search has come -/

/-- What a search has listed when it comes to the string `p`. -/
def listedBefore (next : α → List α) (start : α) (p : List ℕ) : Set α :=
  {v | v = start ∨ ∃ q g, Earlier q p ∧ follow next start q = some g ∧ v ∈ next g}

namespace Listing

variable {done queue : List α} {f : α}

theorem nodup (h : Listing next start done queue) : (done ++ queue).Nodup := by
  refine h.sorted.imp ?_
  rintro a b hab rfl
  exact Earlier.irrefl _ hab

theorem encard_keys (h : Listing next start done queue) :
    Set.encard {c | c ∈ done ++ queue} = (done ++ queue).length := by
  classical
  have hfinset : {c | c ∈ done ++ queue} = ((done ++ queue).toFinset : Set α) := by
    ext c
    rw [Set.mem_ofPred_eq, List.coe_toFinset, Set.mem_ofPred_eq]
  rw [hfinset, Set.encard_coe_eq_coe_finsetCard, List.toFinset_card_of_nodup h.nodup]

theorem listedBefore_subset (h : Listing next start done (f :: queue)) :
    listedBefore next start (firstString next start f) ⊆ {c | c ∈ done ++ f :: queue} := by
  rintro v (rfl | ⟨q, g, he, hq, hv⟩)
  · exact h.start_mem
  · exact h.closed g ((Expanding.of_listing h).mem_done_of_follow hq he) hv

/-- A string that leads out of `done` is after the first string of every node in `done`. -/
theorem earlier_of_not_mem_done (h : Listing next start done queue) {p : List ℕ}
    (hp : follow next start p = some f) (hf : f ∉ done) {g : α} (hg : g ∈ done) :
    Earlier (firstString next start g) p := by
  by_contra hnot
  have hgfirst : follow next start (firstString next start g) = some g := by
    obtain ⟨q, hq⟩ := h.reached g (List.mem_append_left queue hg)
    exact (isFirst_firstString hq).leads
  rcases earlier_or_eq_of_not hnot with he | rfl
  · refine hf (mem_of_follow_of_earlier h.start_mem h.closed (fun {a} ha hea => ?_) hp he)
    rcases List.mem_append.mp ha with ha | ha
    · exact ha
    · exact absurd ((List.pairwise_append.mp h.sorted).2.2 g hg a ha) hea.asymm
  · obtain rfl := Option.some.inj (hgfirst.symm.trans hp)
    exact hf hg

theorem subset_listedBefore (h : Listing next start done queue) {p : List ℕ}
    (hp : ∀ g ∈ done, Earlier (firstString next start g) p) :
    {c | c ∈ done ++ queue} ⊆ listedBefore next start p := by
  intro c hc
  by_cases hstart : c = start
  · exact .inl hstart
  · obtain ⟨g, i, hg, hi, -⟩ := h.called c hc hstart
    obtain ⟨q, hq⟩ := h.reached g (List.mem_append_left queue hg)
    exact .inr ⟨_, g, hp g hg, (isFirst_firstString hq).leads, List.mem_of_getElem? hi⟩

/-- Everything that can be reached is listed when the queue is empty. -/
theorem mem_of_follow (h : Listing next start done []) {p : List ℕ} {c : α}
    (hp : follow next start p = some c) : c ∈ done := by
  rw [← List.append_nil done]
  induction p using List.reverseRecOn generalizing c with
  | nil =>
    cases hp
    exact h.start_mem
  | append_singleton p i ih =>
    obtain ⟨g, hg, hi⟩ := follow_concat_eq_some_iff.mp hp
    exact h.closed g (List.append_nil done ▸ ih hg) (List.mem_of_getElem? hi)

end Listing

end SecureWorld.Foundations
