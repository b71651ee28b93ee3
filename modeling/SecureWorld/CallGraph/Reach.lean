import SecureWorld.Foundations.BreadthFirst
import Mathlib.Data.Int.Interval

/-! # Reachability in the call graph of the kernel text (`callees`, `reachable`)

The search stops when it has listed more than `maxnodes` functions, and what it has not listed by then
is reported like what no path leads to.
-/
namespace SecureWorld.CallGraph
open Foundations
set_option autoImplicit false

/-! ## The edges -/

def vmBase : ℤ := 0xc0000000
def textLo : ℤ := 0xc0001200
def textHi : ℤ := 0xc04ea8e8

/-- An instruction as capstone prints it, with the operand text read as a number where the text is
`#` and a number. -/
structure Insn where
  mnemonic : String
  imm : Option ℤ

def inText (t : ℤ) : List ℤ := if textLo ≤ t ∧ t < textHi then [t] else []

/-- The `while` loop, with `maxins - n` instructions left. -/
def scan (disasm : List UInt8 → ℤ → Option Insn) (data : List UInt8) (start : ℤ) :
    ℕ → ℤ → List ℤ
  | 0, _ => []
  | left + 1, off =>
      if 0 ≤ off ∧ off < data.length - 4 then
        match disasm ((data.drop off.toNat).take 4) (vmBase + off) with
        | none => []
        | some insn =>
            if insn.mnemonic ∈ ["ret", "retab", "reta"] then []
            else if insn.mnemonic = "bl" then
              match insn.imm with
              | some t => inText t ++ scan disasm data start left (off + 4)
              | none => scan disasm data start left (off + 4)
            else if insn.mnemonic = "b" then
              match insn.imm with
              | some t =>
                  if t < start ∨ vmBase + off < t then inText t
                  else scan disasm data start left (off + 4)
              | none => scan disasm data start left (off + 4)
            else scan disasm data start left (off + 4)
      else []

def callees (disasm : List UInt8 → ℤ → Option Insn) (data : List UInt8) (entry : ℤ) : List ℤ :=
  scan disasm data entry 6000 (entry - vmBase)

theorem mem_inText {c t : ℤ} (h : c ∈ inText t) : textLo ≤ c ∧ c < textHi := by
  rw [inText] at h
  split_ifs at h with ht
  · rwa [List.mem_singleton.mp h]
  · cases h

theorem mem_scan {disasm : List UInt8 → ℤ → Option Insn} {data : List UInt8} {start c : ℤ}
    {left : ℕ} {off : ℤ} (h : c ∈ scan disasm data start left off) : textLo ≤ c ∧ c < textHi := by
  induction left generalizing off with
  | zero => cases h
  | succ left ih =>
    rw [scan] at h
    split at h
    · split at h
      · cases h
      · split at h
        · cases h
        · split at h
          · split at h
            · rcases List.mem_append.mp h with h | h
              · exact mem_inText h
              · exact ih h
            · exact ih h
          · split at h
            · split at h
              · split at h
                · exact mem_inText h
                · exact ih h
              · exact ih h
            · exact ih h
    · cases h

/-! ## The search -/

/-- The dictionary `parent`, in the order of insertion, and the queue. -/
structure Search where
  parent : List (ℤ × Option ℤ)
  q : List ℤ

def Search.keys (s : Search) : List ℤ := s.parent.map Prod.fst

def discover (f : ℤ) (s : Search) (c : ℤ) : Search :=
  if c ∈ s.keys then s else { parent := s.parent ++ [(c, some f)], q := s.q ++ [c] }

/-- `while q`, with a bound on the number of turns. -/
def search (callees : ℤ → List ℤ) (maxnodes : ℤ) : ℕ → Search → Option Search
  | 0, _ => none
  | fuel + 1, s =>
      match s.q with
      | [] => some s
      | f :: q =>
          let s' := (callees f).foldl (discover f) { s with q }
          if maxnodes < s'.parent.length then some s' else search callees maxnodes fuel s'

/-- `parent.get(x)` -/
def parentOf (parent : List (ℤ × Option ℤ)) (x : ℤ) : Option ℤ :=
  (parent.find? fun e => e.1 = x).bind Prod.snd

/-- `while x is not None`, with a bound on the number of turns. -/
def ancestors (parent : List (ℤ × Option ℤ)) : ℕ → Option ℤ → List ℤ
  | _, none => []
  | 0, some _ => []
  | fuel + 1, some x => x :: ancestors parent fuel (parentOf parent x)

def path (parent : List (ℤ × Option ℤ)) (t : ℤ) : List ℤ :=
  (ancestors parent parent.length (some t)).reverse

def answer (s : Search) (t : ℤ) : Option (List ℤ) :=
  if t ∈ s.keys then some (path s.parent t) else none

def reachable (callees : ℤ → List ℤ) (start : ℤ) (targets : List ℤ) (maxnodes : ℤ) :
    Option (List (ℤ × Option (List ℤ)) × ℕ) :=
  (search callees maxnodes (maxnodes.toNat + 2) ⟨[(start, none)], [start]⟩).map fun s =>
    (targets.eraseDups.map fun t => (t, answer s t), s.parent.length)

/-! ## The parent tree -/

section Tree
variable {callees : ℤ → List ℤ} {start : ℤ}

/-- Each entry but the first is a first call from another entry. -/
def ParentTree (callees : ℤ → List ℤ) (start : ℤ) (s : Search) : Prop :=
  ∀ e ∈ s.parent, e = (start, none) ∨ ∃ f i, e.2 = some f ∧ f ∈ s.keys ∧
    (callees f)[i]? = some e.1 ∧
    firstString callees start e.1 = firstString callees start f ++ [i]

/-- The search is at the `n`-th callee of `f`. -/
structure Discovering (callees : ℤ → List ℤ) (start : ℤ) (done : List ℤ) (f : ℤ) (n : ℕ)
    (s : Search) : Prop where
  keys : s.keys = done ++ f :: s.q
  expanding : Expanding callees start done f s.q n
  tree : ParentTree callees start s

theorem Discovering.step {done : List ℤ} {f c : ℤ} {n : ℕ} {s : Search}
    (h : Discovering callees start done f n s) (hc : (callees f)[n]? = some c) :
    Discovering callees start done f (n + 1) (discover f s c) := by
  rw [discover]
  split_ifs with hmem
  · exact ⟨h.keys, h.expanding.step_old hc (h.keys ▸ hmem), h.tree⟩
  · have hnew : c ∉ done ++ f :: s.q := h.keys ▸ hmem
    have hkeys : Search.keys ⟨s.parent ++ [(c, some f)], s.q ++ [c]⟩ = s.keys ++ [c] := by
      rw [Search.keys, List.map_append]
      rfl
    refine ⟨?_, h.expanding.step_new hc hnew, ?_⟩
    · rw [hkeys, h.keys, List.append_assoc, List.cons_append]
    · intro e he
      rw [hkeys]
      rcases List.mem_append.mp he with he | he
      · rcases h.tree e he with hroot | ⟨g, i, hg, hmemg, hcall⟩
        · exact .inl hroot
        · exact .inr ⟨g, i, hg, List.mem_append_left _ hmemg, hcall⟩
      · obtain rfl := List.mem_singleton.mp he
        have hf : f ∈ s.keys := by
          rw [h.keys]
          exact List.mem_append_right done List.mem_cons_self
        exact .inr ⟨f, n, rfl, List.mem_append_left _ hf, hc,
          (h.expanding.isFirst_of_new hc hnew).firstString_eq⟩

theorem Discovering.run {done : List ℤ} {f : ℤ} {l cs : List ℤ} {s : Search}
    (hcs : callees f = l ++ cs) (h : Discovering callees start done f l.length s) :
    Discovering callees start done f (callees f).length (cs.foldl (discover f) s) := by
  induction cs generalizing l s with
  | nil => rwa [hcs, List.append_nil]
  | cons c cs ih =>
    have hc : (callees f)[l.length]? = some c := by
      rw [hcs, List.getElem?_append_right (le_refl _), Nat.sub_self]
      rfl
    refine ih (l := l ++ [c]) ?_ ?_
    · rw [hcs, List.append_assoc, List.singleton_append]
    · rw [List.length_append, List.length_singleton]
      exact h.step hc

/-! ## The loop -/

/-- The search has taken the callees of the functions in `done`, and was within the budget before
each. -/
structure Searching (callees : ℤ → List ℤ) (start maxnodes : ℤ) (done : List ℤ) (s : Search) :
    Prop where
  keys : s.keys = done ++ s.q
  listing : Listing callees start done s.q
  tree : ParentTree callees start s
  budget : ∀ f ∈ done, f = start ∨
    (listedBefore callees start (firstString callees start f)).encard ≤ maxnodes.toNat

variable {maxnodes : ℤ}

theorem Searching.length_eq {done : List ℤ} {s : Search}
    (h : Searching callees start maxnodes done s) : s.parent.length = (done ++ s.q).length := by
  rw [← h.keys, Search.keys, List.length_map]

theorem Searching.init : Searching callees start maxnodes [] ⟨[(start, none)], [start]⟩ where
  keys := rfl
  listing := Listing.init
  tree _ he := .inl (List.mem_singleton.mp he)
  budget _ hf := absurd hf List.not_mem_nil

/-- The first function in the queue is `start` as long as nothing has been taken. -/
theorem Searching.head_eq_start {f : ℤ} {q : List ℤ} {s : Search}
    (h : Searching callees start maxnodes [] s) (hq : s.q = f :: q) : f = start := by
  by_contra hne
  obtain ⟨g, i, hg, -⟩ := h.listing.called f (by simp [hq]) hne
  cases hg

theorem Searching.step {done q : List ℤ} {f : ℤ} {s : Search}
    (h : Searching callees start maxnodes done s) (hq : s.q = f :: q)
    (hwithin : done = [] ∨ s.parent.length ≤ maxnodes) :
    Searching callees start maxnodes (done ++ [f])
      ((callees f).foldl (discover f) { s with q }) := by
  have hlisting : Listing callees start done (f :: q) := hq ▸ h.listing
  have hstart : Discovering callees start done f 0 { s with q } :=
    ⟨h.keys.trans (by rw [hq]), .of_listing hlisting, h.tree⟩
  obtain ⟨hkeys, hexpanding, htree⟩ := Discovering.run (l := []) rfl hstart
  refine ⟨?_, hexpanding.finish, htree, ?_⟩
  · rw [hkeys, List.append_assoc, List.singleton_append]
  · intro g hg
    rcases List.mem_append.mp hg with hg | hg
    · exact h.budget g hg
    · obtain rfl := List.mem_singleton.mp hg
      rcases hwithin with rfl | hlen
      · exact .inl (h.head_eq_start hq)
      · refine .inr ((Set.encard_le_encard hlisting.listedBefore_subset).trans ?_)
        have hlength := h.length_eq
        rw [hq] at hlength
        rw [hlisting.encard_keys, Nat.cast_le]
        omega

/-- The search ends, and then either nothing is left in the queue or the budget is used up. -/
theorem search_spec (fuel : ℕ) {done : List ℤ} {s : Search}
    (h : Searching callees start maxnodes done s)
    (hwithin : done = [] ∨ s.parent.length ≤ maxnodes)
    (hfuel : maxnodes.toNat + 1 < fuel + done.length) :
    ∃ s' done', search callees maxnodes fuel s = some s' ∧
      Searching callees start maxnodes done' s' ∧
      (s'.q = [] ∨ maxnodes < s'.parent.length ∧ done' ≠ []) := by
  induction fuel generalizing done s with
  | zero =>
    have hlength := h.length_eq
    rw [List.length_append] at hlength
    rcases hwithin with rfl | hlen
    · simp at hfuel
    · omega
  | succ fuel ih =>
    rw [search]
    cases hq : s.q with
    | nil => exact ⟨s, done, rfl, h, .inl hq⟩
    | cons f q =>
      have hnext := h.step hq hwithin
      dsimp only
      split_ifs with hbudget
      · exact ⟨_, _, rfl, hnext, .inr ⟨hbudget, by simp⟩⟩
      · refine ih hnext (.inr (not_lt.mp hbudget)) ?_
        rw [List.length_append, List.length_singleton]
        omega

/-! ## The paths -/

theorem exists_parentOf {s : Search} {t : ℤ} (h : t ∈ s.keys) :
    ∃ e ∈ s.parent, e.1 = t ∧ parentOf s.parent t = e.2 := by
  obtain ⟨e, he, rfl⟩ := List.mem_map.mp h
  cases hfind : s.parent.find? fun e' => e'.1 = e.1 with
  | none => simpa using List.find?_eq_none.mp hfind e he
  | some e' =>
    refine ⟨e', List.mem_of_find?_eq_some hfind, ?_, ?_⟩
    · simpa using List.find?_some hfind
    · rw [parentOf, hfind, Option.bind_some]

theorem ancestors_spec {done : List ℤ} {s : Search}
    (h : Searching callees start maxnodes done s) (k : ℕ) (hk : k < s.keys.length) (fuel : ℕ)
    (hfuel : k < fuel) :
    IsWalk callees start s.keys[k] (ancestors s.parent fuel (some s.keys[k])).reverse ∧
      (ancestors s.parent fuel (some s.keys[k])).length =
        (firstString callees start s.keys[k]).length + 1 := by
  induction k using Nat.strong_induction_on generalizing fuel with
  | _ k ih =>
    obtain ⟨fuel, rfl⟩ : ∃ n, fuel = n + 1 := ⟨fuel - 1, by omega⟩
    obtain ⟨e, he, hkey, hparent⟩ := exists_parentOf (List.getElem_mem hk)
    rw [ancestors, hparent]
    rcases h.tree e he with rfl | ⟨f, i, hf, hmem, hcall, hstring⟩
    · rw [← hkey, ancestors]
      exact ⟨⟨rfl, rfl, List.isChain_singleton _⟩, by rw [firstString_start]; rfl⟩
    · obtain ⟨j, hj, rfl⟩ := List.getElem_of_mem hmem
      rw [hkey] at hcall hstring
      -- the parent was listed before, because its first string is earlier
      have hjk : j < k := by
        have hsorted : s.keys.Pairwise fun a b =>
            Earlier (firstString callees start a) (firstString callees start b) :=
          h.keys ▸ h.listing.sorted
        have hearlier := earlier_concat (firstString callees start s.keys[j]) i
        rw [← hstring] at hearlier
        rcases lt_trichotomy j k with hlt | rfl | hgt
        · exact hlt
        · exact absurd hearlier (Earlier.irrefl _)
        · exact absurd (List.pairwise_iff_getElem.mp hsorted k j hk hj hgt) hearlier.asymm
      obtain ⟨hwalk, hlen⟩ := ih j hjk hj fuel (by omega)
      rw [hf, List.reverse_cons, List.length_cons, hlen, hstring, List.length_append]
      exact ⟨hwalk.concat (List.mem_of_getElem? hcall), rfl⟩

theorem path_spec {done : List ℤ} {s : Search} (h : Searching callees start maxnodes done s)
    {t : ℤ} (ht : t ∈ s.keys) :
    IsWalk callees start t (path s.parent t) ∧
      ∀ w, IsWalk callees start t w → (path s.parent t).length ≤ w.length := by
  obtain ⟨k, hk, rfl⟩ := List.getElem_of_mem ht
  obtain ⟨hwalk, hlen⟩ := ancestors_spec h k hk s.parent.length (by simpa [Search.keys] using hk)
  exact ⟨hwalk, fun w hw => IsWalk.length_le (by rw [path, List.length_reverse, hlen]) hw⟩

/-! ## The answers -/

/-- `t` is called by `start` itself, or by a function that a call string `p` leads to such that
`start` and what is called at the end of the earlier strings number at most `maxnodes`. -/
def WithinBudget (callees : ℤ → List ℤ) (start maxnodes t : ℤ) : Prop :=
  t = start ∨ ∃ p f, follow callees start p = some f ∧ t ∈ callees f ∧
    (p = [] ∨ (listedBefore callees start p).encard ≤ maxnodes.toNat)

/-- A budget of every address of the text, and one more, is never used up by the edges that are
read from the text. -/
theorem withinBudget_of_text {disasm : List UInt8 → ℤ → Option Insn} {data : List UInt8} {t : ℤ}
    (hbudget : textHi - textLo < maxnodes) (ht : Reaches (CallGraph.callees disasm data) start t) :
    WithinBudget (CallGraph.callees disasm data) start maxnodes t := by
  obtain ⟨p, hp⟩ := reaches_iff.mp ht
  cases p using List.reverseRecOn with
  | nil =>
    cases hp
    exact .inl rfl
  | append_singleton p i =>
    obtain ⟨f, hf, hi⟩ := follow_concat_eq_some_iff.mp hp
    refine .inr ⟨p, f, hf, List.mem_of_getElem? hi, .inr ?_⟩
    have hsub : listedBefore (CallGraph.callees disasm data) start p ⊆
        insert start (Finset.Ico textLo textHi : Set ℤ) := by
      rintro v (rfl | ⟨q, g, -, -, hv⟩)
      · exact Set.mem_insert _ _
      · exact Set.mem_insert_of_mem _ (Finset.mem_coe.mpr (Finset.mem_Ico.mpr (mem_scan hv)))
    calc (listedBefore (CallGraph.callees disasm data) start p).encard
        ≤ (Finset.Ico textLo textHi : Set ℤ).encard + 1 :=
          (Set.encard_le_encard hsub).trans (Set.encard_insert_le _ _)
      _ = ((textHi - textLo).toNat + 1 : ℕ) := by
          rw [Set.encard_coe_eq_coe_finsetCard, Int.card_Ico, Nat.cast_add_one]
      _ ≤ maxnodes.toNat := by
          rw [Nat.cast_le]
          unfold textHi textLo at *
          omega

theorem Searching.withinBudget {done : List ℤ} {s : Search}
    (h : Searching callees start maxnodes done s) {t : ℤ} (ht : t ∈ s.keys) :
    WithinBudget callees start maxnodes t := by
  by_cases hstart : t = start
  · exact .inl hstart
  · rw [h.keys] at ht
    obtain ⟨f, i, hf, hi, -⟩ := h.listing.called t ht hstart
    obtain ⟨p, hp⟩ := h.listing.reached f (List.mem_append_left _ hf)
    refine .inr ⟨_, f, (isFirst_firstString hp).leads, List.mem_of_getElem? hi, ?_⟩
    refine (h.budget f hf).imp ?_ id
    rintro rfl
    exact firstString_start

/-- A search over its budget has listed what is called within it. -/
theorem Searching.mem_of_withinBudget {done : List ℤ} {s : Search}
    (h : Searching callees start maxnodes done s) (hover : maxnodes < s.parent.length)
    (hdone : done ≠ []) {t : ℤ} (ht : WithinBudget callees start maxnodes t) : t ∈ s.keys := by
  rw [h.keys]
  rcases ht with rfl | ⟨p, f, hp, hcall, hbudget⟩
  · exact h.listing.start_mem
  · by_cases hf : f ∈ done
    · exact h.listing.closed f hf hcall
    · exfalso
      have hafter : ∀ g ∈ done, Earlier (firstString callees start g) p :=
        fun g hg => h.listing.earlier_of_not_mem_done hp hf hg
      rcases hbudget with rfl | hbudget
      · obtain ⟨g, hg⟩ := List.exists_mem_of_ne_nil done hdone
        exact List.not_shortlex_nil_right (hafter g hg)
      · have hle := (Set.encard_le_encard (h.listing.subset_listedBefore hafter)).trans hbudget
        have hlength := h.length_eq
        have hpos := List.length_pos_of_ne_nil hdone
        rw [h.listing.encard_keys, Nat.cast_le] at hle
        rw [List.length_append] at hle hlength
        omega

theorem Searching.mem_of_queue_eq_nil {done : List ℤ} {s : Search}
    (h : Searching callees start maxnodes done s) (hq : s.q = []) {t : ℤ}
    (ht : Reaches callees start t) : t ∈ s.keys := by
  obtain ⟨p, hp⟩ := reaches_iff.mp ht
  rw [h.keys, hq, List.append_nil]
  exact Listing.mem_of_follow (hq ▸ h.listing) hp

/-- Each path that is returned is a shortest one, and only what cannot be reached has none. -/
def AnswersCorrectly (callees : ℤ → List ℤ) (start : ℤ) (targets : List ℤ) (maxnodes : ℤ) : Prop :=
  ∃ answers explored, reachable callees start targets maxnodes = some (answers, explored) ∧
    answers.map Prod.fst = targets.eraseDups ∧
    ∀ t r, (t, r) ∈ answers →
      (∀ p, r = some p → IsWalk callees start t p ∧
        ∀ w, IsWalk callees start t w → p.length ≤ w.length) ∧
      (r = none → ¬Reaches callees start t)

theorem answersCorrectly_iff (callees : ℤ → List ℤ) (start : ℤ) (targets : List ℤ)
    (maxnodes : ℤ) :
    AnswersCorrectly callees start targets maxnodes ↔
      ∀ t ∈ targets, Reaches callees start t → WithinBudget callees start maxnodes t := by
  obtain ⟨s, done, hs, hrun, hend⟩ := search_spec (maxnodes.toNat + 2)
    (Searching.init : Searching callees start maxnodes _ _) (.inl rfl) (Nat.lt_succ_self _)
  have hreach : reachable callees start targets maxnodes =
      some (targets.eraseDups.map fun t => (t, answer s t), s.parent.length) := by
    rw [reachable, hs, Option.map_some]
  constructor
  · rintro ⟨answers, explored, hanswers, -, hall⟩ t ht hwalk
    obtain ⟨rfl, rfl⟩ := Prod.mk.inj (Option.some.inj (hreach.symm.trans hanswers))
    have hanswer : (t, answer s t) ∈ targets.eraseDups.map fun t => (t, answer s t) :=
      List.mem_map_of_mem (List.mem_eraseDups.mpr ht)
    apply hrun.withinBudget
    by_contra hmiss
    exact (hall t _ hanswer).2 (if_neg hmiss) hwalk
  · intro hall
    refine ⟨_, _, hreach, by simp [Function.comp_def], fun t r hr => ?_⟩
    obtain ⟨t', ht, heq⟩ := List.mem_map.mp hr
    obtain ⟨rfl, rfl⟩ := Prod.mk.inj heq
    rw [answer]
    constructor
    · intro p hp
      split_ifs at hp with hmem
      obtain rfl := Option.some.inj hp
      exact path_spec hrun hmem
    · intro hnone hwalk
      split_ifs at hnone with hmem
      rcases hend with hq | ⟨hover, hdone⟩
      · exact hmem (hrun.mem_of_queue_eq_nil hq hwalk)
      · exact hmem (hrun.mem_of_withinBudget hover hdone
          (hall t' (List.mem_eraseDups.mp ht) hwalk))

end Tree

/-- Two calls in a row, and a budget of one function. -/
theorem stopped_early_not_correct : ¬∀ (callees : ℤ → List ℤ) (start : ℤ) (targets : List ℤ)
    (maxnodes : ℤ), AnswersCorrectly callees start targets maxnodes := by
  intro hall
  obtain ⟨answers, explored, hanswers, -, hcorrect⟩ := hall
    (fun f => if f = 0xc0001200 then [0xc0001204] else if f = 0xc0001204 then [0xc0001208] else [])
    0xc0001200 [0xc0001208] 1
  have hrun : some ([(0xc0001208, none)], 2) = some (answers, explored) :=
    Eq.trans (by decide +kernel) hanswers
  obtain ⟨rfl, -⟩ := Prod.mk.inj (Option.some.inj hrun)
  refine (hcorrect 0xc0001208 none (List.mem_singleton_self _)).2 rfl ?_
  exact ⟨[0xc0001200, 0xc0001204, 0xc0001208], rfl, rfl, by decide⟩

end SecureWorld.CallGraph
