import SecureWorld.Patcher.Prologue

/-! # A segment laid out function by function

Each function starts with a prologue word and ends with a return. Inside such a segment the walk
back finds the enclosing function, or nothing, exactly when no stop lies between the function's
entry and the cross reference and the walk cannot run past the entry to a stop below.
-/
namespace SecureWorld.Patcher
open Foundations
set_option autoImplicit false

structure CodeFunction where
  entry : BitVec 32
  body : List (BitVec 32)
  exit : BitVec 32
  entry_prologue : isPrologueStart entry
  exit_return : isReturn exit

def CodeFunction.words (f : CodeFunction) : List (BitVec 32) := f.entry :: (f.body ++ [f.exit])

theorem Lays.append {data : Bytes} {base : ℕ} {ws vs : List (BitVec 32)}
    (h : Lays data base (ws ++ vs)) : Lays data base ws ∧ Lays data (base + 4 * ws.length) vs := by
  have hfits := h.fits
  rw [List.length_append] at hfits
  refine ⟨⟨by omega, fun k hk => ?_⟩, ⟨by omega, fun k hk => ?_⟩⟩
  · rw [h.word k (by rw [List.length_append]; omega), List.getElem_append_left hk]
  · have hword := h.word (ws.length + k) (by rw [List.length_append]; omega)
    rw [List.getElem_append_right (Nat.le_add_right _ _)] at hword
    simp only [Nat.add_sub_cancel_left] at hword
    rw [← hword, Nat.mul_add, Nat.add_assoc]

/-- The start of the function after `pre`. -/
def startOf (base : ℕ) (pre : List CodeFunction) : ℕ :=
  base + 4 * (pre.flatMap CodeFunction.words).length

section Segment
variable {data : Bytes} {base : ℕ} {pre post : List CodeFunction} {f : CodeFunction}
  (hlay : Lays data base ((pre ++ f :: post).flatMap CodeFunction.words))
include hlay

theorem lays_function : Lays data (startOf base pre) f.words := by
  rw [List.flatMap_append, List.flatMap_cons] at hlay
  exact hlay.append.2.append.1

theorem entry_word : wordAt data (startOf base pre) = f.entry :=
  (lays_function hlay).word 0 (by rw [CodeFunction.words, List.length_cons]; omega)

/-- The word before a function that is not the first is a return. -/
theorem word_before (hpre : pre ≠ []) :
    4 ≤ startOf base pre ∧ isReturn (wordAt data (startOf base pre - 4)) := by
  obtain ⟨init, g, rfl⟩ := (List.eq_nil_or_concat' pre).resolve_left hpre
  have hg : Lays data (startOf base init) g.words := by
    rw [List.append_assoc, List.cons_append] at hlay
    exact lays_function hlay
  have hlen : g.words.length = g.body.length + 2 := by simp [CodeFunction.words]
  have hstart : startOf base (init ++ [g]) = startOf base init + 4 * (g.body.length + 2) := by
    rw [startOf, startOf, List.flatMap_append, List.length_append, List.flatMap_singleton, hlen]
    omega
  have hexit := hg.word (g.body.length + 1) (by omega)
  have hlast : g.words[g.body.length + 1] = g.exit := by simp [CodeFunction.words]
  rw [hlast] at hexit
  refine ⟨by omega, ?_⟩
  rw [hstart, show startOf base init + 4 * (g.body.length + 2) - 4 =
    startOf base init + 4 * (g.body.length + 1) by omega, hexit]
  exact g.exit_return

end Segment

/-! ## When the walk recovers the function -/

/-- No stop of the walk lies above the entry and at or below the word `k`. -/
def NoInnerStop (f : CodeFunction) (k : ℕ) : Prop :=
  ∀ j, 0 < j → j ≤ k →
    f.words[j]? ≠ some pacibsp ∧
      (∀ w c, f.words[j]? = some w → f.words[j + 1]? = some c → isReturn w → ¬ isPrologueStart c)

/-- The walk from `xref` cannot leave the segment through its first function: there is a function
before, or the entry is itself a stop, or a return stands before the segment, or there is no stop
below the segment within reach. -/
def NoStopBelow (data : Bytes) (base : ℕ) (pre : List CodeFunction) (f : CodeFunction)
    (xref : ℕ) : Prop :=
  pre ≠ [] ∨ f.entry = pacibsp ∨ (4 ≤ base ∧ isReturn (wordAt data (base - 4))) ∨
    ∀ off ∈ walkWindow xref, off < base → stopAt data off = none

theorem visits_above {start j k : ℕ} (hnear : 4 * k ≤ 4096) (hpos : 0 < j) (hj : j ≤ k) :
    start + 4 * j ∈ walkWindow (start + 4 * k) :=
  mem_walkWindow.mpr ⟨by omega, k - j, by omega⟩

/-- Before the walk reaches `off` it has seen every word from there up. -/
theorem visits_between {xref off mid n : ℕ} (hoff : off ∈ walkWindow xref) (hmid : mid = off + n * 4)
    (hle : mid ≤ xref) : mid ∈ walkWindow xref := by
  obtain ⟨hlt, m, hm⟩ := mem_walkWindow.mp hoff
  exact mem_walkWindow.mpr ⟨by omega, m - n, by omega⟩

section Recovery
variable {data : Bytes} {base : ℕ} {pre post : List CodeFunction} {f : CodeFunction} {k : ℕ}
  (hlay : Lays data base ((pre ++ f :: post).flatMap CodeFunction.words))
  (hk : k + 1 < f.words.length)
include hlay hk

theorem xref_fits : startOf base pre + 4 * k + 8 ≤ data.length := by
  have hfits := (lays_function hlay).fits
  omega

/-- A stop above the entry and not above the xref contradicts `NoInnerStop`. -/
theorem stop_of_inner (hinner : NoInnerStop f k) {j : ℕ} (hj : j ≤ k) {c : ℕ}
    (hstop : stopAt data (startOf base pre + 4 * j) = some c) : c = startOf base pre := by
  have hfun := lays_function hlay
  have hw := hfun.word j (by omega)
  have hnext := hfun.word (j + 1) (by omega)
  rcases Nat.eq_zero_or_pos j with rfl | hpos
  · rcases stopAt_eq_some hstop with ⟨-, rfl⟩ | ⟨hret, -, -⟩
    · rfl
    · rw [Nat.mul_zero, Nat.add_zero, entry_word hlay] at hret
      have hentry := f.entry_prologue
      rw [not_isPrologueStart_of_isReturn hret] at hentry
      exact absurd hentry (by decide)
  · obtain ⟨hpac, hret⟩ := hinner j hpos hj
    rw [List.getElem?_eq_getElem (by omega)] at hpac hret
    rw [List.getElem?_eq_getElem (by omega)] at hret
    rcases stopAt_eq_some hstop with ⟨hp, -⟩ | ⟨hr, hc, -⟩
    · exact absurd (congrArg some (hw.symm.trans hp)) hpac
    · rw [hw] at hr
      rw [Nat.add_assoc, ← Nat.mul_succ, hnext] at hc
      exact absurd hc (hret _ _ rfl rfl hr)

omit hk in
/-- Below the entry the walk meets the entry's own stop first. -/
theorem stop_of_below (hbelow : NoStopBelow data base pre f (startOf base pre + 4 * k))
    {off c : ℕ} (hoff : off ∈ walkWindow (startOf base pre + 4 * k))
    (hlt : off < startOf base pre) (hstop : stopAt data off = some c)
    (hfirst : ∀ off' ∈ walkWindow (startOf base pre + 4 * k), off < off' →
      stopAt data off' = none) : c = startOf base pre := by
  obtain ⟨-, m, hm⟩ := mem_walkWindow.mp hoff
  have hentry := entry_word hlay
  -- a return right before the entry stops the walk there
  have hreturn : 4 ≤ startOf base pre ∧ isReturn (wordAt data (startOf base pre - 4)) →
      c = startOf base pre := fun ⟨hfour, hret⟩ => by
    have hsucc : startOf base pre - 4 + 4 = startOf base pre := by omega
    have hstop' : stopAt data (startOf base pre - 4) = some (startOf base pre) := by
      have hnpac : wordAt data (startOf base pre - 4) ≠ pacibsp := fun hp => by
        rw [hp] at hret
        exact absurd hret (by decide)
      rw [stopAt, if_neg hnpac, hsucc, hentry, if_pos ⟨hret, f.entry_prologue⟩]
    rcases Nat.lt_or_ge off (startOf base pre - 4) with hlt' | hge
    · have hnone := hfirst _ (visits_between (n := m - k - 1) hoff (by omega) (by omega)) hlt'
      exact absurd (hnone.symm.trans hstop') (by simp)
    · have heq : off = startOf base pre - 4 := by omega
      rw [heq, hstop'] at hstop
      exact (Option.some.inj hstop).symm
  rcases hbelow with hpre | hpac | hret | hclear
  · exact hreturn (word_before hlay hpre)
  · have hstop' : stopAt data (startOf base pre) = some (startOf base pre) := by
      rw [stopAt, hentry, if_pos hpac]
    have hnone := hfirst _ (visits_between (n := m - k) hoff (by omega) (by omega)) hlt
    exact absurd (hnone.symm.trans hstop') (by simp)
  · rcases eq_or_ne pre [] with rfl | hpre
    · exact hreturn (by simpa [startOf] using hret)
    · exact hreturn (word_before hlay hpre)
  · rcases eq_or_ne pre [] with rfl | hpre
    · have hnone := hclear off hoff (by simpa [startOf] using hlt)
      exact absurd (hnone.symm.trans hstop) (by simp)
    · exact hreturn (word_before hlay hpre)

theorem walk_recovers (hinner : NoInnerStop f k)
    (hbelow : NoStopBelow data base pre f (startOf base pre + 4 * k)) :
    walkBackToPrologue data (startOf base pre + 4 * k) = .ok (some (startOf base pre)) ∨
      walkBackToPrologue data (startOf base pre + 4 * k) = .ok none := by
  have hfits := xref_fits hlay hk
  match hres : (walkWindow (startOf base pre + 4 * k)).findSome? (stopAt data) with
  | none => exact .inr (by rw [walkBackToPrologue_eq hfits, hres])
  | some c =>
    have hwalk : walkBackToPrologue data (startOf base pre + 4 * k) = .ok (some c) := by
      rw [walkBackToPrologue_eq hfits, hres]
    obtain ⟨off, hoff, hstop, hfirst⟩ := (walk_some_iff hfits c).mp hwalk
    suffices hc : c = startOf base pre from .inl (hc ▸ hwalk)
    rcases Nat.lt_or_ge off (startOf base pre) with hlt | hge
    · exact stop_of_below hlay hbelow hoff hlt hstop hfirst
    · obtain ⟨-, m, hm⟩ := mem_walkWindow.mp hoff
      obtain rfl : off = startOf base pre + 4 * (k - m) := by omega
      exact stop_of_inner hlay hk hinner (by omega) hstop

/-- If the walk recovers the function, any stop it could see is shadowed by one that yields the
entry. -/
theorem stop_shadowed
    (hrec : walkBackToPrologue data (startOf base pre + 4 * k) = .ok (some (startOf base pre)) ∨
      walkBackToPrologue data (startOf base pre + 4 * k) = .ok none)
    {off : ℕ} (hoff : off ∈ walkWindow (startOf base pre + 4 * k)) (hstop : stopAt data off ≠ none) :
    ∃ off', off ≤ off' ∧ stopAt data off' = some (startOf base pre) := by
  have hfits := xref_fits hlay hk
  rcases hrec with hsome | hnone
  · obtain ⟨off', -, hstop', hfirst⟩ := (walk_some_iff hfits _).mp hsome
    refine ⟨off', ?_, hstop'⟩
    by_contra hlt
    exact hstop (hfirst off hoff (by omega))
  · exact absurd ((walk_none_iff hfits).mp hnone off hoff) hstop

theorem noInnerStop_of_recovers (hnear : 4 * k ≤ 4096)
    (hrec : walkBackToPrologue data (startOf base pre + 4 * k) = .ok (some (startOf base pre)) ∨
      walkBackToPrologue data (startOf base pre + 4 * k) = .ok none) : NoInnerStop f k := by
  intro j hpos hj
  have hfun := lays_function hlay
  -- a stop at word `j` would yield an offset above the entry
  have hclear : stopAt data (startOf base pre + 4 * j) = none := by
    by_contra hstop
    obtain ⟨off', hge, hstop'⟩ := stop_shadowed hlay hk hrec (visits_above hnear hpos hj) hstop
    rcases stopAt_eq_some hstop' with ⟨-, h⟩ | ⟨-, -, h⟩ <;> omega
  refine ⟨fun hpac => ?_, fun w c hw hc hret hpro => ?_⟩
  · obtain ⟨hlt, hval⟩ := List.getElem?_eq_some_iff.mp hpac
    have hword := (hfun.word j hlt).trans hval
    rw [stopAt, if_pos hword] at hclear
    exact absurd hclear (by simp)
  · obtain ⟨hlt, hval⟩ := List.getElem?_eq_some_iff.mp hw
    obtain ⟨hlt', hval'⟩ := List.getElem?_eq_some_iff.mp hc
    have hword := (hfun.word j hlt).trans hval
    have hnext := (hfun.word (j + 1) hlt').trans hval'
    rw [Nat.mul_succ, ← Nat.add_assoc] at hnext
    unfold stopAt at hclear
    rw [hword, hnext, if_pos (show isReturn w = true ∧ isPrologueStart c = true from ⟨hret, hpro⟩)]
      at hclear
    split_ifs at hclear

theorem noStopBelow_of_recovers
    (hrec : walkBackToPrologue data (startOf base pre + 4 * k) = .ok (some (startOf base pre)) ∨
      walkBackToPrologue data (startOf base pre + 4 * k) = .ok none) :
    NoStopBelow data base pre f (startOf base pre + 4 * k) := by
  by_cases hpre : pre = []
  · by_cases hpac : f.entry = pacibsp
    · exact .inr (.inl hpac)
    · by_cases hret : 4 ≤ base ∧ isReturn (wordAt data (base - 4))
      · exact .inr (.inr (.inl hret))
      · refine .inr (.inr (.inr fun off hoff hlt => ?_))
        subst hpre
        have hentry := entry_word hlay
        by_contra hstop
        obtain ⟨off', hge, hstop'⟩ := stop_shadowed hlay hk hrec hoff hstop
        have hbase : startOf base [] = base := by simp [startOf]
        rw [hbase] at hstop' hentry
        rcases stopAt_eq_some hstop' with ⟨hp, rfl⟩ | ⟨hr, -, h⟩
        · exact hpac (hentry.symm.trans hp)
        · refine hret ⟨by omega, ?_⟩
          rwa [show base - 4 = off' by omega]
  · exact .inl hpre

end Recovery

/-- The walk returns the enclosing function's start, or nothing, exactly when the function has no
stop between its entry and the cross reference and none is reached below the segment. -/
theorem walk_recovers_iff {data : Bytes} {base : ℕ} {pre post : List CodeFunction}
    {f : CodeFunction} {k : ℕ}
    (hlay : Lays data base ((pre ++ f :: post).flatMap CodeFunction.words))
    (hk : k + 1 < f.words.length) (hnear : 4 * k ≤ 4096) :
    (walkBackToPrologue data (startOf base pre + 4 * k) = .ok (some (startOf base pre)) ∨
        walkBackToPrologue data (startOf base pre + 4 * k) = .ok none) ↔
      NoInnerStop f k ∧ NoStopBelow data base pre f (startOf base pre + 4 * k) :=
  ⟨fun hrec => ⟨noInnerStop_of_recovers hlay hk hnear hrec,
      noStopBelow_of_recovers hlay hk hrec⟩,
    fun h => walk_recovers hlay hk h.1 h.2⟩

/-- `pacibsp; stp x29, x30, [sp, #-16]!; adrp; add; retab` -/
def framedFunction : CodeFunction where
  entry := pacibsp
  body := [0xA9BF7BFD, 0x90000000, 0x91000000]
  exit := retab
  entry_prologue := by decide
  exit_return := by decide

/-- `pacibsp; ret; stp x0, x1, [sp]; adrp; add; retab`: a store to the stack after an early return. -/
def earlyReturnFunction : CodeFunction where
  entry := pacibsp
  body := [ret, 0xA90007E0, 0x90000000, 0x91000000]
  exit := retab
  entry_prologue := by decide
  exit_return := by decide

def segmentBytes (ws : List (BitVec 32)) : Bytes :=
  List.replicate 16 0 ++ ws.flatMap fun w => leBytes 4 w.toNat

theorem framedFunction_recovered :
    (walkBackToPrologue (segmentBytes framedFunction.words) (startOf 16 [] + 4 * 2) =
          .ok (some (startOf 16 [])) ∨
        walkBackToPrologue (segmentBytes framedFunction.words) (startOf 16 [] + 4 * 2) = .ok none) ↔
      NoInnerStop framedFunction 2 ∧ NoStopBelow (segmentBytes framedFunction.words) 16 []
        framedFunction (startOf 16 [] + 4 * 2) :=
  have hlay : Lays (segmentBytes framedFunction.words) 16
      (([] ++ framedFunction :: []).flatMap CodeFunction.words) := ⟨by decide, by decide⟩
  walk_recovers_iff hlay (by decide) (by decide)

/-- The walk from the ADRP ends at the store, in the middle of the function. -/
theorem store_after_return_taken_for_entry :
    ¬ ∀ (data : Bytes) (base : ℕ) (pre post : List CodeFunction) (f : CodeFunction) (k : ℕ),
      Lays data base ((pre ++ f :: post).flatMap CodeFunction.words) → k + 1 < f.words.length →
      4 * k ≤ 4096 →
      (walkBackToPrologue data (startOf base pre + 4 * k) = .ok (some (startOf base pre)) ∨
        walkBackToPrologue data (startOf base pre + 4 * k) = .ok none) := by
  intro h
  have hwalk := h (segmentBytes earlyReturnFunction.words) 16 [] [] earlyReturnFunction 3
    ⟨by decide, by decide⟩ (by decide) (by decide)
  exact absurd hwalk (by decide)

end SecureWorld.Patcher
