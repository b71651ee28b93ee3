import SecureWorld.Panel.Console
import Mathlib.Data.List.GetD

/-! # What the console detects

The markers are searched in finished screen rows of at most 127 characters, while the guest prints
lines of any length. The console is followed by a log of the rows it has checked; a line enters the
log cut at every 127th character, so a marker is seen when one of its occurrences is not cut.
-/
namespace SecureWorld.Panel
open Foundations
set_option autoImplicit false

/-! ## The stage of a line -/

/-- The stages and their markers, highest first. -/
def stageMarks : List (ℤ × List (List Byte)) :=
  [(5, upMarks), (4, servicesMarks), (3, driversMarks), (2, filesystemMarks), (1, kernelMarks)]

/-- The stage `boot_check_stage` assigns to a line; 0 if it has no marker. -/
def stageOf (ln : List Byte) : ℤ :=
  if marked ln upMarks then 5
  else if marked ln servicesMarks then 4
  else if marked ln driversMarks then 3
  else if marked ln filesystemMarks then 2
  else if marked ln kernelMarks then 1
  else 0

def maxStage (lines : List (List Byte)) : ℤ := lines.foldl (fun m ln => max m (stageOf ln)) 0

/-- The chain of cases as a search of the table. -/
def firstStage (ln : List Byte) : List (ℤ × List (List Byte)) → ℤ
  | [] => 0
  | p :: ps => if marked ln p.2 then p.1 else firstStage ln ps

theorem stageOf_eq (ln : List Byte) : stageOf ln = firstStage ln stageMarks := rfl

theorem le_firstStage_iff {n : ℤ} (hn : 0 < n) (ln : List Byte) :
    ∀ {ps : List (ℤ × List (List Byte))}, ps.Pairwise (fun p q => q.1 ≤ p.1) →
      (n ≤ firstStage ln ps ↔ ∃ p ∈ ps, n ≤ p.1 ∧ marked ln p.2 = true)
  | [], _ => by
      simp only [firstStage, List.not_mem_nil, false_and, exists_false, iff_false]
      omega
  | p :: ps, hps => by
      obtain ⟨hhead, htail⟩ := List.pairwise_cons.mp hps
      rw [firstStage]
      by_cases hp : marked ln p.2 = true
      · rw [if_pos hp]
        constructor
        · intro hle
          exact ⟨p, List.mem_cons_self, hle, hp⟩
        · rintro ⟨q, hq, hle, -⟩
          rcases List.mem_cons.mp hq with rfl | hq
          · exact hle
          · exact hle.trans (hhead q hq)
      · rw [if_neg hp, le_firstStage_iff hn ln htail]
        constructor
        · rintro ⟨q, hq, hle, hmark⟩
          exact ⟨q, List.mem_cons_of_mem p hq, hle, hmark⟩
        · rintro ⟨q, hq, hle, hmark⟩
          rcases List.mem_cons.mp hq with rfl | hq
          · exact absurd hmark hp
          · exact ⟨q, hq, hle, hmark⟩

theorem le_stageOf_iff {n : ℤ} (hn : 0 < n) (ln : List Byte) :
    n ≤ stageOf ln ↔ ∃ p ∈ stageMarks, n ≤ p.1 ∧ marked ln p.2 = true := by
  rw [stageOf_eq]
  exact le_firstStage_iff hn ln (by decide)

theorem stageOf_bounds (ln : List Byte) : 0 ≤ stageOf ln ∧ stageOf ln ≤ 5 := by
  unfold stageOf
  split_ifs <;> omega

theorem maxStage_snoc (lines : List (List Byte)) (ln : List Byte) :
    maxStage (lines ++ [ln]) = max (maxStage lines) (stageOf ln) := by
  rw [maxStage, List.foldl_append]
  rfl

theorem le_maxStage_iff {n : ℤ} (hn : 0 < n) (lines : List (List Byte)) :
    n ≤ maxStage lines ↔ ∃ ln ∈ lines, n ≤ stageOf ln := by
  induction lines using List.reverseRecOn with
  | nil =>
    simp only [maxStage, List.foldl_nil, List.not_mem_nil, false_and, exists_false, iff_false]
    omega
  | append_singleton lines ln ih =>
    rw [maxStage_snoc, le_max_iff, ih]
    simp only [List.mem_append, List.mem_singleton, or_and_right, exists_or, exists_eq_left]

theorem maxStage_nonneg (lines : List (List Byte)) : 0 ≤ maxStage lines := by
  induction lines using List.reverseRecOn with
  | nil => exact le_refl 0
  | append_singleton lines ln ih =>
    rw [maxStage_snoc]
    exact ih.trans (le_max_left _ _)

theorem maxStage_le (lines : List (List Byte)) : maxStage lines ≤ 5 := by
  induction lines using List.reverseRecOn with
  | nil => exact (by decide : (0 : ℤ) ≤ 5)
  | append_singleton lines ln ih =>
    rw [maxStage_snoc]
    exact max_le ih (stageOf_bounds ln).2

theorem maxStage_perm {lines lines' : List (List Byte)} (h : lines.Perm lines') :
    maxStage lines = maxStage lines' := by
  have hle : ∀ {l l' : List (List Byte)}, l.Perm l' → maxStage l ≤ maxStage l' := by
    intro l l' hp
    by_cases hpos : 0 < maxStage l
    · obtain ⟨ln, hln, hstage⟩ := (le_maxStage_iff hpos l).mp (le_refl _)
      exact (le_maxStage_iff hpos l').mpr ⟨ln, hp.subset hln, hstage⟩
    · exact (not_lt.mp hpos).trans (maxStage_nonneg l')
  exact le_antisymm (hle h) (hle h.symm)

theorem raiseStage_eq (s : Console) (stage : ℤ) :
    (raiseStage s stage).bootStage = max s.bootStage stage ∧
      (raiseStage s stage).bootPanic = s.bootPanic := by
  unfold raiseStage
  split_ifs with hlt
  · exact ⟨(max_eq_right hlt.le).symm, rfl⟩
  · exact ⟨(max_eq_left (not_lt.mp hlt)).symm, rfl⟩

/-- `boot_check_stage` raises the stage to that of the line and notes a panic. -/
theorem bootCheckStage_eq {s : Console} (hs : 0 ≤ s.bootStage ∧ s.bootStage ≤ 5)
    (ln : List Byte) :
    (bootCheckStage s ln).bootStage = max s.bootStage (stageOf ln) ∧
      (bootCheckStage s ln).bootPanic = (s.bootPanic || marked ln panicMarks) := by
  have hnote : ∃ s' : Console, s' = (if marked ln panicMarks then { s with bootPanic := true } else s)
      ∧ s'.bootStage = s.bootStage ∧ s'.bootPanic = (s.bootPanic || marked ln panicMarks) := by
    refine ⟨_, rfl, ?_⟩
    split_ifs with hpanic
    · exact ⟨rfl, by rw [hpanic, Bool.or_true]⟩
    · exact ⟨rfl, by rw [Bool.eq_false_iff.mpr hpanic, Bool.or_false]⟩
  obtain ⟨s', hs', hstage, hpanic⟩ := hnote
  rw [bootCheckStage, ← hs', ← hstage, ← hpanic, stageOf]
  split_ifs
  · exact ⟨(max_eq_right (hstage ▸ hs.2)).symm, rfl⟩
  · exact raiseStage_eq s' 4
  · exact raiseStage_eq s' 3
  · exact raiseStage_eq s' 2
  · exact raiseStage_eq s' 1
  · exact ⟨(max_eq_left (hstage ▸ hs.1)).symm, rfl⟩

/-! ## The log of checked rows -/

structure RowLog where
  current : List Byte
  checked : List (List Byte)

def RowLog.feed (l : RowLog) (b : Byte) : RowLog :=
  if b = 0x0a then ⟨[], l.checked ++ [l.current]⟩
  else if l.current.length ≥ 127 then ⟨[b], l.checked ++ [l.current]⟩
  else ⟨l.current ++ [b], l.checked⟩

/-- The console shows the current row of the log and has detected what is in the checked ones. -/
structure Tracks (s : Console) (l : RowLog) : Prop where
  inBounds : InBounds s.grid
  column : s.consCol = l.current.length
  cells : ∀ k : ℕ, k < 128 → s.cons s.consRow k = l.current.getD k 0
  text : ∀ b ∈ l.current, b ≠ 0
  stage : s.bootStage = maxStage l.checked
  panic : s.bootPanic = l.checked.any fun row => marked row panicMarks

theorem tracks_fresh : Tracks Console.fresh ⟨[], []⟩ where
  inBounds := fresh_inBounds
  column := rfl
  cells := fun _ _ => rfl
  text := fun _ hb => absurd hb List.not_mem_nil
  stage := rfl
  panic := rfl

theorem Tracks.length_le {s : Console} {l : RowLog} (h : Tracks s l) : l.current.length ≤ 127 := by
  have hcol : s.consCol ≤ consCols - 1 := h.inBounds.col.2
  rw [h.column, consCols_eq] at hcol
  omega

/-- The search in the current row sees its text. -/
theorem Tracks.rowString {s : Console} {l : RowLog} (h : Tracks s l) :
    rowString s s.consRow = l.current := by
  have hlen := h.length_le
  have hrow : s.consRow < consRows := h.inBounds.row.2
  have hlast := h.inBounds.lastColumn s.consRow h.inBounds.row.1 h.inBounds.row.2
  rw [rowString_eq_painted hrow hlast, paintedRow]
  have hcells : ((List.range 128).map fun k : ℕ => s.cons s.consRow k) =
      l.current ++ List.replicate (128 - l.current.length) 0 := by
    apply List.ext_getElem
    · simp only [List.length_map, List.length_range, List.length_append, List.length_replicate]
      omega
    · intro k hk _
      have hk' : k < 128 := by simpa using hk
      rw [List.getElem_map, List.getElem_range, h.cells k hk', List.getElem_append]
      split_ifs with hlt
      · rw [List.getD_eq_getElem _ _ hlt]
      · rw [List.getElem_replicate, List.getD_eq_default _ _ (not_lt.mp hlt)]
  rw [hcells, List.takeWhile_append_of_pos]
  · have hzeros : (List.replicate (128 - l.current.length) (0 : Byte)).takeWhile
        (fun c => decide (c ≠ 0)) = [] := by
      rw [List.takeWhile_replicate]
      rfl
    rw [hzeros, List.append_nil]
  · intro b hb
    exact decide_eq_true (h.text b hb)

theorem consNewline_checks (s : Console) :
    (consNewline s).bootStage = (bootCheckStage s (Panel.rowString s s.consRow)).bootStage ∧
      (consNewline s).bootPanic = (bootCheckStage s (Panel.rowString s s.consRow)).bootPanic := by
  unfold consNewline
  simp only []
  split_ifs <;> exact ⟨rfl, rfl⟩

theorem consNewline_cleared (s : Console) {k : ℕ} (hk : k < 128) :
    (consNewline s).cons (consNewline s).consRow k = 0 := by
  have hgrid := consNewline_grid s
  have hcell : ∀ (cons : ℤ → ℤ → Byte) (row : ℤ), clearRow cons row row k = 0 := by
    intro cons row
    have hcols := consCols_eq
    exact if_pos ⟨rfl, by omega, by omega⟩
  by_cases hscroll : s.consRow + 1 ≥ consRows
  · rw [if_pos hscroll] at hgrid
    have hcons : (consNewline s).cons = clearRow (scrollUp s.cons) (consRows - 1) :=
      congrArg Grid.cons hgrid
    have hrow : (consNewline s).consRow = consRows - 1 := congrArg Grid.consRow hgrid
    rw [hcons, hrow]
    exact hcell _ _
  · rw [if_neg hscroll] at hgrid
    have hcons : (consNewline s).cons = clearRow s.cons (s.consRow + 1) :=
      congrArg Grid.cons hgrid
    have hrow : (consNewline s).consRow = s.consRow + 1 := congrArg Grid.consRow hgrid
    rw [hcons, hrow]
    exact hcell _ _

/-- A new line checks the current row and starts an empty one. -/
theorem Tracks.newline {s : Console} {l : RowLog} (h : Tracks s l) :
    Tracks (consNewline s) ⟨[], l.checked ++ [l.current]⟩ := by
  obtain ⟨hbounds, hcol⟩ := h.inBounds.newline
  obtain ⟨hstage, hpanic⟩ := consNewline_checks s
  obtain ⟨hmax, hor⟩ := bootCheckStage_eq (s := s)
    ⟨h.stage ▸ maxStage_nonneg l.checked, h.stage ▸ maxStage_le l.checked⟩
    (Panel.rowString s s.consRow)
  refine ⟨hbounds, hcol, fun k hk => consNewline_cleared s hk,
    fun _ hb => absurd hb List.not_mem_nil, ?_, ?_⟩
  · rw [hstage, hmax, h.rowString, h.stage, maxStage_snoc]
  · rw [hpanic, hor, h.rowString, h.panic, List.any_append, List.any_cons, List.any_nil,
      Bool.or_false]

/-- A character extends the current row. -/
theorem Tracks.putChar {s : Console} {l : RowLog} (h : Tracks s l)
    (hroom : l.current.length < 127) {b : Byte} (hb : b ≠ 0) :
    Tracks (putChar s b) ⟨l.current ++ [b], l.checked⟩ := by
  have hcol := h.column
  have hlt : s.consCol < consCols - 1 := by
    rw [consCols_eq]
    omega
  refine ⟨h.inBounds.putChar hlt b, ?_, ?_, ?_, h.stage, h.panic⟩
  · show s.consCol + 1 = ((l.current ++ [b]).length : ℤ)
    rw [hcol, List.length_append, List.length_singleton, Nat.cast_add, Nat.cast_one]
  · intro k hk
    show (if s.consRow = s.consRow ∧ (k : ℤ) = s.consCol then b else s.cons s.consRow k) =
      (l.current ++ [b]).getD k 0
    by_cases hhere : k = l.current.length
    · have hat : s.consRow = s.consRow ∧ (k : ℤ) = s.consCol := ⟨rfl, by rw [hhere, hcol]⟩
      rw [if_pos hat, hhere]
      simp
    · have hnot : ¬ (s.consRow = s.consRow ∧ (k : ℤ) = s.consCol) := by
        rintro ⟨-, hk'⟩
        rw [hcol] at hk'
        exact hhere (Nat.cast_inj.mp hk')
      rw [if_neg hnot, h.cells k hk]
      by_cases hin : k < l.current.length
      · rw [List.getD_append _ _ _ _ hin]
      · rw [List.getD_eq_default _ _ (not_lt.mp hin), List.getD_eq_default]
        rw [List.length_append, List.length_singleton]
        omega
  · intro c hc
    rcases List.mem_append.mp hc with hc | hc
    · exact h.text c hc
    · rw [List.mem_singleton.mp hc]
      exact hb

/-- A newline or a printable character. -/
def PlainByte (b : Byte) : Prop := b = 0x0a ∨ isPrintable b = true

theorem isPrintable_facts {b : Byte} (hb : isPrintable b = true) :
    b ≠ 0x0a ∧ b ≠ 0x0d ∧ b ≠ 0x09 ∧ b ≠ 0 := by
  refine ⟨?_, ?_, ?_, ?_⟩ <;>
    · rintro rfl
      exact absurd hb (by decide)

theorem feedByte_tracks {s : Console} {l : RowLog} (h : Tracks s l) {b : Byte} (hb : PlainByte b) :
    Tracks (feedByte s b) (l.feed b) := by
  have hany : ∀ {s' : Console} {l' : RowLog}, Tracks s' l' →
      Tracks { s' with consAny := true } l' :=
    fun h' => ⟨h'.inBounds, h'.column, h'.cells, h'.text, h'.stage, h'.panic⟩
  unfold feedByte RowLog.feed
  by_cases hnl : b = 0x0a
  · simp only [if_pos hnl]
    exact hany h.newline
  · have hprint := hb.resolve_left hnl
    obtain ⟨-, hcr, htab, hzero⟩ := isPrintable_facts hprint
    have hcol := h.column
    simp only [if_neg hnl, if_neg hcr, if_neg htab, if_pos hprint]
    by_cases hwrap : l.current.length ≥ 127
    · have hfull : s.consCol ≥ consCols - 1 := by
        rw [consCols_eq]
        omega
      simp only [if_pos hfull, if_pos hwrap]
      exact hany (h.newline.putChar (by simp) hzero)
    · have hnot : ¬ s.consCol ≥ consCols - 1 := by
        rw [consCols_eq]
        omega
      simp only [if_neg hnot, if_neg hwrap]
      exact hany (h.putChar (by omega) hzero)

theorem run_tracks : ∀ {bytes : List Byte} {s : Console} {l : RowLog}, Tracks s l →
    (∀ b ∈ bytes, PlainByte b) → Tracks (run feedByte s bytes) (run RowLog.feed l bytes)
  | [], _, _, h, _ => h
  | b :: bytes, s, l, h, hbytes => by
      rw [run_cons, run_cons]
      exact run_tracks (feedByte_tracks h (hbytes b List.mem_cons_self))
        fun c hc => hbytes c (List.mem_cons_of_mem b hc)

/-! ## How a line is cut into rows -/

/-- The rows of a line, the first of which already holds `acc`. -/
def wrapFrom (acc : List Byte) : List Byte → List (List Byte)
  | [] => [acc]
  | c :: cs => if acc.length ≥ 127 then acc :: wrapFrom [c] cs else wrapFrom (acc ++ [c]) cs

/-- The screen rows of a line. -/
def wrapRows (line : List Byte) : List (List Byte) := wrapFrom [] line

theorem run_line : ∀ (line acc : List Byte) (checked : List (List Byte)),
    (∀ b ∈ line, isPrintable b = true) →
      run RowLog.feed ⟨acc, checked⟩ (line ++ [0x0a]) = ⟨[], checked ++ wrapFrom acc line⟩
  | [], acc, checked, _ => rfl
  | c :: cs, acc, checked, hline => by
      have hnl : c ≠ 0x0a := (isPrintable_facts (hline c List.mem_cons_self)).1
      have hrest : ∀ b ∈ cs, isPrintable b = true := fun b hb =>
        hline b (List.mem_cons_of_mem c hb)
      rw [List.cons_append, run_cons, wrapFrom, RowLog.feed, if_neg hnl]
      by_cases hwrap : acc.length ≥ 127
      · rw [if_pos hwrap, if_pos hwrap, run_line cs [c] _ hrest, List.append_assoc,
          List.singleton_append]
      · rw [if_neg hwrap, if_neg hwrap, run_line cs (acc ++ [c]) checked hrest]

/-- The bytes of newline-terminated lines. -/
def linesBytes (lines : List (List Byte)) : List Byte := lines.flatMap fun line => line ++ [0x0a]

theorem run_lines : ∀ (lines checked : List (List Byte)),
    (∀ line ∈ lines, ∀ b ∈ line, isPrintable b = true) →
      run RowLog.feed ⟨[], checked⟩ (linesBytes lines) =
        ⟨[], checked ++ lines.flatMap wrapRows⟩
  | [], checked, _ => by simp [linesBytes]
  | line :: lines, checked, hlines => by
      have hrest : ∀ l ∈ lines, ∀ b ∈ l, isPrintable b = true := fun l hl =>
        hlines l (List.mem_cons_of_mem line hl)
      have hbytes : linesBytes (line :: lines) = (line ++ [0x0a]) ++ linesBytes lines := rfl
      rw [hbytes, run_append, run_line line [] checked (hlines line List.mem_cons_self),
        run_lines lines _ hrest, List.flatMap_cons, List.append_assoc, wrapRows]

/-- Behind a full row the pieces are those of the rest of the line. -/
theorem drop_full_row {acc : List Byte} (hlen : acc.length = 127) (rest : List Byte) (j : ℕ) :
    (acc ++ rest).drop (127 * (j + 1)) = rest.drop (127 * j) := by
  have hsum : 127 * (j + 1) = acc.length + 127 * j := by omega
  rw [hsum, List.drop_append, List.drop_eq_nil_of_le (Nat.le_add_right _ _), List.nil_append,
    Nat.add_sub_cancel_left]

/-- The rows are the pieces of 127 characters. -/
theorem mem_wrapFrom (row : List Byte) : ∀ (line acc : List Byte), acc.length ≤ 127 →
    (row ∈ wrapFrom acc line ↔
      ∃ j, (j = 0 ∨ 127 * j < (acc ++ line).length) ∧
        row = ((acc ++ line).drop (127 * j)).take 127)
  | [], acc, hacc => by
      rw [wrapFrom, List.mem_singleton, List.append_nil]
      constructor
      · rintro rfl
        refine ⟨0, .inl rfl, ?_⟩
        rw [Nat.mul_zero, List.drop_zero, List.take_of_length_le hacc]
      · rintro ⟨j, hj, rfl⟩
        obtain rfl : j = 0 := by omega
        rw [Nat.mul_zero, List.drop_zero, List.take_of_length_le hacc]
  | c :: cs, acc, hacc => by
      rw [wrapFrom]
      by_cases hwrap : acc.length ≥ 127
      · have hlen : acc.length = 127 := by omega
        have hfirst : ((acc ++ c :: cs).drop (127 * 0)).take 127 = acc := by
          rw [Nat.mul_zero, List.drop_zero, List.take_left' hlen]
        have hnext := drop_full_row hlen (c :: cs)
        rw [if_pos hwrap, List.mem_cons, mem_wrapFrom row cs [c] (by simp)]
        constructor
        · rintro (rfl | ⟨j, hj, rfl⟩)
          · exact ⟨0, .inl rfl, hfirst.symm⟩
          · refine ⟨j + 1, .inr ?_, by rw [hnext, List.singleton_append]⟩
            simp only [List.length_append, List.length_cons, List.length_nil] at hj ⊢
            omega
        · rintro ⟨j, hj, rfl⟩
          cases j with
          | zero => exact .inl hfirst
          | succ j =>
            refine .inr ⟨j, ?_, by rw [hnext, List.singleton_append]⟩
            simp only [List.length_append, List.length_cons, List.length_nil] at hj ⊢
            omega
      · have happ : (acc ++ [c]) ++ cs = acc ++ c :: cs := by simp
        rw [if_neg hwrap, mem_wrapFrom row cs (acc ++ [c]) (by simp; omega), happ]

/-- An occurrence that is not cut by the end of a row. -/
def UncutAt (line mark : List Byte) (i : ℕ) : Prop :=
  mark <+: line.drop i ∧ i % 127 + mark.length ≤ 127

theorem infix_iff_drop {α : Type} {mark line : List α} :
    mark <:+: line ↔ ∃ i, mark <+: line.drop i := by
  constructor
  · rintro ⟨before, after, rfl⟩
    refine ⟨before.length, ?_⟩
    rw [List.append_assoc, List.drop_left]
    exact List.prefix_append _ _
  · rintro ⟨i, hi⟩
    exact hi.isInfix.trans (List.drop_suffix i line).isInfix

theorem prefix_take_iff {α : Type} {mark line : List α} {n : ℕ} :
    mark <+: line.take n ↔ mark <+: line ∧ mark.length ≤ n := by
  constructor
  · intro h
    exact ⟨h.trans (List.take_prefix n line), h.length_le.trans (List.length_take_le n line)⟩
  · rintro ⟨h, hlen⟩
    have htake := h.take n
    rwa [List.take_of_length_le hlen] at htake

/-- A row of a line contains a mark exactly when the line has an uncut occurrence of it. -/
theorem wrapRows_infix_iff {mark : List Byte} (hmark : mark ≠ []) (line : List Byte) :
    (∃ row ∈ wrapRows line, mark <:+: row) ↔ ∃ i, UncutAt line mark i := by
  have hpos : 0 < mark.length := List.length_pos_of_ne_nil hmark
  constructor
  · rintro ⟨row, hrow, hinfix⟩
    obtain ⟨j, -, rfl⟩ := (mem_wrapFrom row line [] (by simp)).mp hrow
    obtain ⟨o, ho⟩ := infix_iff_drop.mp hinfix
    rw [List.nil_append, List.drop_take, prefix_take_iff, List.drop_drop] at ho
    refine ⟨127 * j + o, ho.1, ?_⟩
    have hlen := ho.2
    omega
  · rintro ⟨i, hstart, hroom⟩
    have hlen := hstart.length_le
    rw [List.length_drop] at hlen
    have hsplit : 127 * (i / 127) + i % 127 = i := Nat.div_add_mod i 127
    refine ⟨(line.drop (127 * (i / 127))).take 127, ?_, ?_⟩
    · refine (mem_wrapFrom _ line [] (by simp)).mpr ⟨i / 127, ?_, rfl⟩
      rw [List.nil_append]
      omega
    · refine infix_iff_drop.mpr ⟨i % 127, ?_⟩
      rw [List.drop_take, prefix_take_iff, List.drop_drop, hsplit]
      exact ⟨hstart, by omega⟩

theorem marked_iff {ln : List Byte} {marks : List (List Byte)} :
    marked ln marks = true ↔ ∃ mark ∈ marks, mark <:+: ln := by
  simp only [marked, List.any_eq_true, strstr_iff]

/-- Some mark occurs in the line uncut. -/
def MarkedUncut (line : List Byte) (marks : List (List Byte)) : Prop :=
  ∃ mark ∈ marks, ∃ i, UncutAt line mark i

/-- The marks of the console are not empty. -/
theorem marks_ne_nil :
    (∀ mark ∈ panicMarks, mark ≠ []) ∧ ∀ p ∈ stageMarks, ∀ mark ∈ p.2, mark ≠ [] := by
  decide

theorem exists_row_marked_iff {marks : List (List Byte)} (hmarks : ∀ mark ∈ marks, mark ≠ [])
    (lines : List (List Byte)) :
    (∃ row ∈ lines.flatMap wrapRows, marked row marks = true) ↔
      ∃ line ∈ lines, MarkedUncut line marks := by
  simp only [marked_iff, List.mem_flatMap]
  constructor
  · rintro ⟨row, ⟨line, hline, hrow⟩, mark, hmark, hinfix⟩
    exact ⟨line, hline, mark, hmark,
      (wrapRows_infix_iff (hmarks mark hmark) line).mp ⟨row, hrow, hinfix⟩⟩
  · rintro ⟨line, hline, mark, hmark, huncut⟩
    obtain ⟨row, hrow, hinfix⟩ := (wrapRows_infix_iff (hmarks mark hmark) line).mpr huncut
    exact ⟨row, ⟨line, hline, hrow⟩, mark, hmark, hinfix⟩

/-- An uncut mark is a mark. -/
theorem MarkedUncut.marked {line : List Byte} {marks : List (List Byte)}
    (h : MarkedUncut line marks) : marked line marks = true := by
  obtain ⟨mark, hmark, i, hstart, -⟩ := h
  exact marked_iff.mpr ⟨mark, hmark, infix_iff_drop.mpr ⟨i, hstart⟩⟩

/-! ## Every sequence of lines -/

def Printable (lines : List (List Byte)) : Prop := ∀ line ∈ lines, ∀ b ∈ line, isPrintable b = true

instance (lines : List (List Byte)) : Decidable (Printable lines) :=
  inferInstanceAs (Decidable (∀ line ∈ lines, ∀ b ∈ line, isPrintable b = true))

theorem linesBytes_plain {lines : List (List Byte)} (h : Printable lines) :
    ∀ b ∈ linesBytes lines, PlainByte b := by
  intro b hb
  obtain ⟨line, hline, hb⟩ := List.mem_flatMap.mp hb
  rcases List.mem_append.mp hb with hb | hb
  · exact .inr (h line hline b hb)
  · exact .inl (List.mem_singleton.mp hb)

/-- What the console has detected once the lines are printed. -/
theorem run_detects {lines : List (List Byte)} (h : Printable lines) :
    (run feedByte Console.fresh (linesBytes lines)).bootStage =
        maxStage (lines.flatMap wrapRows) ∧
      ((run feedByte Console.fresh (linesBytes lines)).bootPanic = true ↔
        ∃ row ∈ lines.flatMap wrapRows, marked row panicMarks = true) := by
  have htracks := run_tracks tracks_fresh (linesBytes_plain h)
  rw [run_lines lines [] h, List.nil_append] at htracks
  refine ⟨htracks.stage, ?_⟩
  rw [htracks.panic, List.any_eq_true]

theorem feedByte_stage {s : Console} (hs : 0 ≤ s.bootStage ∧ s.bootStage ≤ 5) (b : Byte) :
    s.bootStage ≤ (feedByte s b).bootStage ∧ (feedByte s b).bootStage ≤ 5 := by
  have hnewline : ∀ s' : Console, s'.bootStage = s.bootStage →
      s.bootStage ≤ (consNewline s').bootStage ∧ (consNewline s').bootStage ≤ 5 := by
    intro s' hs'
    rw [(consNewline_checks s').1, (bootCheckStage_eq (hs' ▸ hs) _).1, hs']
    exact ⟨le_max_left _ _, max_le hs.2 (stageOf_bounds _).2⟩
  unfold feedByte
  simp only []
  split_ifs
  · exact hnewline s rfl
  · exact ⟨le_refl _, hs.2⟩
  · exact hnewline _ rfl
  · exact ⟨le_refl _, hs.2⟩
  · exact hnewline s rfl
  · exact ⟨le_refl _, hs.2⟩
  · exact ⟨le_refl _, hs.2⟩

theorem run_stage : ∀ (bytes : List Byte) {s : Console}, 0 ≤ s.bootStage ∧ s.bootStage ≤ 5 →
    s.bootStage ≤ (run feedByte s bytes).bootStage ∧ (run feedByte s bytes).bootStage ≤ 5
  | [], _, hs => ⟨le_refl _, hs.2⟩
  | b :: bytes, _, hs => by
      have hstep := feedByte_stage hs b
      have hrest := run_stage bytes ⟨hs.1.trans hstep.1, hstep.2⟩
      exact ⟨hstep.1.trans hrest.1, hrest.2⟩

/-- Detection as a function of the lines: a panic is noted exactly when some line has a panic mark,
the stage is the greatest of the lines', in whatever order they come, and it never decreases. -/
structure DetectsLines (lines : List (List Byte)) (s : Console) : Prop where
  panic : s.bootPanic = true ↔ ∃ line ∈ lines, marked line panicMarks = true
  stage : s.bootStage = maxStage lines
  anyOrder : ∀ lines' : List (List Byte), lines'.Perm lines →
    (run feedByte Console.fresh (linesBytes lines')).bootStage = s.bootStage
  rises : ∀ bytes bytes', bytes <+: bytes' → bytes' <+: linesBytes lines →
    (run feedByte Console.fresh bytes).bootStage ≤ (run feedByte Console.fresh bytes').bootStage

/-- The wrap column hides nothing that matters: if a line has a panic mark then some line has an
uncut one, and if a line has a mark of a stage then some line has an uncut one of that stage or of a
higher one. -/
structure MarksUncut (lines : List (List Byte)) : Prop where
  panic : (∃ line ∈ lines, marked line panicMarks = true) →
    ∃ line ∈ lines, MarkedUncut line panicMarks
  stage : ∀ p ∈ stageMarks, (∃ line ∈ lines, marked line p.2 = true) →
    ∃ q ∈ stageMarks, p.1 ≤ q.1 ∧ ∃ line ∈ lines, MarkedUncut line q.2

theorem stageMarks_pos : ∀ p ∈ stageMarks, 0 < p.1 := by decide

/-- A stage is reached by the rows exactly when a mark of it or of a higher one occurs uncut. -/
theorem le_maxStage_rows_iff {n : ℤ} (hn : 0 < n) (lines : List (List Byte)) :
    n ≤ maxStage (lines.flatMap wrapRows) ↔
      ∃ q ∈ stageMarks, n ≤ q.1 ∧ ∃ line ∈ lines, MarkedUncut line q.2 := by
  rw [le_maxStage_iff hn]
  simp only [le_stageOf_iff hn]
  constructor
  · rintro ⟨row, hrow, q, hq, hle, hmark⟩
    exact ⟨q, hq, hle, (exists_row_marked_iff (marks_ne_nil.2 q hq) lines).mp ⟨row, hrow, hmark⟩⟩
  · rintro ⟨q, hq, hle, huncut⟩
    obtain ⟨row, hrow, hmark⟩ := (exists_row_marked_iff (marks_ne_nil.2 q hq) lines).mpr huncut
    exact ⟨row, hrow, q, hq, hle, hmark⟩

theorem maxStage_rows_le (lines : List (List Byte)) :
    maxStage (lines.flatMap wrapRows) ≤ maxStage lines := by
  by_cases hpos : 0 < maxStage (lines.flatMap wrapRows)
  · obtain ⟨q, hq, hle, line, hline, huncut⟩ := (le_maxStage_rows_iff hpos lines).mp (le_refl _)
    refine (le_maxStage_iff hpos lines).mpr ⟨line, hline, ?_⟩
    exact (le_stageOf_iff hpos line).mpr ⟨q, hq, hle, huncut.marked⟩
  · exact (not_lt.mp hpos).trans (maxStage_nonneg lines)

theorem maxStage_rows_eq_iff (lines : List (List Byte)) :
    maxStage (lines.flatMap wrapRows) = maxStage lines ↔
      ∀ p ∈ stageMarks, (∃ line ∈ lines, marked line p.2 = true) →
        ∃ q ∈ stageMarks, p.1 ≤ q.1 ∧ ∃ line ∈ lines, MarkedUncut line q.2 := by
  constructor
  · rintro heq p hp ⟨line, hline, hmark⟩
    have hpos := stageMarks_pos p hp
    have hstage : p.1 ≤ stageOf line := (le_stageOf_iff hpos line).mpr ⟨p, hp, le_refl _, hmark⟩
    rw [← le_maxStage_rows_iff hpos, heq]
    exact (le_maxStage_iff hpos lines).mpr ⟨line, hline, hstage⟩
  · intro h
    refine le_antisymm (maxStage_rows_le lines) ?_
    by_cases hpos : 0 < maxStage lines
    · obtain ⟨line, hline, hle⟩ := (le_maxStage_iff hpos lines).mp (le_refl _)
      obtain ⟨p, hp, hle', hmark⟩ := (le_stageOf_iff hpos line).mp hle
      obtain ⟨q, hq, hpq, huncut⟩ := h p hp ⟨line, hline, hmark⟩
      exact (le_maxStage_rows_iff hpos lines).mpr ⟨q, hq, hle'.trans hpq, huncut⟩
    · exact (not_lt.mp hpos).trans (maxStage_nonneg _)

/-- For every sequence of printable lines, in whatever chunks, detection is a function of the lines
exactly when the wrap column cuts no mark that matters. -/
theorem detects_lines_iff (lines : List (List Byte)) (hlines : Printable lines)
    (bufs : List (List Byte)) (hbufs : bufs.flatten = linesBytes lines) :
    DetectsLines lines (bufs.foldl dcpConsoleFeed Console.fresh) ↔ MarksUncut lines := by
  obtain ⟨hstage, hpanic⟩ := run_detects hlines
  rw [feed_flatten, hbufs]
  constructor
  · intro h
    refine ⟨fun hmark => ?_, ?_⟩
    · exact (exists_row_marked_iff marks_ne_nil.1 lines).mp (hpanic.mp (h.panic.mpr hmark))
    · exact (maxStage_rows_eq_iff lines).mp (hstage.symm.trans h.stage)
  · intro h
    refine ⟨?_, hstage.trans ((maxStage_rows_eq_iff lines).mpr h.stage), ?_, ?_⟩
    · rw [hpanic, exists_row_marked_iff marks_ne_nil.1]
      constructor
      · rintro ⟨line, hline, huncut⟩
        exact ⟨line, hline, huncut.marked⟩
      · exact h.panic
    · intro lines' hperm
      have hlines' : Printable lines' := fun line hline => hlines line (hperm.subset hline)
      rw [(run_detects hlines').1, hstage]
      exact maxStage_perm (hperm.flatMap_right wrapRows)
    · rintro bytes _ ⟨rest, rfl⟩ _
      have hfresh : 0 ≤ Console.fresh.bootStage ∧ Console.fresh.bootStage ≤ 5 := by decide
      have hbytes := run_stage bytes hfresh
      rw [run_append]
      exact (run_stage rest ⟨hfresh.1.trans hbytes.1, hbytes.2⟩).1

/-- A kernel banner and a short panic line. -/
theorem detects_short_panic :
    DetectsLines [ascii "Darwin Kernel", ascii "panic(cpu 0)"]
        ([linesBytes [ascii "Darwin Kernel", ascii "panic(cpu 0)"]].foldl dcpConsoleFeed
          Console.fresh) ↔
      MarksUncut [ascii "Darwin Kernel", ascii "panic(cpu 0)"] :=
  detects_lines_iff _ (by decide) _ (by simp)

/-- 125 columns of text and then the panic mark. -/
def cutPanicLine : List Byte := List.replicate 125 0x78 ++ ascii "panic("

/-- The mark straddles the wrap column and the panic is missed. -/
theorem cut_panic_missed :
    ¬ ∀ lines, Printable lines → ∀ bufs : List (List Byte), bufs.flatten = linesBytes lines →
      DetectsLines lines (bufs.foldl dcpConsoleFeed Console.fresh) := by
  intro h
  have hlines : Printable [cutPanicLine] := by
    intro line hline b hb
    rw [List.mem_singleton.mp hline] at hb
    rcases List.mem_append.mp hb with hb | hb
    · rw [(List.mem_replicate.mp hb).2]
      rfl
    · exact List.all_eq_true.mp (by decide : (ascii "panic(").all isPrintable = true) b hb
  have hdetects := h [cutPanicLine] hlines [linesBytes [cutPanicLine]] (by simp)
  rw [feed_flatten, List.flatten_singleton] at hdetects
  have hmark : ∃ line ∈ [cutPanicLine], marked line panicMarks = true :=
    ⟨cutPanicLine, List.mem_singleton_self _,
      marked_iff.mpr ⟨ascii "panic(", by decide, (List.suffix_append _ _).isInfix⟩⟩
  obtain ⟨row, hrow, hrowMark⟩ := (run_detects hlines).2.mp (hdetects.panic.mpr hmark)
  have hnone : ([cutPanicLine].flatMap wrapRows).all
      (fun row => !marked row panicMarks) = true := by decide +kernel
  have hclean := List.all_eq_true.mp hnone row hrow
  rw [hrowMark] at hclean
  exact absurd hclean (by decide)

end SecureWorld.Panel
