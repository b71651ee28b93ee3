import SecureWorld.Panel.Console
import Mathlib.Algebra.Order.Ring.Nat

/-! # Text the searches and the painter do not see

Both stop at the first NUL of a row. A tab moves the cursor and writes nothing, so a character
stored after it can stand behind a cell that is still NUL.
-/
namespace SecureWorld.Panel
open Foundations
set_option autoImplicit false

/-! ## Rows without a gap -/

/-- The characters of a row, wherever they stand. -/
def storedText (s : Console) (row : ℤ) : List Byte :=
  ((List.range 128).map fun k : ℕ => s.cons row k).filter fun c => decide (c ≠ 0)

/-- Left of a written cell every cell of the row is written. -/
def NoGap (cons : ℤ → ℤ → Byte) (row : ℤ) : Prop :=
  ∀ c c' : ℤ, 0 ≤ c → c ≤ c' → c' < consCols → cons row c' ≠ 0 → cons row c ≠ 0

/-- In every row the written cells are a prefix, and both readers see all of the row. -/
structure NoHiddenText (s : Console) : Prop where
  noGap : ∀ r, 0 ≤ r → r < consRows → NoGap s.cons r
  searched : ∀ r, 0 ≤ r → r < consRows → rowString s r = storedText s r
  painted : ∀ r, 0 ≤ r → r < consRows → paintedRow s r = storedText s r

theorem takeWhile_eq_filter {α : Type} (p : α → Bool) : ∀ l : List α,
    l.Pairwise (fun x y => p y = true → p x = true) → l.takeWhile p = l.filter p
  | [], _ => rfl
  | x :: l, h => by
      obtain ⟨hx, hl⟩ := List.pairwise_cons.mp h
      by_cases hpx : p x = true
      · rw [List.takeWhile_cons_of_pos hpx, List.filter_cons_of_pos hpx, takeWhile_eq_filter p l hl]
      · rw [List.takeWhile_cons_of_neg hpx, List.filter_cons_of_neg hpx, eq_comm,
          List.filter_eq_nil_iff]
        intro y hy hpy
        exact hpx (hx y hy hpy)

theorem NoGap.painted {s : Console} {row : ℤ} (h : NoGap s.cons row) :
    paintedRow s row = storedText s row := by
  apply takeWhile_eq_filter
  rw [List.pairwise_map]
  apply List.Pairwise.imp_of_mem _ List.pairwise_lt_range
  intro c c' _ hc' hlt hwritten
  have hcols := consCols_eq
  have hlt' := List.mem_range.mp hc'
  rw [decide_eq_true_iff] at hwritten ⊢
  exact h c c' (by omega) (by omega) (by omega) hwritten

theorem NoGap.clearRow {cons : ℤ → ℤ → Byte} {r : ℤ} (h : NoGap cons r) (row : ℤ) :
    NoGap (clearRow cons row) r := by
  intro c c' hc hle hlt hwritten
  unfold Panel.clearRow at hwritten ⊢
  split_ifs at hwritten with hcleared
  · exact absurd rfl hwritten
  · rw [if_neg (by omega)]
    exact h c c' hc hle hlt hwritten

theorem NoGap.scrollUp {cons : ℤ → ℤ → Byte} (h : ∀ r, 0 ≤ r → r < consRows → NoGap cons r)
    {r : ℤ} (h0 : 0 ≤ r) (hr : r < consRows) : NoGap (scrollUp cons) r := by
  intro c c' hc hle hlt hwritten
  unfold Panel.scrollUp at hwritten ⊢
  split_ifs at hwritten with hmoved
  · rw [if_pos (by omega)]
    exact h (r + 1) (by omega) (by omega) c c' hc hle hlt hwritten
  · rw [if_neg (by omega)]
    exact h r h0 hr c c' hc hle hlt hwritten

/-! ## A pen that knows only columns -/

/-- The column of the cursor, and how many columns from the left the row is written. -/
structure Pen where
  col : ℤ
  extent : ℤ

def Pen.home : Pen := ⟨0, 0⟩

def Pen.put (p : Pen) : Pen := ⟨p.col + 1, max p.extent (p.col + 1)⟩

/-- Where the pen is before it writes: at the start of a new row if the old one is full. -/
def Pen.wrap (p : Pen) : Pen := if p.col ≥ consCols - 1 then Pen.home else p

def Pen.feed (p : Pen) (b : Byte) : Pen :=
  if b = 0x0a then Pen.home
  else if b = 0x0d then { p with col := 0 }
  else if b = 0x09 then Pen.wrap { p with col := clearLowBits (p.col + 8) }
  else if isPrintable b then p.wrap.put
  else p

/-- A printable character is put down at the end of the row's text or inside it. -/
def Pen.Joins (p : Pen) (b : Byte) : Prop :=
  isPrintable b = true → p.col < consCols - 1 → p.col ≤ p.extent

/-! ## The console follows the pen -/

structure Follows (s : Console) (p : Pen) : Prop where
  bounds : InBounds s.grid
  noGap : ∀ r, 0 ≤ r → r < consRows → NoGap s.cons r
  col : s.consCol = p.col
  extent_nonneg : 0 ≤ p.extent
  written : ∀ c, 0 ≤ c → c < consCols → (s.cons s.consRow c ≠ 0 ↔ c < p.extent)

theorem Follows.noHiddenText {s : Console} {p : Pen} (h : Follows s p) : NoHiddenText s where
  noGap := h.noGap
  painted := fun r h0 hr => (h.noGap r h0 hr).painted
  searched := fun r h0 hr =>
    (rowString_eq_painted hr (h.bounds.lastColumn r h0 hr)).trans (h.noGap r h0 hr).painted

theorem follows_home : Follows Console.fresh Pen.home where
  bounds := fresh_inBounds
  noGap := fun _ _ _ _ _ _ _ _ hwritten => absurd rfl hwritten
  col := rfl
  extent_nonneg := le_refl _
  written := fun _ hc _ => ⟨fun h => absurd rfl h, fun h => absurd h (not_lt.mpr hc)⟩

/-- The line feed, and the wrap of a row that is full. -/
theorem newline_follows {s : Console} (hrow : 0 ≤ s.consRow ∧ s.consRow < consRows)
    (hstores : ∀ p ∈ s.stores, (0 ≤ p.1 ∧ p.1 < consRows) ∧ 0 ≤ p.2 ∧ p.2 < consCols)
    (hlast : ∀ r, 0 ≤ r → r < consRows → s.cons r (consCols - 1) = 0)
    (hgap : ∀ r, 0 ≤ r → r < consRows → NoGap s.cons r) :
    Follows (consNewline s) Pen.home := by
  obtain ⟨hbounds, hcol⟩ := consNewline_inBounds hrow hstores hlast
  have hgrid := consNewline_grid s
  have hwritten : ∀ (cons : ℤ → ℤ → Byte) (row c : ℤ), 0 ≤ c → c < consCols →
      (clearRow cons row row c ≠ 0 ↔ c < 0) := by
    intro cons row c hc hlt
    rw [clearRow, if_pos ⟨rfl, hc, hlt⟩]
    exact ⟨fun h => absurd rfl h, fun h => absurd h (not_lt.mpr hc)⟩
  by_cases hscroll : s.consRow + 1 ≥ consRows
  · rw [if_pos hscroll] at hgrid
    have hcons : (consNewline s).cons = clearRow (scrollUp s.cons) (consRows - 1) :=
      congrArg Grid.cons hgrid
    have hrow' : (consNewline s).consRow = consRows - 1 := congrArg Grid.consRow hgrid
    refine ⟨hbounds, ?_, hcol, le_refl _, ?_⟩
    · intro r h0 hr
      rw [hcons]
      exact (NoGap.scrollUp hgap h0 hr).clearRow _
    · rw [hcons, hrow']
      exact hwritten _ _
  · rw [if_neg hscroll] at hgrid
    have hcons : (consNewline s).cons = clearRow s.cons (s.consRow + 1) := congrArg Grid.cons hgrid
    have hrow' : (consNewline s).consRow = s.consRow + 1 := congrArg Grid.consRow hgrid
    refine ⟨hbounds, ?_, hcol, le_refl _, ?_⟩
    · intro r h0 hr
      rw [hcons]
      exact (hgap r h0 hr).clearRow _
    · rw [hcons, hrow']
      exact hwritten _ _

theorem Follows.newline {s : Console} {p : Pen} (h : Follows s p) :
    Follows (consNewline s) Pen.home :=
  newline_follows h.bounds.row h.bounds.stores h.bounds.lastColumn h.noGap

theorem putChar_cons (s : Console) (b : Byte) (r c : ℤ) :
    (putChar s b).cons r c = if r = s.consRow ∧ c = s.consCol then b else s.cons r c := rfl

theorem Follows.putChar {s : Console} {p : Pen} (h : Follows s p) (hlt : p.col < consCols - 1)
    (hjoins : p.col ≤ p.extent) {b : Byte} (hb : b ≠ 0) : Follows (putChar s b) p.put := by
  have hcol := h.col
  have hcol0 : 0 ≤ s.consCol := h.bounds.col.1
  have hcols := consCols_eq
  have hwritten : ∀ c, 0 ≤ c → c < consCols →
      ((Panel.putChar s b).cons s.consRow c ≠ 0 ↔ c < max p.extent (p.col + 1)) := by
    intro c hc hclt
    rw [putChar_cons]
    by_cases hcur : c = s.consCol
    · rw [if_pos ⟨rfl, hcur⟩, hcur, hcol]
      exact ⟨fun _ => lt_max_of_lt_right (lt_add_one _), fun _ => hb⟩
    · rw [if_neg fun hc => hcur hc.2, h.written c hc hclt, lt_max_iff]
      constructor
      · exact Or.inl
      · rintro (hext | hnew)
        · exact hext
        · omega
  refine ⟨h.bounds.putChar (by omega) b, ?_, ?_, ?_, hwritten⟩
  · intro r h0 hr
    by_cases hrow : r = s.consRow
    · subst hrow
      intro c c' hc hle hlt' hstored
      rw [hwritten c' (by omega) hlt'] at hstored
      rw [hwritten c hc (by omega)]
      omega
    · intro c c' hc hle hlt' hstored
      rw [putChar_cons, if_neg fun hc => hrow hc.1] at hstored ⊢
      exact h.noGap r h0 hr c c' hc hle hlt' hstored
  · show s.consCol + 1 = p.col + 1
    rw [hcol]
  · have hnonneg := h.extent_nonneg
    show 0 ≤ max p.extent (p.col + 1)
    omega

theorem Follows.wrap {s : Console} {p : Pen} (h : Follows s p) :
    Follows (if s.consCol ≥ consCols - 1 then consNewline s else s) p.wrap := by
  unfold Pen.wrap
  rw [h.col]
  split_ifs
  · exact h.newline
  · exact h

theorem isPrintable_ne_zero {b : Byte} (hb : isPrintable b = true) : b ≠ 0 := by
  rintro rfl
  exact absurd hb (by decide)

theorem Follows.feedByte {s : Console} {p : Pen} (h : Follows s p) {b : Byte}
    (hjoins : p.Joins b) : Follows (feedByte s b) (p.feed b) := by
  have hcols := consCols_eq
  have hcol := h.col
  unfold Panel.feedByte Pen.feed
  by_cases hnl : b = 0x0a
  · simp only [if_pos hnl]
    obtain ⟨hbounds, hgap, hcol', hext, hwritten⟩ := h.newline
    exact ⟨hbounds, hgap, hcol', hext, hwritten⟩
  by_cases hcr : b = 0x0d
  · simp only [if_neg hnl, if_pos hcr]
    have hzero : (0 : ℤ) ≤ 0 ∧ (0 : ℤ) ≤ consCols - 1 := by omega
    exact ⟨⟨h.bounds.row, hzero, h.bounds.stores, h.bounds.lastColumn⟩, h.noGap, rfl,
      h.extent_nonneg, h.written⟩
  by_cases htab : b = 0x09
  · simp only [if_neg hnl, if_neg hcr, if_pos htab, Pen.wrap, hcol]
    by_cases hwrap : clearLowBits (p.col + 8) ≥ consCols - 1
    · simp only [if_pos hwrap]
      obtain ⟨hbounds, hgap, hcol', hext, hwritten⟩ :=
        newline_follows (s := { s with consCol := clearLowBits (p.col + 8) })
          h.bounds.row h.bounds.stores h.bounds.lastColumn h.noGap
      exact ⟨hbounds, hgap, hcol', hext, hwritten⟩
    · simp only [if_neg hwrap]
      have hcol0 : 0 ≤ s.consCol := h.bounds.col.1
      have hbound : 0 ≤ clearLowBits (p.col + 8) ∧ clearLowBits (p.col + 8) ≤ consCols - 1 := by
        unfold clearLowBits at hwrap ⊢
        omega
      exact ⟨⟨h.bounds.row, hbound, h.bounds.stores, h.bounds.lastColumn⟩, h.noGap, rfl,
        h.extent_nonneg, h.written⟩
  by_cases hprint : isPrintable b = true
  · simp only [if_neg hnl, if_neg hcr, if_neg htab, if_pos hprint]
    have hput : Follows (Panel.putChar (if s.consCol ≥ consCols - 1 then consNewline s else s) b)
        p.wrap.put := by
      apply h.wrap.putChar
      · unfold Pen.wrap
        split_ifs with hfull
        · decide
        · omega
      · unfold Pen.wrap
        split_ifs with hfull
        · exact le_refl _
        · exact hjoins hprint (by omega)
      · exact isPrintable_ne_zero hprint
    obtain ⟨hbounds, hgap, hcol', hext, hwritten⟩ := hput
    exact ⟨hbounds, hgap, hcol', hext, hwritten⟩
  · simp only [if_neg hnl, if_neg hcr, if_neg htab, if_neg hprint]
    exact ⟨h.bounds, h.noGap, h.col, h.extent_nonneg, h.written⟩

/-- A character put down beyond the row's text leaves the cell at its end NUL. -/
theorem Follows.joins {s : Console} {p : Pen} (h : Follows s p) {b : Byte}
    (hafter : NoHiddenText (Panel.feedByte s b)) : p.Joins b := by
  intro hprint hlt
  by_contra hgap
  have hcol := h.col
  have hcols := consCols_eq
  have hnonneg := h.extent_nonneg
  have hnl : b ≠ 0x0a := by rintro rfl; exact absurd hprint (by decide)
  have hcr : b ≠ 0x0d := by rintro rfl; exact absurd hprint (by decide)
  have htab : b ≠ 0x09 := by rintro rfl; exact absurd hprint (by decide)
  have hcell : ∀ c, (Panel.feedByte s b).cons s.consRow c = (Panel.putChar s b).cons s.consRow c := by
    intro c
    unfold Panel.feedByte
    simp only [if_neg hnl, if_neg hcr, if_neg htab, if_pos hprint,
      if_neg (show ¬ s.consCol ≥ consCols - 1 by omega)]
  have hnew : (Panel.feedByte s b).cons s.consRow s.consCol ≠ 0 := by
    rw [hcell, putChar_cons, if_pos ⟨rfl, rfl⟩]
    exact isPrintable_ne_zero hprint
  have hend := hafter.noGap s.consRow h.bounds.row.1 h.bounds.row.2 p.extent s.consCol hnonneg
    (by omega) (by omega) hnew
  rw [hcell, putChar_cons, if_neg (by omega), h.written p.extent hnonneg (by omega)] at hend
  exact lt_irrefl _ hend

/-! ## Every byte stream -/

/-- No text is hidden after any byte of a stream exactly if every printable character of it joins
the text of its row. -/
theorem noHiddenText_iff_joins (bufs : List (List Byte)) :
    Always feedByte NoHiddenText Console.fresh bufs.flatten ↔
      EveryStep Pen.feed Pen.Joins Pen.home bufs.flatten :=
  always_iff_everyStep_of_related feedByte Pen.feed NoHiddenText Follows (fun _ => True) Pen.Joins
    (fun _ _ h => h.noHiddenText) (fun _ _ _ _ h hG => h.feedByte hG)
    (fun _ _ _ _ h hafter => h.joins hafter) _ _ _ (fun _ _ => trivial) follows_home

/-- A panic line that starts with a tab. -/
def tabbedPanic : List Byte := 0x09 :: ascii "panic("

/-- Its text is in the row and neither reader sees it, nor does the check of the finished row. -/
theorem tabbed_panic_hidden :
    ¬ NoHiddenText (dcpConsoleFeed Console.fresh tabbedPanic) ∧
      storedText (dcpConsoleFeed Console.fresh tabbedPanic) 0 = ascii "panic(" ∧
      rowString (dcpConsoleFeed Console.fresh tabbedPanic) 0 = [] ∧
      paintedRow (dcpConsoleFeed Console.fresh tabbedPanic) 0 = [] ∧
      (dcpConsoleFeed Console.fresh (tabbedPanic ++ [0x0a])).bootPanic = false := by
  have hstored : storedText (dcpConsoleFeed Console.fresh tabbedPanic) 0 = ascii "panic(" := by
    decide +kernel
  have hpainted : paintedRow (dcpConsoleFeed Console.fresh tabbedPanic) 0 = [] := by
    decide +kernel
  have hsearched : rowString (dcpConsoleFeed Console.fresh tabbedPanic) 0 = [] := by
    rw [rowString_eq_painted (by decide) (by decide), hpainted]
  refine ⟨fun h => ?_, hstored, hsearched, hpainted, ?_⟩
  · have hsame := h.painted 0 (by decide) (by decide)
    rw [hpainted, hstored] at hsame
    exact absurd hsame (by decide)
  · decide +kernel

end SecureWorld.Panel
