import SecureWorld.Foundations.Run
import Mathlib.Algebra.Order.Ring.Int
import Mathlib.Data.List.Infix
import Mathlib.Data.List.TakeWhile

/-! # The panel console (`scripts/apple_dcp.c`)

Every byte of the guest's UART lands in a grid of character rows, and every finished row is searched
for the markers of the boot stages and of a panic. `stores` is a history variable: the cells that
characters were stored in.
-/
namespace SecureWorld.Panel
open Foundations
set_option autoImplicit false

abbrev Byte := BitVec 8

def consRows : ℤ := 256
def consCols : ℤ := 128

structure Console where
  cons : ℤ → ℤ → Byte
  consRow : ℤ
  consCol : ℤ
  consAny : Bool
  bootStage : ℤ
  bootPanic : Bool
  stores : List (ℤ × ℤ)

/-! ## Strings -/

def ascii (s : String) : List Byte := s.toList.map fun c => BitVec.ofNat 8 c.toNat

def strstr : List Byte → List Byte → Bool
  | [], needle => needle.isEmpty
  | c :: cs, needle => needle.isPrefixOf (c :: cs) || strstr cs needle

theorem strstr_iff (needle : List Byte) : ∀ ln : List Byte, strstr ln needle = true ↔ needle <:+: ln
  | [] => by
      rw [strstr, List.isEmpty_iff, List.infix_nil]
  | c :: cs => by
      rw [strstr, Bool.or_eq_true, List.isPrefixOf_iff_prefix, strstr_iff needle cs,
        List.infix_cons_iff]

/-- The row as a C string: cell after cell to the first NUL, over the end of the row and into the
next ones if there is none in it. -/
def rowString (s : Console) (row : ℤ) : List Byte :=
  ((List.range ((consRows - row) * consCols).toNat).map fun k : ℕ =>
    s.cons (row + (k / 128 : ℕ)) (k % 128 : ℕ)).takeWhile fun c => decide (c ≠ 0)

/-- What the painter draws of a row. -/
def paintedRow (s : Console) (row : ℤ) : List Byte :=
  ((List.range 128).map fun k : ℕ => s.cons row k).takeWhile fun c => decide (c ≠ 0)

/-! ## Markers -/

def panicMarks : List (List Byte) := [ascii "panic(", ascii "Panicked"]
def upMarks : List (List Byte) := [ascii "hello from launchd", ascii "ignition sequence complete"]
def servicesMarks : List (List Byte) := [ascii "launchd", ascii "ignition", ascii "BSD root"]
def driversMarks : List (List Byte) := [ascii "RTBuddy", ascii "AppleARM", ascii "IOService"]
def filesystemMarks : List (List Byte) :=
  [ascii "apfs", ascii "mountroot", ascii "rootfs", ascii "md0"]
def kernelMarks : List (List Byte) := [ascii "virtBase", ascii "Darwin", ascii "xnu", ascii "SPTM"]

def marked (ln : List Byte) (marks : List (List Byte)) : Bool := marks.any fun mark => strstr ln mark

def raiseStage (s : Console) (stage : ℤ) : Console :=
  if s.bootStage < stage then { s with bootStage := stage } else s

def bootCheckStage (s : Console) (ln : List Byte) : Console :=
  let s := if marked ln panicMarks then { s with bootPanic := true } else s
  if marked ln upMarks then { s with bootStage := 5 }
  else if marked ln servicesMarks then raiseStage s 4
  else if marked ln driversMarks then raiseStage s 3
  else if marked ln filesystemMarks then raiseStage s 2
  else if marked ln kernelMarks then raiseStage s 1
  else s

/-! ## The grid -/

/-- `memmove(cons[0], cons[1], (CONS_ROWS - 1) * CONS_COLS)` -/
def scrollUp (cons : ℤ → ℤ → Byte) (r c : ℤ) : Byte :=
  if 0 ≤ r ∧ r < consRows - 1 ∧ 0 ≤ c ∧ c < consCols then cons (r + 1) c else cons r c

/-- `memset(cons[row], 0, CONS_COLS)` -/
def clearRow (cons : ℤ → ℤ → Byte) (row r c : ℤ) : Byte :=
  if r = row ∧ 0 ≤ c ∧ c < consCols then 0 else cons r c

def consNewline (s : Console) : Console :=
  let s := bootCheckStage s (rowString s s.consRow)
  let s := { s with consCol := 0, consRow := s.consRow + 1 }
  let s :=
    if s.consRow ≥ consRows then { s with cons := scrollUp s.cons, consRow := consRows - 1 } else s
  { s with cons := clearRow s.cons s.consRow }

/-- `cons[cons_row][cons_col++] = c` -/
def putChar (s : Console) (b : Byte) : Console :=
  { s with
    cons := fun r c => if r = s.consRow ∧ c = s.consCol then b else s.cons r c
    stores := s.stores ++ [(s.consRow, s.consCol)]
    consCol := s.consCol + 1 }

/-- `x & ~7` -/
def clearLowBits (x : ℤ) : ℤ := x - x % 8

def isPrintable (b : Byte) : Bool := decide (0x20 ≤ b.toNat) && decide (b.toNat < 0x7f)

def feedByte (s : Console) (b : Byte) : Console :=
  let s :=
    if b = 0x0a then consNewline s
    else if b = 0x0d then { s with consCol := 0 }
    else if b = 0x09 then
      let s := { s with consCol := clearLowBits (s.consCol + 8) }
      if s.consCol ≥ consCols - 1 then consNewline s else s
    else if isPrintable b then
      putChar (if s.consCol ≥ consCols - 1 then consNewline s else s) b
    else s
  { s with consAny := true }

def dcpConsoleFeed (s : Console) (buf : List Byte) : Console := buf.foldl feedByte s

/-- The zero-initialised statics. -/
def Console.fresh : Console where
  cons := fun _ _ => 0
  consRow := 0
  consCol := 0
  consAny := false
  bootStage := 0
  bootPanic := false
  stores := []

/-- Where the chunks are cut does not matter. -/
theorem feed_flatten (s : Console) (bufs : List (List Byte)) :
    bufs.foldl dcpConsoleFeed s = run feedByte s bufs.flatten := by
  induction bufs generalizing s with
  | nil => rfl
  | cons buf bufs ih => rw [List.foldl_cons, ih, List.flatten_cons, run_append]; rfl

/-! ## Checking a row touches the stage and the panic flag only -/

/-- The part of the console that has to do with the grid. -/
structure Grid where
  cons : ℤ → ℤ → Byte
  consRow : ℤ
  consCol : ℤ
  stores : List (ℤ × ℤ)

def Console.grid (s : Console) : Grid := ⟨s.cons, s.consRow, s.consCol, s.stores⟩

@[simp] theorem raiseStage_grid (s : Console) (stage : ℤ) : (raiseStage s stage).grid = s.grid := by
  unfold raiseStage
  split_ifs <;> rfl

@[simp] theorem bootCheckStage_grid (s : Console) (ln : List Byte) :
    (bootCheckStage s ln).grid = s.grid := by
  unfold bootCheckStage
  simp only []
  split_ifs <;> first | rfl | exact raiseStage_grid _ _

/-- A new line moves to a cleared row: the next one, or the last after a scroll. -/
theorem consNewline_grid (s : Console) :
    (consNewline s).grid =
      if s.consRow + 1 ≥ consRows then
        ⟨clearRow (scrollUp s.cons) (consRows - 1), consRows - 1, 0, s.stores⟩
      else ⟨clearRow s.cons (s.consRow + 1), s.consRow + 1, 0, s.stores⟩ := by
  have hchecked := bootCheckStage_grid s (rowString s s.consRow)
  have hcons : (bootCheckStage s (rowString s s.consRow)).cons = s.cons :=
    congrArg Grid.cons hchecked
  have hrow : (bootCheckStage s (rowString s s.consRow)).consRow = s.consRow :=
    congrArg Grid.consRow hchecked
  have hstores : (bootCheckStage s (rowString s s.consRow)).stores = s.stores :=
    congrArg Grid.stores hchecked
  unfold consNewline
  simp only [hrow]
  split_ifs
  · simp only [Console.grid, hcons, hstores]
  · simp only [Console.grid, hcons, hstores]

/-! ## Bounds -/

structure InBounds (g : Grid) : Prop where
  row : 0 ≤ g.consRow ∧ g.consRow < consRows
  col : 0 ≤ g.consCol ∧ g.consCol ≤ consCols - 1
  stores : ∀ p ∈ g.stores, (0 ≤ p.1 ∧ p.1 < consRows) ∧ 0 ≤ p.2 ∧ p.2 < consCols
  lastColumn : ∀ r, 0 ≤ r → r < consRows → g.cons r (consCols - 1) = 0

theorem consRows_eq : consRows = 256 := rfl
theorem consCols_eq : consCols = 128 := rfl

theorem clearRow_lastColumn {cons : ℤ → ℤ → Byte} {r : ℤ}
    (h : cons r (consCols - 1) = 0) (row : ℤ) : clearRow cons row r (consCols - 1) = 0 := by
  unfold clearRow
  split_ifs
  · rfl
  · exact h

theorem scrollUp_lastColumn {cons : ℤ → ℤ → Byte}
    (h : ∀ r, 0 ≤ r → r < consRows → cons r (consCols - 1) = 0) {r : ℤ} (h0 : 0 ≤ r)
    (hr : r < consRows) : scrollUp cons r (consCols - 1) = 0 := by
  unfold scrollUp
  split_ifs with hmoved
  · exact h (r + 1) (by omega) (by omega)
  · exact h r h0 hr

/-- Whatever the column was, a new line is in bounds at column 0. -/
theorem consNewline_inBounds {s : Console} (hrow : 0 ≤ s.consRow ∧ s.consRow < consRows)
    (hstores : ∀ p ∈ s.stores, (0 ≤ p.1 ∧ p.1 < consRows) ∧ 0 ≤ p.2 ∧ p.2 < consCols)
    (hlast : ∀ r, 0 ≤ r → r < consRows → s.cons r (consCols - 1) = 0) :
    InBounds (consNewline s).grid ∧ (consNewline s).consCol = 0 := by
  have hgrid := consNewline_grid s
  have hrows := consRows_eq
  have hcols := consCols_eq
  have hcol : (0 : ℤ) ≤ 0 ∧ (0 : ℤ) ≤ consCols - 1 := by omega
  by_cases hscroll : s.consRow + 1 ≥ consRows
  · rw [if_pos hscroll] at hgrid
    have hrow' : 0 ≤ consRows - 1 ∧ consRows - 1 < consRows := by omega
    refine ⟨?_, congrArg Grid.consCol hgrid⟩
    rw [hgrid]
    exact ⟨hrow', hcol, hstores,
      fun r h0 hr => clearRow_lastColumn (scrollUp_lastColumn hlast h0 hr) _⟩
  · rw [if_neg hscroll] at hgrid
    have hrow' : 0 ≤ s.consRow + 1 ∧ s.consRow + 1 < consRows := by omega
    refine ⟨?_, congrArg Grid.consCol hgrid⟩
    rw [hgrid]
    exact ⟨hrow', hcol, hstores, fun r h0 hr => clearRow_lastColumn (hlast r h0 hr) _⟩

theorem InBounds.newline {s : Console} (h : InBounds s.grid) :
    InBounds (consNewline s).grid ∧ (consNewline s).consCol = 0 :=
  consNewline_inBounds h.row h.stores h.lastColumn

/-- A character is stored left of the last column. -/
theorem InBounds.putChar {s : Console} (h : InBounds s.grid) (hcol : s.consCol < consCols - 1)
    (b : Byte) : InBounds (putChar s b).grid := by
  obtain ⟨hrow, hcol0, hstores, hlast⟩ := h
  have hcols := consCols_eq
  refine ⟨hrow, ?_, ?_, ?_⟩
  · show 0 ≤ s.consCol + 1 ∧ s.consCol + 1 ≤ consCols - 1
    have hnonneg : 0 ≤ s.consCol := hcol0.1
    omega
  · intro p hp
    rcases List.mem_append.mp hp with hp | hp
    · exact hstores p hp
    · rw [List.mem_singleton.mp hp]
      have hnonneg : 0 ≤ s.consCol := hcol0.1
      exact ⟨hrow, hnonneg, by omega⟩
  · intro r h0 hr
    show (if r = s.consRow ∧ consCols - 1 = s.consCol then b else s.cons r (consCols - 1)) = 0
    have hne : ¬ (r = s.consRow ∧ consCols - 1 = s.consCol) := fun hc => by omega
    rw [if_neg hne]
    exact hlast r h0 hr

theorem feedByte_inBounds (s : Console) (b : Byte) (h : InBounds s.grid) :
    InBounds (feedByte s b).grid := by
  have hcols := consCols_eq
  have hcol : 0 ≤ s.consCol ∧ s.consCol ≤ consCols - 1 := h.col
  unfold feedByte
  by_cases hnl : b = 0x0a
  · simp only [if_pos hnl]
    exact h.newline.1
  by_cases hcr : b = 0x0d
  · simp only [if_neg hnl, if_pos hcr]
    exact ⟨h.row, ⟨le_refl 0, by show (0 : ℤ) ≤ consCols - 1; omega⟩, h.stores, h.lastColumn⟩
  by_cases htab : b = 0x09
  · simp only [if_neg hnl, if_neg hcr, if_pos htab]
    by_cases hwrap : clearLowBits (s.consCol + 8) ≥ consCols - 1
    · -- the tab jumped to column 128 at most and starts a new line
      simp only [if_pos hwrap]
      exact (consNewline_inBounds (s := { s with consCol := clearLowBits (s.consCol + 8) })
        h.row h.stores h.lastColumn).1
    · simp only [if_neg hwrap]
      have hnonneg : 0 ≤ clearLowBits (s.consCol + 8) := by
        unfold clearLowBits
        omega
      exact ⟨h.row, ⟨hnonneg, by show clearLowBits (s.consCol + 8) ≤ consCols - 1; omega⟩,
        h.stores, h.lastColumn⟩
  by_cases hprint : isPrintable b = true
  · simp only [if_neg hnl, if_neg hcr, if_neg htab, if_pos hprint]
    by_cases hwrap : s.consCol ≥ consCols - 1
    · simp only [if_pos hwrap]
      obtain ⟨hnew, hzero⟩ := h.newline
      exact hnew.putChar (by omega) b
    · simp only [if_neg hwrap]
      exact h.putChar (by omega) b
  · simp only [if_neg hnl, if_neg hcr, if_neg htab, if_neg hprint]
    exact h

theorem fresh_inBounds : InBounds Console.fresh.grid where
  row := by decide
  col := by decide
  stores := fun p hp => absurd hp List.not_mem_nil
  lastColumn := fun _ _ _ => rfl

/-! ## Reading a row -/

theorem paintedRow_length {s : Console} {row : ℤ} (hlast : s.cons row (consCols - 1) = 0) :
    (paintedRow s row).length < 128 := by
  have hle : (paintedRow s row).length ≤ 128 := by
    have hsub := (List.takeWhile_prefix (l := (List.range 128).map fun k : ℕ => s.cons row k)
      fun c => decide (c ≠ 0)).length_le
    simpa [paintedRow] using hsub
  refine lt_of_le_of_ne hle fun hfull => ?_
  -- a full row would contain the last column
  have hall : paintedRow s row = (List.range 128).map fun k : ℕ => s.cons row k :=
    (List.takeWhile_prefix _).eq_of_length (by rw [← paintedRow, hfull]; simp)
  have hmem : (0 : Byte) ∈ paintedRow s row := by
    rw [hall, List.mem_map]
    exact ⟨127, List.mem_range.mpr (by omega), hlast⟩
  have hne := List.mem_takeWhile_imp hmem
  simp at hne

/-- A string search that starts in a row ends in it, where the painter stops too. -/
theorem rowString_eq_painted {s : Console} {row : ℤ} (hr : row < consRows)
    (hlast : s.cons row (consCols - 1) = 0) : rowString s row = paintedRow s row := by
  obtain ⟨m, hm⟩ : ∃ m : ℕ, ((consRows - row) * consCols).toNat = 128 + m := by
    rw [consRows_eq] at hr
    rw [consRows_eq, consCols_eq]
    exact ⟨((256 - row) * 128).toNat - 128, by omega⟩
  have hfirst : ((List.range 128).map fun k : ℕ => s.cons (row + (k / 128 : ℕ)) (k % 128 : ℕ)) =
      (List.range 128).map fun k : ℕ => s.cons row k := by
    refine List.map_congr_left fun k hk => ?_
    have hk' := List.mem_range.mp hk
    rw [Nat.div_eq_of_lt hk', Nat.mod_eq_of_lt hk', Nat.cast_zero, add_zero]
  have hlen := paintedRow_length hlast
  rw [rowString, hm, List.range_add, List.map_append, hfirst, List.takeWhile_append, if_neg]
  · rfl
  · rw [List.length_map, List.length_range]
    exact fun h => absurd (h ▸ hlen) (lt_irrefl _)

/-! ## Every byte stream -/

/-- The indices, the stores and the last column are in bounds, and neither a string search nor the
painter leaves its row. -/
structure StaysInBounds (s : Console) : Prop where
  grid : InBounds s.grid
  reads : ∀ r, 0 ≤ r → r < consRows →
    rowString s r = paintedRow s r ∧ (paintedRow s r).length < 128

/-- At every byte of every stream, however it is cut into chunks, the console stays in bounds. -/
theorem console_stays_in_bounds (bufs : List (List Byte)) :
    Always feedByte StaysInBounds Console.fresh bufs.flatten ∧
      StaysInBounds (bufs.foldl dcpConsoleFeed Console.fresh) := by
  have hbounds : Always feedByte (fun s => InBounds s.grid) Console.fresh bufs.flatten :=
    always_of_preserves feedByte (fun s => InBounds s.grid) (fun _ => True)
      (fun s b _ h => feedByte_inBounds s b h) (fun _ _ => trivial) fresh_inBounds
  have halways : Always feedByte StaysInBounds Console.fresh bufs.flatten := by
    intro pre hpre
    have h := hbounds pre hpre
    refine ⟨h, fun r h0 hr => ?_⟩
    have hlast := h.lastColumn r h0 hr
    exact ⟨rowString_eq_painted hr hlast, paintedRow_length hlast⟩
  refine ⟨halways, ?_⟩
  rw [feed_flatten]
  exact halways.last

end SecureWorld.Panel
