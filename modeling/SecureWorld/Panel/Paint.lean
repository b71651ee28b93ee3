import SecureWorld.Panel.Console
import SecureWorld.Foundations.LastWrite
import Mathlib.Data.Int.Range

/-! # The frame the panel paints (`dcp_paint` of `scripts/apple_dcp.c`)

The drawing functions store colours into a buffer of `W * H` words and read it back only in the
vignette, so a drawing function is modelled by the stores it makes, in order. C's `int` is `ℤ`, as
long as `W * H` and `W * 5` fit one; what comes out of floating point is a parameter.
-/
namespace SecureWorld.Panel
open Foundations
set_option autoImplicit false

abbrev Colour := BitVec 32

/-- `fb[index] = value`, one after the other. -/
abbrev Stores := List (ℤ × Colour)

/-- The word that the stores leave at an index; the buffer comes zeroed from `g_malloc0`. -/
def pixel (drawn : Stores) (index : ℤ) : Colour :=
  (lastWrite (fun st : ℤ × Colour => if st.1 = index then some st.2 else none) drawn).getD 0

/-! ## Glyphs, strings and rectangles -/

section Drawing
variable (vgafont16 : ℕ → Byte) (W H : ℤ)

def putglyph (px py : ℤ) (c : Byte) (col : Colour) : Stores :=
  (List.range 16).flatMap fun r : ℕ =>
    let y := py + r
    if y < 0 ∨ y ≥ H then []
    else
      let bits := vgafont16 (c.toNat * 16 + r)
      (List.range 8).flatMap fun b : ℕ =>
        if bits &&& (0x80#8 >>> b) ≠ 0 then
          let x := px + b
          if x ≥ 0 ∧ x < W then [(y * W + x, col)] else []
        else []

def putsFb (px py : ℤ) : List Byte → Colour → Stores
  | [], _ => []
  | c :: str, col => putglyph vgafont16 W H px py c col ++ putsFb (px + 8) py str col

def fillRect (x0 y0 w h : ℤ) (c : Colour) : Stores :=
  (Int.range y0 (y0 + h)).flatMap fun y =>
    if y < 0 ∨ y ≥ H then []
    else (Int.range x0 (x0 + w)).flatMap fun x =>
      if x ≥ 0 ∧ x < W then [(y * W + x, c)] else []

/-! ## The layers of a frame -/

/-- What floating point computes for one frame. -/
structure FloatResults where
  cy : ℤ
  top : ℤ
  filledTo : ℤ
  percent : ℤ
  ringX : ℤ → ℤ → ℤ
  ringY : ℤ → ℤ → ℤ

def stageName (stage : ℤ) : List Byte :=
  match stage.toNat with
  | 0 => ascii "Booting secure world"
  | 1 => ascii "Starting XNU kernel"
  | 2 => ascii "Mounting filesystem"
  | 3 => ascii "Loading drivers"
  | 4 => ascii "Starting services"
  | _ => ascii "iOS is up"

def ground : Stores :=
  (Int.range 0 H).flatMap fun y =>
    let v := 3 + (5 * (H - y)) / H
    let bg := BitVec.ofInt 32 (v / 2) <<< 16 ||| BitVec.ofInt 32 v <<< 8 ||| BitVec.ofInt 32 (v + 3)
    (Int.range 0 W).map fun x => (y * W + x, bg)

def identity : Stores :=
  putsFb vgafont16 W H (W / 2 - 5 * 8) 70 (ascii "iPhone17,3") 0xdfeee8 ++
    putsFb vgafont16 W H (W / 2 - 8 * 8 + 4) 92 (ascii "iOS 27  *  t8140") 0x5f8e82

def ringColour (panic filled near : Bool) : Colour :=
  if panic then if filled then if near then 0xffe0d0 else 0xef5b5b else 0x3a1414
  else if filled then if near then 0xeafff6 else 0x33e0a8 else 0x14352c

def progressRing (f : FloatResults) (panic : Bool) (t : ℤ) : Stores :=
  (Int.range 0 360).flatMap fun a =>
    let filled := decide (a ≤ f.filledTo)
    let head := (t * 4).tmod 360
    let near := decide ((a - head + 360).tmod 360 < 26)
    let col := ringColour panic filled near
    (Int.range (-7) (7 + 1)).flatMap fun k =>
      let x := W / 2 + f.ringX k a
      let y := f.cy - f.ringY k a
      if x ≥ 0 ∧ x < W ∧ y ≥ 0 ∧ y < H then [(y * W + x, col)] else []

/-- `snprintf` of `"%d%%"` into eight bytes. -/
def percentText (p : ℤ) : List Byte := (ascii (toString p) ++ ascii "%").take 7

def percentage (f : FloatResults) (panic : Bool) : Stores :=
  let pct := percentText f.percent
  putsFb vgafont16 W H (W / 2 - pct.length * 4) (f.cy - 8) (if panic then ascii "!" else pct)
    (if panic then 0xef5b5b else 0xdfeee8)

def stageLabel (f : FloatResults) (s : Console) : Stores :=
  let st := if s.bootPanic then ascii "KERNEL PANIC -- see console"
    else stageName (if s.bootStage < 6 then s.bootStage else 5)
  putsFb vgafont16 W H (W / 2 - st.length * 4) (f.cy + 92 + 26) st
    (if s.bootPanic then 0xef7b6b else 0x9fd8c6)

def consoleHead (f : FloatResults) : Stores :=
  fillRect W H 0 (f.top - 10) W 1 0x123028 ++
    putsFb vgafont16 W H 8 (f.top - 26) (ascii "-- kernel console --") 0x3f6b5e

def visibleRows (f : FloatResults) : ℤ := (H - f.top - 30).tdiv 16

def startRow (f : FloatResults) (s : Console) : ℤ :=
  let start := s.consRow - visibleRows H f + 1
  if start < 0 then 0 else start

def rowColour (age : ℤ) : Colour :=
  if age < 2 then 0xbdf5e2 else if age < 8 then 0x46c99e else 0x2c7d64

def consoleRow (f : FloatResults) (s : Console) (i : ℤ) : Stores :=
  let rr := startRow H f s + i
  if rr < 0 ∨ rr ≥ consRows then []
  else (paintedRow s rr).zipIdx.flatMap fun (ch, c) =>
    putglyph vgafont16 W H (8 + c * 8) (f.top + i * 16) ch (rowColour (s.consRow - rr))

def consoleRowsDrawn (f : FloatResults) (s : Console) : Stores :=
  (Int.range 0 (visibleRows H f)).flatMap (consoleRow vgafont16 W H f s)

def poweringOn (f : FloatResults) (s : Console) : Stores :=
  if s.consAny then []
  else putsFb vgafont16 W H (W / 2 - 13 * 4) (f.cy + 92 + 26) (ascii "powering on panel...") 0x46c99e

def stripColour (x : ℤ) : Colour :=
  let seg := (x * 5) / W
  if seg = 0 then 0xd02828 else if seg = 1 then 0x28d028 else if seg = 2 then 0x2858d0
  else if seg = 3 then 0xd0d0d0 else 0x0a0a0a

def strip : Stores :=
  (Int.range (H - 5) H).flatMap fun y =>
    (Int.range 0 W).map fun x => (y * W + x, stripColour W x)

/-- Everything that is drawn before the vignette. -/
def composed (f : FloatResults) (s : Console) (t : ℤ) : Stores :=
  ground W H ++ identity vgafont16 W H ++ progressRing W H f s.bootPanic t ++
    percentage vgafont16 W H f s.bootPanic ++ stageLabel vgafont16 W H f s ++
    consoleHead vgafont16 W H f ++ consoleRowsDrawn vgafont16 W H f s ++
    poweringOn vgafont16 W H f s ++ strip W H

/-! ## The vignette -/

/-- The distance to the nearest edge. -/
def edge (x y : ℤ) : ℤ :=
  let ex := if x < W - x then x else W - x
  let ey := if y < H - y then y else H - y
  if ex < ey then ex else ey

def darken (p : Colour) (sh : ℤ) : Colour :=
  let r := (p >>> 16 &&& 0xff#32) * BitVec.ofInt 32 (100 - sh) / 100#32
  let g := (p >>> 8 &&& 0xff#32) * BitVec.ofInt 32 (100 - sh) / 100#32
  let b := (p &&& 0xff#32) * BitVec.ofInt 32 (100 - sh) / 100#32
  r <<< 16 ||| g <<< 8 ||| b

def vignetteAt (drawn : Stores) (x y : ℤ) : Stores :=
  let e := edge W H x y
  if e < 40 then drawn ++ [(y * W + x, darken (pixel drawn (y * W + x)) (40 - e))] else drawn

def vignette (drawn : Stores) : Stores :=
  (Int.range 0 H).foldl
    (fun drawn y => (Int.range 0 W).foldl (fun drawn x => vignetteAt W H drawn x y) drawn) drawn

end Drawing

/-- The fields of `AppleDCPState` the painter uses. -/
structure Scanout where
  width : BitVec 32
  height : BitVec 32
  fbBase : BitVec 64
  frame : BitVec 32

/-- One call of `dcp_paint`: the stores into the frame, the words then written to guest memory at
`fbBase`, and the state with the next frame number. -/
structure Painted where
  stores : Stores
  written : List Colour
  next : Scanout

def dcpPaint (vgafont16 : ℕ → Byte) (d : Scanout) (f : FloatResults) (s : Console) : Painted :=
  let W := d.width.toInt
  let H := d.height.toInt
  if W = 0 ∨ H = 0 ∨ d.fbBase = 0 then ⟨[], [], d⟩
  else
    let fb := vignette W H (composed vgafont16 W H f s d.frame.toInt)
    ⟨fb, (Int.range 0 (W * H)).map (pixel fb), { d with frame := d.frame + 1 }⟩

/-! ## Where the stores are -/

variable {vgafont16 : ℕ → Byte} {W H : ℤ}

theorem index_bounds {x y : ℤ} (hx : 0 ≤ x) (hxW : x < W) (hy : 0 ≤ y) (hyH : y < H) :
    0 ≤ y * W + x ∧ y * W + x < W * H := by
  have hlow : 0 ≤ y * W := mul_nonneg hy (by omega)
  have hhigh : (y + 1) * W ≤ H * W := mul_le_mul_of_nonneg_right (by omega) (by omega)
  rw [add_mul, one_mul, mul_comm H] at hhigh
  omega

/-- An index names one pixel. -/
theorem index_inj {x y x' y' : ℤ} (hx : 0 ≤ x) (hxW : x < W) (hx' : 0 ≤ x') (hxW' : x' < W)
    (h : y * W + x = y' * W + x') : x = x' ∧ y = y' := by
  have hmod : (y * W + x) % W = (y' * W + x') % W := congrArg (· % W) h
  rw [Int.mul_add_emod_self_right, Int.mul_add_emod_self_right, Int.emod_eq_of_lt hx hxW,
    Int.emod_eq_of_lt hx' hxW'] at hmod
  obtain rfl := hmod
  exact ⟨rfl, mul_right_cancel₀ (by omega : W ≠ 0) (add_right_cancel h)⟩

/-- The stores at the pixels of the panel that satisfy `p`. -/
def InArea (W H : ℤ) (p : ℤ → ℤ → Prop) (drawn : Stores) : Prop :=
  ∀ st ∈ drawn, ∃ x y, (0 ≤ x ∧ x < W) ∧ (0 ≤ y ∧ y < H) ∧ p x y ∧ st.1 = y * W + x

theorem InArea.append {p : ℤ → ℤ → Prop} {drawn drawn' : Stores} (h : InArea W H p drawn)
    (h' : InArea W H p drawn') : InArea W H p (drawn ++ drawn') := by
  intro st hst
  rcases List.mem_append.mp hst with hst | hst
  · exact h st hst
  · exact h' st hst

theorem InArea.flatMap {α : Type} {p : ℤ → ℤ → Prop} {l : List α} {draw : α → Stores}
    (h : ∀ a ∈ l, InArea W H p (draw a)) : InArea W H p (l.flatMap draw) := by
  intro st hst
  obtain ⟨a, ha, hst⟩ := List.mem_flatMap.mp hst
  exact h a ha st hst

theorem InArea.mono {p q : ℤ → ℤ → Prop} {drawn : Stores} (h : InArea W H p drawn)
    (hpq : ∀ x y, p x y → q x y) : InArea W H q drawn := by
  intro st hst
  obtain ⟨x, y, hx, hy, hp, hindex⟩ := h st hst
  exact ⟨x, y, hx, hy, hpq x y hp, hindex⟩

theorem InArea.nil {p : ℤ → ℤ → Prop} : InArea W H p [] := List.forall_mem_nil _

/-- Every store of the pixel loops of a layer that is not clipped. -/
theorem inArea_row {p : ℤ → ℤ → Prop} {y : ℤ} (hy : 0 ≤ y) (hyH : y < H) (hp : ∀ x, p x y)
    (col : ℤ → Colour) : InArea W H p ((Int.range 0 W).map fun x => (y * W + x, col x)) := by
  intro st hst
  obtain ⟨x, hx, rfl⟩ := List.mem_map.mp hst
  exact ⟨x, y, Int.mem_range_iff.mp hx, ⟨hy, hyH⟩, hp x, rfl⟩

theorem mem_putglyph {px py : ℤ} {c : Byte} {col : Colour} {st : ℤ × Colour} :
    st ∈ putglyph vgafont16 W H px py c col ↔ ∃ r : ℕ, r < 16 ∧ ∃ b : ℕ, b < 8 ∧
      vgafont16 (c.toNat * 16 + r) &&& (0x80#8 >>> b) ≠ 0 ∧ (0 ≤ py + r ∧ py + r < H) ∧
        (0 ≤ px + b ∧ px + b < W) ∧ st = ((py + r) * W + (px + b), col) := by
  rw [putglyph, List.mem_flatMap]
  refine exists_congr fun r => ?_
  rw [List.mem_range]
  refine and_congr_right fun _ => ?_
  dsimp only
  split_ifs with hclip
  · refine iff_of_false List.not_mem_nil ?_
    rintro ⟨b, -, -, hy, -⟩
    omega
  rw [List.mem_flatMap]
  refine exists_congr fun b => ?_
  rw [List.mem_range]
  refine and_congr_right fun _ => ?_
  split_ifs with hbit hx
  · rw [List.mem_singleton]
    exact ⟨fun h => ⟨hbit, by omega, hx, h⟩, fun h => h.2.2.2⟩
  · exact iff_of_false List.not_mem_nil fun h => hx h.2.2.1
  · exact iff_of_false List.not_mem_nil fun h => hbit h.1

theorem putglyph_inArea (px py : ℤ) (c : Byte) (col : Colour) :
    InArea W H (fun _ y => py ≤ y ∧ y < py + 16) (putglyph vgafont16 W H px py c col) := by
  intro st hst
  obtain ⟨r, hr, b, -, -, hy, hx, rfl⟩ := mem_putglyph.mp hst
  exact ⟨px + b, py + r, hx, hy, by omega, rfl⟩

theorem putsFb_inArea (px py : ℤ) (str : List Byte) (col : Colour) :
    InArea W H (fun _ y => py ≤ y ∧ y < py + 16) (putsFb vgafont16 W H px py str col) := by
  induction str generalizing px with
  | nil => exact InArea.nil
  | cons c str ih => exact (putglyph_inArea px py c col).append (ih (px + 8))

theorem fillRect_inArea (x0 y0 w h : ℤ) (c : Colour) :
    InArea W H (fun _ _ => True) (fillRect W H x0 y0 w h c) := by
  refine InArea.flatMap fun y _ => ?_
  split_ifs with hy
  · exact InArea.nil
  refine InArea.flatMap fun x _ st hst => ?_
  split_ifs at hst with hx
  · obtain rfl := List.mem_singleton.mp hst
    exact ⟨x, y, hx, by omega, trivial, rfl⟩
  · exact absurd hst List.not_mem_nil

theorem ground_inArea : InArea W H (fun _ _ => True) (ground W H) := by
  refine InArea.flatMap fun y hy => ?_
  obtain ⟨hy0, hyH⟩ := Int.mem_range_iff.mp hy
  exact inArea_row hy0 hyH (fun _ => trivial) _

theorem progressRing_inArea (f : FloatResults) (panic : Bool) (t : ℤ) :
    InArea W H (fun _ _ => True) (progressRing W H f panic t) := by
  refine InArea.flatMap fun a _ => InArea.flatMap fun k _ st hst => ?_
  dsimp only at hst
  split_ifs at hst with hclip
  · obtain rfl := List.mem_singleton.mp hst
    exact ⟨_, _, ⟨hclip.1, hclip.2.1⟩, hclip.2.2, trivial, rfl⟩
  · exact absurd hst List.not_mem_nil

/-- A console row is drawn in its own sixteen lines. -/
theorem consoleRow_inArea (f : FloatResults) (s : Console) (i : ℤ) :
    InArea W H (fun _ y => f.top + i * 16 ≤ y ∧ y < f.top + i * 16 + 16)
      (consoleRow vgafont16 W H f s i) := by
  rw [consoleRow]
  dsimp only
  split_ifs with hrow
  · exact InArea.nil
  · exact InArea.flatMap fun cell _ => putglyph_inArea _ _ _ _

theorem strip_inArea (hH : 5 ≤ H) : InArea W H (fun _ y => H - 5 ≤ y) (strip W H) := by
  refine InArea.flatMap fun y hy => ?_
  obtain ⟨hy5, hyH⟩ := Int.mem_range_iff.mp hy
  exact inArea_row (by omega) hyH (fun _ => hy5) _

/-- All layers under the strip. -/
def underStrip (vgafont16 : ℕ → Byte) (W H : ℤ) (f : FloatResults) (s : Console) (t : ℤ) : Stores :=
  ground W H ++ identity vgafont16 W H ++ progressRing W H f s.bootPanic t ++
    percentage vgafont16 W H f s.bootPanic ++ stageLabel vgafont16 W H f s ++
    consoleHead vgafont16 W H f ++ consoleRowsDrawn vgafont16 W H f s ++
    poweringOn vgafont16 W H f s

theorem underStrip_inArea (f : FloatResults) (s : Console) (t : ℤ) :
    InArea W H (fun _ _ => True) (underStrip vgafont16 W H f s t) := by
  have hputs (px py : ℤ) (str : List Byte) (col : Colour) :
      InArea W H (fun _ _ => True) (putsFb vgafont16 W H px py str col) :=
    (putsFb_inArea px py str col).mono fun _ _ _ => trivial
  have hrows : InArea W H (fun _ _ => True) (consoleRowsDrawn vgafont16 W H f s) :=
    InArea.flatMap fun i _ => (consoleRow_inArea f s i).mono fun _ _ _ => trivial
  have hpowering : InArea W H (fun _ _ => True) (poweringOn vgafont16 W H f s) := by
    rw [poweringOn]
    split_ifs
    · exact InArea.nil
    · exact hputs _ _ _ _
  have hidentity : InArea W H (fun _ _ => True) (identity vgafont16 W H) :=
    (hputs _ _ _ _).append (hputs _ _ _ _)
  have hhead : InArea W H (fun _ _ => True) (consoleHead vgafont16 W H f) :=
    (fillRect_inArea _ _ _ _ _).append (hputs _ _ _ _)
  exact ((((((ground_inArea.append hidentity).append (progressRing_inArea f _ t)).append
    (hputs _ _ _ _)).append (hputs _ _ _ _)).append hhead).append hrows).append hpowering

/-! ## The vignette as one pass over the pixels -/

/-- The pixels in the order of the loops. -/
def scanline (W H : ℤ) : List (ℤ × ℤ) :=
  (Int.range 0 H).flatMap fun y => (Int.range 0 W).map fun x => (x, y)

theorem mem_scanline {p : ℤ × ℤ} :
    p ∈ scanline W H ↔ (0 ≤ p.1 ∧ p.1 < W) ∧ 0 ≤ p.2 ∧ p.2 < H := by
  simp only [scanline, List.mem_flatMap, List.mem_map, Int.mem_range_iff]
  constructor
  · rintro ⟨y, hy, x, hx, rfl⟩
    exact ⟨hx, hy⟩
  · rintro ⟨hx, hy⟩
    exact ⟨p.2, hy, p.1, hx, rfl⟩

theorem vignette_eq_run (drawn : Stores) :
    vignette W H drawn = run (fun d p => vignetteAt W H d p.1 p.2) drawn (scanline W H) := by
  rw [vignette, run, scanline, List.foldl_flatMap]
  simp only [List.foldl_map]

theorem vignette_inArea {drawn : Stores} (h : InArea W H (fun _ _ => True) drawn) :
    InArea W H (fun _ _ => True) (vignette W H drawn) := by
  rw [vignette_eq_run]
  refine run_preserves _ (InArea W H fun _ _ => True) (· ∈ scanline W H) ?_ _ _ (fun _ hp => hp) h
  intro d p hp hd
  obtain ⟨hx, hy⟩ := mem_scanline.mp hp
  rw [vignetteAt]
  split_ifs
  · refine hd.append fun st hst => ?_
    obtain rfl := List.mem_singleton.mp hst
    exact ⟨p.1, p.2, hx, hy, trivial, rfl⟩
  · exact hd

/-- The vignette only adds stores. -/
theorem mem_vignette_of_mem {drawn : Stores} {st : ℤ × Colour} (h : st ∈ drawn) :
    st ∈ vignette W H drawn := by
  rw [vignette_eq_run]
  refine run_preserves _ (st ∈ ·) (fun _ => True) ?_ _ _ (fun _ _ => trivial) h
  intro d p _ hd
  rw [vignetteAt]
  split_ifs
  · exact List.mem_append_left _ hd
  · exact hd

theorem composed_eq (f : FloatResults) (s : Console) (t : ℤ) :
    composed vgafont16 W H f s t = underStrip vgafont16 W H f s t ++ strip W H := rfl

theorem dcpPaint_eq {d : Scanout} (hW : 0 < d.width.toInt) (hH : 0 < d.height.toInt)
    (hfb : d.fbBase ≠ 0) (vgafont16 : ℕ → Byte) (f : FloatResults) (s : Console) :
    dcpPaint vgafont16 d f s =
      let fb := vignette d.width.toInt d.height.toInt
        (composed vgafont16 d.width.toInt d.height.toInt f s d.frame.toInt)
      ⟨fb, (Int.range 0 (d.width.toInt * d.height.toInt)).map (pixel fb),
        { d with frame := d.frame + 1 }⟩ := by
  refine if_neg ?_
  rintro (h | h | h)
  · omega
  · omega
  · exact hfb h

/-- Whatever the console holds and whatever floating point yields, the painter stays inside the
frame exactly on panels of at least five lines. -/
theorem paint_in_bounds (vgafont16 : ℕ → Byte) (d : Scanout) (f : FloatResults) (s : Console)
    (hW : 0 < d.width.toInt) (hH : 0 < d.height.toInt) (hfb : d.fbBase ≠ 0) :
    (∀ st ∈ (dcpPaint vgafont16 d f s).stores, 0 ≤ st.1 ∧ st.1 < d.width.toInt * d.height.toInt) ↔
      5 ≤ d.height.toInt := by
  rw [dcpPaint_eq hW hH hfb, composed_eq]
  constructor
  · intro h
    by_contra hshort
    -- the first pixel of the strip is above the panel
    have hmem : ((d.height.toInt - 5) * d.width.toInt + 0, stripColour d.width.toInt 0) ∈
        strip d.width.toInt d.height.toInt :=
      List.mem_flatMap.mpr ⟨d.height.toInt - 5, Int.mem_range_iff.mpr (by omega),
        List.mem_map.mpr ⟨0, Int.mem_range_iff.mpr (by omega), rfl⟩⟩
    have hnonneg := (h _ (mem_vignette_of_mem (List.mem_append_right _ hmem))).1
    have hneg : (d.height.toInt - 5) * d.width.toInt < 0 := mul_neg_of_neg_of_pos (by omega) hW
    rw [add_zero] at hnonneg
    omega
  · intro hH5 st hst
    have hdrawn : InArea d.width.toInt d.height.toInt (fun _ _ => True)
        (underStrip vgafont16 d.width.toInt d.height.toInt f s d.frame.toInt ++
          strip d.width.toInt d.height.toInt) :=
      (underStrip_inArea f s _).append ((strip_inArea hH5).mono fun _ _ _ => trivial)
    obtain ⟨x, y, hx, hy, -, hindex⟩ := vignette_inArea hdrawn st hst
    rw [hindex]
    exact index_bounds hx.1 hx.2 hy.1 hy.2

def iphonePanel : Scanout := ⟨1179, 2556, 0x9f0000000, 0⟩

def iphoneFloats : FloatResults := ⟨766, 1329, 21, 6, fun _ _ => 0, fun _ _ => 0⟩

theorem paint_in_bounds_iphone :
    (∀ st ∈ (dcpPaint (fun _ => 0xff) iphonePanel iphoneFloats Console.fresh).stores,
      0 ≤ st.1 ∧ st.1 < iphonePanel.width.toInt * iphonePanel.height.toInt) ↔
        5 ≤ iphonePanel.height.toInt :=
  paint_in_bounds (fun _ => 0xff) iphonePanel iphoneFloats Console.fresh (by decide) (by decide)
    (by decide)

end SecureWorld.Panel
