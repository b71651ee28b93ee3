import SecureWorld.Panel.Paint
import Mathlib.Data.List.Nodup

/-! # What a painted frame shows

The vignette darkens every pixel once. Under it the strip covers the last five lines, whatever the
guest printed, and every character of the newest console rows stands with its whole glyph.
-/
namespace SecureWorld.Panel
open Foundations
set_option autoImplicit false

variable {vgafont16 : ℕ → Byte} {W H : ℤ}

/-! ## The last store to a pixel -/

theorem pixel_append_of_untouched {drawn later : Stores} {index : ℤ}
    (h : ∀ st ∈ later, st.1 ≠ index) : pixel (drawn ++ later) index = pixel drawn index := by
  have hnone : lastWrite (fun st : ℤ × Colour => if st.1 = index then some st.2 else none) later =
      none := lastWrite_eq_none_iff.mpr fun st hst => if_neg (h st hst)
  rw [pixel, lastWrite_append, hnone, Option.none_or, pixel]

theorem pixel_append_of_agree {drawn later : Stores} {index : ℤ} {col : Colour}
    (hdrawn : (index, col) ∈ later) (hagree : ∀ st ∈ later, st.1 = index → st.2 = col) :
    pixel (drawn ++ later) index = col := by
  have hlast : lastWrite (fun st : ℤ × Colour => if st.1 = index then some st.2 else none) later =
      some col := by
    refine lastWrite_eq_some_of_agree hdrawn (if_pos rfl) fun st hst w hw => ?_
    split_ifs at hw with hindex
    rw [← hagree st hst hindex, Option.some.inj hw]
  rw [pixel, lastWrite_append, hlast, Option.some_or, Option.getD_some]

/-- A layer that is drawn elsewhere leaves a pixel alone. -/
theorem InArea.untouched {p : ℤ → ℤ → Prop} {drawn : Stores} (h : InArea W H p drawn) {x y : ℤ}
    (hx : 0 ≤ x ∧ x < W) (hp : ¬ p x y) : ∀ st ∈ drawn, st.1 ≠ y * W + x := by
  intro st hst hindex
  obtain ⟨x', y', hx', -, hp', hindex'⟩ := h st hst
  obtain ⟨rfl, rfl⟩ := index_inj hx.1 hx.2 hx'.1 hx'.2 (hindex.symm.trans hindex')
  exact hp hp'

/-! ## The vignette -/

def vignetted (W H x y : ℤ) (p : Colour) : Colour :=
  if edge W H x y < 40 then darken p (40 - edge W H x y) else p

theorem pixel_vignetteAt (drawn : Stores) (x y index : ℤ) :
    pixel (vignetteAt W H drawn x y) index =
      if index = y * W + x then vignetted W H x y (pixel drawn index) else pixel drawn index := by
  rw [vignetteAt, vignetted]
  split_ifs with hedge hindex hindex
  · rw [hindex]
    exact pixel_append_of_agree (List.mem_singleton_self _) fun st hst _ => by
      rw [List.mem_singleton.mp hst]
  · refine pixel_append_of_untouched fun st hst => ?_
    rw [List.mem_singleton.mp hst]
    exact Ne.symm hindex
  · rfl
  · rfl

theorem nodup_range (m n : ℤ) : (Int.range m n).Nodup := by
  refine List.Nodup.map (fun a b hab => ?_) List.nodup_range
  omega

theorem scanline_nodup : (scanline W H).Nodup := by
  refine List.nodup_flatMap.mpr ⟨fun y _ => ?_, (nodup_range 0 H).imp fun {y y'} hne => ?_⟩
  · exact List.Nodup.map (fun a b hab => congrArg Prod.fst hab) (nodup_range 0 W)
  · intro p hp hp'
    obtain ⟨x, -, rfl⟩ := List.mem_map.mp hp
    obtain ⟨x', -, hpair⟩ := List.mem_map.mp hp'
    exact hne (congrArg Prod.snd hpair).symm

/-- The pass later all pixels darkens each of them once. -/
theorem pixel_vignette (drawn : Stores) {x y : ℤ} (hx : 0 ≤ x ∧ x < W) (hy : 0 ≤ y ∧ y < H) :
    pixel (vignette W H drawn) (y * W + x) = vignetted W H x y (pixel drawn (y * W + x)) := by
  have hnodup : ((scanline W H).map fun p => p.2 * W + p.1).Nodup := by
    refine List.Nodup.map_on (fun p hp q hq hpq => ?_) scanline_nodup
    have hpx := (mem_scanline.mp hp).1
    have hqx := (mem_scanline.mp hq).1
    obtain ⟨h1, h2⟩ := index_inj hpx.1 hpx.2 hqx.1 hqx.2 hpq
    exact Prod.ext h1 h2
  rw [vignette_eq_run]
  exact (run_rewrite_of_nodup pixel (fun p : ℤ × ℤ => p.2 * W + p.1)
    (fun p => vignetted W H p.1 p.2) (fun d p k => pixel_vignetteAt d p.1 p.2 k) hnodup drawn).1
    (x, y) (mem_scanline.mpr ⟨hx, hy⟩)

/-! ## Colour channels -/

/-- Red at 16, green at 8, blue at 0. -/
def channel (p : Colour) (shift : ℕ) : ℕ := (p >>> shift &&& 0xff#32).toNat

theorem getLsbD_of_lt {p : Colour} (h : p.toNat < 256) {i : ℕ} (hi : 8 ≤ i) :
    p.getLsbD i = false :=
  Nat.testBit_lt_two_pow (Nat.lt_of_lt_of_le h (Nat.pow_le_pow_right (by omega : 2 > 0) hi))

theorem getLsbD_byteMask (i : ℕ) : (0xff#32).getLsbD i = decide (i < 8) := by
  by_cases hi : i < 8
  · have hset : ∀ j < 8, (0xff#32).getLsbD j = true := by decide
    rw [decide_eq_true hi, hset i hi]
  · rw [decide_eq_false hi]
    exact getLsbD_of_lt (by decide) (by omega)

theorem channel_lt (p : Colour) (shift : ℕ) : channel p shift < 256 := by
  rw [channel, BitVec.toNat_and]
  exact Nat.lt_of_le_of_lt Nat.and_le_right (by decide)

/-- Three packed bytes come back from their channels. -/
theorem channel_pack {r g b : Colour} (hr : r.toNat < 256) (hg : g.toNat < 256)
    (hb : b.toNat < 256) :
    channel (r <<< 16 ||| g <<< 8 ||| b) 16 = r.toNat ∧
      channel (r <<< 16 ||| g <<< 8 ||| b) 8 = g.toNat ∧
      channel (r <<< 16 ||| g <<< 8 ||| b) 0 = b.toNat := by
  have hbits (shift : ℕ) (c : Colour) (hc : c.toNat < 256)
      (h : ∀ i < 8, (r <<< 16 ||| g <<< 8 ||| b).getLsbD (shift + i) = c.getLsbD i) :
      channel (r <<< 16 ||| g <<< 8 ||| b) shift = c.toNat := by
    refine congrArg BitVec.toNat (BitVec.eq_of_getLsbD_eq fun i _ => ?_)
    rw [BitVec.getLsbD_and, BitVec.getLsbD_ushiftRight, getLsbD_byteMask]
    by_cases hi : i < 8
    · rw [decide_eq_true hi, Bool.and_true, h i hi]
    · rw [decide_eq_false hi, Bool.and_false, getLsbD_of_lt hc (by omega)]
  have hpack (i : ℕ) (hi : i < 32) : (r <<< 16 ||| g <<< 8 ||| b).getLsbD i =
      (!decide (i < 16) && r.getLsbD (i - 16) || !decide (i < 8) && g.getLsbD (i - 8) ||
        b.getLsbD i) := by
    simp only [BitVec.getLsbD_or, BitVec.getLsbD_shiftLeft, hi, decide_true, Bool.true_and]
  refine ⟨hbits 16 r hr fun i hi => ?_, hbits 8 g hg fun i hi => ?_, hbits 0 b hb fun i hi => ?_⟩
  · rw [hpack _ (by omega), getLsbD_of_lt hg (by omega), getLsbD_of_lt hb (by omega)]
    simp
  · rw [hpack _ (by omega), getLsbD_of_lt hb (by omega), decide_eq_true (by omega : 8 + i < 16)]
    simp
  · rw [hpack _ (by omega), decide_eq_true (by omega : 0 + i < 16),
      decide_eq_true (by omega : 0 + i < 8)]
    simp

/-- The shade of a channel: `sh` hundredths are taken away. -/
theorem channel_darken (p : Colour) {sh : ℤ} (h0 : 0 ≤ sh) (h100 : sh ≤ 100) :
    ∀ shift ∈ [16, 8, 0], channel (darken p sh) shift =
      channel p shift * (100 - sh).toNat / 100 := by
  obtain ⟨m, hm⟩ : ∃ m : ℕ, 100 - sh = m := ⟨(100 - sh).toNat, by omega⟩
  have hm100 : m ≤ 100 := by omega
  have hshade (shift : ℕ) :
      ((p >>> shift &&& 0xff#32) * BitVec.ofInt 32 (100 - sh) / 100#32).toNat =
        channel p shift * m / 100 ∧ channel p shift * m / 100 < 256 := by
    have hlt := channel_lt p shift
    have hmul : channel p shift * m ≤ 255 * 100 := Nat.mul_le_mul (by omega) hm100
    refine ⟨?_, by omega⟩
    have hweight : (BitVec.ofNat 32 m).toNat = m := by
      rw [BitVec.toNat_ofNat]
      exact Nat.mod_eq_of_lt (by omega)
    have hchannel : (p >>> shift &&& 0xff#32).toNat = channel p shift := rfl
    rw [hm, BitVec.ofInt_natCast, BitVec.toNat_udiv, BitVec.toNat_mul, hweight, hchannel,
      Nat.mod_eq_of_lt (by omega)]
    rfl
  obtain ⟨hr, hr256⟩ := hshade 16
  obtain ⟨hg, hg256⟩ := hshade 8
  obtain ⟨hb, hb256⟩ := hshade 0
  rw [BitVec.ushiftRight_zero] at hb
  obtain ⟨h16, h8, h0'⟩ := channel_pack (hr.trans_lt hr256) (hg.trans_lt hg256) (hb.trans_lt hb256)
  rw [hm, Int.toNat_natCast]
  simp only [List.forall_mem_cons, List.not_mem_nil, false_implies, implies_true, and_true]
  exact ⟨h16.trans hr, h8.trans hg, h0'.trans hb⟩

/-- How much darker a pixel gets, in hundredths. -/
def shade (W H x y : ℤ) : ℤ := max 0 (40 - edge W H x y)

/-- `v` is `p` darkened once, by how near the pixel is to an edge of the panel. -/
def Darkened (W H x y : ℤ) (p v : Colour) : Prop :=
  (∀ shift ∈ [16, 8, 0], channel v shift = channel p shift * (100 - shade W H x y).toNat / 100) ∧
    (shade W H x y = 0 → v = p)

theorem edge_nonneg {x y : ℤ} (hx : 0 ≤ x ∧ x < W) (hy : 0 ≤ y ∧ y < H) : 0 ≤ edge W H x y := by
  unfold edge
  dsimp only
  split_ifs <;> omega

theorem vignetted_darkened {x y : ℤ} (hx : 0 ≤ x ∧ x < W) (hy : 0 ≤ y ∧ y < H) (p : Colour) :
    Darkened W H x y p (vignetted W H x y p) := by
  have hedge := edge_nonneg hx hy
  unfold Darkened shade vignetted
  split_ifs with hnear
  · rw [max_eq_right (by omega)]
    exact ⟨channel_darken p (by omega) (by omega), fun h => by omega⟩
  · rw [max_eq_left (by omega)]
    exact ⟨fun shift _ => (Nat.mul_div_cancel _ (by decide)).symm, fun _ => rfl⟩

/-! ## The words in guest memory -/

theorem mem_strip {x y : ℤ} (hx : 0 ≤ x ∧ x < W) (hy : H - 5 ≤ y ∧ y < H) :
    (y * W + x, stripColour W x) ∈ strip W H :=
  List.mem_flatMap.mpr ⟨y, Int.mem_range_iff.mpr hy,
    List.mem_map.mpr ⟨x, Int.mem_range_iff.mpr hx, rfl⟩⟩

theorem strip_agree {x y : ℤ} (hx : 0 ≤ x ∧ x < W) :
    ∀ st ∈ strip W H, st.1 = y * W + x → st.2 = stripColour W x := by
  intro st hst hindex
  obtain ⟨y', -, hst⟩ := List.mem_flatMap.mp hst
  obtain ⟨x', hx', rfl⟩ := List.mem_map.mp hst
  obtain ⟨h1, h2⟩ := Int.mem_range_iff.mp hx'
  obtain ⟨rfl, -⟩ := index_inj h1 h2 hx.1 hx.2 hindex
  rfl

/-- The last five lines belong to the strip, the others to what is under it. -/
theorem pixel_composed (hH : 5 ≤ H) (f : FloatResults) (s : Console) (t : ℤ) {x y : ℤ}
    (hx : 0 ≤ x ∧ x < W) (hy : 0 ≤ y ∧ y < H) :
    pixel (composed vgafont16 W H f s t) (y * W + x) =
      if H - 5 ≤ y then stripColour W x
      else pixel (underStrip vgafont16 W H f s t) (y * W + x) := by
  rw [composed_eq]
  split_ifs with hlow
  · exact pixel_append_of_agree (mem_strip hx ⟨hlow, hy.2⟩) (strip_agree hx)
  · exact pixel_append_of_untouched ((strip_inArea hH).untouched hx hlow)

theorem written_getElem? {d : Scanout} (hW : 0 < d.width.toInt) (hH : 0 < d.height.toInt)
    (hfb : d.fbBase ≠ 0) (vgafont16 : ℕ → Byte) (f : FloatResults) (s : Console) {x y : ℤ}
    (hx : 0 ≤ x ∧ x < d.width.toInt) (hy : 0 ≤ y ∧ y < d.height.toInt) :
    (dcpPaint vgafont16 d f s).written[(y * d.width.toInt + x).toNat]? =
      some (vignetted d.width.toInt d.height.toInt x y
        (pixel (composed vgafont16 d.width.toInt d.height.toInt f s d.frame.toInt)
          (y * d.width.toInt + x))) := by
  obtain ⟨hlow, hhigh⟩ := index_bounds hx.1 hx.2 hy.1 hy.2
  rw [dcpPaint_eq hW hH hfb, ← pixel_vignette _ hx hy]
  simp only [Int.range, List.map_map, List.getElem?_map]
  rw [List.getElem?_range (by omega), Option.map_some]
  refine congrArg (fun index => some (pixel _ index)) ?_
  dsimp only
  omega

/-- Every word of the frame in guest memory is what was drawn there, darkened once by its distance
to the edge, and the last five lines show the strip whatever the console and the progress are. -/
theorem paint_frame (vgafont16 : ℕ → Byte) (d : Scanout) (f : FloatResults) (s : Console)
    (hW : 0 < d.width.toInt) (hH : 5 ≤ d.height.toInt) (hfb : d.fbBase ≠ 0) (x y : ℤ)
    (hx : 0 ≤ x ∧ x < d.width.toInt) (hy : 0 ≤ y ∧ y < d.height.toInt) :
    ∃ v, (dcpPaint vgafont16 d f s).written[(y * d.width.toInt + x).toNat]? = some v ∧
      Darkened d.width.toInt d.height.toInt x y
        (if d.height.toInt - 5 ≤ y then stripColour d.width.toInt x
        else pixel (underStrip vgafont16 d.width.toInt d.height.toInt f s d.frame.toInt)
          (y * d.width.toInt + x)) v := by
  refine ⟨_, written_getElem? hW (by omega) hfb vgafont16 f s hx hy, ?_⟩
  rw [pixel_composed hH f s _ hx hy]
  exact vignetted_darkened hx hy _

theorem paint_frame_iphone :
    ∃ v, (dcpPaint (fun _ => 0) iphonePanel iphoneFloats Console.fresh).written[
        (2555 * 1179 + 0 : ℤ).toNat]? = some v ∧ Darkened 1179 2556 0 2555 0xd02828 v :=
  paint_frame (fun _ => 0) iphonePanel iphoneFloats Console.fresh (by decide) (by decide) (by decide)
    0 2555 (by decide) (by decide)

/-! ## The console rows -/

theorem consAny_of_run {bytes : List Byte} (h : bytes ≠ []) (s : Console) :
    (run feedByte s bytes).consAny = true := by
  obtain ⟨pre, last, rfl⟩ := (List.eq_nil_or_concat bytes).resolve_left h
  rw [List.concat_eq_append, run_append]
  rfl

/-- The columns of a row are drawn side by side. -/
theorem consoleRow_agree {f : FloatResults} {s : Console} {i x y : ℤ} (hx : 0 ≤ x ∧ x < W)
    (hrow : y < f.top + i * 16 + 16 ∧ f.top + i * 16 ≤ y) {j : ℤ} :
    ∀ st ∈ consoleRow vgafont16 W H f s j, st.1 = y * W + x →
      st.2 = rowColour (s.consRow - (startRow H f s + i)) := by
  intro st hst hindex
  have hj : j = i := by
    by_contra hne
    refine (consoleRow_inArea f s j).untouched hx ?_ st hst hindex
    omega
  rw [consoleRow, hj] at hst
  dsimp only at hst
  split_ifs at hst
  · exact absurd hst List.not_mem_nil
  · obtain ⟨cell, -, hst⟩ := List.mem_flatMap.mp hst
    obtain ⟨r, -, b, -, -, -, -, rfl⟩ := mem_putglyph.mp hst
    rfl

theorem consoleRow_drawn {f : FloatResults} {s : Console} {i : ℤ}
    (hrow : 0 ≤ startRow H f s + i ∧ startRow H f s + i < consRows) {k r b : ℕ} {ch : Byte}
    (hch : (paintedRow s (startRow H f s + i))[k]? = some ch) (hr : r < 16) (hb : b < 8)
    (hbit : vgafont16 (ch.toNat * 16 + r) &&& (0x80#8 >>> b) ≠ 0)
    (hy : 0 ≤ f.top + i * 16 + r ∧ f.top + i * 16 + r < H)
    (hx : 0 ≤ 8 + (k : ℤ) * 8 + b ∧ 8 + (k : ℤ) * 8 + b < W) :
    ((f.top + i * 16 + r) * W + (8 + k * 8 + b), rowColour (s.consRow - (startRow H f s + i))) ∈
      consoleRow vgafont16 W H f s i := by
  rw [consoleRow]
  dsimp only
  rw [if_neg (by omega), List.mem_flatMap]
  exact ⟨(ch, k), List.mk_mem_zipIdx_iff_getElem?.mpr hch,
    mem_putglyph.mpr ⟨r, hr, b, hb, hbit, hy, hx, rfl⟩⟩

theorem visibleRows_fit {f : FloatResults} (h : 0 < visibleRows H f) :
    visibleRows H f * 16 ≤ H - f.top - 30 := by
  rw [visibleRows] at h ⊢
  rcases le_or_gt 0 (H - f.top - 30) with hroom | hnone
  · rw [mul_comm]
    exact Int.mul_tdiv_self_le hroom
  · have hneg : 0 ≤ (-(H - f.top - 30)).tdiv 16 := Int.tdiv_nonneg (by omega) (by decide)
    rw [Int.neg_tdiv] at hneg
    omega

/-- A set bit of a visible character is the colour of its row in the finished drawing. -/
theorem pixel_console {f : FloatResults} {s : Console} (hH : 5 ≤ H) (hany : s.consAny = true)
    (t : ℤ) {i : ℤ} (hi : 0 ≤ i ∧ i < visibleRows H f) (htop : 0 ≤ f.top)
    (hrow : 0 ≤ startRow H f s + i ∧ startRow H f s + i < consRows) {k r b : ℕ} {ch : Byte}
    (hch : (paintedRow s (startRow H f s + i))[k]? = some ch) (hr : r < 16) (hb : b < 8)
    (hbit : vgafont16 (ch.toNat * 16 + r) &&& (0x80#8 >>> b) ≠ 0)
    (hx : 8 + (k : ℤ) * 8 + b < W) :
    (0 ≤ f.top + i * 16 + r ∧ f.top + i * 16 + r < H - 5) ∧
      pixel (composed vgafont16 W H f s t) ((f.top + i * 16 + r) * W + (8 + k * 8 + b)) =
        rowColour (s.consRow - (startRow H f s + i)) := by
  have hspace := visibleRows_fit (f := f) (H := H) (by omega)
  have hy : 0 ≤ f.top + i * 16 + r ∧ f.top + i * 16 + r < H - 5 := by omega
  refine ⟨hy, ?_⟩
  have hx0 : 0 ≤ 8 + (k : ℤ) * 8 + b ∧ 8 + (k : ℤ) * 8 + b < W := by omega
  have hdrawn := consoleRow_drawn hrow hch hr hb hbit ⟨hy.1, by omega⟩ hx0
  rw [pixel_composed hH f s t hx0 ⟨hy.1, by omega⟩, if_neg (by omega)]
  -- nothing is drawn later the rows once a byte has arrived
  have hpowering : poweringOn vgafont16 W H f s = [] := if_pos hany
  rw [underStrip, hpowering, List.append_nil]
  refine pixel_append_of_agree
    (List.mem_flatMap.mpr ⟨i, Int.mem_range_iff.mpr hi, hdrawn⟩) fun st hst hindex => ?_
  obtain ⟨j, -, hst⟩ := List.mem_flatMap.mp hst
  exact consoleRow_agree hx0 (by omega) st hst hindex

/-- Whatever the guest has printed, as many of its newest rows as the panel has room for are on the
panel, the row being written among them, and every character of theirs that is within its width
stands there with its whole glyph, in the colour of the row's age and above the strip. -/
theorem console_rows_visible (vgafont16 : ℕ → Byte) (d : Scanout) (f : FloatResults)
    (hW : 0 < d.width.toInt) (hH : 5 ≤ d.height.toInt) (hfb : d.fbBase ≠ 0) (htop : 0 ≤ f.top)
    (bufs : List (List Byte)) (s : Console) (hs : s = bufs.foldl dcpConsoleFeed Console.fresh)
    (row : ℤ) (hrow : 0 ≤ row ∧ row ≤ s.consRow)
    (hnew : s.consRow - visibleRows d.height.toInt f < row) (k : ℕ) (ch : Byte)
    (hch : (paintedRow s row)[k]? = some ch) (r b : ℕ) (hr : r < 16) (hb : b < 8)
    (hbit : vgafont16 (ch.toNat * 16 + r) &&& (0x80#8 >>> b) ≠ 0)
    (hx : 8 + (k : ℤ) * 8 + b < d.width.toInt) :
    let x : ℤ := 8 + k * 8 + b
    let y := f.top + (row - startRow d.height.toInt f s) * 16 + r
    (0 ≤ y ∧ y < d.height.toInt - 5) ∧
      ∃ v, (dcpPaint vgafont16 d f s).written[(y * d.width.toInt + x).toNat]? = some v ∧
        Darkened d.width.toInt d.height.toInt x y (rowColour (s.consRow - row)) v := by
  intro x y
  have hbounds : s.consRow < consRows := by
    rw [hs, feed_flatten]
    exact (run_preserves feedByte (fun s => InBounds s.grid) (fun _ => True)
      (fun s b _ h => feedByte_inBounds s b h) _ _ (fun _ _ => trivial) fresh_inBounds).row.2
  have hany : s.consAny = true := by
    rw [feed_flatten] at hs
    by_cases hempty : bufs.flatten = []
    · -- a console without a byte has no character
      rw [hs, hempty] at hch
      exact absurd (List.mem_takeWhile_imp (List.mem_of_getElem? hch)) (by
        obtain ⟨c, -, hc⟩ := List.mem_map.mp
          (List.takeWhile_sublist _ |>.subset (List.mem_of_getElem? hch))
        rw [← hc]
        simp [run, Console.fresh])
    · rw [hs]
      exact consAny_of_run hempty _
  have hi : 0 ≤ row - startRow d.height.toInt f s ∧
      row - startRow d.height.toInt f s < visibleRows d.height.toInt f := by
    unfold startRow
    dsimp only
    split_ifs <;> omega
  have hsame : startRow d.height.toInt f s + (row - startRow d.height.toInt f s) = row := by omega
  obtain ⟨hy, hpixel⟩ := pixel_console hH hany d.frame.toInt hi htop
    (by rw [hsame]; omega) (by rw [hsame]; exact hch) hr hb hbit hx
  rw [hsame] at hpixel
  have hx0 : 0 ≤ x ∧ x < d.width.toInt := ⟨by omega, hx⟩
  refine ⟨hy, _, written_getElem? hW (by omega) hfb vgafont16 f s hx0 ⟨hy.1, by omega⟩, ?_⟩
  rw [hpixel]
  exact vignetted_darkened hx0 ⟨hy.1, by omega⟩ _

/-- A font with one dot, at the top left of `A`. -/
def dotFont (n : ℕ) : Byte := if n = 0x41 * 16 then 0x80 else 0

theorem console_rows_visible_dot : ∃ v,
    (dcpPaint dotFont iphonePanel iphoneFloats
        (dcpConsoleFeed Console.fresh [0x41])).written[(1329 * 1179 + 8 : ℤ).toNat]? = some v ∧
      Darkened 1179 2556 8 1329 0xbdf5e2 v :=
  (console_rows_visible dotFont iphonePanel iphoneFloats (by decide) (by decide) (by decide)
    (by decide) [[0x41]] _ rfl 0 (by decide) (by decide) 0 0x41 (by decide) 0 0 (by decide)
    (by decide) (by decide) (by decide)).2

end SecureWorld.Panel
