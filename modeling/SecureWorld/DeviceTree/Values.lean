import SecureWorld.DeviceTree.Decoding
import SecureWorld.DeviceTree.Encoding

/-! # Texts and integers as property values

How the classes of `decodeProp` and the branches of `parsePropEntry` meet: NUL-terminated texts,
the integer markers, the empty value and raw bytes.
-/
namespace SecureWorld.DeviceTree
open Foundations
set_option autoImplicit false

/-- None of the markers `u32:`, `u64:`, `<NULL>`. -/
def MarkerFree (t : Text) : Prop := ¬ u32Marker <+: t ∧ ¬ u64Marker <+: t ∧ t ≠ nullMarker

/-- The bytes in front of the first NUL. -/
def beforeNul (s : Bytes) : Bytes := s.takeWhile (· ≠ 0)

/-- Nothing but NULs follows the first NUL. -/
def NulPadded (s : Bytes) : Prop := ∀ b ∈ s.dropWhile (· ≠ 0), b = 0

/-! ## NUL-terminated texts -/

theorem zero_notMem_beforeNul (s : Bytes) : 0 ∉ beforeNul s := fun h => by
  simpa using List.mem_takeWhile_imp h

theorem nulPadded_eq_ljust {s : Bytes} (h : NulPadded s) : s = ljust (beforeNul s) s.length := by
  have hsplit : beforeNul s ++ s.dropWhile (· ≠ 0) = s := List.takeWhile_append_dropWhile
  have hzeros : s.dropWhile (· ≠ 0) = List.replicate (s.dropWhile (· ≠ 0)).length 0 :=
    List.eq_replicate_iff.mpr ⟨rfl, h⟩
  have hlen : s.length - (beforeNul s).length = (s.dropWhile (· ≠ 0)).length := by
    have hsum := congrArg List.length hsplit
    rw [List.length_append] at hsum
    omega
  rw [ljust, hlen, ← hzeros, hsplit]

theorem beforeNul_ljust {s : Bytes} (hs : 0 ∉ s) (n : ℕ) : beforeNul (ljust s n) = s := by
  have hall : ∀ b ∈ s, decide (b ≠ 0) = true := fun b hb =>
    decide_eq_true fun h => hs (h ▸ hb)
  rw [beforeNul, ljust, List.takeWhile_append_of_pos hall, List.takeWhile_replicate]
  simp

theorem nulPadded_ljust {s : Bytes} (hs : 0 ∉ s) (n : ℕ) : NulPadded (ljust s n) := by
  have hall : ∀ b ∈ s, decide (b ≠ 0) = true := fun b hb =>
    decide_eq_true fun h => hs (h ▸ hb)
  rw [NulPadded, ljust, List.dropWhile_append_of_pos hall]
  intro b hb
  exact List.eq_of_mem_replicate ((List.dropWhile_suffix _).subset hb)

/-- The decoded text has no NUL and is encoded by the bytes in front of the first NUL. -/
theorem decodedText {s : Bytes} {t : Text} (h : decodeNullTerminatedString s = .ok t) :
    nul ∉ t ∧ encodeUtf8 t = beforeNul s := by
  unfold decodeNullTerminatedString at h
  cases htext : decodeUtf8 s with
  | none =>
    rw [htext] at h
    exact nomatch h
  | some text =>
    rw [htext] at h
    obtain rfl := Except.ok.inj h
    refine ⟨fun hmem => by simpa using List.mem_takeWhile_imp hmem, ?_⟩
    rw [beforeNul, ← encodeUtf8_of_decodeUtf8 htext]
    exact encodeUtf8_takeWhile text

theorem decode_ljust {t : Text} (ht : nul ∉ t) (n : ℕ) :
    decodeNullTerminatedString (ljust (encodeUtf8 t) n) = .ok t := by
  have hzeros : ∀ k, encodeUtf8 (List.replicate k nul) = List.replicate k 0 := by
    intro k
    induction k with
    | zero => rfl
    | succ k ih =>
      rw [List.replicate_succ, List.replicate_succ, ← ih]
      rfl
  have hall : ∀ c ∈ t, decide (c ≠ nul) = true := fun c hc =>
    decide_eq_true fun h => ht (h ▸ hc)
  unfold decodeNullTerminatedString
  rw [ljust, ← hzeros, ← encodeUtf8_append, decodeUtf8_encodeUtf8]
  dsimp only
  rw [List.takeWhile_append_of_pos hall, List.takeWhile_replicate]
  simp

theorem decode_nulPadded_iff {s : Bytes} (hs : NulPadded s) {t : Text} :
    decodeNullTerminatedString s = .ok t ↔ decodeUtf8 (beforeNul s) = some t := by
  rw [decodeUtf8_eq_some_iff]
  constructor
  · exact fun h => (decodedText h).2
  · intro h
    have hnul : nul ∉ t := fun hmem =>
      zero_notMem_beforeNul s (h ▸ zero_mem_encodeUtf8.mpr hmem)
    rw [nulPadded_eq_ljust hs, ← h]
    exact decode_ljust hnul _

/-! ## Texts through the encoder -/

/-- The text `t` fills its padded value, terminator included. -/
def Terminated (t : Text) : Prop :=
  (encodeUtf8 t).length < roundUpToMultipleOf4 (t.length + 1)

theorem parsePropEntry_text {t : Text} (hnul : nul ∉ t) (hmarker : MarkerFree t)
    {x : ℕ × Bytes} : parsePropEntry (.str t) = .ok x ↔ Terminated t ∧
      x = (t.length + 1, ljust (encodeUtf8 t) (roundUpToMultipleOf4 (t.length + 1))) := by
  obtain ⟨hu32, hu64, hnull⟩ := hmarker
  have hzero : 0 ∉ encodeUtf8 t := fun hmem => hnul (zero_mem_encodeUtf8.mp hmem)
  rw [← List.isPrefixOf_iff_prefix] at hu32 hu64
  unfold parsePropEntry
  dsimp only
  rw [if_neg hu32, if_neg hu64, if_neg hnull, Terminated, ← ljust_terminated_iff hzero]
  split
  · case isTrue hlast => exact ⟨nofun, fun h => absurd h.1 hlast⟩
  · case isFalse hlast => exact ⟨fun h => ⟨not_not.mp hlast, (Except.ok.inj h).symm⟩,
      fun h => congrArg _ h.2.symm⟩

theorem parsePropEntry_u32 (digits : Text) :
    parsePropEntry (.str (u32Marker ++ digits)) = packMarked 4 digits := rfl

theorem parsePropEntry_u64 (digits : Text) :
    parsePropEntry (.str (u64Marker ++ digits)) = packMarked 8 digits := rfl

theorem packMarked_hex {width n : ℕ} (hn : n < 256 ^ width) :
    packMarked width (hex n) = .ok (width, leBytes width n) := by
  rw [packMarked_eq_ok_iff]
  refine ⟨n, pyInt_hex n, ⟨by omega, by exact_mod_cast hn⟩, ?_⟩
  rw [Int.toNat_natCast]

theorem bytes_nulFree (data : Bytes) : (PropVal.bytes data).NulFree := nofun

theorem hex_nulFree (n : ℕ) : nul ∉ hex n := by
  intro h
  rw [hex, List.mem_cons, List.mem_cons] at h
  obtain h | h | h := h
  · exact absurd h (by decide)
  · exact absurd h (by decide)
  · obtain ⟨d, hd, hc⟩ := mem_toDigits h
    have hdigit : ∀ d : Fin 16, nul ≠ Nat.digitChar d := by decide
    exact hdigit ⟨d, hd⟩ hc

theorem marked_nulFree {marker : Text} (hmarker : nul ∉ marker) (n : ℕ) :
    (PropVal.str (marker ++ hex n)).NulFree := by
  intro text h
  rw [← PropVal.str.inj h, List.mem_append]
  exact fun hmem => hmem.elim hmarker (hex_nulFree n)

theorem decodeProp_text {k : Text} {s : Bytes} (h : k = nameKey ∨ isProbablyAString s = true)
    {v : PropVal} :
    decodeProp k s = .ok v ↔ ∃ t, decodeNullTerminatedString s = .ok t ∧ .str t = v := by
  rw [decodeProp, if_pos h, map_eq_ok_iff]

/-- What the decoder produces contains no NUL. -/
theorem decodeProp_nulFree {k : Text} {s : Bytes} {v : PropVal} (h : decodeProp k s = .ok v) :
    v.NulFree := by
  unfold decodeProp at h
  split_ifs at h
  · obtain ⟨t, ht, rfl⟩ := map_eq_ok_iff.mp h
    exact fun _ heq => PropVal.str.inj heq ▸ (decodedText ht).1
  · obtain rfl := Except.ok.inj h
    exact fun _ heq => PropVal.str.inj heq ▸ by decide
  · obtain rfl := Except.ok.inj h
    exact marked_nulFree (by decide) _
  · obtain rfl := Except.ok.inj h
    exact marked_nulFree (by decide) _
  · obtain rfl := Except.ok.inj h
    exact bytes_nulFree _

/-- A text that starts with `u32:` is never written back as the four bytes it came from. -/
theorem u32_text_lost {s : Bytes} {digits : Text} {len : ℕ}
    (hs : encodeUtf8 (u32Marker ++ digits) = beforeNul s) :
    parsePropEntry (.str (u32Marker ++ digits)) ≠ .ok (len, s) := by
  intro h
  rw [parsePropEntry_u32, packMarked_eq_ok_iff] at h
  obtain ⟨n, hn, -, heq⟩ := h
  obtain ⟨-, rfl⟩ := Prod.mk.inj heq
  have hlen := congrArg List.length hs
  have hfour := (List.takeWhile_prefix (l := leBytes 4 n.toNat) (p := (· ≠ 0))).length_le
  rw [leBytes_length] at hfour
  have hdigits := length_le_encodeUtf8 digits
  rw [encodeUtf8_append, List.length_append] at hlen
  have hmarker : (encodeUtf8 u32Marker).length = 4 := rfl
  have hempty : digits = [] := List.eq_nil_of_length_eq_zero (by rw [beforeNul] at hlen; omega)
  subst hempty
  exact nomatch hn

/-- Nor is one that starts with `u64:`: at most four digits follow in eight bytes, and the number
they make is smaller than one whose third byte is not zero. -/
theorem u64_text_lost {s : Bytes} {digits : Text} {len : ℕ}
    (hs : encodeUtf8 (u64Marker ++ digits) = beforeNul s) :
    parsePropEntry (.str (u64Marker ++ digits)) ≠ .ok (len, s) := by
  intro h
  rw [parsePropEntry_u64, packMarked_eq_ok_iff] at h
  obtain ⟨n, hn, hrange, heq⟩ := h
  obtain ⟨-, rfl⟩ := Prod.mk.inj heq
  have hlen := congrArg List.length hs
  have height := (List.takeWhile_prefix (l := leBytes 8 n.toNat) (p := (· ≠ 0))).length_le
  rw [leBytes_length] at height
  have hdigits := length_le_encodeUtf8 digits
  rw [encodeUtf8_append, List.length_append] at hlen
  have hmarker : (encodeUtf8 u64Marker).length = 4 := rfl
  have hsmall : n < 16 ^ 4 := by
    refine (pyInt_lt hn).trans_le ?_
    exact_mod_cast Nat.pow_le_pow_right (by decide) (show digits.length ≤ 4 by
      rw [beforeNul] at hlen
      omega)
  have hthird : (leBytes 8 n.toNat)[2]? = some 0 := by
    have hzero : n.toNat / 256 / 256 = 0 := by omega
    simp only [leBytes, List.getElem?_cons_succ, List.getElem?_cons_zero, hzero]
    rfl
  have hsplit : encodeUtf8 (u64Marker ++ digits) ++ (leBytes 8 n.toNat).dropWhile (· ≠ 0) =
      leBytes 8 n.toNat := by
    rw [hs]
    exact List.takeWhile_append_dropWhile
  rw [← hsplit, encodeUtf8_append, List.append_assoc, List.getElem?_append_left (by omega)]
    at hthird
  exact absurd hthird (by decide)

end SecureWorld.DeviceTree
