import Mathlib.Data.List.Basic

/-! # UTF-8 over byte lists

`decodeUtf8` is strict: it has no result on bytes that encode no text.
-/
namespace SecureWorld.Foundations
set_option autoImplicit false

def encodeUtf8 (text : List Char) : List UInt8 := text.flatMap String.utf8EncodeChar

def decodeUtf8 (bytes : List UInt8) : Option (List Char) :=
  bytes.toByteArray.utf8Decode?.map Array.toList

theorem decodeUtf8_encodeUtf8 (text : List Char) : decodeUtf8 (encodeUtf8 text) = some text := by
  have hbytes : (encodeUtf8 text).toByteArray = text.utf8Encode := rfl
  rw [decodeUtf8, hbytes, List.utf8Decode?_utf8Encode]
  rfl

theorem encodeUtf8_of_decodeUtf8 {bytes : List UInt8} {text : List Char}
    (h : decodeUtf8 bytes = some text) : encodeUtf8 text = bytes := by
  obtain ⟨chars, hchars, rfl⟩ := Option.map_eq_some_iff.mp h
  have hsome : bytes.toByteArray.utf8Decode?.isSome := by rw [hchars]; rfl
  have hget : bytes.toByteArray.utf8Decode?.get hsome = chars := Option.get_of_eq_some _ hchars
  have hback := ByteArray.utf8Encode_get_utf8Decode? (h := hsome)
  rw [hget] at hback
  have hlist := congrArg (fun b : ByteArray => b.data.toList) hback
  simp only [List.utf8Encode, List.toList_data_toByteArray] at hlist
  exact hlist

theorem encodeUtf8_inj {s t : List Char} (h : encodeUtf8 s = encodeUtf8 t) : s = t := by
  have hs := decodeUtf8_encodeUtf8 s
  rw [h, decodeUtf8_encodeUtf8] at hs
  exact (Option.some.inj hs).symm

@[simp] theorem encodeUtf8_append (s t : List Char) :
    encodeUtf8 (s ++ t) = encodeUtf8 s ++ encodeUtf8 t := List.flatMap_append

theorem decodeUtf8_eq_some_iff {bytes : List UInt8} {text : List Char} :
    decodeUtf8 bytes = some text ↔ encodeUtf8 text = bytes :=
  ⟨encodeUtf8_of_decodeUtf8, fun h => h ▸ decodeUtf8_encodeUtf8 text⟩

theorem length_le_encodeUtf8 : ∀ text : List Char, text.length ≤ (encodeUtf8 text).length
  | [] => Nat.le_refl 0
  | c :: cs => by
      have hc : 0 < (String.utf8EncodeChar c).length :=
        List.length_pos_iff.mpr String.utf8EncodeChar_ne_nil
      have hcs := length_le_encodeUtf8 cs
      rw [encodeUtf8, List.flatMap_cons, List.length_append, List.length_cons]
      rw [encodeUtf8] at hcs
      omega

theorem encodeUtf8_ascii {text : List Char} (h : ∀ c ∈ text, c.toNat < 128) :
    encodeUtf8 text = text.map fun c => UInt8.ofNat c.toNat := by
  rw [encodeUtf8, List.map_eq_flatMap]
  exact List.flatMap_congr fun c hc => if_pos (Nat.le_of_lt_succ (h c hc))

/-! ## Zero bytes -/

theorem zero_mem_utf8EncodeChar {c : Char} :
    0 ∈ String.utf8EncodeChar c ↔ c = Char.ofNat 0 := by
  have hbyte (n : ℕ) : (0 : UInt8) = UInt8.ofNat n ↔ n % 256 = 0 := by
    rw [← UInt8.toNat_inj, UInt8.toNat_ofNat']
    exact eq_comm
  constructor
  · intro h
    have hzero : c.val.toNat = 0 := by
      unfold String.utf8EncodeChar at h
      dsimp only at h
      split_ifs at h <;> simp only [List.mem_cons, List.not_mem_nil, or_false, hbyte] at h <;>
        omega
    exact Char.toNat_inj.mp hzero
  · rintro rfl
    decide

/-- The text before the first NUL is encoded by the bytes before the first zero. -/
theorem encodeUtf8_takeWhile : ∀ text : List Char,
    encodeUtf8 (text.takeWhile (· ≠ Char.ofNat 0)) = (encodeUtf8 text).takeWhile (· ≠ 0)
  | [] => rfl
  | c :: cs => by
      have ih := encodeUtf8_takeWhile cs
      by_cases hc : c = Char.ofNat 0
      · subst hc
        rfl
      · have hbytes : ∀ b ∈ String.utf8EncodeChar c, decide (b ≠ 0) = true := fun b hb =>
          decide_eq_true fun hzero => hc (zero_mem_utf8EncodeChar.mp (hzero ▸ hb))
        rw [List.takeWhile_cons_of_pos (by simpa using hc), encodeUtf8, List.flatMap_cons,
          encodeUtf8, List.flatMap_cons, List.takeWhile_append_of_pos hbytes]
        exact congrArg _ ih

theorem zero_mem_encodeUtf8 {text : List Char} :
    0 ∈ encodeUtf8 text ↔ Char.ofNat 0 ∈ text := by
  simp only [encodeUtf8, List.mem_flatMap, zero_mem_utf8EncodeChar, exists_eq_right]

/-! ## Malformed bytes replaced -/

/-- The continuation bytes a lead byte announces, and the range of the first of them. -/
def utf8Lead (b : UInt8) : Option (ℕ × UInt8 × UInt8) :=
  if 0xc2 ≤ b ∧ b ≤ 0xdf then some (1, 0x80, 0xbf)
  else if b = 0xe0 then some (2, 0xa0, 0xbf)
  else if b = 0xed then some (2, 0x80, 0x9f)
  else if 0xe1 ≤ b ∧ b ≤ 0xef then some (2, 0x80, 0xbf)
  else if b = 0xf0 then some (3, 0x90, 0xbf)
  else if 0xf1 ≤ b ∧ b ≤ 0xf3 then some (3, 0x80, 0xbf)
  else if b = 0xf4 then some (3, 0x80, 0x8f)
  else none

/-- How many bytes of `s` continue a sequence, the first of them in the range `lo` to `hi`. -/
def continuations (lo hi : UInt8) : List UInt8 → ℕ
  | [] => 0
  | b :: s =>
      if lo ≤ b ∧ b ≤ hi then 1 + (s.takeWhile fun c => 0x80 ≤ c && c ≤ 0xbf).length else 0

def decodeReplaceWithin : ℕ → List UInt8 → List Char
  | 0, _ => []
  | _ + 1, [] => []
  | fuel + 1, b :: s =>
      if b < 0x80 then Char.ofNat b.toNat :: decodeReplaceWithin fuel s
      else match utf8Lead b with
        | none => '\ufffd' :: decodeReplaceWithin fuel s
        | some (n, lo, hi) =>
            let k := continuations lo hi (s.take n)
            if k = n then (decodeUtf8 (b :: s.take n)).getD [] ++ decodeReplaceWithin fuel (s.drop n)
            else '\ufffd' :: decodeReplaceWithin fuel (s.drop k)

/-- `bytes.decode(errors='replace')`: one U+FFFD for each longest piece that starts no character. -/
def decodeUtf8Replace (bytes : List UInt8) : List Char := decodeReplaceWithin bytes.length bytes

theorem ofNat_le_ofNat {m n : ℕ} (h : m ≤ n) (hn : n < 256) : UInt8.ofNat m ≤ UInt8.ofNat n := by
  rw [UInt8.le_iff_toNat_le, UInt8.toNat_ofNat', UInt8.toNat_ofNat', Nat.mod_eq_of_lt hn,
    Nat.mod_eq_of_lt (by omega)]
  exact h

/-- A sequence of continuation bytes, the first in the narrower range. -/
theorem continuations_eq {lo hi m : ℕ} {s : List ℕ} (hm : lo ≤ m ∧ m ≤ hi) (hhi : hi < 256)
    (hs : ∀ n ∈ s, n < 0x40) : continuations (UInt8.ofNat lo) (UInt8.ofNat hi)
      (UInt8.ofNat m :: s.map fun n => UInt8.ofNat (n + 0x80)) = s.length + 1 := by
  have htake : (s.map fun n => UInt8.ofNat (n + 0x80)).takeWhile
      (fun c => 0x80 ≤ c && c ≤ 0xbf) = s.map fun n => UInt8.ofNat (n + 0x80) := by
    induction s with
    | nil => rfl
    | cons n s ih =>
      have hn := hs n List.mem_cons_self
      have hlow : UInt8.ofNat 0x80 ≤ UInt8.ofNat (n + 0x80) := ofNat_le_ofNat (by omega) (by omega)
      have hhigh : UInt8.ofNat (n + 0x80) ≤ UInt8.ofNat 0xbf := ofNat_le_ofNat (by omega) (by omega)
      have hboth : (0x80 ≤ UInt8.ofNat (n + 0x80) && UInt8.ofNat (n + 0x80) ≤ 0xbf : Bool) = true :=
        Bool.and_eq_true_iff.mpr ⟨decide_eq_true hlow, decide_eq_true hhigh⟩
      rw [List.map_cons, List.takeWhile_cons, if_pos hboth,
        ih fun n hn => hs n (List.mem_cons_of_mem _ hn)]
  rw [continuations, if_pos ⟨ofNat_le_ofNat hm.1 (by omega), ofNat_le_ofNat hm.2 hhi⟩, htake,
    List.length_map, Nat.add_comm]

/-- The bytes that start a character of more than one byte. -/
theorem utf8Lead_ofNat : ∀ n < 0xf5, 0xc2 ≤ n → utf8Lead (UInt8.ofNat n) =
    some (if n < 0xe0 then 1 else if n < 0xf0 then 2 else 3,
      UInt8.ofNat (if n = 0xe0 then 0xa0 else if n = 0xf0 then 0x90 else 0x80),
      UInt8.ofNat (if n = 0xed then 0x9f else if n = 0xf4 then 0x8f else 0xbf)) := by
  decide +kernel

/-- What a lead byte announces is what follows it. -/
def Announces (b : UInt8) (conts : List UInt8) : Prop :=
  ¬b < 0x80 ∧ ∃ lo hi, utf8Lead b = some (conts.length, lo, hi) ∧
    continuations lo hi conts = conts.length

theorem announces_ofNat {n m : ℕ} {s : List ℕ} (hn : 0xc2 ≤ n ∧ n < 0xf5)
    (hlen : s.length + 1 = if n < 0xe0 then 1 else if n < 0xf0 then 2 else 3)
    (hlo : (if n = 0xe0 then 0xa0 else if n = 0xf0 then 0x90 else 0x80) ≤ m)
    (hhi : m ≤ if n = 0xed then 0x9f else if n = 0xf4 then 0x8f else 0xbf)
    (hs : ∀ n ∈ s, n < 0x40) :
    Announces (UInt8.ofNat n) (UInt8.ofNat m :: s.map fun n => UInt8.ofNat (n + 0x80)) := by
  have hnot : ¬UInt8.ofNat n < 0x80 := by
    rw [UInt8.lt_iff_toNat_lt, UInt8.toNat_ofNat', Nat.mod_eq_of_lt (by omega)]
    change ¬n < 0x80
    omega
  have hconts := continuations_eq ⟨hlo, hhi⟩ (by split_ifs <;> decide) hs
  have hlead := utf8Lead_ofNat n hn.2 hn.1
  rw [← hlen] at hlead
  rw [Announces, List.length_cons, List.length_map]
  exact ⟨hnot, _, _, hlead, hconts⟩

theorem utf8EncodeChar_lead (c : Char) :
    (c.val.toNat < 128 ∧ String.utf8EncodeChar c = [UInt8.ofNat c.val.toNat]) ∨
      ∃ b conts, String.utf8EncodeChar c = b :: conts ∧ Announces b conts := by
  have hvalid : c.val.toNat < 0xd800 ∨ 0xdfff < c.val.toNat ∧ c.val.toNat < 0x110000 := c.valid
  unfold String.utf8EncodeChar
  dsimp only
  generalize c.val.toNat = v at hvalid
  by_cases hone : v ≤ 0x7f
  · exact .inl ⟨by omega, if_pos hone⟩
  right
  rw [if_neg hone]
  by_cases htwo : v ≤ 0x7ff
  · rw [if_pos htwo]
    refine ⟨_, _, rfl, announces_ofNat (s := []) ⟨by omega, by omega⟩ ?_ ?_ ?_ (by simp)⟩
    all_goals split_ifs <;> simp <;> omega
  rw [if_neg htwo]
  by_cases hthree : v ≤ 0xffff
  · rw [if_pos hthree]
    refine ⟨_, _, rfl, announces_ofNat (s := [v % 0x40]) ⟨by omega, by omega⟩ ?_ ?_ ?_ ?_⟩
    · rw [if_neg (by omega), if_pos (by omega)]
      rfl
    · split_ifs <;> omega
    · split_ifs <;> omega
    · simp only [List.forall_mem_singleton]
      omega
  · rw [if_neg hthree]
    refine ⟨_, _, rfl, announces_ofNat (s := [v / 64 % 0x40, v % 0x40]) ⟨by omega, by omega⟩
      ?_ ?_ ?_ ?_⟩
    · rw [if_neg (by omega), if_neg (by omega)]
      rfl
    · split_ifs <;> omega
    · split_ifs <;> omega
    · simp only [List.forall_mem_cons, List.not_mem_nil, false_implies, implies_true, and_true]
      omega

theorem decodeReplaceWithin_encodeUtf8 : ∀ (text : List Char) (fuel : ℕ),
    (encodeUtf8 text).length ≤ fuel → decodeReplaceWithin fuel (encodeUtf8 text) = text
  | [], fuel, _ => by
      cases fuel <;> rfl
  | c :: cs, fuel, hfuel => by
      have hcons : encodeUtf8 (c :: cs) = String.utf8EncodeChar c ++ encodeUtf8 cs :=
        List.flatMap_cons
      rw [hcons] at hfuel ⊢
      rw [List.length_append] at hfuel
      rcases utf8EncodeChar_lead c with ⟨hsmall, hbytes⟩ | ⟨b, conts, hbytes, hb, lo, hi, hlead, hk⟩
      · rw [hbytes, List.length_singleton] at hfuel
        obtain ⟨fuel, rfl⟩ : ∃ n, fuel = n + 1 := Nat.exists_eq_succ_of_ne_zero (by omega)
        have hnat : (UInt8.ofNat c.val.toNat).toNat = c.val.toNat := by
          rw [UInt8.toNat_ofNat', Nat.mod_eq_of_lt (by omega)]
        have hlt : UInt8.ofNat c.val.toNat < 0x80 := by
          rw [UInt8.lt_iff_toNat_lt, hnat]
          exact hsmall
        rw [hbytes, List.singleton_append, decodeReplaceWithin, if_pos hlt, hnat,
          decodeReplaceWithin_encodeUtf8 cs fuel (by omega)]
        exact congrArg (· :: cs) (Char.ofNat_toNat c)
      · rw [hbytes, List.length_cons] at hfuel
        obtain ⟨fuel, rfl⟩ : ∃ n, fuel = n + 1 := Nat.exists_eq_succ_of_ne_zero (by omega)
        have hchar : decodeUtf8 (b :: conts) = some [c] := by
          have hencode : encodeUtf8 [c] = b :: conts := by
            rw [← hbytes]
            exact List.flatMap_singleton _ _
          exact decodeUtf8_eq_some_iff.mpr hencode
        rw [hbytes, List.cons_append, decodeReplaceWithin, if_neg hb, hlead]
        dsimp only
        rw [List.take_left, List.drop_left, if_pos hk, hchar,
          decodeReplaceWithin_encodeUtf8 cs fuel (by omega)]
        rfl

/-- Text is decoded as it is. -/
theorem decodeUtf8Replace_encodeUtf8 (text : List Char) :
    decodeUtf8Replace (encodeUtf8 text) = text :=
  decodeReplaceWithin_encodeUtf8 text _ (Nat.le_refl _)

end SecureWorld.Foundations
