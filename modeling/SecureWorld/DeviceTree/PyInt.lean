import Mathlib.Data.List.DropRight
import Mathlib.Data.Nat.Notation
import Mathlib.Algebra.Order.Ring.Int
import Mathlib.Tactic.Positivity

/-! # `hex(n)`, `int(text, 0)` and `int(text)`

The text is a list of characters; `none` is `ValueError`. White space and decimal digits outside
ASCII are those of Unicode 14.
-/
namespace SecureWorld.DeviceTree
set_option autoImplicit false

abbrev Text := List Char

def hex (n : ℕ) : Text := '0' :: 'x' :: Nat.toDigits 16 n

/-! ## Characters -/

/-- The zeros of the decimal digits outside ASCII; each is followed by its nine other digits. -/
def decimalZeros : List ℕ :=
  [0x660, 0x6f0, 0x7c0, 0x966, 0x9e6, 0xa66, 0xae6, 0xb66, 0xbe6, 0xc66, 0xce6, 0xd66, 0xde6,
    0xe50, 0xed0, 0xf20, 0x1040, 0x1090, 0x17e0, 0x1810, 0x1946, 0x19d0, 0x1a80, 0x1a90, 0x1b50,
    0x1bb0, 0x1c40, 0x1c50, 0xa620, 0xa8d0, 0xa900, 0xa9d0, 0xa9f0, 0xaa50, 0xabf0, 0xff10,
    0x104a0, 0x10d30, 0x11066, 0x110f0, 0x11136, 0x111d0, 0x112f0, 0x11450, 0x114d0, 0x11650,
    0x116c0, 0x11730, 0x118e0, 0x11950, 0x11c50, 0x11d50, 0x11da0, 0x16a60, 0x16ac0, 0x16b50,
    0x1d7ce, 0x1d7d8, 0x1d7e2, 0x1d7ec, 0x1d7f6, 0x1e140, 0x1e2f0, 0x1e950, 0x1fbf0]

/-- White space outside ASCII. -/
def wideSpaces : List ℕ :=
  [0x85, 0xa0, 0x1680, 0x2000, 0x2001, 0x2002, 0x2003, 0x2004, 0x2005, 0x2006, 0x2007, 0x2008,
    0x2009, 0x200a, 0x2028, 0x2029, 0x202f, 0x205f, 0x3000]

/-- `int` first maps its text to ASCII; what has no counterpart becomes a question mark. -/
def toAscii (c : Char) : Char :=
  if c.toNat < 127 then c
  else if c.toNat ∈ wideSpaces then ' '
  else
    match decimalZeros.find? fun z => z ≤ c.toNat && c.toNat < z + 10 with
    | some z => Char.ofNat (0x30 + (c.toNat - z))
    | none => '?'

def isSpace (c : Char) : Bool := (9 ≤ c.toNat && c.toNat ≤ 13) || c.toNat = 32

/-- The value of a digit in the bases up to 36; 37 for the other characters. -/
def digitValue (c : Char) : ℕ :=
  if 0x30 ≤ c.toNat ∧ c.toNat ≤ 0x39 then c.toNat - 0x30
  else if 0x61 ≤ c.toNat ∧ c.toNat ≤ 0x7a then c.toNat - 0x61 + 10
  else if 0x41 ≤ c.toNat ∧ c.toNat ≤ 0x5a then c.toNat - 0x41 + 10
  else 37

/-! ## Literals -/

/-- Digits with single underscores between them. `separated` holds where no underscore may stand:
in front of the digits and after another underscore. -/
def digitsValue (base : ℕ) : Text → Bool → ℕ → Option ℕ
  | [], separated, value => if separated then none else some value
  | c :: cs, separated, value =>
      if c = '_' then if separated then none else digitsValue base cs true value
      else if digitValue c < base then digitsValue base cs false (value * base + digitValue c)
      else none

/-- The interpreter's default limit on the digits of a decimal literal. -/
def maxStrDigits : ℕ := 4300

def decimalLiteral (cs : Text) : Option ℕ :=
  if maxStrDigits < (cs.filter (· ≠ '_')).length then none else digitsValue 10 cs true 0

/-- One underscore may follow the base prefix. -/
def prefixedLiteral (base : ℕ) (cs : Text) : Option ℕ :=
  digitsValue base (if cs.head? = some '_' then cs.tail else cs) true 0

def natLiteral : Text → Option ℕ
  | '0' :: c :: cs =>
      if c = 'x' ∨ c = 'X' then prefixedLiteral 16 cs
      else if c = 'o' ∨ c = 'O' then prefixedLiteral 8 cs
      else if c = 'b' ∨ c = 'B' then prefixedLiteral 2 cs
      -- a decimal literal with a leading zero may only be zero
      else (decimalLiteral ('0' :: c :: cs)).filter (· = 0)
  | cs => decimalLiteral cs

def strip (cs : Text) : Text := (cs.dropWhile isSpace).rdropWhile isSpace

/-- `int(text, 0)` -/
def pyInt (text : Text) : Option ℤ :=
  match strip (text.map toAscii) with
  | '+' :: cs => (natLiteral cs).map fun n : ℕ => (n : ℤ)
  | '-' :: cs => (natLiteral cs).map fun n : ℕ => -(n : ℤ)
  | cs => (natLiteral cs).map fun n : ℕ => (n : ℤ)

/-- `int(text)` -/
def pyIntDecimal (text : Text) : Option ℤ :=
  match strip (text.map toAscii) with
  | '+' :: cs => (decimalLiteral cs).map fun n : ℕ => (n : ℤ)
  | '-' :: cs => (decimalLiteral cs).map fun n : ℕ => -(n : ℤ)
  | cs => (decimalLiteral cs).map fun n : ℕ => (n : ℤ)

/-! ## Reading back what `hex` writes -/

theorem digitChar_facts {d : ℕ} (hd : d < 16) :
    toAscii (Nat.digitChar d) = Nat.digitChar d ∧ isSpace (Nat.digitChar d) = false ∧
      Nat.digitChar d ≠ '_' ∧ digitValue (Nat.digitChar d) = d := by
  have hall : ∀ d : Fin 16, toAscii (Nat.digitChar d) = Nat.digitChar d ∧
      isSpace (Nat.digitChar d) = false ∧ Nat.digitChar d ≠ '_' ∧
      digitValue (Nat.digitChar d) = d := by decide
  exact hall ⟨d, hd⟩

theorem mem_toDigits {n : ℕ} {c : Char} :
    c ∈ Nat.toDigits 16 n → ∃ d < 16, c = Nat.digitChar d := by
  induction n using Nat.strongRecOn with
  | ind n ih =>
    intro hc
    rw [Nat.toDigits_eq_if (by omega)] at hc
    split at hc
    · case isTrue hlt => exact ⟨n, hlt, List.mem_singleton.mp hc⟩
    · case isFalse hge =>
      rcases List.mem_append.mp hc with hhigh | hlow
      · exact ih (n / 16) (by omega) hhigh
      · exact ⟨n % 16, by omega, List.mem_singleton.mp hlow⟩

theorem digitsValue_digit {d : ℕ} (hd : d < 16) (cs : Text) (separated : Bool) (value : ℕ) :
    digitsValue 16 (Nat.digitChar d :: cs) separated value =
      digitsValue 16 cs false (value * 16 + d) := by
  obtain ⟨-, -, hsep, hval⟩ := digitChar_facts hd
  rw [digitsValue, if_neg hsep, hval, if_pos hd]

theorem digitsValue_toDigits (n : ℕ) : ∀ cs : Text,
    digitsValue 16 (Nat.toDigits 16 n ++ cs) true 0 = digitsValue 16 cs false n := by
  induction n using Nat.strongRecOn with
  | ind n ih =>
    intro cs
    rw [Nat.toDigits_eq_if (by omega)]
    split
    · case isTrue hlt =>
      rw [List.singleton_append, digitsValue_digit hlt, Nat.zero_mul, Nat.zero_add]
    · case isFalse hge =>
      rw [List.append_assoc, List.singleton_append, ih (n / 16) (by omega),
        digitsValue_digit (by omega), Nat.mul_comm, Nat.div_add_mod]

theorem strip_of_ends {a : Char} {cs : Text} (ha : isSpace a = false)
    (hcs : ∀ c ∈ cs, isSpace c = false) : strip (a :: cs) = a :: cs := by
  rw [strip, List.dropWhile_cons_of_neg (by rw [ha]; decide), List.rdropWhile_eq_self_iff]
  intro hne hlast
  have hmem : ∀ c ∈ a :: cs, isSpace c = false := List.forall_mem_cons.mpr ⟨ha, hcs⟩
  rw [hmem _ (List.getLast_mem hne)] at hlast
  exact absurd hlast (by decide)

theorem pyInt_hex (n : ℕ) : pyInt (hex n) = some (n : ℤ) := by
  have hdigits : (Nat.toDigits 16 n).map toAscii = Nat.toDigits 16 n := by
    refine (List.map_congr_left fun c hc => ?_).trans (List.map_id _)
    obtain ⟨d, hd, rfl⟩ := mem_toDigits hc
    exact (digitChar_facts hd).1
  have hascii : (hex n).map toAscii = '0' :: 'x' :: Nat.toDigits 16 n := by
    rw [hex, List.map_cons, List.map_cons, hdigits]
    rfl
  have hstrip : strip ('0' :: 'x' :: Nat.toDigits 16 n) = '0' :: 'x' :: Nat.toDigits 16 n := by
    refine strip_of_ends (by decide) (List.forall_mem_cons.mpr ⟨by decide, fun c hc => ?_⟩)
    obtain ⟨d, hd, rfl⟩ := mem_toDigits hc
    exact (digitChar_facts hd).2.1
  have hhead : (Nat.toDigits 16 n).head? ≠ some '_' := by
    intro hsep
    obtain ⟨d, hd, hc⟩ := mem_toDigits (List.mem_of_head? hsep)
    exact (digitChar_facts hd).2.2.1 hc.symm
  have hvalue : natLiteral ('0' :: 'x' :: Nat.toDigits 16 n) = some n := by
    have hread := digitsValue_toDigits n []
    rw [List.append_nil] at hread
    rw [natLiteral, if_pos (.inl rfl), prefixedLiteral, if_neg hhead, hread]
    rfl
  rw [pyInt, hascii, hstrip]
  exact congrArg (Option.map fun n : ℕ => (n : ℤ)) hvalue

/-! ## Short texts are small numbers -/

theorem digitsValue_lt {base : ℕ} (hbase : base ≤ 16) :
    ∀ {cs : Text} {separated : Bool} {value n : ℕ}, digitsValue base cs separated value = some n →
      n < (value + 1) * 16 ^ cs.length
  | [], separated, value, n, h => by
      rw [digitsValue] at h
      split at h
      · exact nomatch h
      · obtain rfl := Option.some.inj h
        simp
  | c :: cs, separated, value, n, h => by
      rw [digitsValue] at h
      have hpow : 16 ^ (c :: cs).length = 16 * 16 ^ cs.length := by
        rw [List.length_cons, pow_succ, Nat.mul_comm]
      rw [hpow, ← Nat.mul_assoc]
      split_ifs at h with hc hsep hdigit
      · refine (digitsValue_lt hbase h).trans_le (Nat.mul_le_mul_right _ ?_)
        omega
      · refine (digitsValue_lt hbase h).trans_le (Nat.mul_le_mul_right _ ?_)
        have hmul : value * base ≤ value * 16 := Nat.mul_le_mul_left _ hbase
        omega

theorem decimalLiteral_lt {cs : Text} {n : ℕ} (h : decimalLiteral cs = some n) :
    n < 16 ^ cs.length := by
  rw [decimalLiteral] at h
  split at h
  · exact nomatch h
  · simpa using digitsValue_lt (by decide) h

theorem prefixedLiteral_lt {base : ℕ} (hbase : base ≤ 16) {cs : Text} {n : ℕ}
    (h : prefixedLiteral base cs = some n) : n < 16 ^ cs.length := by
  have hlt := digitsValue_lt hbase h
  have hlen : (if cs.head? = some '_' then cs.tail else cs).length ≤ cs.length := by
    split
    · rw [List.length_tail]
      omega
    · exact le_rfl
  rw [Nat.zero_add, Nat.one_mul] at hlt
  exact hlt.trans_le (Nat.pow_le_pow_right (by decide) hlen)

theorem natLiteral_lt {cs : Text} {n : ℕ} (h : natLiteral cs = some n) : n < 16 ^ cs.length := by
  unfold natLiteral at h
  split at h
  · case h_1 c cs =>
    have hlen : 16 ^ cs.length ≤ 16 ^ ('0' :: c :: cs).length :=
      Nat.pow_le_pow_right (by decide) (by rw [List.length_cons, List.length_cons]; omega)
    split_ifs at h
    · exact (prefixedLiteral_lt (by decide) h).trans_le hlen
    · exact (prefixedLiteral_lt (by decide) h).trans_le hlen
    · exact (prefixedLiteral_lt (by decide) h).trans_le hlen
    · exact decimalLiteral_lt (Option.filter_eq_some_iff.mp h).1
  · exact decimalLiteral_lt h

theorem strip_length_le (cs : Text) : (strip cs).length ≤ cs.length :=
  (List.rdropWhile_prefix isSpace _).length_le.trans (List.dropWhile_suffix isSpace).length_le

theorem pyInt_lt {text : Text} {n : ℤ} (h : pyInt text = some n) : n < 16 ^ text.length := by
  have hstrip := strip_length_le (text.map toAscii)
  rw [List.length_map] at hstrip
  have hbound {cs : Text} {m : ℕ} (hcs : cs.length ≤ text.length) (hm : natLiteral cs = some m) :
      m < 16 ^ text.length :=
    (natLiteral_lt hm).trans_le (Nat.pow_le_pow_right (by decide) hcs)
  unfold pyInt at h
  split at h
  · case h_1 cs heq =>
    rw [heq, List.length_cons] at hstrip
    obtain ⟨m, hm, rfl⟩ := Option.map_eq_some_iff.mp h
    exact_mod_cast hbound (by omega) hm
  · case h_2 cs heq =>
    rw [heq, List.length_cons] at hstrip
    obtain ⟨m, hm, rfl⟩ := Option.map_eq_some_iff.mp h
    have hpos : (0 : ℤ) < 16 ^ text.length := by positivity
    omega
  · obtain ⟨m, hm, rfl⟩ := Option.map_eq_some_iff.mp h
    exact_mod_cast hbound hstrip hm

end SecureWorld.DeviceTree
