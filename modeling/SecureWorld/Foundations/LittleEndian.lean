import Mathlib.Algebra.Order.Ring.Nat
import Mathlib.Data.List.Basic

/-! # Little-endian integers

`leBytes k n` are the `k` low bytes of `n`, lowest first; `leNat` reads a byte list back.
-/
namespace SecureWorld.Foundations
set_option autoImplicit false

def leNat : List UInt8 → ℕ
  | [] => 0
  | b :: bs => b.toNat + 256 * leNat bs

def leBytes : ℕ → ℕ → List UInt8
  | 0, _ => []
  | k + 1, n => UInt8.ofNat n :: leBytes k (n / 256)

@[simp] theorem leBytes_length (k n : ℕ) : (leBytes k n).length = k := by
  induction k generalizing n with
  | zero => rfl
  | succ k ih => simp [leBytes, ih]

theorem ofNat_toNat_mod (n : ℕ) : (UInt8.ofNat n).toNat = n % 256 := by
  simp

theorem leNat_leBytes (k n : ℕ) : leNat (leBytes k n) = n % 256 ^ k := by
  induction k generalizing n with
  | zero => rw [leBytes, leNat, pow_zero, Nat.mod_one]
  | succ k ih =>
    rw [leBytes, leNat, ih, ofNat_toNat_mod, pow_succ, Nat.mul_comm (256 ^ k) 256, Nat.mod_mul]

theorem leNat_lt (bs : List UInt8) : leNat bs < 256 ^ bs.length := by
  induction bs with
  | nil => simp [leNat]
  | cons b bs ih =>
    have hb := b.toNat_lt
    rw [leNat, List.length_cons, pow_succ]
    omega

theorem leNat_append (bs cs : List UInt8) :
    leNat (bs ++ cs) = leNat bs + 256 ^ bs.length * leNat cs := by
  induction bs with
  | nil => simp [leNat]
  | cons b bs ih =>
    rw [List.cons_append, leNat, leNat, ih, List.length_cons, pow_succ, Nat.mul_add,
      Nat.mul_comm _ 256, Nat.mul_assoc, Nat.add_assoc]

theorem leBytes_leNat (bs : List UInt8) : leBytes bs.length (leNat bs) = bs := by
  induction bs with
  | nil => rfl
  | cons b bs ih =>
    have hb := b.toNat_lt
    have hlow : UInt8.ofNat (b.toNat + 256 * leNat bs) = b := by
      apply UInt8.toNat_inj.mp
      rw [ofNat_toNat_mod]
      omega
    have hhigh : (b.toNat + 256 * leNat bs) / 256 = leNat bs := by omega
    rw [List.length_cons, leNat, leBytes, hlow, hhigh, ih]

theorem leBytes_inj {k a b : ℕ} (ha : a < 256 ^ k) (hb : b < 256 ^ k)
    (h : leBytes k a = leBytes k b) : a = b := by
  rw [← Nat.mod_eq_of_lt ha, ← Nat.mod_eq_of_lt hb, ← leNat_leBytes, ← leNat_leBytes, h]

/-! ## Digits and bits -/

theorem leNat_digit : ∀ {bs : List UInt8} {k : ℕ} {b : UInt8}, bs[k]? = some b →
    leNat bs / 256 ^ k % 256 = b.toNat
  | [], _, _, h => by simp at h
  | c :: bs, 0, b, h => by
      obtain rfl := Option.some.inj h
      have hc := c.toNat_lt
      rw [leNat, pow_zero, Nat.div_one]
      omega
  | c :: bs, k + 1, b, h => by
      have hc := c.toNat_lt
      have hrest : (c.toNat + 256 * leNat bs) / 256 = leNat bs := by omega
      rw [leNat, pow_succ', ← Nat.div_div_eq_div_mul, hrest]
      exact leNat_digit h

theorem leNat_eq_of_digits : ∀ {bs : List UInt8} {v : ℕ}, v < 256 ^ bs.length →
    (∀ k b, bs[k]? = some b → b.toNat = v / 256 ^ k % 256) → leNat bs = v
  | [], v, hv, _ => by
      rw [List.length_nil, pow_zero] at hv
      rw [leNat]
      omega
  | c :: bs, v, hv, h => by
      have hlow := h 0 c rfl
      rw [pow_zero, Nat.div_one] at hlow
      rw [List.length_cons, pow_succ] at hv
      have hhigh : leNat bs = v / 256 := by
        refine leNat_eq_of_digits (Nat.div_lt_of_lt_mul (by rwa [Nat.mul_comm])) fun k b hb => ?_
        rw [Nat.div_div_eq_div_mul, ← pow_succ']
        exact h (k + 1) b hb
      rw [leNat, hlow, hhigh, Nat.mod_add_div]

/-- Bit `j` of byte `k` is bit `8 * k + j` of the number. -/
theorem leNat_testBit {bs : List UInt8} {k : ℕ} {b : UInt8} (hb : bs[k]? = some b) {j : ℕ}
    (hj : j < 8) : (leNat bs).testBit (8 * k + j) = b.toBitVec.getLsbD j := by
  have hpow : 256 ^ k = 2 ^ (8 * k) := (pow_mul 2 8 k).symm
  have hdigit : (leNat bs / 2 ^ (8 * k) % 2 ^ 8).testBit j = b.toNat.testBit j :=
    congrArg (Nat.testBit · j) (hpow ▸ leNat_digit hb)
  rw [Nat.testBit_mod_two_pow, Nat.testBit_div_two_pow, decide_eq_true hj, Bool.true_and,
    Nat.add_comm] at hdigit
  exact hdigit

end SecureWorld.Foundations
