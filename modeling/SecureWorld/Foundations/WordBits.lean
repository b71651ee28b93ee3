import SecureWorld.Foundations.Loops
import Mathlib.Logic.Function.Basic

/-! # Sets of numbers packed in words

An array of 32-bit words holds a set of numbers: `n` is in it when bit `n % 32` of word `n / 32` is
set. `insert` and `erase` are the usual read-modify-writes of one word, `first` the scan for the
least member, word by word and then bit by bit.
-/
namespace SecureWorld.Foundations
set_option autoImplicit false

abbrev WordBits := ℕ → BitVec 32

namespace WordBits

def mem (s : WordBits) (n : ℕ) : Bool := (s (n / 32)).getLsbD (n % 32)

def insert (s : WordBits) (n : ℕ) : WordBits :=
  Function.update s (n / 32) (s (n / 32) ||| (1#32 <<< (n % 32)))

def erase (s : WordBits) (n : ℕ) : WordBits :=
  Function.update s (n / 32) (s (n / 32) &&& ~~~(1#32 <<< (n % 32)))

def firstInWord (s : WordBits) (w : ℕ) : Option ℕ :=
  (List.range 32).findSome? fun b => if s w &&& (1#32 <<< b) ≠ 0 then some (w * 32 + b) else none

/-- The least member below `32 * words`. -/
def first (s : WordBits) (words : ℕ) : Option ℕ :=
  (List.range words).findSome? fun w => if s w = 0 then none else firstInWord s w

/-! ## One bit of a word -/

theorem and_bit_ne_zero_iff (x : BitVec 32) {b : ℕ} (hb : b < 32) :
    x &&& (1#32 <<< b) ≠ 0 ↔ x.getLsbD b = true := by
  rw [← BitVec.twoPow_eq, BitVec.and_twoPow]
  by_cases hx : x.getLsbD b = true
  · have hpow : BitVec.twoPow 32 b ≠ 0 := by
      intro h
      have hbit := congrArg (fun y : BitVec 32 => y.getLsbD b) h
      simp [hb] at hbit
    rw [if_pos hx]
    exact ⟨fun _ => hx, fun _ => hpow⟩
  · simp [hx]

@[simp] theorem mem_insert (s : WordBits) (n m : ℕ) :
    (s.insert n).mem m = (decide (m = n) || s.mem m) := by
  have hmod : m % 32 < 32 := Nat.mod_lt m (by decide)
  unfold mem insert
  by_cases hword : m / 32 = n / 32
  · rw [hword, Function.update_self, BitVec.getLsbD_or, ← BitVec.twoPow_eq,
      BitVec.getLsbD_twoPow, Bool.or_comm]
    congr 1
    have hbit : (n % 32 = m % 32) ↔ m = n := by
      constructor
      · intro h
        omega
      · intro h
        rw [h]
    simp [Nat.mod_lt, hbit]
  · have hne : m ≠ n := fun h => hword (by rw [h])
    rw [Function.update_of_ne hword, decide_eq_false hne, Bool.false_or]

@[simp] theorem mem_erase (s : WordBits) (n m : ℕ) :
    (s.erase n).mem m = (decide (m ≠ n) && s.mem m) := by
  have hmod : m % 32 < 32 := Nat.mod_lt m (by decide)
  unfold mem erase
  by_cases hword : m / 32 = n / 32
  · rw [hword, Function.update_self, BitVec.getLsbD_and, BitVec.getLsbD_not, ← BitVec.twoPow_eq,
      BitVec.getLsbD_twoPow, Bool.and_comm]
    congr 1
    have hbit : (n % 32 = m % 32) ↔ m = n := by
      constructor
      · intro h
        omega
      · intro h
        rw [h]
    simp [Nat.mod_lt, hbit]
  · have hne : m ≠ n := fun h => hword (by rw [h])
    rw [Function.update_of_ne hword, decide_eq_true hne, Bool.true_and]

/-! ## The scan -/

theorem firstInWord_eq_some_iff (s : WordBits) (w k : ℕ) :
    firstInWord s w = some k ↔
      k / 32 = w ∧ s.mem k = true ∧ ∀ j < k, j / 32 = w → s.mem j = false := by
  have hbits : ∀ b < 32, s.mem (w * 32 + b) = (s w).getLsbD b := by
    intro b hb
    have hdiv : (w * 32 + b) / 32 = w := by omega
    have hmod : (w * 32 + b) % 32 = b := by omega
    rw [mem, hdiv, hmod]
  rw [firstInWord, findSome?_eq_some_of_pairwise (r := (· < ·)) (fun a b h => by omega)
    List.pairwise_lt_range]
  constructor
  · rintro ⟨b, hb, hk, hless⟩
    have hb' := List.mem_range.mp hb
    split_ifs at hk with hbit
    obtain rfl := Option.some.inj hk
    rw [and_bit_ne_zero_iff _ hb'] at hbit
    refine ⟨by omega, by rw [hbits b hb', hbit], fun j hj hword => ?_⟩
    have hj' : j = w * 32 + j % 32 := by omega
    have hnone := hless (j % 32) (List.mem_range.mpr (by omega)) (by omega)
    split_ifs at hnone with hset
    rw [and_bit_ne_zero_iff _ (by omega)] at hset
    rw [hj', hbits _ (by omega)]
    exact Bool.eq_false_iff.mpr hset
  · rintro ⟨hword, hmem, hless⟩
    have hk : k = w * 32 + k % 32 := by omega
    refine ⟨k % 32, List.mem_range.mpr (by omega), ?_, fun b hb hlt => ?_⟩
    · rw [hk, hbits _ (by omega)] at hmem
      rw [if_pos ((and_bit_ne_zero_iff _ (by omega)).mpr hmem), ← hk]
    · have hb' := List.mem_range.mp hb
      have hclear := hless (w * 32 + b) (by omega) (by omega)
      rw [hbits b hb'] at hclear
      rw [if_neg]
      rw [and_bit_ne_zero_iff _ hb', hclear]
      exact Bool.false_ne_true

theorem firstInWord_eq_none_iff (s : WordBits) (w : ℕ) :
    firstInWord s w = none ↔ ∀ j, j / 32 = w → s.mem j = false := by
  rw [firstInWord, List.findSome?_eq_none_iff]
  constructor
  · intro h j hj
    have hnone := h (j % 32) (List.mem_range.mpr (by omega))
    split_ifs at hnone with hset
    rw [and_bit_ne_zero_iff _ (by omega)] at hset
    rw [mem, hj]
    exact Bool.eq_false_iff.mpr hset
  · intro h b hb
    have hb' := List.mem_range.mp hb
    have hclear := h (w * 32 + b) (by omega)
    have hdiv : (w * 32 + b) / 32 = w := by omega
    have hmod : (w * 32 + b) % 32 = b := by omega
    rw [mem, hdiv, hmod] at hclear
    rw [if_neg]
    rw [and_bit_ne_zero_iff _ hb', hclear]
    exact Bool.false_ne_true

/-- A zero word is skipped; it has no member. -/
theorem firstInWord_of_zero {s : WordBits} {w : ℕ} (hw : s w = 0) : firstInWord s w = none := by
  rw [firstInWord_eq_none_iff]
  intro j hj
  rw [mem, hj, hw]
  exact BitVec.getLsbD_zero

theorem first_eq_findSome? (s : WordBits) (words : ℕ) :
    s.first words = (List.range words).findSome? (firstInWord s) := by
  unfold first
  congr 1
  funext w
  split_ifs with hw
  · exact (firstInWord_of_zero hw).symm
  · rfl

theorem first_eq_some_iff (s : WordBits) (words k : ℕ) :
    s.first words = some k ↔ k < 32 * words ∧ s.mem k = true ∧ ∀ j < k, s.mem j = false := by
  rw [first_eq_findSome?, findSome?_eq_some_of_pairwise (r := (· < ·)) (fun a b h => by omega)
    List.pairwise_lt_range]
  constructor
  · rintro ⟨w, hw, hk, hless⟩
    have hw' := List.mem_range.mp hw
    obtain ⟨hword, hmem, hbefore⟩ := (firstInWord_eq_some_iff s w k).mp hk
    refine ⟨by omega, hmem, fun j hj => ?_⟩
    by_cases hjw : j / 32 = w
    · exact hbefore j hj hjw
    · have hnone := hless (j / 32) (List.mem_range.mpr (by omega)) (by omega)
      exact (firstInWord_eq_none_iff s (j / 32)).mp hnone j rfl
  · rintro ⟨hk, hmem, hless⟩
    refine ⟨k / 32, List.mem_range.mpr (by omega), ?_, fun w hw hlt => ?_⟩
    · exact (firstInWord_eq_some_iff s _ k).mpr ⟨rfl, hmem, fun j hj _ => hless j hj⟩
    · exact (firstInWord_eq_none_iff s w).mpr fun j hj => hless j (by omega)

theorem first_eq_none_iff (s : WordBits) (words : ℕ) :
    s.first words = none ↔ ∀ k < 32 * words, s.mem k = false := by
  rw [first_eq_findSome?, List.findSome?_eq_none_iff]
  constructor
  · intro h k hk
    have hnone := h (k / 32) (List.mem_range.mpr (by omega))
    exact (firstInWord_eq_none_iff s (k / 32)).mp hnone k rfl
  · intro h w hw
    have hw' := List.mem_range.mp hw
    exact (firstInWord_eq_none_iff s w).mpr fun j hj => h j (by omega)

end WordBits
end SecureWorld.Foundations
