import Mathlib.Algebra.Order.Ring.Int
import Mathlib.Data.List.Basic
import Mathlib.Logic.Function.Basic

/-! # Ring buffers and the bounded queue they implement

A ring of capacity `n` is an array of cells with a read index and a fill count, both plain
integers as in C. `contents` is the queue it stands for, oldest element first; `push` and `pop`
refine appending at the end and removing at the front as long as the indices are in range
(`Bounded`), which both operations keep.
-/
namespace SecureWorld.Foundations
set_option autoImplicit false

structure RingBuffer (α : Type) where
  q : ℤ → α
  head : ℤ
  count : ℤ

namespace RingBuffer
variable {α : Type} (n : ℤ)

structure Bounded (r : RingBuffer α) : Prop where
  head_nonneg : 0 ≤ r.head
  head_lt : r.head < n
  count_nonneg : 0 ≤ r.count
  count_le : r.count ≤ n

def push (r : RingBuffer α) (x : α) : RingBuffer α :=
  { r with q := Function.update r.q ((r.head + r.count) % n) x, count := r.count + 1 }

def pop (r : RingBuffer α) : RingBuffer α :=
  { r with head := (r.head + 1) % n, count := r.count - 1 }

def contents (r : RingBuffer α) : List α :=
  (List.range r.count.toNat).map fun i : ℕ => r.q ((r.head + i) % n)

/-! ## Bounds -/

theorem Bounded.push {r : RingBuffer α} (h : r.Bounded n) (hc : r.count < n) (x : α) :
    (r.push n x).Bounded n where
  head_nonneg := h.head_nonneg
  head_lt := h.head_lt
  count_nonneg := by have := h.count_nonneg; simp only [RingBuffer.push]; omega
  count_le := by simp only [RingBuffer.push]; omega

theorem Bounded.pop {r : RingBuffer α} (h : r.Bounded n) (hc : 0 < r.count) :
    (r.pop n).Bounded n := by
  have hn : 0 < n := lt_of_lt_of_le hc h.count_le
  have := h.count_le
  exact ⟨Int.emod_nonneg _ (by omega), Int.emod_lt_of_pos _ hn,
    by simp only [RingBuffer.pop]; omega, by simp only [RingBuffer.pop]; omega⟩

/-! ## The queue behind the ring -/

/-- Offsets below the capacity name different cells. -/
theorem slot_ne {h i j : ℤ} (hij : i < j) (hj : j < n + i) : (h + i) % n ≠ (h + j) % n := by
  intro e
  have hd : (j - i) % n = 0 := by
    have h2 : (h + j - (h + i)) % n = 0 := Int.emod_eq_emod_iff_emod_sub_eq_zero.mp e.symm
    have h3 : h + j - (h + i) = j - i := by omega
    rwa [h3] at h2
  rw [Int.emod_eq_of_lt (by omega) (by omega)] at hd
  omega

theorem contents_push {r : RingBuffer α} (h : r.Bounded n) (hc : r.count < n) (x : α) :
    (r.push n x).contents n = r.contents n ++ [x] := by
  have h0 := h.count_nonneg
  have hlen : (r.count + 1).toNat = r.count.toNat + 1 := by omega
  simp only [contents, push, hlen, List.range_succ, List.map_append, List.map_cons, List.map_nil]
  congr 1
  · refine List.map_congr_left fun i hi => ?_
    have hi' := List.mem_range.mp hi
    exact Function.update_of_ne (slot_ne n (by omega) (by omega)) _ _
  · have hcast : ((r.count.toNat : ℕ) : ℤ) = r.count := Int.toNat_of_nonneg h0
    rw [hcast, Function.update_self]

/-- The front of a nonempty ring is the cell at the read index. -/
theorem contents_pop {r : RingBuffer α} (h : r.Bounded n) (hc : 0 < r.count) :
    r.contents n = r.q r.head :: (r.pop n).contents n := by
  have hlen : r.count.toNat = (r.count - 1).toNat + 1 := by omega
  simp only [contents, pop, hlen, List.range_succ_eq_map, List.map_cons, List.map_map]
  congr 1
  · rw [Nat.cast_zero, add_zero, Int.emod_eq_of_lt h.head_nonneg h.head_lt]
  · refine List.map_congr_left fun i _ => ?_
    have e : r.head + ((i + 1 : ℕ) : ℤ) = r.head + 1 + (i : ℤ) := by push_cast; omega
    simp only [Function.comp_apply, Nat.succ_eq_add_one, e, Int.emod_add_emod]

end RingBuffer
end SecureWorld.Foundations
