import Mathlib.Data.List.GetD
import SecureWorld.Foundations.LittleEndian

/-! # Byte-addressed memory

A memory gives each 64-bit address a byte; addresses wrap. `load` and `store` move little-endian
words. A store is seen by a load of the same word and by no load that shares no byte with it.
-/
namespace SecureWorld.Foundations
set_option autoImplicit false

abbrev Memory := BitVec 64 → UInt8

namespace Memory

/-- Address `b` is one of the `n` bytes from `a` on. -/
def Covers (a : BitVec 64) (n : ℕ) (b : BitVec 64) : Prop := (b - a).toNat < n

instance (a : BitVec 64) (n : ℕ) (b : BitVec 64) : Decidable (Covers a n b) :=
  inferInstanceAs (Decidable (_ < _))

def load (mem : Memory) (a : BitVec 64) (n : ℕ) : ℕ :=
  leNat ((List.range n).map fun k => mem (a + BitVec.ofNat 64 k))

def store (mem : Memory) (a : BitVec 64) (n v : ℕ) : Memory := fun b =>
  if Covers a n b then (leBytes n v).getD (b - a).toNat 0 else mem b

theorem add_sub_cancel_addr (a b : BitVec 64) : a + b - a = b := by
  rw [BitVec.add_comm, BitVec.add_sub_cancel]

theorem store_of_not_covers (mem : Memory) {a b : BitVec 64} {n : ℕ} (v : ℕ)
    (h : ¬ Covers a n b) : mem.store a n v b = mem b := if_neg h

theorem load_congr {mem mem' : Memory} {a : BitVec 64} {n : ℕ}
    (h : ∀ k < n, mem (a + BitVec.ofNat 64 k) = mem' (a + BitVec.ofNat 64 k)) :
    mem.load a n = mem'.load a n := by
  unfold load
  congr 1
  exact List.map_congr_left fun k hk => h k (List.mem_range.mp hk)

theorem load_lt (mem : Memory) (a : BitVec 64) (n : ℕ) : mem.load a n < 256 ^ n := by
  have h := leNat_lt ((List.range n).map fun k => mem (a + BitVec.ofNat 64 k))
  rwa [List.length_map, List.length_range] at h

/-- A shorter load gives the low bytes. -/
theorem load_mod (mem : Memory) (a : BitVec 64) {n m : ℕ} (h : n ≤ m) :
    mem.load a m % 256 ^ n = mem.load a n := by
  obtain ⟨k, rfl⟩ := Nat.exists_eq_add_of_le h
  have hlen : ((List.range n).map fun k => mem (a + BitVec.ofNat 64 k)).length = n := by simp
  rw [load, load, List.range_add, List.map_append, leNat_append, hlen, Nat.add_mul_mod_self_left,
    Nat.mod_eq_of_lt]
  exact mem.load_lt a n

theorem load_store_self (mem : Memory) (a : BitVec 64) {n v : ℕ} (hn : n < 2 ^ 64)
    (hv : v < 256 ^ n) : (mem.store a n v).load a n = v := by
  have hbytes : ((List.range n).map fun k => mem.store a n v (a + BitVec.ofNat 64 k)) =
      leBytes n v := by
    apply List.ext_getElem
    · simp
    · intro k hk hk'
      have hkn : k < n := by simpa using hk'
      have hoff : (a + BitVec.ofNat 64 k - a).toNat = k := by
        rw [add_sub_cancel_addr, BitVec.toNat_ofNat]
        exact Nat.mod_eq_of_lt (by omega)
      have hcov : Covers a n (a + BitVec.ofNat 64 k) := by rw [Covers, hoff]; exact hkn
      simp only [List.getElem_map, List.getElem_range, store, if_pos hcov, hoff]
      exact List.getD_eq_getElem _ _ hk'
  rw [load, hbytes, leNat_leBytes, Nat.mod_eq_of_lt hv]

theorem load_store_of_disjoint (mem : Memory) {a a' : BitVec 64} {n n' : ℕ} (v : ℕ)
    (h : ∀ k < n', ¬ Covers a n (a' + BitVec.ofNat 64 k)) :
    (mem.store a n v).load a' n' = mem.load a' n' :=
  load_congr fun k hk => store_of_not_covers mem v (h k hk)

/-! ## Byte lists in memory -/

/-- The bytes are in memory from `a` on. -/
def Holds (mem : Memory) (a : BitVec 64) (bs : List UInt8) : Prop :=
  ∀ k b, bs[k]? = some b → mem (a + BitVec.ofNat 64 k) = b

def write (mem : Memory) (a : BitVec 64) (bs : List UInt8) : Memory := fun b =>
  if Covers a bs.length b then bs.getD (b - a).toNat 0 else mem b

theorem Holds.load {mem : Memory} {a : BitVec 64} {bs : List UInt8} (h : mem.Holds a bs)
    {off n : ℕ} (hfits : off + n ≤ bs.length) :
    mem.load (a + BitVec.ofNat 64 off) n = leNat ((bs.drop off).take n) := by
  rw [Memory.load]
  refine congrArg leNat (List.ext_getElem? fun k => ?_)
  rw [List.getElem?_map, List.getElem?_take, List.getElem?_drop]
  by_cases hk : k < n
  · have hbyte : bs[off + k]? = some bs[off + k] := List.getElem?_eq_getElem (by omega)
    rw [List.getElem?_range hk, Option.map_some, if_pos hk, hbyte, BitVec.add_assoc,
      ← BitVec.ofNat_add, h _ _ hbyte]
  · rw [List.getElem?_eq_none (by simpa using hk), Option.map_none, if_neg hk]

theorem Holds.load_leBytes {mem : Memory} {a : BitVec 64} {n v : ℕ} (h : mem.Holds a (leBytes n v))
    (hv : v < 256 ^ n) : mem.load a n = v := by
  have hlen : (leBytes n v).length = n := leBytes_length n v
  have hload := h.load (show 0 + n ≤ (leBytes n v).length by omega)
  rw [BitVec.add_zero, List.drop_zero, List.take_of_length_le hlen.le,
    leNat_leBytes, Nat.mod_eq_of_lt hv] at hload
  exact hload

theorem Holds.append {mem : Memory} {a : BitVec 64} {bs cs : List UInt8} :
    mem.Holds a (bs ++ cs) ↔ mem.Holds a bs ∧ mem.Holds (a + BitVec.ofNat 64 bs.length) cs := by
  constructor
  · intro h
    refine ⟨fun k b hb => h k b ?_, fun k b hb => ?_⟩
    · rw [List.getElem?_append_left (List.getElem?_eq_some_iff.mp hb).1, hb]
    · rw [BitVec.add_assoc, ← BitVec.ofNat_add]
      apply h
      rw [List.getElem?_append_right (Nat.le_add_right _ _), Nat.add_sub_cancel_left, hb]
  · rintro ⟨hbs, hcs⟩ k b hb
    rcases Nat.lt_or_ge k bs.length with hk | hk
    · rw [List.getElem?_append_left hk] at hb
      exact hbs k b hb
    · rw [List.getElem?_append_right hk] at hb
      have hrest := hcs _ b hb
      rwa [BitVec.add_assoc, ← BitVec.ofNat_add, Nat.add_sub_cancel' hk] at hrest

theorem Holds.congr {mem mem' : Memory} {a : BitVec 64} {bs : List UInt8} (h : mem.Holds a bs)
    (hsame : ∀ b, Covers a bs.length b → mem' b = mem b) (hlen : bs.length < 2 ^ 64) :
    mem'.Holds a bs := by
  intro k b hb
  have hk : k < bs.length := (List.getElem?_eq_some_iff.mp hb).1
  rw [hsame, h k b hb]
  rw [Covers, add_sub_cancel_addr, BitVec.toNat_ofNat, Nat.mod_eq_of_lt (by omega)]
  exact hk

theorem holds_write (mem : Memory) (a : BitVec 64) {bs : List UInt8} (hlen : bs.length < 2 ^ 64) :
    (mem.write a bs).Holds a bs := by
  intro k b hb
  obtain ⟨hk, hget⟩ := List.getElem?_eq_some_iff.mp hb
  have hoff : (a + BitVec.ofNat 64 k - a).toNat = k := by
    rw [add_sub_cancel_addr, BitVec.toNat_ofNat, Nat.mod_eq_of_lt (by omega)]
  rw [write, if_pos (by rw [Covers, hoff]; exact hk), hoff, List.getD_eq_getElem _ _ hk, hget]

theorem write_of_not_covers (mem : Memory) {a b : BitVec 64} {bs : List UInt8}
    (h : ¬ Covers a bs.length b) : mem.write a bs b = mem b := if_neg h

end Memory
end SecureWorld.Foundations
