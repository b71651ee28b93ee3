import SecureWorld.Foundations.LittleEndian
import SecureWorld.Foundations.Loops

/-! # The bytearray of an image

Reads and writes of little-endian fields as `struct` does them: a field that does not lie in the
data raises. Slices are cut off at the end of the data.
-/
namespace SecureWorld.Patcher
open Foundations
set_option autoImplicit false

inductive PyError
  /-- `struct.error` -/
  | struct
  /-- `UnicodeDecodeError` -/
  | unicode
deriving DecidableEq

theorem ok_bind {α β : Type} (a : α) (f : α → Except PyError β) : (Except.ok a >>= f) = f a := rfl

abbrev Bytes := List UInt8

/-- `data[a:b]` -/
def slice (data : Bytes) (a b : ℕ) : Bytes := (data.take b).drop a

/-- The `n`-byte field at `off`. -/
def field (data : Bytes) (off n : ℕ) : ℕ := leNat ((data.drop off).take n)

def wordAt (data : Bytes) (off : ℕ) : BitVec 32 := BitVec.ofNat 32 (field data off 4)

/-- `struct.unpack_from("<I", data, off)` -/
def unpackI (data : Bytes) (off : ℕ) : Except PyError (BitVec 32) :=
  if off + 4 ≤ data.length then .ok (wordAt data off) else .error .struct

/-- `struct.unpack_from("<Q", data, off)` -/
def unpackQ (data : Bytes) (off : ℕ) : Except PyError ℕ :=
  if off + 8 ≤ data.length then .ok (field data off 8) else .error .struct

/-- `struct.pack_into("<I", data, off, w)` -/
def packI (data : Bytes) (off : ℕ) (w : BitVec 32) : Except PyError Bytes :=
  if off + 4 ≤ data.length then
    .ok (data.take off ++ leBytes 4 w.toNat ++ data.drop (off + 4))
  else .error .struct

theorem unpackI_ok {data : Bytes} {off : ℕ} (h : off + 4 ≤ data.length) :
    unpackI data off = .ok (wordAt data off) := if_pos h

theorem slice_length (data : Bytes) (a b : ℕ) :
    (slice data a b).length = min b data.length - a := by
  rw [slice, List.length_drop, List.length_take]

/-- Inside a slice, fields are those of the whole data. -/
theorem field_slice {data : Bytes} {a b off n : ℕ} (h : off + n ≤ (slice data a b).length) :
    field (slice data a b) off n = field data (a + off) n := by
  rw [slice_length] at h
  unfold field slice
  rw [List.drop_drop, List.drop_take, List.take_take, Nat.min_eq_left (by omega)]

theorem wordAt_slice {data : Bytes} {a b off : ℕ} (h : off + 4 ≤ (slice data a b).length) :
    wordAt (slice data a b) off = wordAt data (a + off) := by
  rw [wordAt, field_slice h, wordAt]

/-! ## Frames -/

theorem field_congr {a b : Bytes} {off n : ℕ} (h : ∀ k < n, a[off + k]? = b[off + k]?) :
    field a off n = field b off n := by
  unfold field
  refine congrArg leNat (List.ext_getElem? fun k => ?_)
  rw [List.getElem?_take, List.getElem?_take]
  by_cases hk : k < n
  · rw [if_pos hk, if_pos hk, List.getElem?_drop, List.getElem?_drop, h k hk]
  · rw [if_neg hk, if_neg hk]

theorem wordAt_congr {a b : Bytes} {off : ℕ} (h : ∀ k < 4, a[off + k]? = b[off + k]?) :
    wordAt a off = wordAt b off := congrArg _ (field_congr h)

theorem leBytes_wordAt {data : Bytes} {off : ℕ} (h : off + 4 ≤ data.length) :
    leBytes 4 (wordAt data off).toNat = (data.drop off).take 4 := by
  have hlen : ((data.drop off).take 4).length = 4 := by
    rw [List.length_take, List.length_drop]
    omega
  have hlt : field data off 4 < 2 ^ 32 := by
    have hfield := leNat_lt ((data.drop off).take 4)
    rwa [hlen] at hfield
  have hword := leBytes_leNat ((data.drop off).take 4)
  rw [wordAt, BitVec.toNat_ofNat, Nat.mod_eq_of_lt hlt]
  rwa [hlen] at hword

/-- A packed word is read back and no byte outside it changes. -/
theorem packI_spec {data : Bytes} {off : ℕ} (h : off + 4 ≤ data.length) (w : BitVec 32) :
    ∃ out, packI data off w = .ok out ∧ out.length = data.length ∧ wordAt out off = w ∧
      ∀ i, i < off ∨ off + 4 ≤ i → out[i]? = data[i]? := by
  have htake : (data.take off).length = off := by rw [List.length_take]; omega
  have hbytes : (leBytes 4 w.toNat).length = 4 := leBytes_length 4 _
  refine ⟨_, if_pos h, ?_, ?_, fun i hi => ?_⟩
  · rw [List.length_append, List.length_append, htake, hbytes, List.length_drop]
    omega
  · have hfield : ((data.take off ++ leBytes 4 w.toNat ++ data.drop (off + 4)).drop off).take 4 =
        leBytes 4 w.toNat := by
      rw [List.append_assoc, List.drop_left' htake, List.take_left' hbytes]
    have hw : w.toNat < 256 ^ 4 := w.isLt
    rw [wordAt, field, hfield, leNat_leBytes, Nat.mod_eq_of_lt hw, BitVec.ofNat_toNat,
      BitVec.setWidth_eq]
  · rcases hi with hlt | hge
    · rw [List.append_assoc, List.getElem?_append_left (by omega), List.getElem?_take, if_pos hlt]
    · rw [List.getElem?_append_right (by rw [List.length_append]; omega), List.length_append, htake,
        hbytes, List.getElem?_drop]
      congr 1
      omega

/-- The words `ws` are in the data from `base` on. -/
structure Lays (data : Bytes) (base : ℕ) (ws : List (BitVec 32)) : Prop where
  fits : base + 4 * ws.length ≤ data.length
  word : ∀ (k : ℕ) (hk : k < ws.length), wordAt data (base + 4 * k) = ws[k]

end SecureWorld.Patcher
