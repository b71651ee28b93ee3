import SecureWorld.Foundations.DyldStarts
import SecureWorld.Kernelcache.SegmentMap

/-! # The layout of the kernelcache's fixups

Load commands, chain starts and pointers (`DYLD_CHAINED_PTR_64_KERNEL_CACHE`) as they lie in the
file, with no use of what a script makes of them.
-/
namespace SecureWorld.Kernelcache
open Foundations Patcher
set_option autoImplicit false

/-! ## Fields -/

/-- The `n` bytes of the file from `off` on are those of `v`, the lowest first. -/
def HoldsField (D : Bytes) (off n v : ℕ) : Prop :=
  v < 256 ^ n ∧ (D.drop off).take n = leBytes n v

theorem readField_eq_ok_iff {D : Bytes} {off n v : ℕ} (hn : 0 < n) :
    readField D off n = .ok v ↔ HoldsField D off n v := by
  have hlen : ((D.drop off).take n).length = min n (D.length - off) := by
    rw [List.length_take, List.length_drop]
  rw [readField, field]
  constructor
  · intro h
    split_ifs at h with hfits
    have hwhole : ((D.drop off).take n).length = n := by omega
    obtain rfl := Except.ok.inj h
    have hlt := leNat_lt ((D.drop off).take n)
    have hbytes := leBytes_leNat ((D.drop off).take n)
    rw [hwhole] at hlt hbytes
    exact ⟨hlt, hbytes.symm⟩
  · rintro ⟨hlt, hbytes⟩
    rw [hbytes, leBytes_length] at hlen
    rw [if_pos (by omega), hbytes, leNat_leBytes, Nat.mod_eq_of_lt hlt]

theorem HoldsField.unique {D : Bytes} {off n v w : ℕ} (hv : HoldsField D off n v)
    (hw : HoldsField D off n w) : v = w := leBytes_inj hv.1 hw.1 (hv.2.symm.trans hw.2)

/-! ## Load commands -/

/-- Load command `i` behind `start` is at `off`; each starts where the one before ends. -/
inductive CommandAt (D : Bytes) : ℕ → ℕ → ℕ → Prop
  | first {start : ℕ} : CommandAt D start 0 start
  | behind {start size i off : ℕ} (hsize : HoldsField D (start + 4) 4 size)
      (h : CommandAt D (start + size) i off) : CommandAt D start (i + 1) off

/-- `LC_DYLD_CHAINED_FIXUPS` -/
def IsFixupsCommand (D : Bytes) (off : ℕ) : Prop := HoldsField D off 4 0x80000034

/-- Of the `n` commands behind `start` the last `LC_DYLD_CHAINED_FIXUPS` has its data at `fx`. -/
def LastFixups (D : Bytes) (start n fx : ℕ) : Prop :=
  ∃ i < n, ∃ off, CommandAt D start i off ∧ IsFixupsCommand D off ∧ HoldsField D (off + 8) 4 fx ∧
    ∀ j < n, i < j → ∀ off', CommandAt D start j off' → ¬ IsFixupsCommand D off'

/-! ## Chain starts -/

/-- The chain starts of a segment, as offsets in the file. -/
def startsIn (seg : DyldSegment) : List ℕ :=
  seg.pageStarts.zipIdx.filterMap fun (start, pi) =>
    start.map fun s => seg.segmentOffset + pi * seg.pageSize + s

def tableStarts (table : List (Option DyldSegment)) : List ℕ :=
  table.flatMap fun entry => (entry.map startsIn).getD []

/-! ## Pointers -/

/-- Bit `i` of the slot at `off`; bytes behind the end of the file count as 0. -/
def wordBit (D : Bytes) (off i : ℕ) : Bool := (D[off + i / 8]?.getD 0).toBitVec.getLsbD (i % 8)

/-- Bits 51 to 62 count the steps of four bytes to the next slot. -/
def Link (D : Bytes) (off n : ℕ) : Prop := BitField (wordBit D off) 51 12 n

/-- Bits 0 to 29 are the target's offset in the image. -/
def PointsTo (D : Bytes) (off t : ℕ) : Prop := BitField (wordBit D off) 0 30 t

/-- Bit 63 marks a signed pointer. -/
def IsSigned (D : Bytes) (off n : ℕ) : Prop := BitField (wordBit D off) 63 1 n

theorem field_testBit (D : Bytes) (off : ℕ) {i : ℕ} (hi : i < 64) :
    (field D off 8).testBit i = wordBit D off i := by
  have hbyte : ((D.drop off).take 8)[i / 8]? = D[off + i / 8]? := by
    rw [List.getElem?_take, if_pos (by omega), List.getElem?_drop]
  rw [field, wordBit]
  cases hb : D[off + i / 8]? with
  | some b =>
    have hbit := leNat_testBit (hbyte.trans hb) (Nat.mod_lt i (by decide))
    rwa [Nat.div_add_mod] at hbit
  | none =>
    -- no digit of the number comes from behind the end
    have hlen : ((D.drop off).take 8).length ≤ i / 8 :=
      List.getElem?_eq_none_iff.mp (hbyte.trans hb)
    have hlt : leNat ((D.drop off).take 8) < 2 ^ i := by
      refine (leNat_lt _).trans_le ?_
      rw [show 256 = 2 ^ 8 from rfl, ← pow_mul]
      exact Nat.pow_le_pow_right (by decide) (by omega)
    rw [Nat.testBit_lt_two_pow hlt]
    exact (BitVec.getLsbD_zero).symm

end SecureWorld.Kernelcache
