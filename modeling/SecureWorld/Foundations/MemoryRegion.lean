import Mathlib.Algebra.Order.Ring.Nat
import Mathlib.Data.List.Basic

/-! # Register access through QEMU's memory core

A device registers read and write callbacks with the access sizes it implements; the core executes
a wider guest access as several callbacks, low part first (`access_with_adjusted_size` on a
little-endian region). An `implMax` of 0 means unset, and then the core uses 4.
-/
namespace SecureWorld.Foundations
set_option autoImplicit false

structure MemoryRegionOps where
  validMin : ℕ
  validMax : ℕ
  implMin : ℕ
  implMax : ℕ

namespace MemoryRegionOps

def accessSizeMin (ops : MemoryRegionOps) : ℕ := if ops.implMin = 0 then 1 else ops.implMin

def accessSizeMax (ops : MemoryRegionOps) : ℕ := if ops.implMax = 0 then 4 else ops.implMax

/-- The size of the callbacks an access of `size` bytes is executed with. -/
def accessSize (ops : MemoryRegionOps) (size : ℕ) : ℕ :=
  max (min size ops.accessSizeMax) ops.accessSizeMin

/-- The byte offsets of these callbacks. -/
def accessOffsets (ops : MemoryRegionOps) (size : ℕ) : List ℕ :=
  (List.range ((size + ops.accessSize size - 1) / ops.accessSize size)).map (· * ops.accessSize size)

def accessMask (ops : MemoryRegionOps) (size : ℕ) : BitVec 64 :=
  BitVec.ofNat 64 (2 ^ (8 * ops.accessSize size) - 1)

variable {σ : Type}

def guestWrite (ops : MemoryRegionOps) (write : σ → BitVec 64 → BitVec 64 → σ) (s : σ)
    (off : BitVec 64) (size : ℕ) (val : BitVec 64) : σ :=
  (ops.accessOffsets size).foldl
    (fun s i => write s (off + BitVec.ofNat 64 i) ((val >>> (8 * i)) &&& ops.accessMask size)) s

def guestRead (ops : MemoryRegionOps) (read : σ → BitVec 64 → BitVec 64 × σ) (s : σ)
    (off : BitVec 64) (size : ℕ) : BitVec 64 × σ :=
  (ops.accessOffsets size).foldl
    (fun (v, s) i =>
      let (tmp, s') := read s (off + BitVec.ofNat 64 i)
      (v ||| ((tmp &&& ops.accessMask size) <<< (8 * i)), s')) (0, s)

end MemoryRegionOps
end SecureWorld.Foundations
