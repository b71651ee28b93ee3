import SecureWorld.Foundations.Utf8
import SecureWorld.Patcher.PyBytes

/-! # The segments of the kernelcache (`kc.py`)

The scripts of the experiments read the segments of the kernelcache in the order of the load
commands and translate between addresses and file offsets. On segments that share no address and
no byte of the file the two translations undo each other.
-/
namespace SecureWorld.Kernelcache
open Foundations Patcher
set_option autoImplicit false

inductive KcError
  /-- `struct.error` -/
  | struct
  /-- `UnicodeDecodeError` -/
  | unicode
  /-- `ValueError`: `min()` of nothing -/
  | empty
  /-- `TypeError`: `None` where a value is used -/
  | none
deriving DecidableEq

/-- `struct.unpack` of one field of `n` bytes. -/
def readField (D : Bytes) (off n : ℕ) : Except KcError ℕ :=
  if off + n ≤ D.length then .ok (field D off n) else .error .struct

theorem readField_ok {D : Bytes} {off n : ℕ} (h : off + n ≤ D.length) :
    readField D off n = .ok (field D off n) := if_pos h

structure KcSegment where
  name : List Char
  vm : ℕ
  vs : ℕ
  fo : ℕ
  fs : ℕ
deriving DecidableEq

/-- The segment command at `off`. -/
def readSegment (D : Bytes) (off : ℕ) : Except KcError KcSegment := do
  let some name := decodeUtf8 ((slice D (off + 8) (off + 24)).takeWhile (· ≠ 0))
    | throw .unicode
  let vm ← readField D (off + 24) 8
  let vs ← readField D (off + 32) 8
  let fo ← readField D (off + 40) 8
  let fs ← readField D (off + 48) 8
  return ⟨name, vm, vs, fo, fs⟩

def segmentsFrom (D : Bytes) : ℕ → ℕ → Except KcError (List KcSegment)
  | 0, _ => .ok []
  | n + 1, off => do
      let cmd ← readField D off 4
      let cmdsize ← readField D (off + 4) 4
      if cmd = 0x19 then
        let s ← readSegment D off
        let rest ← segmentsFrom D n (off + cmdsize)
        return s :: rest
      else segmentsFrom D n (off + cmdsize)

/-! ## Translating -/

def f2v (segs : List KcSegment) (f : ℕ) : Option ℕ :=
  (segs.find? fun s => s.fo ≤ f ∧ f < s.fo + s.fs).map fun s => s.vm + (f - s.fo)

/-- `none` for an address in no segment, and for one behind the file's part of its segment. -/
def v2f (segs : List KcSegment) (v : ℕ) : Option ℕ :=
  (segs.find? fun s => s.vm ≤ v ∧ v < s.vm + s.vs).bind fun s =>
    if v - s.vm < s.fs then some (s.fo + (v - s.vm)) else none

def segname (segs : List KcSegment) (v : ℕ) : List Char :=
  match segs.find? fun s => s.vm ≤ v ∧ v < s.vm + s.vs with
  | some s => s.name
  | none => ['?']

/-- No two segments share an address or a byte of the file, and no segment has more of the file than
of the address space. -/
structure SegmentsApart (segs : List KcSegment) : Prop where
  fits : ∀ s ∈ segs, s.fs ≤ s.vs
  addresses : segs.Pairwise fun s t => s.vm + s.vs ≤ t.vm ∨ t.vm + t.vs ≤ s.vm
  bytes : segs.Pairwise fun s t => s.fo + s.fs ≤ t.fo ∨ t.fo + t.fs ≤ s.fo

instance (segs : List KcSegment) : Decidable (SegmentsApart segs) :=
  decidable_of_iff ((∀ s ∈ segs, s.fs ≤ s.vs) ∧
    (segs.Pairwise fun s t => s.vm + s.vs ≤ t.vm ∨ t.vm + t.vs ≤ s.vm) ∧
    segs.Pairwise fun s t => s.fo + s.fs ≤ t.fo ∨ t.fo + t.fs ≤ s.fo)
    ⟨fun h => ⟨h.1, h.2.1, h.2.2⟩, fun h => ⟨h.1, h.2, h.3⟩⟩

/-- Among intervals of which no two overlap the first that holds a point is the only one. -/
theorem find?_of_apart {α : Type} {p : α → Bool} {r : α → α → Prop} {l : List α}
    (hl : l.Pairwise r) (hr : ∀ a b, r a b → p a → p b → False) {a : α} (ha : a ∈ l) (hp : p a) :
    l.find? p = some a := by
  induction l with
  | nil => exact absurd ha List.not_mem_nil
  | cons b l ih =>
    obtain ⟨hb, hl⟩ := List.pairwise_cons.mp hl
    rw [List.find?_cons]
    cases hpb : p b with
    | true =>
      rcases List.mem_cons.mp ha with rfl | hmem
      · rfl
      · exact (hr b a (hb a hmem) hpb hp).elim
    | false =>
      rcases List.mem_cons.mp ha with rfl | hmem
      · rw [hp] at hpb
        exact absurd hpb (by decide)
      · exact ih hl hmem

section Apart
variable {segs : List KcSegment} (h : SegmentsApart segs)
include h

theorem v2f_of_mem {s : KcSegment} (hs : s ∈ segs) {k : ℕ} (hk : k < s.fs) :
    v2f segs (s.vm + k) = some (s.fo + k) := by
  have hfits := h.fits s hs
  have hfind : segs.find? (fun t => t.vm ≤ s.vm + k ∧ s.vm + k < t.vm + t.vs) = some s := by
    refine find?_of_apart h.addresses (fun a b hab ha hb => ?_) hs ?_
    · rw [decide_eq_true_eq] at ha hb
      omega
    · rw [decide_eq_true_eq]
      omega
  rw [v2f, hfind, Option.bind_some, Nat.add_sub_cancel_left, if_pos hk]

theorem f2v_of_mem {s : KcSegment} (hs : s ∈ segs) {k : ℕ} (hk : k < s.fs) :
    f2v segs (s.fo + k) = some (s.vm + k) := by
  have hfind : segs.find? (fun t => t.fo ≤ s.fo + k ∧ s.fo + k < t.fo + t.fs) = some s := by
    refine find?_of_apart h.bytes (fun a b hab ha hb => ?_) hs ?_
    · rw [decide_eq_true_eq] at ha hb
      omega
    · rw [decide_eq_true_eq]
      omega
  rw [f2v, hfind, Option.map_some, Nat.add_sub_cancel_left]

/-- An offset and an address are translations of each other, in both directions at once. -/
theorem v2f_eq_some_iff (v f : ℕ) : v2f segs v = some f ↔ f2v segs f = some v := by
  constructor
  · intro hv
    obtain ⟨s, hs, hf⟩ := Option.bind_eq_some_iff.mp hv
    have hin := List.find?_some hs
    rw [decide_eq_true_eq] at hin
    rw [Option.ite_none_right_eq_some, Option.some_inj] at hf
    obtain ⟨hlt, rfl⟩ := hf
    have hback := f2v_of_mem h (List.mem_of_find?_eq_some hs) hlt
    rwa [Nat.add_sub_cancel' hin.1] at hback
  · intro hf
    obtain ⟨s, hs, rfl⟩ := Option.map_eq_some_iff.mp hf
    have hin := List.find?_some hs
    rw [decide_eq_true_eq] at hin
    have hback := v2f_of_mem h (List.mem_of_find?_eq_some hs) (show f - s.fo < s.fs by omega)
    rwa [Nat.add_sub_cancel' hin.1] at hback

end Apart
end SecureWorld.Kernelcache
