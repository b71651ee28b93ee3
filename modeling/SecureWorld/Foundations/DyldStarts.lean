import Mathlib.Data.Nat.Bitwise
import SecureWorld.Foundations.LittleEndian
import SecureWorld.Foundations.StrideChain

/-! # Chained fixups as dyld lays them out

The table of chain starts and the chains themselves, over any predicate that says which bytes hold
a number and which bits a link. What reads a field as the number it holds reads the table as it was
laid out.
-/
namespace SecureWorld.Foundations
set_option autoImplicit false

/-! ## Bit fields -/

/-- Bits `lo` to `lo + width - 1` are those of the number `v`. -/
def BitField (bit : ℕ → Bool) (lo width v : ℕ) : Prop :=
  v < 2 ^ width ∧ ∀ i < width, v.testBit i = bit (lo + i)

section BitField
variable {bit : ℕ → Bool} {lo width : ℕ}

theorem BitField.unique {v w : ℕ} (hv : BitField bit lo width v) (hw : BitField bit lo width w) :
    v = w := by
  refine Nat.eq_of_testBit_eq fun i => ?_
  by_cases hi : i < width
  · rw [hv.2 i hi, hw.2 i hi]
  · have hpow : 2 ^ width ≤ 2 ^ i := Nat.pow_le_pow_right (by decide) (Nat.not_lt.mp hi)
    rw [Nat.testBit_lt_two_pow (hv.1.trans_le hpow), Nat.testBit_lt_two_pow (hw.1.trans_le hpow)]

/-- A shift and a mask read the field. -/
theorem bitField_shift_and {x : ℕ} (hx : ∀ i < width, x.testBit (lo + i) = bit (lo + i)) :
    BitField bit lo width ((x >>> lo) &&& (2 ^ width - 1)) := by
  constructor
  · rw [Nat.and_two_pow_sub_one_eq_mod]
    exact Nat.mod_lt _ (Nat.two_pow_pos width)
  · intro i hi
    rw [Nat.testBit_and, Nat.testBit_shiftRight, Nat.testBit_two_pow_sub_one, decide_eq_true hi,
      Bool.and_true, hx i hi]

end BitField

/-! ## The starts table -/

/-- `dyld_chained_starts_in_segment`; a page without a chain has no start. -/
structure DyldSegment where
  pageSize : ℕ
  segmentOffset : ℕ
  pageStarts : List (Option ℕ)

section Table
-- `isField off n v`: the `n` bytes from `off` on hold `v`
variable (isField : ℕ → ℕ → ℕ → Prop)

structure SegmentLaidOut (off : ℕ) (seg : DyldSegment) : Prop where
  pageSize : isField (off + 4) 2 seg.pageSize
  segmentOffset : isField (off + 8) 8 seg.segmentOffset
  pageCount : isField (off + 20) 2 seg.pageStarts.length
  pageStart : ∀ pi (start : Option ℕ), seg.pageStarts[pi]? = some start →
    isField (off + 22 + 2 * pi) 2 (start.getD 0xFFFF)
  start_ne : some 0xFFFF ∉ seg.pageStarts

/-- `dyld_chained_starts_in_image` at `si`. A segment without chains has offset 0. -/
structure StartsLaidOut (si : ℕ) (table : List (Option DyldSegment)) : Prop where
  segCount : isField si 4 table.length
  absent : ∀ sg, table[sg]? = some none → isField (si + 4 + 4 * sg) 4 0
  present : ∀ sg seg, table[sg]? = some (some seg) → ∃ off ≠ 0,
    isField (si + 4 + 4 * sg) 4 off ∧ SegmentLaidOut isField (si + off) seg

end Table

/-! ## Chains -/

/-- The slot at `off` is on the chain that starts at `start`. `link off n`: the next one starts `n`
units of `unit` bytes on, and with `n = 0` there is none. -/
inductive OnDyldChain (link : ℕ → ℕ → Prop) (unit start : ℕ) : ℕ → Prop
  | start : OnDyldChain link unit start start
  | next {off n : ℕ} (on : OnDyldChain link unit start off) (hlink : link off n) (hn : n ≠ 0) :
      OnDyldChain link unit start (off + unit * n)

/-- A reader that takes each link for what it is walks the chain. -/
theorem onDyldChain_iff {link : ℕ → ℕ → Prop} {unit : ℕ} (next : ℕ → ℕ) (hunit : unit ≠ 0)
    (hlink : ∀ off n, link off n ↔ next off = n) {start off : ℕ} :
    OnDyldChain link unit start off ↔ OnChain (fun o => unit * next o) start off := by
  constructor
  · intro on
    induction on with
    | start => exact .start
    | @next off n _ hnext hn ih =>
      obtain rfl := (hlink off n).mp hnext
      exact ih.next (Nat.mul_ne_zero hunit hn)
  · intro on
    induction on with
    | start => exact .start
    | @next off _ hstride ih =>
      exact ih.next ((hlink off (next off)).mpr rfl) (Nat.ne_zero_of_mul_ne_zero_right hstride)

/-- The chain from its first argument on, as a list of offsets. -/
inductive DyldChain (link : ℕ → ℕ → Prop) (unit : ℕ) : ℕ → List ℕ → Prop
  | last {off : ℕ} (hlink : link off 0) : DyldChain link unit off [off]
  | next {off n : ℕ} {rest : List ℕ} (hlink : link off n) (hn : n ≠ 0)
      (chain : DyldChain link unit (off + unit * n) rest) : DyldChain link unit off (off :: rest)

theorem dyldChain_of_chain {link : ℕ → ℕ → Prop} {unit : ℕ} {next : ℕ → ℕ} (hunit : unit ≠ 0)
    (hlink : ∀ off, link off (next off)) {start : ℕ} {offs : List ℕ}
    (c : Chain (fun o => unit * next o) start offs) : DyldChain link unit start offs := by
  induction c with
  | @last off h =>
    have hzero : next off = 0 := (Nat.mul_eq_zero.mp h).resolve_left hunit
    exact .last (hzero ▸ hlink off)
  | @link off rest h _ ih => exact .next (hlink off) (Nat.ne_zero_of_mul_ne_zero_right h) ih

end SecureWorld.Foundations
