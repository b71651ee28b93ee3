import Mathlib.Data.List.Basic
import Mathlib.Data.List.Range

/-! # Chains threaded by strides

Each record of `w` bytes says how many bytes on the next one starts, or 0 at the end. A chain that
stays below a bound ends, and its records come in ascending order and share no byte.
-/
namespace SecureWorld.Foundations
set_option autoImplicit false

variable (stride : ℕ → ℕ)

/-- The record at `off` lies on the chain from `start`. -/
inductive OnChain (start : ℕ) : ℕ → Prop
  | start : OnChain start start
  | next {off : ℕ} (on : OnChain start off) (h : stride off ≠ 0) : OnChain start (off + stride off)

/-- The chain from its first argument on, as a list of offsets. -/
inductive Chain : ℕ → List ℕ → Prop
  | last {off : ℕ} (h : stride off = 0) : Chain off [off]
  | link {off : ℕ} {rest : List ℕ} (h : stride off ≠ 0) (chain : Chain (off + stride off) rest) :
      Chain off (off :: rest)

variable {stride}

theorem OnChain.of_next {start off : ℕ} (h : stride start ≠ 0)
    (on : OnChain stride (start + stride start) off) : OnChain stride start off := by
  induction on with
  | start => exact .next .start h
  | next _ hs ih => exact .next ih hs

theorem OnChain.eq_or_of_next {start off : ℕ} (on : OnChain stride start off) :
    off = start ∨ stride start ≠ 0 ∧ OnChain stride (start + stride start) off := by
  induction on with
  | start => exact .inl rfl
  | next _ hs ih =>
    rcases ih with rfl | ⟨h, ih⟩
    · exact .inr ⟨hs, .start⟩
    · exact .inr ⟨h, .next ih hs⟩

theorem Chain.mem_iff {start : ℕ} {offs : List ℕ} (c : Chain stride start offs) (off : ℕ) :
    off ∈ offs ↔ OnChain stride start off := by
  induction c with
  | @last o h =>
    rw [List.mem_singleton]
    refine ⟨fun e => e ▸ .start, fun on => ?_⟩
    rcases on.eq_or_of_next with e | ⟨hne, _⟩
    · exact e
    · exact absurd h hne
  | @link o rest h _ ih =>
    rw [List.mem_cons, ih]
    constructor
    · rintro (rfl | on)
      · exact .start
      · exact on.of_next h
    · intro on
      exact on.eq_or_of_next.imp_right And.right

theorem OnChain.start_le {start off : ℕ} (on : OnChain stride start off) : start ≤ off := by
  induction on with
  | start => exact le_rfl
  | next _ _ ih => exact ih.trans (Nat.le_add_right _ _)

section Width
variable {w : ℕ} (hw : ∀ off, stride off ≠ 0 → w ≤ stride off)
include hw

theorem Chain.pairwise {start : ℕ} {offs : List ℕ} (c : Chain stride start offs) :
    offs.Pairwise (fun a b => a + w ≤ b) := by
  induction c with
  | last _ => exact List.pairwise_singleton _ _
  | @link o rest h c ih =>
    refine List.pairwise_cons.mpr ⟨fun b hb => ?_, ih⟩
    have hstart := ((c.mem_iff b).mp hb).start_le
    have hstep := hw o h
    omega

/-- A chain below `hi` ends; the distance to `hi` goes down by at least `w` with each record. -/
theorem Chain.exists_of_bounded (hpos : 0 < w) (hi : ℕ) :
    ∀ (n start : ℕ), hi - start ≤ n → (∀ off, OnChain stride start off → off + w ≤ hi) →
      ∃ offs, Chain stride start offs
  | n, start, hn, hbound => by
      have hstart := hbound start .start
      by_cases h : stride start = 0
      · exact ⟨[start], .last h⟩
      · have hstep := hw start h
        have hnext := hbound _ (.next .start h)
        match n with
        | 0 => omega
        | n + 1 =>
          obtain ⟨rest, hc⟩ := Chain.exists_of_bounded hpos hi n (start + stride start)
            (by omega) (fun off on => hbound off (on.of_next h))
          exact ⟨start :: rest, .link h hc⟩

end Width

/-- Records that share no byte take up their total width. -/
theorem length_mul_le_of_pairwise {w lo hi : ℕ} :
    ∀ {offs : List ℕ}, offs.Pairwise (fun a b => a + w ≤ b) →
      (∀ o ∈ offs, lo ≤ o ∧ o + w ≤ hi) → offs.length * w ≤ hi - lo
  | [], _, _ => by simp
  | off :: offs, hpair, hin => by
      obtain ⟨habove, hpair⟩ := List.pairwise_cons.mp hpair
      obtain ⟨hlo, hhi⟩ := hin off List.mem_cons_self
      have hrest := length_mul_le_of_pairwise hpair fun o ho =>
        ⟨habove o ho, (hin o (List.mem_cons_of_mem _ ho)).2⟩
      rw [List.length_cons, Nat.add_mul, Nat.one_mul]
      omega

end SecureWorld.Foundations
