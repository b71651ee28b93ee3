import SecureWorld.Foundations.StrideChain
import SecureWorld.Loader.ChainedFixups

/-! # What the loader's loops leave in memory

`Rewritten offs s`: the loader is in state `s` after visiting exactly the slots `offs`, each once,
each with the value computed from the memory the walk began with. Slots are visited in ascending
order, so a fresh slot is still unwritten when its link is read.
-/
namespace SecureWorld.Loader
open Foundations
set_option autoImplicit false

variable (rxPhys rwPhys lePhys : BitVec 64) (mem : Memory)

/-- The fixup of the slot at `off` as the initial memory asks for it. -/
def fixupAt (off : ℕ) : FixupWrite :=
  let slot := slotAt rwPhys off
  let raw := rawAt mem slot
  ⟨slot, raw, rebase rxPhys rwPhys lePhys (targetOf raw)⟩

/-- Bytes from the slot at `off` to the next one on its chain. -/
def strideAt (off : ℕ) : ℕ := 8 * (nextOf (rawAt mem (slotAt rwPhys off))).toNat

structure Rewritten (offs : List ℕ) (s : FixupState) : Prop where
  writes : s.writes = offs.map (fixupAt rxPhys rwPhys lePhys mem)
  applied : s.applied = BitVec.ofNat 32 offs.length
  loads : ∀ off ∈ offs,
    s.mem.load (slotAt rwPhys off) 8 = (fixupAt rxPhys rwPhys lePhys mem off).value.toNat
  frame : ∀ a, (∀ off ∈ offs, ¬ Memory.Covers (slotAt rwPhys off) 8 a) → s.mem a = mem a

/-! ## Slots that share no byte -/

/-- 16-bit pages of 16-bit size keep the slots' offsets in 32 bits. -/
def offLimit : ℕ := 2 ^ 32

theorem slot_not_covers {off off' k : ℕ} (hoff : off + 8 ≤ offLimit) (hoff' : off' + 8 ≤ offLimit)
    (hk : k < 8) (h : off + 8 ≤ off' ∨ off' + 8 ≤ off) :
    ¬ Memory.Covers (slotAt rwPhys off) 8 (slotAt rwPhys off' + BitVec.ofNat 64 k) := by
  unfold Memory.Covers slotAt
  rw [offLimit] at hoff hoff'
  bv_omega

theorem rewritten_init : Rewritten rxPhys rwPhys lePhys mem [] (.init mem) :=
  ⟨rfl, rfl, fun _ h => absurd h List.not_mem_nil, fun _ _ => rfl⟩

variable {rxPhys rwPhys lePhys mem}

/-- A slot above every visited one still holds its original word. -/
theorem Rewritten.rawAt_fresh {offs : List ℕ} {s : FixupState}
    (h : Rewritten rxPhys rwPhys lePhys mem offs s) {off : ℕ} (hlim : off + 8 ≤ offLimit)
    (hfresh : ∀ o ∈ offs, o + 8 ≤ off) :
    rawAt s.mem (slotAt rwPhys off) = rawAt mem (slotAt rwPhys off) := by
  refine congrArg (BitVec.ofNat 64) (Memory.load_congr fun k hk => h.frame _ fun o ho => ?_)
  have hle := hfresh o ho
  exact slot_not_covers rwPhys (by omega) hlim hk (.inl hle)

theorem Rewritten.fixSlot {offs : List ℕ} {s : FixupState}
    (h : Rewritten rxPhys rwPhys lePhys mem offs s) {off : ℕ} (hlim : off + 8 ≤ offLimit)
    (hfresh : ∀ o ∈ offs, o + 8 ≤ off) :
    Rewritten rxPhys rwPhys lePhys mem (offs ++ [off])
      (fixSlot rxPhys rwPhys lePhys s (slotAt rwPhys off)) := by
  have hraw := h.rawAt_fresh hlim hfresh
  refine ⟨?_, ?_, ?_, ?_⟩
  · rw [List.map_append, ← h.writes]
    simp only [Loader.fixSlot, hraw, List.map_cons, List.map_nil, fixupAt]
  · rw [List.length_append, List.length_singleton, BitVec.ofNat_add, ← h.applied]
    rfl
  · intro o ho
    rcases List.mem_append.mp ho with ho | ho
    · have hle := hfresh o ho
      rw [← h.loads o ho]
      exact Memory.load_store_of_disjoint _ _ fun k hk =>
        slot_not_covers rwPhys hlim (by omega) hk (.inr hle)
    · obtain rfl := List.mem_singleton.mp ho
      simp only [Loader.fixSlot, hraw]
      exact Memory.load_store_self _ _ (by omega) (BitVec.isLt _)
  · intro a ha
    have hnew := ha off (List.mem_append_right _ List.mem_cons_self)
    have hold := h.frame a fun o ho => ha o (List.mem_append_left _ ho)
    exact (Memory.store_of_not_covers s.mem _ hnew).trans hold

/-! ## One chain -/

theorem stride_ge (off : ℕ) (h : strideAt rwPhys mem off ≠ 0) : 8 ≤ strideAt rwPhys mem off := by
  unfold strideAt at h ⊢
  omega

theorem slot_of_offset (off : ℕ) : rwPhys + BitVec.ofNat 64 off = slotAt rwPhys off := rfl

theorem advance_offset (off : ℕ) :
    BitVec.ofNat 64 off + nextOf (rawAt mem (slotAt rwPhys off)) * 8 =
      BitVec.ofNat 64 (off + strideAt rwPhys mem off) := by
  rw [BitVec.ofNat_add, strideAt, Nat.mul_comm, BitVec.ofNat_mul, BitVec.ofNat_toNat,
    BitVec.setWidth_eq]
  rfl

theorem stride_eq_zero_iff (off : ℕ) :
    strideAt rwPhys mem off = 0 ↔ nextOf (rawAt mem (slotAt rwPhys off)) = 0 := by
  rw [strideAt, Nat.mul_eq_zero, ← BitVec.toNat_inj]
  exact or_iff_right (by decide)

/-- The loop visits the chain and stops, on any fuel that covers the chain's length. -/
theorem walkChain_rewrites {start : ℕ} {chain : List ℕ}
    (hc : Chain (strideAt rwPhys mem) start chain) :
    ∀ {offs : List ℕ} {s : FixupState}, Rewritten rxPhys rwPhys lePhys mem offs s →
      (∀ o ∈ offs, o + 8 ≤ start) → (∀ o ∈ chain, o + 8 ≤ offLimit) →
        ∃ s', Rewritten rxPhys rwPhys lePhys mem (offs ++ chain) s' ∧
          ∀ fuel, chain.length ≤ fuel →
            walkChain rxPhys rwPhys lePhys fuel s (BitVec.ofNat 64 start) = some s' := by
  induction hc with
  | @last off hend =>
    intro offs s h hfresh hlim
    have hoff := hlim off List.mem_cons_self
    have hraw := h.rawAt_fresh hoff hfresh
    refine ⟨_, h.fixSlot hoff hfresh, fun fuel hfuel => ?_⟩
    obtain ⟨fuel, rfl⟩ : ∃ n, fuel = n + 1 := Nat.exists_eq_succ_of_ne_zero (by simp at hfuel; omega)
    simp only [walkChain, slot_of_offset, hraw, (stride_eq_zero_iff off).mp hend, if_true]
  | @link off rest hnext chain ih =>
    intro offs s h hfresh hlim
    have hoff := hlim off List.mem_cons_self
    have hraw := h.rawAt_fresh hoff hfresh
    have hstep := stride_ge off hnext
    obtain ⟨s', hs', hrun⟩ := ih (h.fixSlot hoff hfresh)
      (fun o ho => by
        rcases List.mem_append.mp ho with ho | ho
        · have hle := hfresh o ho
          omega
        · obtain rfl := List.mem_singleton.mp ho
          omega)
      (fun o ho => hlim o (List.mem_cons_of_mem _ ho))
    rw [List.append_assoc] at hs'
    refine ⟨s', hs', fun fuel hfuel => ?_⟩
    rw [List.length_cons] at hfuel
    obtain ⟨fuel, rfl⟩ : ∃ n, fuel = n + 1 := Nat.exists_eq_succ_of_ne_zero (by omega)
    simp only [walkChain, slot_of_offset, hraw, advance_offset,
      if_neg (mt (stride_eq_zero_iff off).mpr hnext)]
    exact hrun fuel (by omega)

end SecureWorld.Loader
