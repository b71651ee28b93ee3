import SecureWorld.Foundations.Run
import SecureWorld.Loader.Traversal

/-! # The three-way split and the uniform base

CL4 is placed contiguously, so a pointer to image offset `t` should become `rxPhys + t`. `rebase`
splits at 0x68c000 (`__DATA`) and at 0x6d4000, the end of the file-backed part of `__DATA`; from
there on it counts from `__LINKEDIT`, which lies after the zero-filled tail.
-/
namespace SecureWorld.Loader
open Foundations
set_option autoImplicit false

variable {rxPhys rwPhys lePhys : BitVec 64}

section Split
variable {span : ℕ} (hrw : rwPhys = rxPhys + 0x68c000)
  (hle : rxPhys.toNat + 0x68c000 + span ≤ lePhys.toNat)
include hrw hle

theorem rebase_uniform_iff {t : BitVec 64} (ht : t.toNat < 0x68c000 + span) :
    rebase rxPhys rwPhys lePhys t = rxPhys + t ↔ t < 0x6d4000 := by
  unfold rebase
  split_ifs with htext hdata
  · exact iff_of_true rfl (by bv_omega)
  · refine iff_of_true ?_ hdata
    rw [hrw]
    bv_omega
  · -- `__LINKEDIT` lies beyond the tail, so the base is too high
    refine iff_of_false ?_ hdata
    have hle' := lePhys.isLt
    bv_omega

end Split

/-! ## Every guest store of every run -/

def PointersRebased (rxPhys rwPhys lePhys : BitVec 64) (s : FixupState) : Prop :=
  ∀ w ∈ s.writes, w.value = rebase rxPhys rwPhys lePhys (targetOf w.raw)

theorem fixSlot_rebased {s : FixupState} (h : PointersRebased rxPhys rwPhys lePhys s)
    (slot : BitVec 64) :
    PointersRebased rxPhys rwPhys lePhys (fixSlot rxPhys rwPhys lePhys s slot) := fun w hw => by
  rcases List.mem_append.mp hw with hold | hnew
  · exact h w hold
  · obtain rfl := List.mem_singleton.mp hnew
    rfl

theorem walkChain_rebased : ∀ (fuel : ℕ) (s s' : FixupState) (off : BitVec 64),
    walkChain rxPhys rwPhys lePhys fuel s off = some s' →
      PointersRebased rxPhys rwPhys lePhys s → PointersRebased rxPhys rwPhys lePhys s'
  | 0, _, _, _, hrun, _ => nomatch hrun
  | fuel + 1, s, s', off, hrun, h => by
      have hslot := fixSlot_rebased h (rwPhys + off)
      simp only [walkChain] at hrun
      split_ifs at hrun with hend
      · exact Option.some.inj hrun ▸ hslot
      · exact walkChain_rebased fuel _ _ _ hrun hslot

theorem fixPage_rebased (fuel : ℕ) (seg : StartsInSegment) (s : FixupState) (pi : ℕ)
    (s' : FixupState) (hrun : fixPage rxPhys rwPhys lePhys fuel seg s pi = some s')
    (h : PointersRebased rxPhys rwPhys lePhys s) : PointersRebased rxPhys rwPhys lePhys s' := by
  unfold fixPage at hrun
  split_ifs at hrun with hnone
  · exact Option.some.inj hrun ▸ h
  · exact walkChain_rebased fuel _ _ _ hrun h

theorem fixSegment_rebased (fuel : ℕ) (table : StartsTable) (s : FixupState) (sg : ℕ)
    (s' : FixupState) (hrun : fixSegment rxPhys rwPhys lePhys fuel table s sg = some s')
    (h : PointersRebased rxPhys rwPhys lePhys s) : PointersRebased rxPhys rwPhys lePhys s' := by
  unfold fixSegment at hrun
  match hseg : table.seg sg with
  | none =>
    rw [hseg] at hrun
    exact Option.some.inj hrun ▸ h
  | some seg =>
    simp only [hseg] at hrun
    split_ifs at hrun with hdata
    · exact Option.some.inj hrun ▸ h
    · exact foldlM_preserves _ (fixPage_rebased fuel seg) _ _ _ hrun h

theorem applyCl4Fixups_rebased {machoFindSect : HostBytes → String → String → Option Section}
    {fuel : ℕ} {macho : HostBytes} {mem : Memory} {s : FixupState}
    (hrun : applyCl4Fixups rxPhys rwPhys lePhys machoFindSect fuel macho mem = some s) :
    PointersRebased rxPhys rwPhys lePhys s := by
  have hinit : PointersRebased rxPhys rwPhys lePhys (.init mem) :=
    fun w hw => absurd hw List.not_mem_nil
  unfold applyCl4Fixups at hrun
  match hcf : machoFindSect macho "__TEXT" "__chain_fixups" with
  | none =>
    rw [hcf] at hrun
    exact Option.some.inj hrun ▸ hinit
  | some cf =>
    simp only [hcf] at hrun
    split_ifs at hrun with hsize
    · exact Option.some.inj hrun ▸ hinit
    · exact foldlM_preserves _ (fixSegment_rebased fuel _) _ _ _ hrun hinit

/-! ## Where the base is uniform -/

/-- The image offset that the slot at `off` points to. -/
def targetAt (rwPhys : BitVec 64) (mem : Memory) (off : ℕ) : BitVec 64 :=
  targetOf (rawAt mem (slotAt rwPhys off))

/-- A chained slot into the image gets `rxPhys + t`, at its store and in the memory the loader
leaves, exactly when `t` is not in the zero-filled tail of `__DATA`. -/
theorem uniform_base_iff {span : ℕ} (hrw : rwPhys = rxPhys + 0x68c000)
    (hle : rxPhys.toNat + 0x68c000 + span ≤ lePhys.toNat)
    (machoFindSect : HostBytes → String → String → Option Section) (macho : HostBytes)
    (mem : Memory) :
    (∀ fuel s, applyCl4Fixups rxPhys rwPhys lePhys machoFindSect fuel macho mem = some s →
        ∀ w ∈ s.writes, (targetOf w.raw).toNat < 0x68c000 + span →
          (w.value = rxPhys + targetOf w.raw ↔ targetOf w.raw < 0x6d4000)) ∧
      ∀ cf, machoFindSect macho "__TEXT" "__chain_fixups" = some cf → cf.size ≠ 0 →
        WellFormed rwPhys mem (chainStarts macho cf) →
          ∃ s, (∀ fuel, chainFuel ≤ fuel →
              applyCl4Fixups rxPhys rwPhys lePhys machoFindSect fuel macho mem = some s) ∧
            ∀ off, IsSlot rwPhys mem (chainStarts macho cf) off →
              (targetAt rwPhys mem off).toNat < 0x68c000 + span →
                (s.mem.load (slotAt rwPhys off) 8 = (rxPhys + targetAt rwPhys mem off).toNat ↔
                  targetAt rwPhys mem off < 0x6d4000) := by
  constructor
  · intro fuel s hrun w hw ht
    rw [applyCl4Fixups_rebased hrun w hw]
    exact rebase_uniform_iff hrw hle ht
  · intro cf hcf hsize wf
    obtain ⟨offs, hoffs, -, s, hs, hrun⟩ := applyCl4Fixups_rewrites hcf hsize wf rxPhys lePhys
    refine ⟨s, hrun, fun off hoff ht => ?_⟩
    rw [hs.loads off ((hoffs off).mpr hoff), BitVec.toNat_inj]
    exact rebase_uniform_iff hrw hle ht

/-- The bases of a recorded boot, over the two-slot image. -/
theorem uniform_base_two_slots :
    (∀ fuel s, applyCl4Fixups 0x10006884000 0x10006F10000 0x10006F98000 findTwoSlot fuel
          twoSlotMacho (twoSlotMem 0x10006F10000) = some s →
        ∀ w ∈ s.writes, (targetOf w.raw).toNat < 0x68c000 + 0x88000 →
          (w.value = 0x10006884000 + targetOf w.raw ↔ targetOf w.raw < 0x6d4000)) ∧
      ∃ s, (∀ fuel, chainFuel ≤ fuel →
          applyCl4Fixups 0x10006884000 0x10006F10000 0x10006F98000 findTwoSlot fuel twoSlotMacho
            (twoSlotMem 0x10006F10000) = some s) ∧
        ∀ off, IsSlot 0x10006F10000 (twoSlotMem 0x10006F10000)
            (chainStarts twoSlotMacho ⟨0, 64⟩) off →
          (targetAt 0x10006F10000 (twoSlotMem 0x10006F10000) off).toNat < 0x68c000 + 0x88000 →
            (s.mem.load (slotAt 0x10006F10000 off) 8 =
                (0x10006884000 + targetAt 0x10006F10000 (twoSlotMem 0x10006F10000) off).toNat ↔
              targetAt 0x10006F10000 (twoSlotMem 0x10006F10000) off < 0x6d4000) :=
  have h := uniform_base_iff (by decide) (by decide) findTwoSlot twoSlotMacho
    (twoSlotMem 0x10006F10000)
  ⟨h.1, h.2 ⟨0, 64⟩ rfl (by decide) twoSlot_wellFormed⟩

/-- The first slot of the image asks for offset 0x700000, in the tail, and gets a pointer beyond
`__LINKEDIT`. -/
theorem tail_pointer_not_uniform :
    ¬ ∀ (rxPhys rwPhys lePhys : BitVec 64) (span : ℕ), rwPhys = rxPhys + 0x68c000 →
      0x48000 ≤ span → rxPhys.toNat + 0x68c000 + span ≤ lePhys.toNat →
      ∀ (machoFindSect : HostBytes → String → String → Option Section) (macho : HostBytes)
        (mem : Memory) (cf : Section),
        machoFindSect macho "__TEXT" "__chain_fixups" = some cf → cf.size ≠ 0 →
        WellFormed rwPhys mem (chainStarts macho cf) →
        ∃ s, (∀ fuel, chainFuel ≤ fuel →
            applyCl4Fixups rxPhys rwPhys lePhys machoFindSect fuel macho mem = some s) ∧
          ∀ off, IsSlot rwPhys mem (chainStarts macho cf) off →
            (targetAt rwPhys mem off).toNat < 0x68c000 + span →
              s.mem.load (slotAt rwPhys off) 8 = (rxPhys + targetAt rwPhys mem off).toNat := by
  intro h
  obtain ⟨s, hrun, hall⟩ := h 0x10006884000 0x10006F10000 0x10006F98000 0x88000 (by decide)
    (by decide) (by decide) findTwoSlot twoSlotMacho (twoSlotMem 0x10006F10000) ⟨0, 64⟩ rfl
    (by decide) twoSlot_wellFormed
  have hcf : findTwoSlot twoSlotMacho "__TEXT" "__chain_fixups" = some ⟨0, 64⟩ := rfl
  obtain ⟨offs, hoffs, -, s', hs, hrun'⟩ := applyCl4Fixups_rewrites hcf (by decide)
    twoSlot_wellFormed 0x10006884000 0x10006F98000
  obtain rfl : s = s' := Option.some.inj ((hrun _ le_rfl).symm.trans (hrun' _ le_rfl))
  have huniform := hall 0 twoSlot_first (by decide)
  rw [hs.loads 0 ((hoffs 0).mpr twoSlot_first), BitVec.toNat_inj] at huniform
  exact absurd huniform (by decide)

end SecureWorld.Loader
