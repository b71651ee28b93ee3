import Mathlib.Data.List.Nodup
import SecureWorld.Loader.Rewriting

/-! # The walk over the starts table

Pages of one segment come in ascending order and their chains stay inside them, so the slots of
all pages are pairwise disjoint and the walk visits each of them once.
-/
namespace SecureWorld.Loader
open Foundations
set_option autoImplicit false

variable (rxPhys rwPhys lePhys : BitVec 64) (mem : Memory)

/-! ## The slots a table names -/

def StartsInSegment.chainStart (seg : StartsInSegment) (pi : ℕ) : ℕ :=
  pi * seg.pageSize + seg.pageStart pi

/-- Page `pi` of `seg` has a chain, and the slot at `off` is on it. -/
def OnPage (seg : StartsInSegment) (pi off : ℕ) : Prop :=
  seg.pageStart pi ≠ 0xFFFF ∧ OnChain (strideAt rwPhys mem) (seg.chainStart pi) off

def StartsTable.IsData (table : StartsTable) (sg : ℕ) (seg : StartsInSegment) : Prop :=
  sg < table.segCount ∧ table.seg sg = some seg ∧ seg.segOff = dataSegOff

/-- The slot at `off` is on some chain of `__DATA`. -/
def IsSlot (table : StartsTable) (off : ℕ) : Prop :=
  ∃ sg seg, table.IsData sg seg ∧ ∃ pi < seg.pageCount, OnPage rwPhys mem seg pi off

/-- The dyld layout: segments of an image at different offsets (so one `__DATA`), and in the
initial memory each page's chain inside its page. -/
structure WellFormed (table : StartsTable) : Prop where
  data_unique : ∀ {sg sg' seg seg'}, table.IsData sg seg → table.IsData sg' seg' → sg = sg'
  in_page : ∀ {sg seg}, table.IsData sg seg → ∀ pi < seg.pageCount, ∀ off,
    OnPage rwPhys mem seg pi off → off + 8 ≤ (pi + 1) * seg.pageSize

/-- Fuel that covers every chain of a page below 64 KiB. -/
def chainFuel : ℕ := 2 ^ 13

variable {rxPhys rwPhys lePhys mem}

/-! ## One page -/

theorem page_slots {seg : StartsInSegment} {pi : ℕ}
    (hin : ∀ off, OnPage rwPhys mem seg pi off → off + 8 ≤ (pi + 1) * seg.pageSize) :
    ∃ page : List ℕ, (∀ off, off ∈ page ↔ OnPage rwPhys mem seg pi off) ∧
      page.Pairwise (fun a b => a + 8 ≤ b) ∧
      ∀ {offs s}, Rewritten rxPhys rwPhys lePhys mem offs s →
        (∀ o ∈ offs, o + 8 ≤ pi * seg.pageSize) → (pi + 1) * seg.pageSize ≤ offLimit →
        ∃ s', Rewritten rxPhys rwPhys lePhys mem (offs ++ page) s' ∧
          ∀ fuel, chainFuel ≤ fuel → fixPage rxPhys rwPhys lePhys fuel seg s pi = some s' := by
  by_cases hnone : seg.pageStart pi = 0xFFFF
  · refine ⟨[], fun off => ?_, List.Pairwise.nil, fun {offs s} h _ _ => ⟨s, ?_, fun fuel _ => ?_⟩⟩
    · exact iff_of_false List.not_mem_nil fun on => on.1 hnone
    · rwa [List.append_nil]
    · exact if_pos hnone
  · have hbound : ∀ off, OnChain (strideAt rwPhys mem) (seg.chainStart pi) off →
        off + 8 ≤ (pi + 1) * seg.pageSize := fun off on => hin off ⟨hnone, on⟩
    obtain ⟨page, hc⟩ := Chain.exists_of_bounded stride_ge (by omega)
      ((pi + 1) * seg.pageSize) _ _ le_rfl hbound
    have hmem : ∀ off, off ∈ page ↔ OnPage rwPhys mem seg pi off := fun off =>
      (hc.mem_iff off).trans ⟨fun on => ⟨hnone, on⟩, And.right⟩
    have hstart : pi * seg.pageSize ≤ seg.chainStart pi := Nat.le_add_right _ _
    have hpair := hc.pairwise stride_ge
    have hfuel : page.length ≤ chainFuel := by
      have hps := seg.pageSize_lt
      have hlen := length_mul_le_of_pairwise hpair fun o ho =>
        ⟨hstart.trans ((hmem o).mp ho).2.start_le, hin o ((hmem o).mp ho)⟩
      rw [Nat.add_mul, Nat.one_mul] at hlen
      unfold chainFuel
      omega
    refine ⟨page, hmem, hpair, fun {offs s} h hbelow hlim => ?_⟩
    obtain ⟨s', hs', hrun⟩ := walkChain_rewrites hc h
      (fun o ho => (hbelow o ho).trans hstart)
      (fun o ho => (hin o ((hmem o).mp ho)).trans hlim)
    refine ⟨s', hs', fun fuel hf => ?_⟩
    rw [fixPage, if_neg hnone]
    exact hrun fuel (hfuel.trans hf)

/-! ## The pages of the segment -/

theorem pages_rewrite (rxPhys lePhys : BitVec 64) {seg : StartsInSegment} :
    ∀ n, n < 2 ^ 16 →
      (∀ pi < n, ∀ off, OnPage rwPhys mem seg pi off → off + 8 ≤ (pi + 1) * seg.pageSize) →
      ∃ offs : List ℕ, (∀ off, off ∈ offs ↔ ∃ pi < n, OnPage rwPhys mem seg pi off) ∧
        offs.Pairwise (fun a b => a + 8 ≤ b) ∧
        ∃ s', Rewritten rxPhys rwPhys lePhys mem offs s' ∧
          ∀ fuel, chainFuel ≤ fuel →
            (List.range n).foldlM (fixPage rxPhys rwPhys lePhys fuel seg) (.init mem) = some s'
  | 0, _, _ => by
      refine ⟨[], fun off => ?_, List.Pairwise.nil, _, rewritten_init _ _ _ _, fun _ _ => rfl⟩
      exact iff_of_false List.not_mem_nil fun ⟨pi, hpi, _⟩ => Nat.not_lt_zero pi hpi
  | n + 1, hn, hin => by
      obtain ⟨offs, hoffs, hpair, s, hs, hrun⟩ := pages_rewrite rxPhys lePhys n (by omega)
        fun pi hpi => hin pi (by omega)
      obtain ⟨page, hpage, hpagePair, hvisit⟩ := page_slots (hin n (by omega))
      have hbelow : ∀ o ∈ offs, o + 8 ≤ n * seg.pageSize := fun o ho => by
        obtain ⟨pi, hpi, on⟩ := (hoffs o).mp ho
        exact (hin pi (by omega) o on).trans (Nat.mul_le_mul_right _ hpi)
      have hlim : (n + 1) * seg.pageSize ≤ offLimit :=
        (Nat.mul_le_mul (Nat.le_of_lt hn) (Nat.le_of_lt seg.pageSize_lt)).trans (by decide)
      obtain ⟨s', hs', hrun'⟩ := hvisit hs hbelow hlim
      refine ⟨offs ++ page, fun off => ?_, ?_, s', hs', fun fuel hf => ?_⟩
      · rw [List.mem_append, hoffs, hpage]
        constructor
        · rintro (⟨pi, hpi, on⟩ | on)
          · exact ⟨pi, by omega, on⟩
          · exact ⟨n, by omega, on⟩
        · rintro ⟨pi, hpi, on⟩
          rcases Nat.lt_succ_iff_lt_or_eq.mp hpi with hlt | rfl
          · exact .inl ⟨pi, hlt, on⟩
          · exact .inr on
      · refine List.pairwise_append.mpr ⟨hpair, hpagePair, fun a ha b hb => ?_⟩
        have hb' := ((hpage b).mp hb).2.start_le
        exact (hbelow a ha).trans ((Nat.le_add_right _ _).trans hb')
      · rw [List.range_succ, List.foldlM_append, hrun fuel hf]
        simp only [List.foldlM_cons, List.foldlM_nil, Option.bind_eq_bind, Option.bind_some,
          hrun' fuel hf]
        rfl

/-! ## The segments of the image -/

theorem fixSegment_other {table : StartsTable} {sg : ℕ} (hsg : sg < table.segCount)
    (h : ∀ seg, ¬ table.IsData sg seg) (fuel : ℕ) (s : FixupState) :
    fixSegment rxPhys rwPhys lePhys fuel table s sg = some s := by
  unfold fixSegment
  match hseg : table.seg sg with
  | none => rfl
  | some seg => exact if_pos fun hoff => h seg ⟨hsg, hseg, hoff⟩

theorem fixSegments_other {table : StartsTable} (fuel : ℕ) (s : FixupState) :
    ∀ sgs : List ℕ, (∀ sg ∈ sgs, sg < table.segCount ∧ ∀ seg, ¬ table.IsData sg seg) →
      sgs.foldlM (fixSegment rxPhys rwPhys lePhys fuel table) s = some s
  | [], _ => rfl
  | sg :: sgs, h => by
      obtain ⟨hsg, hother⟩ := h sg List.mem_cons_self
      rw [List.foldlM_cons, fixSegment_other hsg hother]
      exact fixSegments_other fuel s sgs fun sg' hsg' => h sg' (List.mem_cons_of_mem _ hsg')

theorem table_rewrites (rxPhys lePhys : BitVec 64) {table : StartsTable}
    (wf : WellFormed rwPhys mem table) :
    ∃ offs : List ℕ, (∀ off, off ∈ offs ↔ IsSlot rwPhys mem table off) ∧
      offs.Pairwise (fun a b => a + 8 ≤ b) ∧
      ∃ s', Rewritten rxPhys rwPhys lePhys mem offs s' ∧
        ∀ fuel, chainFuel ≤ fuel →
          (List.range table.segCount).foldlM (fixSegment rxPhys rwPhys lePhys fuel table)
            (.init mem) = some s' := by
  by_cases hdata : ∃ sg seg, table.IsData sg seg
  · obtain ⟨sg, seg, hd⟩ := hdata
    obtain ⟨offs, hoffs, hpair, s', hs', hrun⟩ := pages_rewrite rxPhys lePhys seg.pageCount
      seg.pageCount_lt (wf.in_page hd)
    obtain ⟨before, after, hsplit⟩ := List.append_of_mem (List.mem_range.mpr hd.1)
    have hnodup : (before ++ sg :: after).Nodup := hsplit ▸ List.nodup_range
    have hother : ∀ sg' ∈ before ++ after,
        sg' < table.segCount ∧ ∀ seg', ¬ table.IsData sg' seg' := fun sg' hsg' => by
      refine ⟨List.mem_range.mp ?_, fun seg' hd' => ?_⟩
      · rw [hsplit]
        exact List.mem_append.mpr ((List.mem_append.mp hsg').imp_right (List.mem_cons_of_mem _))
      · obtain rfl := wf.data_unique hd hd'
        exact (List.nodup_middle.mp hnodup).notMem hsg'
    refine ⟨offs, fun off => ?_, hpair, s', hs', fun fuel hf => ?_⟩
    · rw [hoffs]
      constructor
      · exact fun hpage => ⟨sg, seg, hd, hpage⟩
      · rintro ⟨sg', seg', hd', hpage⟩
        obtain rfl := wf.data_unique hd hd'
        obtain rfl := Option.some.inj (hd.2.1.symm.trans hd'.2.1)
        exact hpage
    · have hseg : fixSegment rxPhys rwPhys lePhys fuel table (.init mem) sg = some s' := by
        simp only [fixSegment, hd.2.1, hd.2.2, ne_eq, not_true_eq_false, if_false]
        exact hrun fuel hf
      rw [hsplit, List.foldlM_append, fixSegments_other fuel _ before
        fun sg' h => hother sg' (List.mem_append_left _ h)]
      simp only [List.foldlM_cons, Option.bind_eq_bind, Option.bind_some, hseg]
      exact fixSegments_other fuel s' after fun sg' h => hother sg' (List.mem_append_right _ h)
  · refine ⟨[], fun off => ?_, List.Pairwise.nil, _, rewritten_init _ _ _ _, fun fuel _ => ?_⟩
    · exact iff_of_false List.not_mem_nil fun ⟨sg, seg, hd, _⟩ => hdata ⟨sg, seg, hd⟩
    · exact fixSegments_other fuel _ _ fun sg hsg =>
        ⟨List.mem_range.mp hsg, fun seg hd => hdata ⟨sg, seg, hd⟩⟩

/-! ## The whole walk -/

theorem IsSlot.le_offLimit {table : StartsTable} (wf : WellFormed rwPhys mem table) {off : ℕ}
    (h : IsSlot rwPhys mem table off) : off + 8 ≤ offLimit := by
  obtain ⟨sg, seg, hd, pi, hpi, on⟩ := h
  have hpages : pi + 1 ≤ 2 ^ 16 := Nat.le_of_lt (Nat.lt_of_le_of_lt hpi seg.pageCount_lt)
  calc off + 8 ≤ (pi + 1) * seg.pageSize := wf.in_page hd pi hpi off on
    _ ≤ 2 ^ 16 * 2 ^ 16 := Nat.mul_le_mul hpages (Nat.le_of_lt seg.pageSize_lt)
    _ = offLimit := by decide

theorem slots_nodup {offs : List ℕ} (hpair : offs.Pairwise (fun a b => a + 8 ≤ b))
    (hlim : ∀ off ∈ offs, off + 8 ≤ offLimit) : (offs.map (slotAt rwPhys)).Nodup := by
  rw [List.Nodup, List.pairwise_map]
  refine hpair.imp_of_mem fun {a b} ha hb hab heq => ?_
  have ha' := hlim a ha
  have hb' := hlim b hb
  unfold slotAt offLimit at *
  bv_omega

section Image
variable {machoFindSect : HostBytes → String → String → Option Section} {macho : HostBytes}
  {cf : Section} (hcf : machoFindSect macho "__TEXT" "__chain_fixups" = some cf)
  (hsize : cf.size ≠ 0) (wf : WellFormed rwPhys mem (chainStarts macho cf))
include hcf hsize wf

theorem applyCl4Fixups_rewrites (rxPhys lePhys : BitVec 64) :
    ∃ offs : List ℕ, (∀ off, off ∈ offs ↔ IsSlot rwPhys mem (chainStarts macho cf) off) ∧
      offs.Pairwise (fun a b => a + 8 ≤ b) ∧
      ∃ s, Rewritten rxPhys rwPhys lePhys mem offs s ∧
        ∀ fuel, chainFuel ≤ fuel →
          applyCl4Fixups rxPhys rwPhys lePhys machoFindSect fuel macho mem = some s := by
  obtain ⟨offs, hoffs, hpair, s, hs, hrun⟩ := table_rewrites rxPhys lePhys wf
  refine ⟨offs, hoffs, hpair, s, hs, fun fuel hf => ?_⟩
  simp only [applyCl4Fixups, hcf, if_neg hsize]
  exact hrun fuel hf

end Image

/-! ## A two-slot image -/

/-- One segment, `__DATA`, with one 16 KiB page whose chain starts at 0. -/
def twoSlotMacho : HostBytes := fun off =>
  [0, 0, 0, 0, 8, 0, 0, 0, 1, 0, 0, 0, 8, 0, 0, 0, 0x18, 0, 0, 0, 0, 0x40, 1, 0,
    0, 0xc0, 0x68, 0, 0, 0, 0, 0, 0, 0, 0, 0, 1, 0, 0, 0].getD off 0

/-- The first slot points into the tail of `__DATA`, the second, signed, into `__TEXT`. -/
def twoSlotMem (rwPhys : BitVec 64) : Memory :=
  (Memory.store (fun _ => 0) rwPhys 8 0x0008000000700000).store (rwPhys + 8) 8 0x8000000000001000

def findTwoSlot : HostBytes → String → String → Option Section := fun _ _ _ => some ⟨0, 64⟩

theorem twoSlot_chain : Chain (strideAt 0x10006F10000 (twoSlotMem 0x10006F10000)) 0 [0, 8] :=
  .link (by decide) (.last (by decide))

theorem twoSlot_wellFormed :
    WellFormed 0x10006F10000 (twoSlotMem 0x10006F10000) (chainStarts twoSlotMacho ⟨0, 64⟩) where
  data_unique {sg sg' _ _} hd hd' := by
    have hcount : (chainStarts twoSlotMacho ⟨0, 64⟩).segCount = 1 := by decide
    have hsg := hd.1
    have hsg' := hd'.1
    omega
  in_page {sg seg} hd pi hpi off on := by
    have hcount : (chainStarts twoSlotMacho ⟨0, 64⟩).segCount = 1 := by decide
    have hsg : sg = 0 := by have := hd.1; omega
    obtain rfl : seg = readSegment twoSlotMacho 16 := by
      have hseg := hd.2.1
      rw [hsg] at hseg
      exact (Option.some.inj hseg).symm
    have hpages : (readSegment twoSlotMacho 16).pageCount = 1 := by decide
    obtain rfl : pi = 0 := by omega
    have hstart : (readSegment twoSlotMacho 16).chainStart 0 = 0 := by decide
    have hsize : (readSegment twoSlotMacho 16).pageSize = 0x4000 := by decide
    have hchain := on.2
    rw [hstart, ← twoSlot_chain.mem_iff] at hchain
    rw [hsize]
    simp only [List.mem_cons, List.not_mem_nil, or_false] at hchain
    omega

theorem twoSlot_first :
    IsSlot 0x10006F10000 (twoSlotMem 0x10006F10000) (chainStarts twoSlotMacho ⟨0, 64⟩) 0 := by
  refine ⟨0, readSegment twoSlotMacho 16, ⟨by decide, rfl, by decide⟩, 0, by decide, by decide, ?_⟩
  have hstart : (readSegment twoSlotMacho 16).chainStart 0 = 0 := by decide
  rw [hstart]
  exact .start

end SecureWorld.Loader
