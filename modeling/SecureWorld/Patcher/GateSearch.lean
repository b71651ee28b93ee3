import Mathlib.Data.List.TakeWhile
import SecureWorld.Patcher.GateEdits

/-! # The gate searches

Both searches for a gate list branches near a cross reference and take the nearest. Edits that add
no branch can only shorten the list; where it has one entry, overwriting that one leaves nothing to
find.
-/
namespace SecureWorld.Patcher
open Foundations Armv8
set_option autoImplicit false

/-- The disassembler reports only branches of the A64 instruction set. -/
def Capstone.A64 (cs : Capstone) : Prop :=
  ∀ w va, cs.branchTarget w va ≠ none → IsTestBranch w

/-- The disassembler, by the encodings of the architecture. -/
def a64Capstone : Capstone := ⟨testBranchTarget⟩

theorem a64Capstone_a64 : a64Capstone.A64 := fun _ _ h => isTestBranch_of_target h

/-- Every branch of `out` is one of `data`. -/
structure BranchesKept (data out : Bytes) : Prop where
  length_eq : out.length = data.length
  word : ∀ p, p % 4 = 0 → IsTestBranch (wordAt out p) → wordAt out p = wordAt data p

theorem BranchesKept.trans {a b c : Bytes} (hab : BranchesKept a b) (hbc : BranchesKept b c) :
    BranchesKept a c where
  length_eq := hbc.length_eq.trans hab.length_eq
  word p hp hb := by
    have hc := hbc.word p hp hb
    exact hc.trans (hab.word p hp (hc ▸ hb))

theorem Nopped.branchesKept {mid out : Bytes} {gates : List ℕ} (h : Nopped mid out gates) :
    BranchesKept mid out := ⟨h.length_eq, fun _ hp hb => h.word_of_branch hp hb⟩

theorem PatchedExactly.branchesKept {data out : Bytes} {exec : Segment} {funcs : List ℕ}
    (hp : PatchedExactly data out funcs) (hf : FoundOn data exec funcs)
    (he : exec.fileoff % 4 = 0) : BranchesKept data out where
  length_eq := hp.length_eq
  word p hpa hb := by
    rcases word_cases hp hf (hpa.trans he.symm) with heq | hmov | ⟨f, -, -, hret⟩
    · exact heq
    · rw [hmov] at hb
      exact absurd hb (by decide)
    · exact absurd hret (not_return_of_branch hb)

/-! ## Searches for gates -/

/-- A search that lists branches, and no others after edits that add none. -/
structure GateSearch (search : Bytes → List ℕ) : Prop where
  aligned : ∀ data, ∀ g ∈ search data, g % 4 = 0
  fits : ∀ data, ∀ g ∈ search data, g + 4 ≤ data.length
  branch : ∀ data, ∀ g ∈ search data, IsTestBranch (wordAt data g)
  mono : ∀ {data out}, BranchesKept data out → search out ⊆ search data

/-- Overwrites the first gate listed. -/
def nopFirst (search : Bytes → List ℕ) (data : Bytes) : Except PyError (Bytes × Bool) := do
  let some gate := (search data).head? | return (data, false)
  let data ← packI data gate nop32
  return (data, true)

theorem nopFirst_nil {search : Bytes → List ℕ} {data : Bytes} (h : search data = []) :
    nopFirst search data = .ok (data, false) := by
  rw [nopFirst, h]
  rfl

theorem eq_of_length_le_one {α : Type} {l : List α} (h : l.length ≤ 1) {a b : α} (ha : a ∈ l)
    (hb : b ∈ l) : a = b := by
  match l, h with
  | [], _ => exact absurd ha List.not_mem_nil
  | [c], _ => exact (List.mem_singleton.mp ha).trans (List.mem_singleton.mp hb).symm

/-- Where the original has at most one gate, one pass leaves none. -/
theorem nopFirst_step {search : Bytes → List ℕ} (hs : GateSearch search) {data e : Bytes}
    (hone : (search data).length ≤ 1) (hkept : BranchesKept data e) :
    ∃ e' b new, nopFirst search e = .ok (e', b) ∧ Nopped e e' new ∧ new ⊆ search data ∧
      search e' = [] := by
  cases hsearch : search e with
  | nil => exact ⟨e, false, [], nopFirst_nil hsearch, nopped_nil e, List.nil_subset _, hsearch⟩
  | cons g rest =>
    have hg : g ∈ search e := hsearch ▸ List.mem_cons_self
    obtain ⟨e', hrun, he'⟩ := nopped_one (hs.aligned e g hg) (hs.fits e g hg) (hs.branch e g hg)
    refine ⟨e', true, [g], ?_, he', ?_, ?_⟩
    · rw [nopFirst, hsearch]
      dsimp only [List.head?_cons]
      rw [hrun]
      rfl
    · exact List.cons_subset.mpr ⟨hs.mono hkept hg, List.nil_subset _⟩
    · refine List.eq_nil_iff_forall_not_mem.mpr fun g' hg' => ?_
      obtain rfl : g' = g := eq_of_length_le_one hone
        (hs.mono (hkept.trans he'.branchesKept) hg') (hs.mono hkept hg)
      have hbranch := hs.branch e' g' hg'
      rw [he'.nop g' (List.mem_singleton_self g')] at hbranch
      exact absurd hbranch (by decide)

theorem gateSearch_nil : GateSearch fun _ => [] where
  aligned _ := List.forall_mem_nil _
  fits _ := List.forall_mem_nil _
  branch _ := List.forall_mem_nil _
  mono _ := List.nil_subset _

/-! ## The two searches of the script -/

/-- The branches into the block around the cross reference, nearest first. -/
def gatesInto (cs : Capstone) (exec : Segment) (xref : ℕ) (data : Bytes) : List ℕ :=
  (windowBack xref exec.fileoff).filterMap fun back =>
    let foff := xref - back * 4
    if branchesInto cs data (exec.vmaddr + (foff - exec.fileoff))
        (exec.vmaddr + (xref - exec.fileoff)) foff then some foff
    else none

theorem findBranchInto_eq (cs : Capstone) (exec : Segment) (xref : ℕ) (data : Bytes) :
    findBranchInto cs data xref exec.vmaddr exec.fileoff = (gatesInto cs exec xref data).head? :=
  List.head?_filterMap.symm

theorem mem_gatesInto {cs : Capstone} {exec : Segment} {xref g : ℕ} {data : Bytes} :
    g ∈ gatesInto cs exec xref data ↔ ∃ back ∈ windowBack xref exec.fileoff,
      branchesInto cs data (exec.vmaddr + (g - exec.fileoff))
        (exec.vmaddr + (xref - exec.fileoff)) g = true ∧ xref - back * 4 = g := by
  rw [gatesInto, List.mem_filterMap]
  refine exists_congr fun back => and_congr_right fun _ => ?_
  dsimp only
  rw [Option.ite_none_right_eq_some, Option.some_inj]
  constructor
  · rintro ⟨hinto, rfl⟩
    exact ⟨hinto, rfl⟩
  · rintro ⟨hinto, rfl⟩
    exact ⟨hinto, rfl⟩

theorem branchesInto_congr {cs : Capstone} {data out : Bytes} (hlen : out.length = data.length)
    {va xrefVa foff : ℕ} (hword : wordAt out foff = wordAt data foff) :
    branchesInto cs out va xrefVa foff = branchesInto cs data va xrefVa foff := by
  rw [branchesInto, branchesInto, hlen, hword]

theorem branchesInto_facts {cs : Capstone} (hcs : cs.A64) {data : Bytes} {va xrefVa foff : ℕ}
    (h : branchesInto cs data va xrefVa foff = true) :
    foff + 4 ≤ data.length ∧ IsTestBranch (wordAt data foff) := by
  rw [branchesInto, Bool.and_eq_true, decide_eq_true_eq] at h
  refine ⟨h.1, hcs _ (BitVec.ofNat 64 va) fun hnone => ?_⟩
  rw [hnone] at h
  exact Bool.false_ne_true h.2

theorem le_of_mem_windowBack {xref fileoff back : ℕ} (h : back ∈ windowBack xref fileoff) :
    fileoff + back * 4 ≤ xref := by
  rw [windowBack] at h
  exact of_decide_eq_true (List.mem_takeWhile_imp (p := fun b => decide (fileoff + b * 4 ≤ xref)) h)

theorem gateSearch_into {cs : Capstone} (hcs : cs.A64) {exec : Segment} {xref : ℕ}
    (hx : xref % 4 = 0) : GateSearch (gatesInto cs exec xref) where
  aligned data g hg := by
    obtain ⟨back, hback, -, rfl⟩ := mem_gatesInto.mp hg
    have hle := le_of_mem_windowBack hback
    omega
  fits data g hg := by
    obtain ⟨-, -, hinto, -⟩ := mem_gatesInto.mp hg
    exact (branchesInto_facts hcs hinto).1
  branch data g hg := by
    obtain ⟨-, -, hinto, -⟩ := mem_gatesInto.mp hg
    exact (branchesInto_facts hcs hinto).2
  mono {data out} hkept g hg := by
    obtain ⟨back, hback, hinto, rfl⟩ := mem_gatesInto.mp hg
    have hle := le_of_mem_windowBack hback
    have hword := hkept.word _ (by omega) (branchesInto_facts hcs hinto).2
    rw [branchesInto_congr hkept.length_eq hword] at hinto
    exact mem_gatesInto.mpr ⟨back, hback, hinto, rfl⟩

/-- The branches among the twelve words before the cross reference, nearest first. -/
def gatesBefore (cs : Capstone) (xref : ℕ) (data : Bytes) : List ℕ :=
  (List.range' 1 12).filterMap fun back : ℕ =>
    let foff : ℤ := xref - (back : ℤ) * 4
    (wordOffset data foff).filter fun o =>
      (cs.branchTarget (wordAt data o) (BitVec.ofInt 64 foff)).isSome

theorem findAsmbGate_eq (cs : Capstone) (xref : ℕ) (data : Bytes) :
    findAsmbGate cs data xref = (gatesBefore cs xref data).head? := List.head?_filterMap.symm

theorem mem_gatesBefore {cs : Capstone} {xref g : ℕ} {data : Bytes} (hx : 48 ≤ xref) :
    g ∈ gatesBefore cs xref data ↔ ∃ back ∈ List.range' 1 12, g + 4 ≤ data.length ∧
      cs.branchTarget (wordAt data g) (BitVec.ofInt 64 (xref - back * 4)) ≠ none ∧
        xref - back * 4 = g := by
  rw [gatesBefore, List.mem_filterMap]
  refine exists_congr fun back => and_congr_right fun hback => ?_
  have hle : back ≤ 12 := by
    have hmem := List.mem_range'_1.mp hback
    omega
  have hfoff : ((xref : ℤ) - back * 4).toNat = xref - back * 4 := by omega
  dsimp only
  rw [wordOffset, if_pos (show (0 : ℤ) ≤ xref - back * 4 by omega), hfoff]
  split_ifs with hfits
  · rw [Option.filter_some, Option.ite_none_right_eq_some, Option.some_inj,
      Option.isSome_iff_ne_none]
    constructor
    · rintro ⟨htarget, rfl⟩
      exact ⟨by omega, htarget, rfl⟩
    · rintro ⟨-, htarget, rfl⟩
      exact ⟨htarget, rfl⟩
  · rw [Option.filter_none]
    refine iff_of_false (Option.some_ne_none g).symm ?_
    rintro ⟨hlen, -, rfl⟩
    omega

theorem gateSearch_before {cs : Capstone} (hcs : cs.A64) {xref : ℕ} (hx : xref % 4 = 0)
    (hlow : 48 ≤ xref) : GateSearch (gatesBefore cs xref) where
  aligned data g hg := by
    obtain ⟨back, hback, -, -, rfl⟩ := (mem_gatesBefore hlow).mp hg
    have hmem := List.mem_range'_1.mp hback
    omega
  fits data g hg := by
    obtain ⟨-, -, hfits, -, -⟩ := (mem_gatesBefore hlow).mp hg
    exact hfits
  branch data g hg := by
    obtain ⟨back, -, -, htarget, -⟩ := (mem_gatesBefore hlow).mp hg
    exact hcs _ _ htarget
  mono {data out} hkept g hg := by
    obtain ⟨back, hback, hfits, htarget, rfl⟩ := (mem_gatesBefore hlow).mp hg
    have hmem := List.mem_range'_1.mp hback
    have hword := hkept.word _ (by omega) (hcs _ _ htarget)
    rw [hword] at htarget
    exact (mem_gatesBefore hlow).mpr ⟨back, hback, hkept.length_eq ▸ hfits, htarget, rfl⟩

end SecureWorld.Patcher
