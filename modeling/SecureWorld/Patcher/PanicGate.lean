import SecureWorld.Patcher.GateSearch

/-! # The gate before the panic

The search for the gate of `bsd_init` takes the nearest branch into the 0x80 bytes before the load
of the panic string. Whether its target runs on into the load is left to whoever reads the printed
disassembly; a branch around the end of other code is taken as well.
-/
namespace SecureWorld.Patcher
open Foundations Armv8
set_option autoImplicit false

/-! ## Straight-line execution -/

/-- The instruction at `va` lies in the code and is followed by the next one. -/
structure FallsThrough (data : Bytes) (exec : Segment) (va : ℕ) : Prop where
  mapped : exec.vmaddr ≤ va
  fits : exec.fileoff + (va - exec.vmaddr) + 4 ≤ data.length
  ordinary : ¬ IsControlTransfer (wordAt data (exec.fileoff + (va - exec.vmaddr)))

instance (data : Bytes) (exec : Segment) (va : ℕ) : Decidable (FallsThrough data exec va) :=
  decidable_of_iff (exec.vmaddr ≤ va ∧ exec.fileoff + (va - exec.vmaddr) + 4 ≤ data.length ∧
      ¬ IsControlTransfer (wordAt data (exec.fileoff + (va - exec.vmaddr))))
    ⟨fun h => ⟨h.1, h.2.1, h.2.2⟩, fun h => ⟨h.mapped, h.fits, h.ordinary⟩⟩

/-- The program counter after `n` instructions from `va`; `none` at a control transfer. -/
def straightLine (data : Bytes) (exec : Segment) : ℕ → ℕ → Option ℕ
  | 0, va => some va
  | n + 1, va => if FallsThrough data exec va then straightLine data exec n (va + 4) else none

def RunsInto (data : Bytes) (exec : Segment) (va va' : ℕ) : Prop :=
  ∃ n, straightLine data exec n va = some va'

theorem straightLine_eq_some {data : Bytes} {exec : Segment} {va' : ℕ} : ∀ {n va : ℕ},
    straightLine data exec n va = some va' ↔
      va' = va + 4 * n ∧ ∀ k < n, FallsThrough data exec (va + 4 * k)
  | 0, va => by
      rw [straightLine, Option.some_inj]
      exact ⟨fun h => ⟨h.symm, fun k hk => absurd hk (Nat.not_lt_zero k)⟩, fun h => h.1.symm⟩
  | n + 1, va => by
      rw [straightLine, Nat.forall_lt_succ_left']
      split_ifs with hva
      · rw [straightLine_eq_some]
        have hnext (k : ℕ) : va + 4 + 4 * k = va + 4 * (k + 1) := by omega
        simp only [hnext]
        exact ⟨fun h => ⟨h.1, hva, h.2⟩, fun h => ⟨h.1, h.2.2⟩⟩
      · exact iff_of_false nofun fun h => hva h.2.1

theorem runsInto_iff {data : Bytes} {exec : Segment} {va va' : ℕ} (haligned : va % 4 = va' % 4) :
    RunsInto data exec va va' ↔
      va ≤ va' ∧ ∀ p, va ≤ p → p < va' → p % 4 = va' % 4 → FallsThrough data exec p := by
  constructor
  · rintro ⟨n, hrun⟩
    obtain ⟨hend, hall⟩ := straightLine_eq_some.mp hrun
    refine ⟨by omega, fun p hlo hhi hp => ?_⟩
    have hk : va + 4 * ((p - va) / 4) = p := by omega
    exact hk ▸ hall _ (by omega)
  · rintro ⟨hle, hall⟩
    refine ⟨(va' - va) / 4, straightLine_eq_some.mpr ⟨by omega, fun k hk => ?_⟩⟩
    exact hall _ (by omega) (by omega) (by omega)

/-! ## What the search promises -/

def codeVa (exec : Segment) (foff : ℕ) : ℕ := exec.vmaddr + (foff - exec.fileoff)

/-- The word at `g` branches to `target`, in the window before the load. -/
structure BranchInto (data : Bytes) (exec : Segment) (xref g target : ℕ) : Prop where
  fits : g + 4 ≤ data.length
  branch : (testBranchTarget (wordAt data g) (BitVec.ofNat 64 (codeVa exec g))).map BitVec.toNat =
    some target
  low : codeVa exec xref ≤ target + 0x80
  high : target ≤ codeVa exec xref + 4

/-- `g` is the nearest branch into the window among the 1199 words before the load. -/
structure NearestGate (data : Bytes) (exec : Segment) (xref g target : ℕ) : Prop
    extends BranchInto data exec xref g target where
  near : ∃ back, 1 ≤ back ∧ back < 1200 ∧ g + back * 4 = xref
  mapped : exec.fileoff ≤ g
  nearest : ∀ g' target', g < g' → g' < xref → g' % 4 = xref % 4 →
    ¬ BranchInto data exec xref g' target'

theorem testBranchTarget_aligned {w : BitVec 32} {va target : BitVec 64}
    (h : testBranchTarget w va = some target) : target.toNat % 4 = va.toNat % 4 := by
  have hoffset {n : ℕ} (imm : BitVec n) :
      (va + (imm ++ 0#2).signExtend 64).toNat % 4 = va.toNat % 4 := by
    have hlow : ((imm ++ 0#2).signExtend 64).setWidth 2 = 0#2 := by
      apply BitVec.eq_of_getLsbD_eq
      intro i hi
      rw [BitVec.getLsbD_setWidth, BitVec.getLsbD_signExtend, BitVec.getLsbD_append]
      simp [hi, show i < 64 by omega, show i < n + 2 by omega]
    have hmod := congrArg BitVec.toNat hlow
    rw [BitVec.toNat_setWidth, BitVec.toNat_ofNat] at hmod
    rw [BitVec.toNat_add]
    omega
  unfold testBranchTarget at h
  split_ifs at h
  · rw [← Option.some.inj h]
    exact hoffset _
  · rw [← Option.some.inj h]
    exact hoffset _

theorem branchesInto_iff {data : Bytes} {exec : Segment} {xref g : ℕ} :
    branchesInto a64Capstone data (codeVa exec g) (codeVa exec xref) g = true ↔
      ∃ target, BranchInto data exec xref g target := by
  rw [branchesInto, Bool.and_eq_true, decide_eq_true_eq]
  constructor
  · rintro ⟨hfits, hwindow⟩
    cases hbranch : testBranchTarget (wordAt data g) (BitVec.ofNat 64 (codeVa exec g)) with
    | none =>
      rw [show a64Capstone.branchTarget = testBranchTarget from rfl, hbranch] at hwindow
      exact absurd hwindow Bool.false_ne_true
    | some target =>
      rw [show a64Capstone.branchTarget = testBranchTarget from rfl, hbranch] at hwindow
      simp only [Bool.and_eq_true, decide_eq_true_eq] at hwindow
      refine ⟨target.toNat, hfits, ?_, by omega, hwindow.2⟩
      rw [hbranch]
      rfl
  · rintro ⟨target, hfits, hbranch, hlow, hhigh⟩
    obtain ⟨t, ht, rfl⟩ := Option.map_eq_some_iff.mp hbranch
    refine ⟨hfits, ?_⟩
    rw [show a64Capstone.branchTarget = testBranchTarget from rfl, ht]
    simp only [Bool.and_eq_true, decide_eq_true_eq]
    exact ⟨by omega, hhigh⟩

theorem mem_takeWhile_of_antitone {p : ℕ → Bool} (hp : ∀ a b, a ≤ b → p b → p a) {l : List ℕ}
    (hl : l.Pairwise (· < ·)) {b : ℕ} (hb : b ∈ l) (hpb : p b) : b ∈ l.takeWhile p := by
  induction l with
  | nil => exact absurd hb List.not_mem_nil
  | cons a l ih =>
    obtain ⟨hlt, hl⟩ := List.pairwise_cons.mp hl
    rcases List.mem_cons.mp hb with rfl | hmem
    · rw [List.takeWhile_cons_of_pos hpb]
      exact List.mem_cons_self
    · rw [List.takeWhile_cons_of_pos (hp a b (hlt b hmem).le hpb)]
      exact List.mem_cons_of_mem a (ih hl hmem)

theorem mem_windowBack {xref fileoff back : ℕ} :
    back ∈ windowBack xref fileoff ↔ 1 ≤ back ∧ back < 1200 ∧ fileoff + back * 4 ≤ xref := by
  constructor
  · intro h
    have hrange := List.mem_range'_1.mp ((List.takeWhile_sublist _).subset h)
    exact ⟨hrange.1, by omega, le_of_mem_windowBack h⟩
  · rintro ⟨hlo, hhi, hle⟩
    refine mem_takeWhile_of_antitone (fun a b hab hb => ?_) (List.pairwise_lt_range' 1 (by decide))
      (List.mem_range'_1.mpr ⟨hlo, by omega⟩) (decide_eq_true hle)
    have hb' := of_decide_eq_true hb
    exact decide_eq_true (by omega)

theorem findBranchInto_nearest {data : Bytes} {exec : Segment} {xref g : ℕ}
    (h : findBranchInto a64Capstone data xref exec.vmaddr exec.fileoff = some g) :
    ∃ target, NearestGate data exec xref g target := by
  have hsorted : (windowBack xref exec.fileoff).Pairwise (· < ·) :=
    (List.pairwise_lt_range' 1 (by decide)).sublist (List.takeWhile_sublist _)
  obtain ⟨back, hback, hfound, hnearer⟩ :=
    (findSome?_eq_some_of_pairwise (fun _ _ hab => Nat.lt_asymm hab) hsorted _ g).mp h
  obtain ⟨hlo, hhi, hle⟩ := mem_windowBack.mp hback
  obtain ⟨hinto, hg⟩ := Option.ite_none_right_eq_some.mp hfound
  obtain rfl := Option.some.inj hg
  obtain ⟨target, htarget⟩ := branchesInto_iff.mp hinto
  refine ⟨target, htarget, ⟨back, hlo, hhi, by omega⟩, by omega, fun g' target' hg hx h4 hinto' => ?_⟩
  -- a nearer one would have been met before
  have hnone := hnearer ((xref - g') / 4) (mem_windowBack.mpr (by omega)) (by omega)
  have hg' : xref - (xref - g') / 4 * 4 = g' := by omega
  rw [hg'] at hnone
  have htrue := branchesInto_iff.mpr ⟨target', hinto'⟩
  rw [codeVa, codeVa] at htrue
  rw [if_pos htrue] at hnone
  exact absurd hnone (Option.some_ne_none g')

/-- The branch found is the nearest into the window; execution from its target runs on into the
load exactly when the target is not behind the load and every word between them is followed by the
next one. -/
theorem nearest_gate_runs_into_panic (data : Bytes) (exec : Segment) (xref g : ℕ)
    (h : findBranchInto a64Capstone data xref exec.vmaddr exec.fileoff = some g) :
    ∃ target, NearestGate data exec xref g target ∧
      (RunsInto data exec target (codeVa exec xref) ↔
        target ≤ codeVa exec xref ∧ ∀ p, target ≤ p → p < codeVa exec xref →
          p % 4 = codeVa exec xref % 4 → FallsThrough data exec p) := by
  obtain ⟨target, hgate⟩ := findBranchInto_nearest h
  refine ⟨target, hgate, runsInto_iff ?_⟩
  obtain ⟨t, ht, rfl⟩ := Option.map_eq_some_iff.mp hgate.branch
  obtain ⟨back, -, -, hback⟩ := hgate.near
  have hmapped := hgate.mapped
  have haligned := testBranchTarget_aligned ht
  rw [BitVec.toNat_ofNat] at haligned
  unfold codeVa at haligned ⊢
  omega

/-- `cbnz w0` to the load, `cbz x1` to the next NOP but one, two NOPs, `ret`, and the load. -/
def panicCode : Bytes :=
  ([0x350000A0, 0xB4000041, nop32, nop32, ret, 0x90000000, 0x91004000] :
    List (BitVec 32)).flatMap fun w => leBytes 4 w.toNat

def panicExec : Segment := ⟨0x4000, 28, 0, 28⟩

theorem panicCode_gate : ∃ target, NearestGate panicCode panicExec 20 4 target ∧
    (RunsInto panicCode panicExec target (codeVa panicExec 20) ↔
      target ≤ codeVa panicExec 20 ∧ ∀ p, target ≤ p → p < codeVa panicExec 20 →
        p % 4 = codeVa panicExec 20 % 4 → FallsThrough panicCode panicExec p) :=
  nearest_gate_runs_into_panic panicCode panicExec 20 4 (by decide +kernel)

/-- The loop test is taken for the gate, and a return stands between its target and the load; the
guard of the load is farther away. -/
theorem return_before_panic :
    findBranchInto a64Capstone panicCode 20 panicExec.vmaddr panicExec.fileoff = some 4 ∧
      testBranchTarget (wordAt panicCode 4) 0x4004 = some 0x400C ∧
      ¬ RunsInto panicCode panicExec 0x400C (codeVa panicExec 20) ∧
      testBranchTarget (wordAt panicCode 0) 0x4000 = some 0x4014 ∧
      RunsInto panicCode panicExec 0x4014 (codeVa panicExec 20) := by
  refine ⟨by decide +kernel, by decide +kernel, fun hruns => ?_, by decide +kernel, ⟨0, rfl⟩⟩
  have hret := ((runsInto_iff (by decide)).mp hruns).2 0x4010 (by decide) (by decide) (by decide)
  exact absurd hret (by decide +kernel)

end SecureWorld.Patcher
