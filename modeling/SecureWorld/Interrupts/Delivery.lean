import SecureWorld.Foundations.Run
import SecureWorld.Interrupts.Aic
import Mathlib.Data.List.Sort

/-! # Deliveries of the AIC

Each acknowledge hands over one pending interrupt. Over a run of device lines and guest accesses an
interrupt is handed over at most once for each time its line was raised, and a handler that keeps
acknowledging gets all pending numbers in ascending order.
-/
namespace SecureWorld.Interrupts
open Foundations
set_option autoImplicit false

/-! ## Runs -/

inductive AicOp
  | setIrq (n level : ℤ)
  | read (off : BitVec 64)
  | write (off val : BitVec 64)

def aicStep (s : AicState) : AicOp → AicState
  | .setIrq n level => aicSetIrq s n level
  | .read off => (aicRead s off).2
  | .write off val => aicWrite s off val

/-- The interrupt that an access takes over, if any. -/
def delivered (s : AicState) : AicOp → Option ℕ
  | .read off => if IsIack s off then aicNextPending s else none
  | _ => none

/-- The interrupts handed over in a run. -/
def deliveries (s : AicState) : List AicOp → List ℕ
  | [] => []
  | o :: ops => (delivered s o).toList ++ deliveries (aicStep s o) ops

/-- A device raises line `n`. -/
def AicOp.Raises (n : ℕ) : AicOp → Prop
  | .setIrq m level => m = n ∧ level ≠ 0
  | _ => False

instance (n : ℕ) : DecidablePred (AicOp.Raises n)
  | .setIrq _ _ => inferInstanceAs (Decidable (_ ∧ _))
  | .read _ => inferInstanceAs (Decidable False)
  | .write _ _ => inferInstanceAs (Decidable False)

theorem aicStep_nrIrqs (s : AicState) (o : AicOp) : (aicStep s o).nrIrqs = s.nrIrqs := by
  cases o with
  | setIrq n level => exact setIrq_nrIrqs s n level
  | read off => exact read_nrIrqs s off
  | write off val => exact write_nrIrqs s off val

/-- One access: what is handed over was pending, and only a raise makes a line pending. -/
theorem step_balance {s : AicState} (hnr : s.nrIrqs = aicMaxIrqs) (o : AicOp) (n : ℕ) :
    (delivered s o).toList.count n + ((aicStep s o).pending.mem n).toNat ≤
      (if o.Raises n then 1 else 0) + (s.pending.mem n).toNat := by
  cases o with
  | setIrq m level =>
    show 0 + ((aicSetIrq s m level).pending.mem n).toNat ≤ _
    by_cases hm : m = n
    · by_cases hlevel : level = 0
      · -- a lowered line stays or becomes low
        have hbit : ((aicSetIrq s m level).pending.mem n).toNat ≤ (s.pending.mem n).toNat := by
          rw [aicSetIrq, if_neg (not_not_intro hlevel)]
          split_ifs
          · exact le_rfl
          · simp [aicUpdate, hm]
        omega
      · rw [if_pos ⟨hm, hlevel⟩]
        have hbit := Bool.toNat_le ((aicSetIrq s m level).pending.mem n)
        omega
    · rw [setIrq_mem_of_ne hm]
      omega
  | read off =>
    show (if IsIack s off then aicNextPending s else none).toList.count n +
      ((aicRead s off).2.pending.mem n).toNat ≤ 0 + (s.pending.mem n).toNat
    by_cases hiack : IsIack s off
    · rw [if_pos hiack, read_of_isIack hiack]
      cases hnext : aicNextPending s with
      | none => simp
      | some irq =>
        obtain ⟨-, hmem, -⟩ := (nextPending_eq_some_iff hnr irq).mp hnext
        by_cases hn : irq = n
        · simp [aicUpdate, ← hn, hmem]
        · simp [aicUpdate, hn, Ne.symm hn]
    · rw [if_neg hiack, read_of_not_isIack hiack]
      simp
  | write off val =>
    rw [aicStep, write_pending]
    simp [delivered]

/-- However devices and the guest interleave, an interrupt is handed over no more often than its
line was raised, one more if it was pending at the start; what is pending at the end is not among
these. -/
theorem deliveries_le_raises {s : AicState} (hnr : s.nrIrqs = aicMaxIrqs) (n : ℕ) :
    ∀ ops : List AicOp, (deliveries s ops).count n + ((run aicStep s ops).pending.mem n).toNat ≤
      ops.countP (AicOp.Raises n) + (s.pending.mem n).toNat
  | [] => by simp [deliveries]
  | o :: ops => by
      have hstep := step_balance hnr o n
      have hrest := deliveries_le_raises ((aicStep_nrIrqs s o).trans hnr) n ops
      rw [deliveries, List.count_append, run_cons, List.countP_cons]
      simp only [decide_eq_true_eq] at hrest ⊢
      omega

/-- An AIC as `init_aic_real` leaves it, with lines 5 and 9 raised and the guest enabling it. -/
def twoRaised : List AicOp :=
  [.setIrq 9 1, .setIrq 5 1, .write 0x14 1, .setIrq 9 1]

def freshAic : AicState := initAicReal ⟨none, none, none, none, none⟩

theorem deliveries_le_raises_two :
    (deliveries freshAic (twoRaised ++ [.read 0x1000, .read 0x1000, .read 0x1000])).count 9 +
      ((run aicStep freshAic (twoRaised ++ [.read 0x1000, .read 0x1000, .read 0x1000])).pending.mem
        9).toNat ≤ 2 :=
  deliveries_le_raises (s := freshAic) rfl 9
    (twoRaised ++ [.read 0x1000, .read 0x1000, .read 0x1000])

/-! ## A handler that drains the controller -/

def pendingNumbers (s : AicState) : List ℕ := (List.range s.nrIrqs).filter s.pending.mem

/-- `m` reads of the acknowledge register. -/
def acknowledgeAll (off : BitVec 64) : ℕ → AicState → List (BitVec 64) × AicState
  | 0, s => ([], s)
  | m + 1, s =>
      let (value, s') := aicRead s off
      let (values, t) := acknowledgeAll off m s'
      (value :: values, t)

theorem filter_eq_cons_of_find? {α : Type} [DecidableEq α] {p : α → Bool} {a : α} :
    ∀ {l : List α}, l.Nodup → l.find? p = some a →
      l.filter p = a :: l.filter fun b => decide (b ≠ a) && p b
  | b :: l, hnodup, hfind => by
      obtain ⟨hb, hl⟩ := List.nodup_cons.mp hnodup
      by_cases hpb : p b = true
      · rw [List.find?_cons_of_pos hpb] at hfind
        obtain rfl := Option.some.inj hfind
        have hrest : l.filter p = l.filter fun c => decide (c ≠ b) && p c :=
          List.filter_congr fun c hc => by
            have hne : c ≠ b := fun h => hb (h ▸ hc)
            rw [decide_eq_true hne, Bool.true_and]
        rw [List.filter_cons_of_pos hpb, List.filter_cons_of_neg (by simp), hrest]
      · rw [List.find?_cons_of_neg hpb] at hfind
        rw [List.filter_cons_of_neg hpb, List.filter_cons_of_neg (by simp [hpb]),
          filter_eq_cons_of_find? hl hfind]

theorem nextPending_eq_find? {s : AicState} (hnr : s.nrIrqs = aicMaxIrqs) :
    aicNextPending s = (List.range s.nrIrqs).find? s.pending.mem := by
  refine Option.ext fun k => ?_
  rw [nextPending_eq_some_iff hnr, List.find?_range_eq_some, List.mem_range]
  simp only [Bool.not_eq_true']
  tauto

theorem pendingNumbers_of_none {s : AicState} (hnr : s.nrIrqs = aicMaxIrqs)
    (h : aicNextPending s = none) : pendingNumbers s = [] := by
  rw [nextPending_eq_find? hnr, List.find?_eq_none] at h
  exact List.filter_eq_nil_iff.mpr h

theorem pendingNumbers_of_some {s : AicState} (hnr : s.nrIrqs = aicMaxIrqs) {irq : ℕ}
    (h : aicNextPending s = some irq) :
    pendingNumbers s = irq :: pendingNumbers (aicUpdate { s with pending := s.pending.erase irq }) := by
  rw [nextPending_eq_find? hnr] at h
  rw [pendingNumbers, filter_eq_cons_of_find? List.nodup_range h]
  refine congrArg (irq :: ·) (List.filter_congr fun b _ => ?_)
  exact (WordBits.mem_erase s.pending irq b).symm

/-- Reading the acknowledge register `m` times returns the pending numbers in ascending order and
then zeros; what is pending afterwards is the rest, and the CPU line falls with the last one. -/
theorem iack_drains (off : BitVec 64) : ∀ (m : ℕ) {s : AicState}, s.nrIrqs = aicMaxIrqs →
    IsIack s off → LineInStep s →
      (acknowledgeAll off m s).1.map BitVec.toNat =
          ((pendingNumbers s).take m).map (2 ^ 16 + ·) ++
            List.replicate (m - (pendingNumbers s).length) 0 ∧
        pendingNumbers (acknowledgeAll off m s).2 = (pendingNumbers s).drop m ∧
        ((acknowledgeAll off m s).2.line = true ↔
          s.enabled = true ∧ m < (pendingNumbers s).length)
  | 0, s, hnr, _, hline => by
      refine ⟨by simp [acknowledgeAll], rfl, ?_⟩
      rw [acknowledgeAll, hline.line_iff hnr, pendingNumbers, List.length_pos_iff_exists_mem]
      simp only [List.mem_filter, List.mem_range]
  | m + 1, s, hnr, hoff, hline => by
      rw [acknowledgeAll, read_of_isIack hoff]
      cases hnext : aicNextPending s with
      | none =>
        have hnil := pendingNumbers_of_none hnr hnext
        obtain ⟨hvalues, hrest, hlow⟩ := iack_drains off m hnr hoff hline
        rw [hnil] at hvalues hrest hlow ⊢
        refine ⟨?_, by rw [hrest]; simp, by rw [hlow]; simp⟩
        rw [List.map_cons, hvalues]
        simp [List.replicate_succ]
      | some irq =>
        have hlt := ((nextPending_eq_some_iff hnr irq).mp hnext).1
        have hcons := pendingNumbers_of_some hnr hnext
        obtain ⟨hvalues, hrest, hlow⟩ := iack_drains off m
          (s := aicUpdate { s with pending := s.pending.erase irq }) hnr hoff (aicUpdate_inStep _)
        rw [hcons]
        refine ⟨?_, hrest, ?_⟩
        · rw [List.map_cons, hvalues, aicEvent_toNat (hnr ▸ hlt), List.take_succ_cons,
            List.map_cons, List.length_cons, Nat.add_sub_add_right]
          rfl
        · rw [hlow, List.length_cons, Nat.add_lt_add_iff_right]
          rfl

theorem iack_drains_two :
    (acknowledgeAll 0x1000 3 (run aicStep freshAic twoRaised)).1.map BitVec.toNat =
      [2 ^ 16 + 5, 2 ^ 16 + 9, 0] := by
  have hpending : pendingNumbers (run aicStep freshAic twoRaised) = [5, 9] := by decide +kernel
  have hvalues := (iack_drains 0x1000 3 (s := run aicStep freshAic twoRaised) rfl (by decide) rfl).1
  rwa [hpending] at hvalues

end SecureWorld.Interrupts
