import SecureWorld.Interrupts.Aic
import SecureWorld.Mailbox.Coprocessor

/-! # A mailbox on its own interrupt line

The interrupt controller and the RTKit mailbox, wired as `apple_rtkit_new` wires them: every
`rtkit_update_irq` is a call of `aic_set_irq` on the mailbox's hardware interrupt. `log` is a history
variable; it records accepted sends, pops, and the acknowledges that returned the mailbox's number.
-/
namespace SecureWorld.Interrupts
open Foundations Mailbox
set_option autoImplicit false

inductive MailboxEvent where
  | accepted
  | popped
  | acknowledged

structure Board where
  aic : AicState
  mailbox : AppleRTKit
  log : List MailboxEvent

/-- An operation on the board; `setIrq` is another device driving its line. -/
inductive BoardOp where
  | send (ep : BitVec 32) (msg : BitVec 64)
  | mailboxRead (off : BitVec 64)
  | aicRead (off : BitVec 64)
  | aicWrite (off val : BitVec 64)
  | setIrq (m level : ℤ)

section
variable (n : ℕ)

/-- `rtkit_update_irq` of the wired mailbox. -/
def Board.updateIrq (b : Board) (event : MailboxEvent) : Board :=
  { b with
    aic := qemuSetIrq b.aic (aicIrqLine b.aic n) (if b.mailbox.count > 0 then 1 else 0)
    log := b.log ++ [event] }

/-- A full queue returns before `rtkit_update_irq`. -/
def Board.send (b : Board) (ep : BitVec 32) (msg : BitVec 64) : Board :=
  let sent := { b with mailbox := appleRtkitSend b.mailbox ep msg }
  if b.mailbox.count = 64 then sent else sent.updateIrq n .accepted

/-- Only a RECV1 read that removes a message runs `rtkit_update_irq`. -/
def Board.mailboxRead (b : Board) (off : BitVec 64) : Board :=
  let read := { b with mailbox := (rtkitRead b.mailbox off).2 }
  if off = ascI2aRecv1 ∧ b.mailbox.count ≠ 0 then read.updateIrq n .popped else read

/-- The read is an acknowledge that hands over the mailbox's number. -/
def AcksMailbox (s : AicState) (off : BitVec 64) : Prop :=
  IsIack s off ∧ (Interrupts.aicRead s off).1 = (aicEvent n).setWidth 64

instance (s : AicState) (off : BitVec 64) : Decidable (AcksMailbox n s off) :=
  inferInstanceAs (Decidable (_ ∧ _))

def Board.aicRead (b : Board) (off : BitVec 64) : Board :=
  { b with
    aic := (Interrupts.aicRead b.aic off).2
    log := if AcksMailbox n b.aic off then b.log ++ [.acknowledged] else b.log }

def Board.exec (b : Board) : BoardOp → Board
  | .send ep msg => b.send n ep msg
  | .mailboxRead off => b.mailboxRead n off
  | .aicRead off => b.aicRead n off
  | .aicWrite off val => { b with aic := Interrupts.aicWrite b.aic off val }
  | .setIrq m level => { b with aic := aicSetIrq b.aic m level }

def Board.fresh (aic : AicProps) : Board := ⟨initAicReal aic, appleRtkitNew, []⟩

/-- The other devices drive other lines. -/
def OtherLine : BoardOp → Prop
  | .send _ _ => True
  | .mailboxRead _ => True
  | .aicRead _ => True
  | .aicWrite _ _ => True
  | .setIrq m _ => m ≠ n

/-! ## The contract -/

/-- The CPU line is enabled-and-pending; a pending mailbox bit means a message; a message without
its bit has been acknowledged last; and an acknowledge clears what it returns and no more. -/
structure LineContract (b : Board) : Prop where
  line : b.aic.line = true ↔
    b.aic.enabled = true ∧ ∃ k < b.aic.nrIrqs, b.aic.pending.mem k = true
  no_spurious : b.aic.pending.mem n = true → 0 < b.mailbox.count
  no_lost : 0 < b.mailbox.count → b.aic.pending.mem n = false →
    b.log.getLast? = some .acknowledged
  iack : ∀ off, IsIack b.aic off →
    Acknowledges b.aic (Interrupts.aicRead b.aic off).1 (Interrupts.aicRead b.aic off).2

/-- The joint invariant. -/
structure BoardOk (b : Board) : Prop where
  irqs : b.aic.nrIrqs = aicMaxIrqs
  inStep : LineInStep b.aic
  queue : b.mailbox.toQueueDevice.Ok 64
  no_spurious : b.aic.pending.mem n = true → 0 < b.mailbox.count
  no_lost : 0 < b.mailbox.count → b.aic.pending.mem n = false →
    b.log.getLast? = some .acknowledged

variable {n}

theorem BoardOk.contract {b : Board} (h : BoardOk n b) : LineContract n b where
  line := h.inStep.line_iff h.irqs
  no_spurious := h.no_spurious
  no_lost := h.no_lost
  iack := fun _ hiack => iack_acknowledges h.irqs hiack

theorem boardOk_fresh (aic : AicProps) : BoardOk n (Board.fresh aic) where
  irqs := rfl
  inStep := by
    have hnone : aicNextPending (initAicReal aic) = none :=
      (nextPending_eq_none_iff rfl).mpr fun k _ => BitVec.getLsbD_zero
    rw [LineInStep, Board.fresh, hnone]
    rfl
  queue := fresh_ok
  no_spurious := by
    intro hmem
    have hclear : (initAicReal aic).pending.mem n = false := BitVec.getLsbD_zero
    exact absurd (hmem.symm.trans hclear) (by decide)
  no_lost := by
    intro hcount
    have hzero : (Board.fresh aic).mailbox.count = 0 := fresh_ok.count_eq_zero 64 rfl
    rw [hzero] at hcount
    exact absurd hcount (by decide)

/-! ## One step -/

/-- After `rtkit_update_irq` the mailbox bit says whether the queue holds a message. -/
theorem updateIrq_ok (hn : n < aicMaxIrqs) {b : Board} (hirqs : b.aic.nrIrqs = aicMaxIrqs)
    (hstep : LineInStep b.aic) (hqueue : b.mailbox.toQueueDevice.Ok 64) (event : MailboxEvent) :
    BoardOk n (b.updateIrq n event) := by
  have hlt : n < b.aic.nrIrqs := by rw [hirqs]; exact hn
  have hset : (b.updateIrq n event).aic =
      aicSetIrq b.aic n (if b.mailbox.count > 0 then 1 else 0) := by
    have hline : aicIrqLine b.aic n = some (n : ℤ) := if_neg (by omega)
    rw [Board.updateIrq, hline]
    rfl
  have hmem : (b.updateIrq n event).aic.pending.mem n = decide (0 < b.mailbox.count) := by
    rw [hset, setIrq_mem_self hlt]
    by_cases hcount : 0 < b.mailbox.count
    · simp [hcount]
    · simp [hcount]
  refine ⟨by rw [hset, setIrq_nrIrqs, hirqs], hset ▸ hstep.setIrq _ _, hqueue, ?_, ?_⟩
  · intro hset'
    rw [hmem] at hset'
    exact of_decide_eq_true hset'
  · intro hcount hclear
    rw [hmem] at hclear
    exact absurd hcount (of_decide_eq_false hclear)

theorem BoardOk.send (hn : n < aicMaxIrqs) {b : Board} (h : BoardOk n b) (ep : BitVec 32)
    (msg : BitVec 64) : BoardOk n (b.send n ep msg) := by
  have hqueue : (appleRtkitSend b.mailbox ep msg).toQueueDevice.Ok 64 := by
    rw [send_queue]
    exact h.queue.offer 64 _
  unfold Board.send
  split_ifs with hfull
  · have hcount : (appleRtkitSend b.mailbox ep msg).count = b.mailbox.count := by
      rw [appleRtkitSend, if_pos hfull]
    refine ⟨h.irqs, h.inStep, hqueue, ?_, ?_⟩
    · rw [hcount]
      exact h.no_spurious
    · rw [hcount]
      exact h.no_lost
  · exact updateIrq_ok (b := { b with mailbox := appleRtkitSend b.mailbox ep msg }) hn h.irqs
      h.inStep hqueue .accepted

theorem BoardOk.mailboxRead (hn : n < aicMaxIrqs) {b : Board} (h : BoardOk n b)
    (off : BitVec 64) : BoardOk n (b.mailboxRead n off) := by
  have hread := rtkitRead_queue b.mailbox off
  unfold Board.mailboxRead
  split_ifs with hpop
  · rw [if_pos hpop.1] at hread
    have hqueue : (rtkitRead b.mailbox off).2.toQueueDevice.Ok 64 := by
      rw [hread]
      exact h.queue.take 64
    exact updateIrq_ok (b := { b with mailbox := (rtkitRead b.mailbox off).2 }) hn h.irqs
      h.inStep hqueue .popped
  · -- nothing was removed
    have hsame : (rtkitRead b.mailbox off).2.toQueueDevice = b.mailbox.toQueueDevice := by
      rw [hread]
      split_ifs with hrecv
      · have hzero : b.mailbox.count = 0 := by
          by_contra hne
          exact hpop ⟨hrecv, hne⟩
        rw [QueueDevice.take, if_pos hzero]
      · rfl
    refine ⟨h.irqs, h.inStep, hsame ▸ h.queue, ?_, ?_⟩
    · rw [hsame]
      exact h.no_spurious
    · rw [hsame]
      exact h.no_lost

/-- An acknowledge of another number leaves the mailbox bit; one of the mailbox's is logged. -/
theorem BoardOk.aicRead (hn : n < aicMaxIrqs) {b : Board} (h : BoardOk n b) (off : BitVec 64) :
    BoardOk n (b.aicRead n off) := by
  refine ⟨(read_nrIrqs _ _).trans h.irqs, h.inStep.read off, h.queue, ?_, ?_⟩
  · intro hmem
    apply h.no_spurious
    by_cases hiack : IsIack b.aic off
    · obtain ⟨irq, -, -, -, -, hclears, -⟩ | ⟨-, -, hsame⟩ := iack_acknowledges h.irqs hiack
      · rw [Board.aicRead, hclears n, Bool.and_eq_true] at hmem
        exact hmem.2
      · rw [Board.aicRead, hsame] at hmem
        exact hmem
    · rw [Board.aicRead, read_of_not_isIack hiack] at hmem
      exact hmem
  · intro hcount hclear
    by_cases hack : AcksMailbox n b.aic off
    · rw [Board.aicRead, if_pos hack]
      exact List.getLast?_concat
    · rw [Board.aicRead, if_neg hack]
      apply h.no_lost hcount
      by_cases hiack : IsIack b.aic off
      · obtain ⟨irq, hirq, -, -, hvalue, hclears, -⟩ | ⟨-, -, hsame⟩ :=
          iack_acknowledges h.irqs hiack
        · -- the number handed over is not the mailbox's
          have hother : n ≠ irq := by
            intro heq
            apply hack
            refine ⟨hiack, BitVec.eq_of_toNat_eq ?_⟩
            rw [hvalue, aicEvent_toNat hn, heq]
          rw [Board.aicRead, hclears n, decide_eq_true hother, Bool.true_and] at hclear
          exact hclear
        · rw [Board.aicRead, hsame] at hclear
          exact hclear
      · rw [Board.aicRead, read_of_not_isIack hiack] at hclear
        exact hclear

theorem exec_boardOk (hn : n < aicMaxIrqs) (b : Board) (op : BoardOp) (hop : OtherLine n op)
    (h : BoardOk n b) : BoardOk n (b.exec n op) := by
  cases op with
  | send ep msg => exact h.send hn ep msg
  | mailboxRead off => exact h.mailboxRead hn off
  | aicRead off => exact h.aicRead hn off
  | aicWrite off val =>
    refine ⟨(write_nrIrqs _ _ _).trans h.irqs, h.inStep.write off val, h.queue, ?_, ?_⟩
    · rw [Board.exec, write_pending]
      exact h.no_spurious
    · rw [Board.exec, write_pending]
      exact h.no_lost
  | setIrq m level =>
    refine ⟨(setIrq_nrIrqs _ _ _).trans h.irqs, h.inStep.setIrq m level, h.queue, ?_, ?_⟩
    · rw [Board.exec, setIrq_mem_of_ne hop]
      exact h.no_spurious
    · rw [Board.exec, setIrq_mem_of_ne hop]
      exact h.no_lost

end

/-! ## Every run -/

/-- No mailbox interrupt is lost and none is spurious, in every state of every run. -/
theorem no_lost_no_spurious_interrupt (aic : AicProps) (n : ℕ) (hn : n < aicMaxIrqs)
    (ops : List BoardOp) (hops : ∀ op ∈ ops, OtherLine n op) :
    Always (Board.exec n) (LineContract n) (Board.fresh aic) ops := by
  intro pre hpre
  have hok : Always (Board.exec n) (BoardOk n) (Board.fresh aic) ops :=
    always_of_preserves (Board.exec n) (BoardOk n) (OtherLine n) (exec_boardOk hn) hops
      (boardOk_fresh aic)
  exact (hok pre hpre).contract

/-- A HELLO arrives, the guest enables the controller, acknowledges and drains. -/
theorem hello_interrupt :
    Always (Board.exec 7) (LineContract 7) (Board.fresh ⟨none, none, none, none, none⟩)
      [.send mgmtEp helloMsg, .aicWrite 0x14 1, .setIrq 3 1, .aicRead 0x1000, .aicRead 0x1000,
        .mailboxRead ascI2aRecv1] :=
  no_lost_no_spurious_interrupt _ 7 (by decide) _ (by simp [OtherLine])

end SecureWorld.Interrupts
