import SecureWorld.Mailbox.Asc
import SecureWorld.Mailbox.Coprocessor

/-! # Both mailbox rings are bounded FIFOs

Over every run of either engine the ring indices stay in range, the messages removed are a prefix
of the messages accepted, and the interrupt line follows the fill count. A RECV0 read on a nonempty
ring returns the message half of the entry that the next RECV1 read removes.
-/
namespace SecureWorld.Mailbox
open Foundations
set_option autoImplicit false

/-- What a guest may rely on at any moment. -/
structure FifoContract {α : Type} (n : ℤ) (d : QueueDevice α) : Prop where
  head_range : 0 ≤ d.head ∧ d.head < n
  count_range : 0 ≤ d.count ∧ d.count ≤ n
  popped_prefix : d.popped <+: d.enqueued
  nothing_lost : d.enqueued = d.popped ++ d.contents n
  irq_level : d.irq = decide (0 < d.count)

theorem fifoContract_of_ok {α : Type} {n : ℤ} {d : QueueDevice α} (h : d.Ok n) :
    FifoContract n d where
  head_range := ⟨h.bounded.head_nonneg, h.bounded.head_lt⟩
  count_range := ⟨h.bounded.count_nonneg, h.bounded.count_le⟩
  popped_prefix := ⟨d.contents n, h.fifo.symm⟩
  nothing_lost := h.fifo
  irq_level := h.line

/-- The front entry of a nonempty ring. -/
structure Front {α : Type} (n : ℤ) (e : α) (d : QueueDevice α) : Prop where
  ok : d.Ok n
  nonempty : 0 < d.count
  front : d.q d.head = e

theorem Front.offers {α : Type} {n : ℤ} {e : α} {d : QueueDevice α} (h : Front n e d)
    (xs : List α) : Front n e (d.offers n xs) := by
  obtain ⟨hpos, hfront⟩ := QueueDevice.offers_front n h.ok h.nonempty xs
  exact ⟨h.ok.offers n xs, hpos, hfront.trans h.front⟩

/-! ## The front survives everything but a RECV1 read -/

theorem exec_front {e : RTKitMsg} {c : Coproc} (h : Front 64 e c.rtk.toQueueDevice) (op : RTKitOp)
    (hop : op ≠ .read ascI2aRecv1) : Front 64 e (c.exec op).rtk.toQueueDevice := by
  have hoffers : ∃ xs, (c.exec op).rtk.toQueueDevice = c.rtk.toQueueDevice.offers 64 xs := by
    cases op with
    | send ep msg => exact ⟨[⟨msg, ep⟩], send_queue _ _ _⟩
    | announce => exact ⟨_, appleRtkitBoot_queue _⟩
    | addEndpoint ep handler => exact ⟨[], addEndpoint_queue _ _ _⟩
    | read off =>
      have hoff : off ≠ ascI2aRecv1 := fun he => hop (by rw [he])
      exact ⟨[], (rtkitRead_queue c.rtk off).trans (if_neg hoff)⟩
    | write off val => exact ⟨_, rtkitWrite_queue c off val⟩
  obtain ⟨xs, hxs⟩ := hoffers
  rw [hxs]
  exact h.offers xs

theorem run_front {e : RTKitMsg} {c : Coproc} (h : Front 64 e c.rtk.toQueueDevice)
    (ops : List RTKitOp) (hops : ∀ op ∈ ops, op ≠ .read ascI2aRecv1) :
    Front 64 e (c.run ops).rtk.toQueueDevice :=
  run_preserves Coproc.exec (fun c => Front 64 e c.rtk.toQueueDevice) _
    (fun _ op hop hc => exec_front hc op hop) ops c hops h

theorem ascExec_front {e : AscMsg} {s : AscMboxState} (h : Front 32 e s.toQueueDevice) (op : AscOp)
    (hop : op ≠ .read ascI2aRecv1) : Front 32 e (s.exec op).toQueueDevice := by
  cases op with
  | read off =>
    have hoff : off ≠ ascI2aRecv1 := fun he => hop (by rw [he])
    have hsame : (s.exec (.read off)).toQueueDevice = s.toQueueDevice :=
      (ascRead_queue s off).trans (if_neg hoff)
    rw [hsame]
    exact h
  | push msg0 ep =>
    have hpush : (s.exec (.push msg0 ep)).toQueueDevice = s.toQueueDevice.offers 32 [⟨msg0, ep⟩] :=
      ascPush_queue _ _ _
    rw [hpush]
    exact h.offers _
  | announce =>
    obtain ⟨xs, hxs⟩ := ascAnnounceCb_offers s
    simp only [AscMboxState.exec, hxs]
    exact h.offers xs
  | write off val =>
    obtain ⟨xs, hxs⟩ := ascWrite_offers s off val
    simp only [AscMboxState.exec, hxs]
    exact h.offers xs

theorem ascRun_front {e : AscMsg} {s : AscMboxState} (h : Front 32 e s.toQueueDevice)
    (ops : List AscOp) (hops : ∀ op ∈ ops, op ≠ .read ascI2aRecv1) :
    Front 32 e (s.run ops).toQueueDevice :=
  run_preserves AscMboxState.exec (fun s => Front 32 e s.toQueueDevice) _
    (fun _ op hop hs => ascExec_front hs op hop) ops s hops h

/-! ## The two halves of an entry -/

theorem rtkitRead_recv0 {e : RTKitMsg} {rtk : AppleRTKit} (h : Front 64 e rtk.toQueueDevice) :
    (rtkitRead rtk ascI2aRecv0).1 = e.msg := by
  have hne : rtk.count ≠ 0 := by have := h.nonempty; omega
  simp [rtkitRead, hne, h.front, show ¬ ascI2aRecv0 = ascCpuControl by decide,
    show ¬ ascI2aRecv0 = ascI2aControl by decide, show ¬ ascI2aRecv0 = ascA2iControl by decide]

theorem rtkitRead_recv1 {e : RTKitMsg} {rtk : AppleRTKit} (h : Front 64 e rtk.toQueueDevice) :
    (rtkitRead rtk ascI2aRecv1).1 = e.ep.setWidth 64 ∧
      (rtkitRead rtk ascI2aRecv1).2.popped = rtk.popped ++ [e] := by
  have hne : rtk.count ≠ 0 := by have := h.nonempty; omega
  refine ⟨?_, ?_⟩
  · simp [rtkitRead, hne, h.front, show ¬ ascI2aRecv1 = ascCpuControl by decide,
      show ¬ ascI2aRecv1 = ascI2aControl by decide, show ¬ ascI2aRecv1 = ascA2iControl by decide,
      show ¬ ascI2aRecv1 = ascI2aRecv0 by decide]
  · rw [rtkitRead_queue, if_pos rfl, QueueDevice.take, if_neg hne]
    simp [QueueDevice.popped, h.front]

theorem ascRead_recv0 {e : AscMsg} {s : AscMboxState} (h : Front 32 e s.toQueueDevice) :
    (ascRead s ascI2aRecv0).1 = e.msg0 := by
  have hne : s.count ≠ 0 := by have := h.nonempty; omega
  simp [ascRead, hne, h.front, show ¬ ascI2aRecv0 = ascCpuControl by decide,
    show ¬ ascI2aRecv0 = ascAnsBootStatus by decide,
    show ¬ ascI2aRecv0 = ascI2aControl by decide, show ¬ ascI2aRecv0 = ascA2iControl by decide]

theorem ascRead_recv1 {e : AscMsg} {s : AscMboxState} (h : Front 32 e s.toQueueDevice) :
    (ascRead s ascI2aRecv1).1 = e.msg1.setWidth 64 ∧
      (ascRead s ascI2aRecv1).2.popped = s.popped ++ [e] := by
  have hne : s.count ≠ 0 := by have := h.nonempty; omega
  refine ⟨?_, ?_⟩
  · simp [ascRead, hne, h.front, show ¬ ascI2aRecv1 = ascCpuControl by decide,
      show ¬ ascI2aRecv1 = ascAnsBootStatus by decide,
      show ¬ ascI2aRecv1 = ascI2aControl by decide, show ¬ ascI2aRecv1 = ascA2iControl by decide,
      show ¬ ascI2aRecv1 = ascI2aRecv0 by decide]
  · rw [ascRead_queue, if_pos rfl, QueueDevice.take, if_neg hne]
    simp [QueueDevice.popped, h.front]

/-! ## The mailbox contract -/

/-- `read0` taken at one moment and `read1` taken at a later one are the halves of one entry, which
the later read removes. -/
def SameEntry {α : Type} (msg : α → BitVec 64) (ep : α → BitVec 32) (read0 read1 : BitVec 64)
    (before after : QueueDevice α) : Prop :=
  ∃ e, read0 = msg e ∧ read1 = (ep e).setWidth 64 ∧ after.popped = before.popped ++ [e]

/-- Over every run both rings are FIFOs with the line in step; and from any moment at which a ring
is nonempty, a RECV0 read and the next RECV1 read, with anything else in between, return the two
halves of the entry removed. -/
theorem mailbox_rings_are_fifos :
    (∀ ops, FifoContract 64 (Coproc.fresh.run ops).rtk.toQueueDevice) ∧
    (∀ isAns ops, FifoContract 32 ((AscMboxState.fresh isAns).run ops).toQueueDevice) ∧
    (∀ ops mid, (∀ op ∈ mid, op ≠ RTKitOp.read ascI2aRecv1) →
      let c := Coproc.fresh.run ops
      let c' := c.run mid
      0 < c.rtk.count →
        SameEntry RTKitMsg.msg RTKitMsg.ep (rtkitRead c.rtk ascI2aRecv0).1
          (rtkitRead c'.rtk ascI2aRecv1).1 c'.rtk.toQueueDevice
          (rtkitRead c'.rtk ascI2aRecv1).2.toQueueDevice) ∧
    (∀ isAns ops mid, (∀ op ∈ mid, op ≠ AscOp.read ascI2aRecv1) →
      let s := (AscMboxState.fresh isAns).run ops
      let s' := s.run mid
      0 < s.count →
        SameEntry AscMsg.msg0 AscMsg.msg1 (ascRead s ascI2aRecv0).1 (ascRead s' ascI2aRecv1).1
          s'.toQueueDevice (ascRead s' ascI2aRecv1).2.toQueueDevice) := by
  refine ⟨fun ops => fifoContract_of_ok (run_ok fresh_ok ops),
    fun isAns ops => fifoContract_of_ok (ascRun_ok (ascFresh_ok isAns) ops), ?_, ?_⟩
  · intro ops mid hmid c c' hpos
    have hc : Front 64 (c.rtk.q c.rtk.head) c.rtk.toQueueDevice := ⟨run_ok fresh_ok ops, hpos, rfl⟩
    have hc' := run_front hc mid hmid
    exact ⟨_, rtkitRead_recv0 hc, rtkitRead_recv1 hc'⟩
  · intro isAns ops mid hmid s s' hpos
    have hs : Front 32 (s.q s.head) s.toQueueDevice :=
      ⟨ascRun_ok (ascFresh_ok isAns) ops, hpos, rfl⟩
    have hs' := ascRun_front hs mid hmid
    exact ⟨_, ascRead_recv0 hs, ascRead_recv1 hs'⟩

/-- On an empty ring RECV0 reads 0, which is no half of the entry a later send brings. -/
theorem recv0_on_empty_ring_is_no_half :
    ¬ ∀ ops mid, (∀ op ∈ mid, op ≠ RTKitOp.read ascI2aRecv1) →
      let c := Coproc.fresh.run ops
      let c' := c.run mid
      SameEntry RTKitMsg.msg RTKitMsg.ep (rtkitRead c.rtk ascI2aRecv0).1
        (rtkitRead c'.rtk ascI2aRecv1).1 c'.rtk.toQueueDevice
        (rtkitRead c'.rtk ascI2aRecv1).2.toQueueDevice := by
  intro h
  obtain ⟨e, hmsg, -, hpop⟩ := h [] [.read ascI2aRecv0, .send 0x20 5] (by decide)
  have hpop' : (rtkitRead (Coproc.fresh.run [.read ascI2aRecv0, .send 0x20 5]).rtk
      ascI2aRecv1).2.popped = [⟨5, 0x20⟩] := by decide
  have hnone : (Coproc.fresh.run [.read ascI2aRecv0, .send 0x20 5]).rtk.popped = [] := by decide
  have hzero : (rtkitRead (Coproc.fresh.run []).rtk ascI2aRecv0).1 = 0 := by decide
  have he : [(⟨5, 0x20⟩ : RTKitMsg)] = [e] := by
    rw [← hpop']
    exact hpop.trans (by rw [show (Coproc.fresh.run [] |>.run
      [.read ascI2aRecv0, .send 0x20 5]).rtk.popped = [] from hnone, List.nil_append])
  have hfive : e.msg = 5 := by rw [← (List.cons.inj he).1]
  rw [hfive, hzero] at hmsg
  exact absurd hmsg (by decide)

end SecureWorld.Mailbox
