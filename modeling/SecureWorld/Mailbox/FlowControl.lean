import SecureWorld.Mailbox.Coprocessor

/-! # Flow control of the RTKit mailbox

The status register the guest polls before it submits a message never reports FULL, whatever the
fill of the reply ring. A submission makes at most three replies; those that fit in the free slots
are enqueued, in order, and the rest are dropped.
-/
namespace SecureWorld.Mailbox
open Foundations
set_option autoImplicit false

/-- A guest submission: the message word to SEND0, then the endpoint word to SEND1. -/
def submission (m e : BitVec 64) : List RTKitOp := [.write ascA2iSend0 m, .write ascA2iSend1 e]

def submit (c : Coproc) (m e : BitVec 64) : Coproc := c.run (submission m e)

/-- The endpoint a SEND1 word selects. -/
def sendEp (e : BitVec 64) : BitVec 32 := e.setWidth 32 &&& 0xff

theorem a2iControl_never_full (rtk : AppleRTKit) :
    (rtkitRead rtk ascA2iControl).1 &&& ascCtrlFull = 0 := by
  have hread : rtkitRead rtk ascA2iControl = (ascCtrlEmpty, rtk) := by
    rw [rtkitRead, if_neg (by decide), if_neg (by decide), if_pos rfl]
  have hbits : ascCtrlEmpty &&& ascCtrlFull = 0 := by decide
  rw [hread, hbits]

theorem submit_queue (c : Coproc) (m e : BitVec 64) :
    (submit c m e).rtk.toQueueDevice =
      c.rtk.toQueueDevice.offers 64 (replies c.rtk m (sendEp e)) := by
  have hsend0 : rtkitWrite c ascA2iSend0 m = { c with rtk := { c.rtk with a2iMsg := m } } := by
    rw [rtkitWrite, if_neg (by decide), if_pos rfl]
  have hsubmit : submit c m e = rtkitWrite (rtkitWrite c ascA2iSend0 m) ascA2iSend1 e := rfl
  rw [hsubmit, rtkitWrite_queue, hsend0, writeReplies, if_neg (by decide), if_pos rfl]
  rfl

/-! ## At most three replies -/

theorem lastBase_le (eps : Fin rtkitMaxEndpoints → RTKitEndpoint) : lastBase eps ≤ 1 := by
  have hfold : ∀ (l : List ℕ) (last : ℕ), (∀ ep ∈ l, ep < 64) → last ≤ 1 →
      l.foldl (fun last ep => if epPresent eps ep then ep / 32 else last) last ≤ 1 := by
    intro l
    induction l with
    | nil => intro last _ hlast; exact hlast
    | cons ep l ih =>
      intro last hl hlast
      have hep := hl ep List.mem_cons_self
      refine ih _ (fun x hx => hl x (List.mem_cons_of_mem ep hx)) ?_
      show (if epPresent eps ep then ep / 32 else last) ≤ 1
      split_ifs
      · omega
      · exact hlast
  exact hfold _ _ (fun ep hep => List.mem_range.mp hep) (by omega)

theorem mgmtReplies_length_le (rtk : AppleRTKit) (msg : BitVec 64) :
    (mgmtReplies rtk msg).length ≤ 2 := by
  have hlast := lastBase_le rtk.eps
  unfold mgmtReplies
  split_ifs
  · simp only [epmapMsgs, List.length_map, List.length_range]
    omega
  all_goals simp

theorem dcpReplies_length_le (ep : BitVec 32) (msg : BitVec 64) :
    (dcpReplies ep msg).length ≤ 3 := by
  unfold dcpReplies
  split_ifs <;> simp

theorem replies_length_le (rtk : AppleRTKit) (msg : BitVec 64) (ep : BitVec 32) :
    (replies rtk msg ep).length ≤ 3 := by
  unfold replies
  split_ifs
  · have := mgmtReplies_length_le rtk msg
    omega
  · split
    · exact dcpReplies_length_le ep msg
    · simp
    · simp

/-! ## What becomes of the replies -/

/-- In every reachable state: FULL is not reported, a submission makes at most three replies, the
first `64 - count` of them are enqueued and exactly the others are dropped. -/
theorem replies_enqueued_up_to_room {c : Coproc} (hc : c.Reachable) (m e : BitVec 64) :
    (rtkitRead c.rtk ascA2iControl).1 &&& ascCtrlFull = 0 ∧
      (replies c.rtk m (sendEp e)).length ≤ 3 ∧
      (submit c m e).rtk.enqueued =
        c.rtk.enqueued ++ (replies c.rtk m (sendEp e)).take (64 - c.rtk.count).toNat ∧
      (submit c m e).rtk.dropped =
        c.rtk.dropped ++ (replies c.rtk m (sendEp e)).drop (64 - c.rtk.count).toNat := by
  obtain ⟨henq, hdrop, -, -⟩ :=
    QueueDevice.offers_split 64 hc.ok (replies c.rtk m (sendEp e))
  refine ⟨a2iControl_never_full c.rtk, replies_length_le _ _ _, ?_, ?_⟩
  · rw [submit_queue, henq]
  · rw [submit_queue, hdrop]

/-- The coprocessor with the display endpoint 0x24 registered. -/
def displayCoproc : Coproc := Coproc.fresh.exec (.addEndpoint 0x24 .dcpEpHandler)

/-- The AFK INIT of the display driver is answered in full. -/
theorem afk_init_is_answered :
    (rtkitRead displayCoproc.rtk ascA2iControl).1 &&& ascCtrlFull = 0 ∧
      (replies displayCoproc.rtk (rbep rbepInit) (sendEp 0x24)).length ≤ 3 ∧
      (submit displayCoproc (rbep rbepInit) 0x24).rtk.enqueued =
        displayCoproc.rtk.enqueued ++ (replies displayCoproc.rtk (rbep rbepInit) (sendEp 0x24)).take
          (64 - displayCoproc.rtk.count).toNat ∧
      (submit displayCoproc (rbep rbepInit) 0x24).rtk.dropped =
        displayCoproc.rtk.dropped ++ (replies displayCoproc.rtk (rbep rbepInit) (sendEp 0x24)).drop
          (64 - displayCoproc.rtk.count).toNat :=
  replies_enqueued_up_to_room ⟨[.addEndpoint 0x24 .dcpEpHandler], rfl⟩ (rbep rbepInit) 0x24

/-! ## A full ring drops the reply -/

/-- SET_IOP_PWR_STATE, state 0x20. -/
def iopPwrMsg : BitVec 64 := (mgmtIopPwr <<< 52) ||| 0x20

theorem iopPwr_replies (rtk : AppleRTKit) :
    replies rtk iopPwrMsg (sendEp 0) = [mgmtMsg mgmtIopPwrAck 0x20] := by
  rw [replies, if_pos (by decide), mgmtReplies, if_neg (by decide), if_pos (by decide)]
  rfl

/-- `n` power requests in a row, nothing drained. -/
def undrained (n : ℕ) : Coproc :=
  Coproc.fresh.run (List.replicate n (submission iopPwrMsg 0)).flatten

theorem undrained_succ (n : ℕ) : undrained (n + 1) = submit (undrained n) iopPwrMsg 0 := by
  simp only [undrained, submit, Coproc.run, List.replicate_succ', List.flatten_append,
    List.flatten_cons, List.flatten_nil, List.append_nil, run_append]

theorem undrained_reachable (n : ℕ) : (undrained n).Reachable := ⟨_, rfl⟩

theorem undrained_count {n : ℕ} (hn : n ≤ 64) : (undrained n).rtk.count = n := by
  induction n with
  | zero => rfl
  | succ n ih =>
    have hcount := ih (by omega)
    obtain ⟨-, -, -, hc⟩ := QueueDevice.offers_split 64 (undrained_reachable n).ok
      [mgmtMsg mgmtIopPwrAck 0x20]
    have hroom : (64 - (undrained n).rtk.count).toNat = 63 - n + 1 := by omega
    rw [undrained_succ, submit_queue, iopPwr_replies, hc, hroom, hcount]
    simp

/-- After 64 undrained power requests FULL is still not reported, and the next ack is lost. -/
theorem full_ring_drops_a_reply :
    ¬ ∀ c : Coproc, c.Reachable → (rtkitRead c.rtk ascA2iControl).1 &&& ascCtrlFull = 0 →
      ∀ m e, (submit c m e).rtk.dropped = c.rtk.dropped := by
  intro h
  have hc := undrained_reachable 64
  have hkeep := h (undrained 64) hc (a2iControl_never_full _) iopPwrMsg 0
  obtain ⟨-, hdrop, -, -⟩ := QueueDevice.offers_split 64 hc.ok [mgmtMsg mgmtIopPwrAck 0x20]
  rw [submit_queue, iopPwr_replies, hdrop, undrained_count (le_refl 64)] at hkeep
  simp at hkeep

end SecureWorld.Mailbox
