import SecureWorld.Mailbox.AfkTransport
import SecureWorld.Mailbox.GuestAccess

/-! # The order of the AFK handshake

INIT, GETBUF_ACK and START_ACK each have their own branch in `dcp_ep_handler`, and none looks at
what came before: `afk_inited` is written and never read. The order holds in exactly the runs in
which the guest keeps it.
-/
namespace SecureWorld.Mailbox
open Foundations
set_option autoImplicit false

/-- The types of the messages received so far. -/
def afkTypes (c : Coproc) : List (BitVec 64) := c.rtk.received.map fun r => rbepType r.1

/-- The buffer addresses delivered so far. -/
def delivered (c : Coproc) : List (BitVec 64) :=
  (c.rtk.received.filter fun r => decide (rbepType r.1 = rbepGetbufAck)).map
    fun r => getbufAckDva r.1

/-- `started` comes after INIT, GETBUF_ACK and START_ACK in this order, and RECV reads at delivered
addresses only. -/
structure HandshakeOrder (c : Coproc) : Prop where
  started : c.dcp.started = true → c.dcp.afkInited = true ∧
    [rbepInit, rbepGetbufAck, rbepStartAck].Sublist (afkTypes c)
  reads : ∀ addr ∈ c.dcp.recvReads, addr ∈ delivered c

/-- The guest sends START_ACK after INIT and GETBUF_ACK, and RECV after GETBUF_ACK. -/
def KeepsOrder (c : Coproc) (m : BitVec 32 × BitVec 64) : Prop :=
  (rbepType m.2 = rbepStartAck → [rbepInit, rbepGetbufAck].Sublist (afkTypes c)) ∧
    (rbepType m.2 = rbepRecv → rbepGetbufAck ∈ afkTypes c)

/-! ## What a delivery adds to the history -/

theorem deliver_types (c : Coproc) (m : BitVec 32 × BitVec 64) :
    afkTypes (deliver c m) = afkTypes c ++ [rbepType m.2] := by
  rw [afkTypes, deliver, handleA2i_received, List.map_append, List.map_singleton, afkTypes]

theorem deliver_delivered (c : Coproc) (m : BitVec 32 × BitVec 64) :
    delivered (deliver c m) =
      delivered c ++ if rbepType m.2 = rbepGetbufAck then [getbufAckDva m.2] else [] := by
  rw [delivered, deliver, handleA2i_received, List.filter_append, List.map_append, delivered]
  congr 1
  by_cases hgetbuf : rbepType m.2 = rbepGetbufAck
  · simp [hgetbuf]
  · simp [hgetbuf]

theorem afkTypes_sublist (c : Coproc) (m : BitVec 32 × BitVec 64) :
    (afkTypes c).Sublist (afkTypes (deliver c m)) := by
  rw [deliver_types]
  exact List.sublist_append_left _ _

theorem delivered_mono (c : Coproc) (m : BitVec 32 × BitVec 64) :
    ∀ addr ∈ delivered c, addr ∈ delivered (deliver c m) := by
  intro addr haddr
  rw [deliver_delivered]
  exact List.mem_append_left _ haddr

theorem delivered_ne_nil_iff (c : Coproc) : delivered c ≠ [] ↔ rbepGetbufAck ∈ afkTypes c := by
  rw [delivered, afkTypes, ne_eq, List.map_eq_nil_iff, List.filter_eq_nil_iff]
  simp only [decide_eq_true_eq, not_forall, not_not, List.mem_map, exists_prop]

/-! ## Every run -/

/-- The invariant of the runs whose guest keeps the order. -/
structure Handshaking (c : Coproc) : Prop where
  serves : ServesDcp c
  order : HandshakeOrder c
  inited : rbepGetbufAck ∈ afkTypes c → c.dcp.afkInited = true ∧ c.dcp.bfrDva ∈ delivered c

theorem handshaking_attach : Handshaking (appleDcpAttach appleRtkitNew) where
  serves := servesDcp_attach
  order := ⟨fun h => absurd h Bool.false_ne_true, fun _ h => absurd h List.not_mem_nil⟩
  inited := fun h => absurd h List.not_mem_nil

section Delivery
variable {c : Coproc} (h : Handshaking c) {m : BitVec 32 × BitVec 64}
include h

theorem Handshaking.reads_after :
    ∀ addr ∈ c.dcp.recvReads, addr ∈ delivered (Mailbox.deliver c m) :=
  fun addr haddr => delivered_mono c m addr (h.order.reads addr haddr)

theorem Handshaking.started_after : c.dcp.started = true → c.dcp.afkInited = true ∧
    [rbepInit, rbepGetbufAck, rbepStartAck].Sublist (afkTypes (Mailbox.deliver c m)) :=
  fun hs => ⟨(h.order.started hs).1, (h.order.started hs).2.trans (afkTypes_sublist c m)⟩

/-- An earlier GETBUF_ACK still counts. -/
theorem Handshaking.inited_after (hack : rbepGetbufAck ∈ afkTypes c) :
    c.dcp.afkInited = true ∧ c.dcp.bfrDva ∈ delivered (Mailbox.deliver c m) :=
  ⟨(h.inited hack).1, delivered_mono c m _ (h.inited hack).2⟩

theorem Handshaking.deliver_getbufAck (hm : ForDcp m) (hgetbuf : rbepType m.2 = rbepGetbufAck) :
    Handshaking (deliver c m) := by
  have hnext : (Mailbox.deliver c m).dcp =
      { c.dcp with msgs := c.dcp.msgs + 1, bfrDva := getbufAckDva m.2, afkInited := true } := by
    rw [deliver_dcp h.serves hm, dcpNext, if_pos hgetbuf]
  refine ⟨h.serves.deliver m, ⟨?_, ?_⟩, fun _ => ?_⟩
  · rw [hnext]
    exact fun hs => ⟨rfl, (h.started_after hs).2⟩
  · rw [hnext]
    exact h.reads_after
  · rw [hnext, deliver_delivered, if_pos hgetbuf]
    exact ⟨rfl, List.mem_append_right _ List.mem_cons_self⟩

theorem Handshaking.deliver_startAck (hm : ForDcp m) (hstart : rbepType m.2 = rbepStartAck)
    (hopened : [rbepInit, rbepGetbufAck].Sublist (afkTypes c)) : Handshaking (deliver c m) := by
  have hnext : (Mailbox.deliver c m).dcp =
      { c.dcp with msgs := c.dcp.msgs + 1, started := true } := by
    rw [deliver_dcp h.serves hm, dcpNext, if_neg (by rw [hstart]; decide), if_pos hstart]
  have hack : rbepGetbufAck ∈ afkTypes c := hopened.subset (by simp)
  refine ⟨h.serves.deliver m, ⟨?_, ?_⟩, fun _ => ?_⟩
  · rw [hnext, deliver_types, hstart]
    exact fun _ => ⟨(h.inited hack).1, hopened.append (List.Sublist.refl [rbepStartAck])⟩
  · rw [hnext]
    exact h.reads_after
  · rw [hnext]
    exact h.inited_after hack

theorem Handshaking.deliver_recv (hm : ForDcp m) (hrecv : rbepType m.2 = rbepRecv)
    (hack : rbepGetbufAck ∈ afkTypes c) : Handshaking (deliver c m) := by
  have hnext : (Mailbox.deliver c m).dcp = { c.dcp with
      msgs := c.dcp.msgs + 1, recvReads := c.dcp.recvReads ++ [c.dcp.bfrDva] } := by
    rw [deliver_dcp h.serves hm, dcpNext, if_neg (by rw [hrecv]; decide),
      if_neg (by rw [hrecv]; decide), if_pos hrecv]
  have hinited := h.inited_after (m := m) hack
  refine ⟨h.serves.deliver m, ⟨?_, ?_⟩, fun _ => ?_⟩
  · rw [hnext]
    exact h.started_after
  · rw [hnext]
    intro addr haddr
    rcases List.mem_append.mp haddr with haddr | haddr
    · exact h.reads_after addr haddr
    · rw [List.mem_singleton.mp haddr]
      exact hinited.2
  · rw [hnext]
    exact hinited

/-- All other types only count. -/
theorem Handshaking.deliver_other (hm : ForDcp m) (hgetbuf : rbepType m.2 ≠ rbepGetbufAck)
    (hstart : rbepType m.2 ≠ rbepStartAck) (hrecv : rbepType m.2 ≠ rbepRecv) :
    Handshaking (deliver c m) := by
  have hnext : (Mailbox.deliver c m).dcp = { c.dcp with msgs := c.dcp.msgs + 1 } := by
    rw [deliver_dcp h.serves hm, dcpNext, if_neg hgetbuf, if_neg hstart, if_neg hrecv]
  refine ⟨h.serves.deliver m, ⟨?_, ?_⟩, fun hmem => ?_⟩
  · rw [hnext]
    exact h.started_after
  · rw [hnext]
    exact h.reads_after
  · rw [deliver_types, List.mem_append, List.mem_singleton] at hmem
    rw [hnext]
    exact h.inited_after (hmem.resolve_right hgetbuf.symm)

theorem Handshaking.deliver (hm : ForDcp m) (hkeeps : KeepsOrder c m) :
    Handshaking (deliver c m) := by
  by_cases hgetbuf : rbepType m.2 = rbepGetbufAck
  · exact h.deliver_getbufAck hm hgetbuf
  by_cases hstart : rbepType m.2 = rbepStartAck
  · exact h.deliver_startAck hm hstart (hkeeps.1 hstart)
  by_cases hrecv : rbepType m.2 = rbepRecv
  · exact h.deliver_recv hm hrecv (hkeeps.2 hrecv)
  · exact h.deliver_other hm hgetbuf hstart hrecv

end Delivery

/-- A message out of order is acted upon at once. -/
theorem HandshakeOrder.keeps {c : Coproc} (h : Handshaking c) {m : BitVec 32 × BitVec 64}
    (hm : ForDcp m) (hafter : HandshakeOrder (deliver c m)) : KeepsOrder c m := by
  have hdcp := deliver_dcp h.serves hm
  constructor
  · intro hstart
    have hstarted : (deliver c m).dcp.started = true := by
      rw [hdcp, dcpNext, if_neg (by rw [hstart]; decide), if_pos hstart]
    have hsub := (hafter.started hstarted).2
    rw [deliver_types, hstart] at hsub
    have hsplit : [rbepInit, rbepGetbufAck, rbepStartAck] =
        [rbepInit, rbepGetbufAck] ++ [rbepStartAck] := rfl
    rw [hsplit] at hsub
    exact (List.append_sublist_append_right _).mp hsub
  · intro hrecv
    have hgetbuf : ¬ rbepType m.2 = rbepGetbufAck := by rw [hrecv]; decide
    have hread : c.dcp.bfrDva ∈ (deliver c m).dcp.recvReads := by
      rw [hdcp, dcpNext, if_neg hgetbuf, if_neg (by rw [hrecv]; decide), if_pos hrecv]
      exact List.mem_append_right _ List.mem_cons_self
    have hdelivered := hafter.reads _ hread
    rw [deliver_delivered, if_neg hgetbuf, List.append_nil] at hdelivered
    exact (delivered_ne_nil_iff c).mp (List.ne_nil_of_mem hdelivered)

/-- Over every run of messages on the DCP endpoints, the handshake order holds in every state
exactly when every START_ACK comes after INIT and GETBUF_ACK and every RECV after GETBUF_ACK. -/
theorem afk_handshake_order_iff (ms : List (BitVec 32 × BitVec 64)) (hms : ∀ m ∈ ms, ForDcp m) :
    Always deliver HandshakeOrder (appleDcpAttach appleRtkitNew) ms ↔
      EveryStep deliver KeepsOrder (appleDcpAttach appleRtkitNew) ms :=
  always_iff_everyStep deliver HandshakeOrder Handshaking ForDcp KeepsOrder (fun _ h => h.order)
    (fun _ _ hm h hkeeps => h.deliver hm hkeeps) (fun _ _ hm h hafter => hafter.keeps h hm) ms _
    hms handshaking_attach

/-- The handshake as the display driver runs it. -/
theorem afk_handshake_of_display_driver :
    Always deliver HandshakeOrder (appleDcpAttach appleRtkitNew)
        [(dcpEpMain, rbep rbepInit), (dcpEpMain, rbep rbepGetbufAck ||| 0x8000),
          (dcpEpMain, rbep rbepStartAck), (dcpEpMain, rbep rbepRecv)] ↔
      EveryStep deliver KeepsOrder (appleDcpAttach appleRtkitNew)
        [(dcpEpMain, rbep rbepInit), (dcpEpMain, rbep rbepGetbufAck ||| 0x8000),
          (dcpEpMain, rbep rbepStartAck), (dcpEpMain, rbep rbepRecv)] :=
  afk_handshake_order_iff _ (by simp [ForDcp, dcpEndpoints])

/-- START_ACK as the first message: the transport is declared up. -/
theorem afk_started_without_handshake :
    ¬ ∀ ms, (∀ m ∈ ms, ForDcp m) →
      Always deliver HandshakeOrder (appleDcpAttach appleRtkitNew) ms := by
  intro h
  have horder := (h [(dcpEpMain, rbep rbepStartAck)] (by simp [ForDcp, dcpEndpoints])).last
  have hinited := (horder.started (by decide)).1
  exact absurd hinited (by decide)

end SecureWorld.Mailbox
