import SecureWorld.Foundations.Noninterference
import SecureWorld.Mailbox.Frame

/-! # The AFK transport state

The three DCP endpoints are registered with one handler and one `AppleDCPState`. What a message does
to that state depends on its type and payload and not on the endpoint it came in on, so a handshake
on one endpoint rewrites the transport of the others.
-/
namespace SecureWorld.Mailbox
open Foundations
set_option autoImplicit false

def dcpEndpoints : List (BitVec 32) := [dcpEpEpic, dcpEpMain, dcpEpAlt]

/-- Bits 47:0 of a GETBUF_ACK: the address of the shared buffer. -/
def getbufAckDva (msg : BitVec 64) : BitVec 64 := msg &&& 0xffffffffffff

/-- What a message does to the state behind the DCP endpoints. -/
def dcpNext (dcp : AppleDCPState) (msg : BitVec 64) : AppleDCPState :=
  let dcp := { dcp with msgs := dcp.msgs + 1 }
  if rbepType msg = rbepGetbufAck then { dcp with bfrDva := getbufAckDva msg, afkInited := true }
  else if rbepType msg = rbepStartAck then { dcp with started := true }
  else if rbepType msg = rbepRecv then { dcp with recvReads := dcp.recvReads ++ [dcp.bfrDva] }
  else dcp

theorem dcpEpHandler_dcp (c : Coproc) (ep : BitVec 32) (msg : BitVec 64) :
    (dcpEpHandler c ep msg).1.dcp = dcpNext c.dcp msg := by
  unfold dcpEpHandler dcpNext
  by_cases hinit : rbepType msg = rbepInit
  · simp only [hinit, if_true, if_neg (by decide : ¬ rbepInit = rbepGetbufAck),
      if_neg (by decide : ¬ rbepInit = rbepStartAck), if_neg (by decide : ¬ rbepInit = rbepRecv)]
  · simp only [if_neg hinit]
    split_ifs <;> rfl

/-! ## Delivery to the DCP endpoints -/

/-- The three endpoints are served by `dcp_ep_handler`. -/
def ServesDcp (c : Coproc) : Prop := ∀ ep ∈ dcpEndpoints, epHandler c.rtk ep = some .dcpEpHandler

/-- A message and the endpoint it is submitted on. -/
def deliver (c : Coproc) (m : BitVec 32 × BitVec 64) : Coproc := handleA2i c m.2 m.1

/-- The message is for one of the three endpoints. -/
def ForDcp (m : BitVec 32 × BitVec 64) : Prop := m.1 ∈ dcpEndpoints

theorem servesDcp_attach : ServesDcp (appleDcpAttach appleRtkitNew) := by
  intro ep hep
  simp only [dcpEndpoints, List.mem_cons, List.not_mem_nil, or_false] at hep
  obtain rfl | rfl | rfl := hep <;> rfl

theorem ServesDcp.deliver {c : Coproc} (h : ServesDcp c) (m : BitVec 32 × BitVec 64) :
    ServesDcp (deliver c m) := by
  intro ep hep
  rw [Mailbox.deliver, epHandler_congr (handleA2i_view c m.2 m.1)]
  exact h ep hep

theorem dcpEndpoint_masked {ep : BitVec 32} (hep : ep ∈ dcpEndpoints) :
    ep &&& 0xff = ep ∧ ep ≠ mgmtEp := by
  simp only [dcpEndpoints, List.mem_cons, List.not_mem_nil, or_false] at hep
  obtain rfl | rfl | rfl := hep <;> exact ⟨by decide, by decide⟩

theorem deliver_dcp {c : Coproc} (h : ServesDcp c) {m : BitVec 32 × BitVec 64} (hm : ForDcp m) :
    (deliver c m).dcp = dcpNext c.dcp m.2 := by
  obtain ⟨hmask, hne⟩ := dcpEndpoint_masked hm
  have hhandler : epHandler { c.rtk with received := c.rtk.received ++ [(m.2, m.1)] } m.1 =
      some .dcpEpHandler := h m.1 hm
  rw [deliver, handleA2i]
  simp only [hmask, if_neg hne, hhandler, callHandler]
  exact dcpEpHandler_dcp _ _ _

/-! ## Endpoint 0x24 and the others -/

/-- A coprocessor and the addresses RECV messages on endpoint 0x24 have read from. -/
structure AfkRun where
  coproc : Coproc
  mainReads : List (BitVec 64)

def isMain (m : BitVec 32 × BitVec 64) : Bool := decide (m.1 = dcpEpMain)

def AfkRun.step (a : AfkRun) (m : BitVec 32 × BitVec 64) : AfkRun :=
  let c := deliver a.coproc m
  { coproc := c
    mainReads :=
      if isMain m then a.mainReads ++ c.dcp.recvReads.drop a.coproc.dcp.recvReads.length
      else a.mainReads }

def AfkRun.fresh : AfkRun := ⟨appleDcpAttach appleRtkitNew, []⟩

/-- The transport state of endpoint 0x24 and the addresses its RECV handling read from. -/
structure AfkView where
  bfrDva : BitVec 64
  afkInited : Bool
  started : Bool
  mainReads : List (BitVec 64)
deriving DecidableEq

def AfkRun.view (a : AfkRun) : AfkView :=
  ⟨a.coproc.dcp.bfrDva, a.coproc.dcp.afkInited, a.coproc.dcp.started, a.mainReads⟩

/-- A message on another endpoint that repeats what the transport already holds. -/
def KeepsTransport (dcp : AppleDCPState) (msg : BitVec 64) : Prop :=
  (rbepType msg = rbepGetbufAck → dcp.afkInited = true ∧ dcp.bfrDva = getbufAckDva msg) ∧
    (rbepType msg = rbepStartAck → dcp.started = true)

/-- What a message on endpoint 0x24 makes of the view. -/
def AfkView.next (v : AfkView) (msg : BitVec 64) : AfkView :=
  if rbepType msg = rbepGetbufAck then { v with bfrDva := getbufAckDva msg, afkInited := true }
  else if rbepType msg = rbepStartAck then { v with started := true }
  else if rbepType msg = rbepRecv then { v with mainReads := v.mainReads ++ [v.bfrDva] }
  else v

theorem view_main {a : AfkRun} (h : ServesDcp a.coproc) {m : BitVec 32 × BitVec 64}
    (hm : ForDcp m) (hmain : isMain m = true) : (a.step m).view = a.view.next m.2 := by
  have hdcp := deliver_dcp h hm
  simp only [AfkRun.step, AfkRun.view, hdcp, if_pos hmain]
  unfold dcpNext AfkView.next
  simp only []
  split_ifs
  · simp
  · simp
  · simp
  · simp

/-- A message on another endpoint changes the view unless it repeats what is there. -/
theorem view_other_iff {a : AfkRun} (h : ServesDcp a.coproc) {m : BitVec 32 × BitVec 64}
    (hm : ForDcp m) (hother : isMain m = false) :
    (a.step m).view = a.view ↔ KeepsTransport a.coproc.dcp m.2 := by
  have hdcp := deliver_dcp h hm
  have hno : ¬ isMain m = true := Bool.eq_false_iff.mp hother
  have hne : ¬ rbepGetbufAck = rbepStartAck := by decide
  simp only [AfkRun.step, AfkRun.view, hdcp, if_neg hno, AfkView.mk.injEq]
  by_cases hgetbuf : rbepType m.2 = rbepGetbufAck
  · -- a second buffer address
    have hkeeps : KeepsTransport a.coproc.dcp m.2 ↔
        a.coproc.dcp.afkInited = true ∧ a.coproc.dcp.bfrDva = getbufAckDva m.2 := by
      simp only [KeepsTransport, hgetbuf, hne, true_imp_iff, false_imp_iff, and_true]
    rw [hkeeps]
    simp only [dcpNext, if_pos hgetbuf]
    constructor
    · rintro ⟨hdva, hinited, -⟩
      exact ⟨hinited.symm, hdva.symm⟩
    · rintro ⟨hinited, hdva⟩
      simp [hinited, hdva]
  by_cases hstart : rbepType m.2 = rbepStartAck
  · have hkeeps : KeepsTransport a.coproc.dcp m.2 ↔ a.coproc.dcp.started = true := by
      simp only [KeepsTransport, hstart, Ne.symm hne, true_imp_iff, false_imp_iff, true_and]
    rw [hkeeps]
    simp only [dcpNext, if_neg hgetbuf, if_pos hstart, true_and, and_true]
    exact eq_comm
  · have hkeeps : KeepsTransport a.coproc.dcp m.2 :=
      ⟨fun h' => absurd h' hgetbuf, fun h' => absurd h' hstart⟩
    simp only [dcpNext, if_neg hgetbuf, if_neg hstart, hkeeps, iff_true]
    split_ifs <;> simp

/-! ## Every interleaving -/

/-- Over every interleaving of the three endpoints, endpoint 0x24 sees what it would see alone at
every point exactly when the messages on the other two repeat what the transport already holds. -/
theorem afk_endpoints_undisturbed_iff (ms : List (BitVec 32 × BitVec 64))
    (hms : ∀ m ∈ ms, ForDcp m) :
    Undisturbed AfkRun.step AfkRun.view isMain AfkRun.fresh AfkRun.fresh ms ↔
      EveryStep AfkRun.step (fun a m => isMain m = false → KeepsTransport a.coproc.dcp m.2)
        AfkRun.fresh ms := by
  have hserves : ∀ (a : AfkRun) (m : BitVec 32 × BitVec 64), ForDcp m → ServesDcp a.coproc →
      ServesDcp (a.step m).coproc := fun a m _ h => h.deliver m
  have hkeep : ∀ (a b : AfkRun) (m : BitVec 32 × BitVec 64), ForDcp m → ServesDcp a.coproc →
      ServesDcp b.coproc → isMain m = true → a.view = b.view →
      (a.step m).view = (b.step m).view := by
    intro a b m hm ha hb hmain hview
    rw [view_main ha hm hmain, view_main hb hm hmain, hview]
  rw [undisturbed_iff_silent AfkRun.step (fun a => ServesDcp a.coproc) ForDcp hserves hkeep ms _ _
    hms servesDcp_attach servesDcp_attach rfl]
  have hok : Always AfkRun.step (fun a => ServesDcp a.coproc) AfkRun.fresh ms :=
    always_of_preserves AfkRun.step _ ForDcp hserves hms servesDcp_attach
  -- step by step, silence is repetition
  have hstep : ∀ pre m post, ms = pre ++ m :: post →
      (Silent AfkRun.step AfkRun.view isMain (run AfkRun.step AfkRun.fresh pre) m ↔
        (isMain m = false →
          KeepsTransport (run AfkRun.step AfkRun.fresh pre).coproc.dcp m.2)) := by
    intro pre m post hsplit
    have hpre := hok pre (hsplit ▸ List.prefix_append pre (m :: post))
    have hm : ForDcp m := hms m (hsplit ▸ List.mem_append_right pre List.mem_cons_self)
    exact forall_congr' fun hother => view_other_iff hpre hm hother
  constructor
  · intro h pre m post hsplit
    exact (hstep pre m post hsplit).mp (h pre m post hsplit)
  · intro h pre m post hsplit
    exact (hstep pre m post hsplit).mpr (h pre m post hsplit)

/-- An INIT on endpoint 0x25 between two messages of endpoint 0x24. -/
theorem afk_init_elsewhere :
    Undisturbed AfkRun.step AfkRun.view isMain AfkRun.fresh AfkRun.fresh
        [(dcpEpMain, rbep rbepGetbufAck ||| 0x8000), (dcpEpAlt, rbep rbepInit),
          (dcpEpMain, rbep rbepRecv)] ↔
      EveryStep AfkRun.step (fun a m => isMain m = false → KeepsTransport a.coproc.dcp m.2)
        AfkRun.fresh
        [(dcpEpMain, rbep rbepGetbufAck ||| 0x8000), (dcpEpAlt, rbep rbepInit),
          (dcpEpMain, rbep rbepRecv)] :=
  afk_endpoints_undisturbed_iff _ (by simp [ForDcp, dcpEndpoints])

/-- Endpoint 0x25 answers GETBUF between the GETBUF_ACK and the RECV of endpoint 0x24: the RECV
reads from the other endpoint's buffer. -/
theorem afk_endpoint_reads_foreign_buffer :
    ¬ ∀ ms, (∀ m ∈ ms, ForDcp m) →
      Undisturbed AfkRun.step AfkRun.view isMain AfkRun.fresh AfkRun.fresh ms := by
  intro h
  have hsame := h [(dcpEpMain, rbep rbepGetbufAck ||| 0x8000),
    (dcpEpAlt, rbep rbepGetbufAck ||| 0xc000), (dcpEpMain, rbep rbepRecv)]
    (by simp [ForDcp, dcpEndpoints]) _ (List.prefix_refl _)
  exact absurd (congrArg AfkView.mainReads hsame) (by decide)

end SecureWorld.Mailbox
