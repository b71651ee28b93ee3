import SecureWorld.Mailbox.Asc
import SecureWorld.Mailbox.EndpointMap
import SecureWorld.Mailbox.Frame

/-! # The two coprocessor engines

The inline ASC mailbox and the RTKit engine stand in for the same coprocessor. Driven by the same
guest accesses they say the same things outside the endpoint map; the endpoint map is where they
part: `1ULL << 0x24` does not survive the 32-bit mask of the inline mailbox, so the map it sends is
empty.
-/
namespace SecureWorld.Mailbox
open Foundations
set_option autoImplicit false

/-- A guest access or a self-announce callback. -/
inductive GuestOp where
  | announce
  | read (off : BitVec 64)
  | write (off val : BitVec 64)

def GuestOp.toRTKit : GuestOp → RTKitOp
  | .announce => .announce
  | .read off => .read off
  | .write off val => .write off val

def GuestOp.toAsc : GuestOp → AscOp
  | .announce => .announce
  | .read off => .read off
  | .write off val => .write off val

/-- Both engines, driven side by side. -/
structure Engines where
  rtkit : Coproc
  asc : AscMboxState

def Engines.exec (e : Engines) (op : GuestOp) : Engines :=
  ⟨e.rtkit.exec op.toRTKit, e.asc.exec op.toAsc⟩

/-- The two models of the DCP as the machine starts them. -/
def Engines.fresh : Engines := ⟨appleDcpAttach appleRtkitNew, AscMboxState.fresh false⟩

/-- SEND1 writes address the management endpoint. -/
def EndpointZero (op : GuestOp) : Prop :=
  ∀ val, op = .write ascA2iSend1 val → sendEp val = mgmtEp

def AscMsg.toRTKitMsg (m : AscMsg) : RTKitMsg := ⟨m.msg0, m.msg1⟩

def isEpmap (m : RTKitMsg) : Bool := decide (m.ep = mgmtEp) && decide (mgmtType m.msg = mgmtEpmap)

/-- The messages other than the endpoint map. -/
def nonEpmap (msgs : List RTKitMsg) : List RTKitMsg := msgs.filter fun m => !isEpmap m

def SameTraffic (e : Engines) : Prop :=
  nonEpmap e.rtkit.rtk.enqueued = nonEpmap (e.asc.enqueued.map AscMsg.toRTKitMsg)

def SubmitsHelloReply (e : Engines) (op : GuestOp) : Prop :=
  ∃ val, op = .write ascA2iSend1 val ∧ mgmtType e.rtkit.rtk.a2iMsg = mgmtHelloReply

/-- What a step enqueued. -/
def answer {α : Type} (before after : QueueDevice α) : List α :=
  after.enqueued.drop before.enqueued.length

/-- Both engines answer a HELLO_REPLY with a map that has the display endpoint in it. -/
def AnswersHelloReply (e : Engines) (op : GuestOp) : Prop :=
  SubmitsHelloReply e op →
    Advertises ((answer e.rtkit.rtk.toQueueDevice (e.exec op).rtkit.rtk.toQueueDevice).map
        RTKitMsg.msg) dcpEpMain.toNat ∧
      Advertises ((answer e.asc.toQueueDevice (e.exec op).asc.toQueueDevice).map AscMsg.msg0)
        dcpEpMain.toNat

/-! ## What the inline mailbox says -/

def ascMgmt (type payload : BitVec 64) : AscMsg := ⟨(type <<< 52) ||| payload, 0⟩

def ascEpmap (isAns : Bool) : AscMsg :=
  let bitmap : BitVec 64 := if isAns then 0 else 1 <<< 0x24
  ascMgmt mgmtEpmap (epmapLast ||| (bitmap &&& 0xffffffff))

/-- The replies of the inline mailbox to a message on endpoint 0. -/
def ascReplies (s : AscMboxState) (msg0 : BitVec 64) : List AscMsg :=
  if mgmtType msg0 = mgmtHelloReply then [ascEpmap s.isAns]
  else if mgmtType msg0 = mgmtIopPwr then [ascMgmt mgmtIopPwrAck (msg0 &&& 0xffff)]
  else if mgmtType msg0 = mgmtApPwr then [ascMgmt mgmtApPwr (msg0 &&& 0xffff)]
  else []

theorem ascSendMgmt_queue (s : AscMboxState) (type payload : BitVec 64) :
    (ascSendMgmt s type payload).toQueueDevice =
      s.toQueueDevice.offers 32 [ascMgmt type payload] := ascPush_queue _ _ _

theorem ascHandle_queue (s : AscMboxState) (msg0 : BitVec 64) {msg1 : BitVec 32}
    (hep : msg1 &&& 0xff = 0) :
    (ascHandle s msg0 msg1).toQueueDevice = s.toQueueDevice.offers 32 (ascReplies s msg0) := by
  have hep' : ¬ (msg1 &&& 0xff ≠ 0) := fun h => h hep
  unfold ascHandle ascReplies
  simp only [if_neg hep']
  by_cases hreply : mgmtType msg0 = mgmtHelloReply
  · simp only [if_pos hreply]
    exact ascSendMgmt_queue _ _ _
  by_cases hepmap : mgmtType msg0 = mgmtEpmap
  · simp only [hepmap, if_neg (by decide : ¬ mgmtEpmap = mgmtHelloReply), if_true,
      if_neg (by decide : ¬ mgmtEpmap = mgmtIopPwr), if_neg (by decide : ¬ mgmtEpmap = mgmtApPwr)]
    rfl
  by_cases hstart : mgmtType msg0 = mgmtStartep
  · simp only [hstart, if_neg (by decide : ¬ mgmtStartep = mgmtHelloReply),
      if_neg (by decide : ¬ mgmtStartep = mgmtEpmap), if_true,
      if_neg (by decide : ¬ mgmtStartep = mgmtIopPwr),
      if_neg (by decide : ¬ mgmtStartep = mgmtApPwr)]
    rfl
  · simp only [if_neg hreply, if_neg hepmap, if_neg hstart]
    split_ifs
    · exact ascSendMgmt_queue _ _ _
    · exact ascSendMgmt_queue _ _ _
    · rfl

theorem ascBoot_queue (s : AscMboxState) :
    (ascBoot s).toQueueDevice =
      s.toQueueDevice.offers 32 (if s.helloSent then [] else [ascMgmt mgmtHello helloMsg]) := by
  unfold ascBoot
  split_ifs
  · rfl
  · exact ascSendMgmt_queue _ _ _

theorem ascAnnounceCb_queue (s : AscMboxState) :
    (ascAnnounceCb s).toQueueDevice =
      s.toQueueDevice.offers 32 (if s.helloSent then [] else [ascMgmt mgmtHello helloMsg]) := by
  unfold ascAnnounceCb
  split_ifs with hsent
  · rfl
  · have hboot := ascBoot_queue { s with running := true }
    rw [if_neg hsent] at hboot
    exact hboot

/-- The registers and flags of the inline mailbox. -/
structure AscView where
  a2iMsg0 : BitVec 64
  helloSent : Bool
  running : Bool
  isAns : Bool

def AscMboxState.view (s : AscMboxState) : AscView := ⟨s.a2iMsg0, s.helloSent, s.running, s.isAns⟩

theorem ascPush_view (s : AscMboxState) (msg0 : BitVec 64) (ep : BitVec 32) :
    (ascPush s msg0 ep).view = s.view := by
  unfold ascPush
  split_ifs <;> rfl

theorem ascHandle_view (s : AscMboxState) (msg0 : BitVec 64) (msg1 : BitVec 32) :
    (ascHandle s msg0 msg1).view = s.view := by
  unfold ascHandle
  simp only []
  split_ifs <;> first | rfl | exact ascPush_view _ _ _

theorem ascRead_view (s : AscMboxState) (off : BitVec 64) : (ascRead s off).2.view = s.view := by
  unfold ascRead
  split_ifs <;> rfl

theorem ascBoot_view (s : AscMboxState) :
    (ascBoot s).view = { s.view with helloSent := true } := by
  unfold ascBoot
  split_ifs with hsent
  · rw [AscMboxState.view, hsent]
  · exact ascPush_view _ _ _

theorem ascAnnounceCb_view (s : AscMboxState) :
    (ascAnnounceCb s).view =
      if s.helloSent then s.view else { s.view with helloSent := true, running := true } := by
  unfold ascAnnounceCb
  split_ifs
  · rfl
  · exact ascBoot_view { s with running := true }

/-! ## The simulation -/

/-- The state of the handshake, as the RTKit engine has it. -/
def AppleRTKit.ascView (rtk : AppleRTKit) : AscView :=
  ⟨rtk.a2iMsg, rtk.helloSent, rtk.running, false⟩

/-- The engines are at the same point of the same exchange. -/
structure InStep (e : Engines) : Prop where
  view : e.asc.view = e.rtkit.rtk.ascView
  running : e.rtkit.rtk.running = e.rtkit.rtk.helloSent
  traffic : nonEpmap e.rtkit.rtk.offered = nonEpmap (e.asc.offered.map AscMsg.toRTKitMsg)

theorem nonEpmap_append (msgs msgs' : List RTKitMsg) :
    nonEpmap (msgs ++ msgs') = nonEpmap msgs ++ nonEpmap msgs' := List.filter_append msgs msgs'

theorem epmap_isEpmap {payload : BitVec 64} (hpayload : payload >>> 52 = 0) :
    isEpmap (mgmtMsg mgmtEpmap payload) = true := by
  have htype : mgmtType (mgmtMsg mgmtEpmap payload).msg = mgmtEpmap := by
    rw [mgmtType_mgmtMsg _ hpayload]
    decide
  have hep : (mgmtMsg mgmtEpmap payload).ep = mgmtEp := rfl
  rw [isEpmap, htype, hep]
  rfl

theorem nonEpmap_eq_nil {msgs : List RTKitMsg} (h : ∀ m ∈ msgs, isEpmap m = true) :
    nonEpmap msgs = [] := by
  rw [nonEpmap, List.filter_eq_nil_iff]
  intro m hm
  simp [h m hm]

/-- Outside the endpoint map the two engines give the same replies. -/
theorem replies_agree (rtk : AppleRTKit) (s : AscMboxState) (msg : BitVec 64) :
    nonEpmap (mgmtReplies rtk msg) = nonEpmap ((ascReplies s msg).map AscMsg.toRTKitMsg) := by
  unfold mgmtReplies ascReplies
  split_ifs
  · have hasc : isEpmap (ascEpmap s.isAns).toRTKitMsg = true := by
      cases s.isAns <;> exact epmap_isEpmap (by decide)
    rw [List.map_singleton, nonEpmap_eq_nil, nonEpmap_eq_nil]
    · simpa using hasc
    · intro m hm
      obtain ⟨base, hbase, rfl⟩ := List.mem_map.mp hm
      have hlast := lastBase_le rtk.eps
      have hrange := List.mem_range.mp hbase
      exact epmap_isEpmap (epmapPayload_high rtk.eps (by omega))
  · rfl
  · rfl
  · rfl

theorem inStep_fresh : InStep Engines.fresh := ⟨rfl, rfl, rfl⟩

theorem ascView_of_view {rtk rtk' : AppleRTKit} (h : rtk'.view = rtk.view) :
    rtk'.ascView = rtk.ascView :=
  congrArg (fun v : EngineView => (⟨v.a2iMsg, v.helloSent, v.running, false⟩ : AscView)) h

/-- Both engines say the same outside the endpoint map, in the same new state. -/
theorem InStep.say {e e' : Engines} (h : InStep e) {xs : List RTKitMsg} {ys : List AscMsg}
    (hview : e'.asc.view = e'.rtkit.rtk.ascView)
    (hrunning : e'.rtkit.rtk.running = e'.rtkit.rtk.helloSent)
    (hrtkit : e'.rtkit.rtk.toQueueDevice = e.rtkit.rtk.toQueueDevice.offers 64 xs)
    (hasc : e'.asc.toQueueDevice = e.asc.toQueueDevice.offers 32 ys)
    (hsay : nonEpmap xs = nonEpmap (ys.map AscMsg.toRTKitMsg)) : InStep e' := by
  refine ⟨hview, hrunning, ?_⟩
  rw [hrtkit, hasc, QueueDevice.offers_offered, QueueDevice.offers_offered, List.map_append,
    nonEpmap_append, nonEpmap_append, h.traffic, hsay]

/-- Neither engine has anything to say. -/
theorem InStep.quiet {e e' : Engines} (h : InStep e)
    (hview : e'.asc.view = e'.rtkit.rtk.ascView)
    (hrunning : e'.rtkit.rtk.running = e'.rtkit.rtk.helloSent)
    (hrtkit : e'.rtkit.rtk.toQueueDevice = e.rtkit.rtk.toQueueDevice)
    (hasc : e'.asc.toQueueDevice = e.asc.toQueueDevice) : InStep e' := by
  have hr : e'.rtkit.rtk.toQueueDevice = e.rtkit.rtk.toQueueDevice.offers 64 [] := hrtkit
  have ha : e'.asc.toQueueDevice = e.asc.toQueueDevice.offers 32 [] := hasc
  exact h.say hview hrunning hr ha rfl

/-- The two boots, whatever the other registers hold. -/
theorem InStep.boot {e e' : Engines} (h : InStep e) (rtk : AppleRTKit) {asc : AscMboxState}
    (hrtk : rtk.toQueueDevice = e.rtkit.rtk.toQueueDevice ∧
      rtk.ascView = e.rtkit.rtk.ascView)
    (hasc : asc.toQueueDevice = e.asc.toQueueDevice.offers 32
        (if e.asc.helloSent then [] else [ascMgmt mgmtHello helloMsg]) ∧
      asc.view = if e.asc.helloSent then e.asc.view
        else { e.asc.view with helloSent := true, running := true })
    (he : e' = ⟨{ e.rtkit with rtk := appleRtkitBoot rtk }, asc⟩) : InStep e' := by
  subst he
  have hview := h.view
  have hflags : rtk.helloSent = e.rtkit.rtk.helloSent := congrArg AscView.helloSent hrtk.2
  have hsent : e.asc.helloSent = rtk.helloSent := (congrArg AscView.helloSent hview).trans hflags.symm
  have hqueue := appleRtkitBoot_queue rtk
  have hboot := boot_view rtk
  rw [hrtk.1] at hqueue
  rw [hsent] at hasc
  by_cases hs : rtk.helloSent = true
  · rw [if_pos hs] at hqueue hboot
    rw [if_pos hs, if_pos hs] at hasc
    have hafter : (appleRtkitBoot rtk).ascView = e.rtkit.rtk.ascView :=
      (ascView_of_view hboot).trans hrtk.2
    refine h.quiet (hasc.2.trans (hview.trans hafter.symm)) ?_ hqueue hasc.1
    have hrun : (appleRtkitBoot rtk).running = e.rtkit.rtk.running :=
      congrArg AscView.running hafter
    have hhello : (appleRtkitBoot rtk).helloSent = e.rtkit.rtk.helloSent :=
      congrArg AscView.helloSent hafter
    exact hrun.trans (h.running.trans hhello.symm)
  · rw [if_neg hs] at hqueue hboot
    rw [if_neg hs, if_neg hs] at hasc
    have ha2i : (appleRtkitBoot rtk).a2iMsg = e.rtkit.rtk.a2iMsg :=
      (congrArg EngineView.a2iMsg hboot).trans (congrArg AscView.a2iMsg0 hrtk.2)
    have hhello : (appleRtkitBoot rtk).helloSent = true := congrArg EngineView.helloSent hboot
    have hrun : (appleRtkitBoot rtk).running = true := congrArg EngineView.running hboot
    refine h.say ?_ (hrun.trans hhello.symm) hqueue hasc.1 rfl
    rw [AppleRTKit.ascView, ha2i, hhello, hrun, hasc.2, hview]
    rfl

theorem rtkitRunning_of_view {rtk rtk' : AppleRTKit} (h : rtk'.ascView = rtk.ascView)
    (hrun : rtk.running = rtk.helloSent) : rtk'.running = rtk'.helloSent := by
  have hrunning : rtk'.running = rtk.running := congrArg AscView.running h
  have hhello : rtk'.helloSent = rtk.helloSent := congrArg AscView.helloSent h
  rw [hrunning, hhello, hrun]

/-- A step that changes no register and no flag. -/
theorem InStep.frame {e : Engines} (h : InStep e) (e' : Engines)
    (hrtk : e'.rtkit.rtk.ascView = e.rtkit.rtk.ascView) (hasc : e'.asc.view = e.asc.view) :
    e'.asc.view = e'.rtkit.rtk.ascView ∧ e'.rtkit.rtk.running = e'.rtkit.rtk.helloSent :=
  ⟨(hasc.trans h.view).trans hrtk.symm, rtkitRunning_of_view hrtk h.running⟩

theorem inStep_announce {e : Engines} (h : InStep e) : InStep (e.exec .announce) :=
  h.boot e.rtkit.rtk ⟨rfl, rfl⟩ ⟨ascAnnounceCb_queue e.asc, ascAnnounceCb_view e.asc⟩ rfl

theorem inStep_read {e : Engines} (h : InStep e) (off : BitVec 64) :
    InStep (e.exec (.read off)) := by
  have hrtkit := rtkitRead_queue e.rtkit.rtk off
  have hasc := ascRead_queue e.asc off
  obtain ⟨hview, hrunning⟩ := h.frame (e.exec (.read off))
    (ascView_of_view (rtkitRead_view e.rtkit.rtk off)) (ascRead_view e.asc off)
  refine ⟨hview, hrunning, ?_⟩
  show nonEpmap (rtkitRead e.rtkit.rtk off).2.offered =
    nonEpmap ((ascRead e.asc off).2.offered.map AscMsg.toRTKitMsg)
  rw [hrtkit, hasc]
  split_ifs
  · rw [QueueDevice.take_offered, QueueDevice.take_offered]
    exact h.traffic
  · exact h.traffic

theorem inStep_cpuControl {e : Engines} (h : InStep e) (val : BitVec 64) :
    InStep (e.exec (.write ascCpuControl val)) := by
  have hrun : e.asc.running = e.rtkit.rtk.running := congrArg AscView.running h.view
  have hrtkit : rtkitWrite e.rtkit ascCpuControl val =
      if val &&& ascCpuControlRun ≠ 0 ∧ e.rtkit.rtk.running = false then
        { e.rtkit with
          rtk := appleRtkitBoot { e.rtkit.rtk with cpuControl := val.setWidth 32 } }
      else { e.rtkit with rtk := { e.rtkit.rtk with cpuControl := val.setWidth 32 } } := by
    rw [rtkitWrite, if_pos rfl]
  have hasc : ascWrite e.asc ascCpuControl val =
      if val &&& ascCpuControlRun ≠ 0 ∧ e.rtkit.rtk.running = false then
        ascBoot { e.asc with cpuControl := val.setWidth 32, running := true }
      else { e.asc with cpuControl := val.setWidth 32 } := by
    rw [ascWrite, if_pos rfl, ← hrun]
  show InStep ⟨rtkitWrite e.rtkit ascCpuControl val, ascWrite e.asc ascCpuControl val⟩
  rw [hrtkit, hasc]
  by_cases hboot : val &&& ascCpuControlRun ≠ 0 ∧ e.rtkit.rtk.running = false
  · rw [if_pos hboot, if_pos hboot]
    -- not running, so neither engine has said HELLO
    have hsent : ¬ e.asc.helloSent = true := by
      have hhello : e.asc.helloSent = e.rtkit.rtk.helloSent := congrArg AscView.helloSent h.view
      rw [hhello, ← h.running, hboot.2]
      exact Bool.false_ne_true
    refine h.boot { e.rtkit.rtk with cpuControl := val.setWidth 32 } ⟨rfl, rfl⟩ ⟨?_, ?_⟩ rfl
    · exact ascBoot_queue { e.asc with cpuControl := val.setWidth 32, running := true }
    · rw [if_neg hsent]
      exact ascBoot_view { e.asc with cpuControl := val.setWidth 32, running := true }
  · rw [if_neg hboot, if_neg hboot]
    exact h.quiet h.view h.running rfl rfl

theorem inStep_send0 {e : Engines} (h : InStep e) (val : BitVec 64) :
    InStep (e.exec (.write ascA2iSend0 val)) := by
  have hrtkit : rtkitWrite e.rtkit ascA2iSend0 val =
      { e.rtkit with rtk := { e.rtkit.rtk with a2iMsg := val } } := by
    rw [rtkitWrite, if_neg (by decide), if_pos rfl]
  have hasc : ascWrite e.asc ascA2iSend0 val = { e.asc with a2iMsg0 := val } := by
    rw [ascWrite, if_neg (by decide), if_pos rfl]
  have hview : AscMboxState.view { e.asc with a2iMsg0 := val } =
      AppleRTKit.ascView { e.rtkit.rtk with a2iMsg := val } :=
    congrArg (fun v : AscView => { v with a2iMsg0 := val }) h.view
  show InStep ⟨rtkitWrite e.rtkit ascA2iSend0 val, ascWrite e.asc ascA2iSend0 val⟩
  rw [hrtkit, hasc]
  exact h.quiet hview h.running rfl rfl

/-- What the engines do with a message submitted on endpoint 0. -/
theorem send1_queues (e : Engines) {val : BitVec 64} (hep : sendEp val = mgmtEp) :
    (e.exec (.write ascA2iSend1 val)).rtkit.rtk.toQueueDevice =
        e.rtkit.rtk.toQueueDevice.offers 64 (mgmtReplies e.rtkit.rtk e.rtkit.rtk.a2iMsg) ∧
      (e.exec (.write ascA2iSend1 val)).asc.toQueueDevice =
        e.asc.toQueueDevice.offers 32 (ascReplies e.asc e.asc.a2iMsg0) := by
  constructor
  · have hqueue := rtkitWrite_queue e.rtkit ascA2iSend1 val
    have hep' : val.setWidth 32 &&& 0xff = mgmtEp := hep
    rw [writeReplies, if_neg (by decide), if_pos rfl, replies, if_pos hep'] at hqueue
    exact hqueue
  · have hasc : ascWrite e.asc ascA2iSend1 val =
        ascHandle e.asc e.asc.a2iMsg0 (val.setWidth 32) := by
      rw [ascWrite, if_neg (by decide), if_neg (by decide), if_pos rfl]
    show (ascWrite e.asc ascA2iSend1 val).toQueueDevice = _
    rw [hasc]
    exact ascHandle_queue _ _ hep

theorem inStep_send1 {e : Engines} (h : InStep e) {val : BitVec 64} (hep : sendEp val = mgmtEp) :
    InStep (e.exec (.write ascA2iSend1 val)) := by
  obtain ⟨hrtkit, hasc⟩ := send1_queues e hep
  have ha2i : e.asc.a2iMsg0 = e.rtkit.rtk.a2iMsg := congrArg AscView.a2iMsg0 h.view
  have hrv : (rtkitWrite e.rtkit ascA2iSend1 val).rtk.view = e.rtkit.rtk.view := by
    rw [rtkitWrite, if_neg (by decide), if_neg (by decide), if_pos rfl]
    exact handleA2i_view _ _ _
  have hav : (ascWrite e.asc ascA2iSend1 val).view = e.asc.view := by
    rw [ascWrite, if_neg (by decide), if_neg (by decide), if_pos rfl]
    exact ascHandle_view _ _ _
  obtain ⟨hview, hrunning⟩ := h.frame (e.exec (.write ascA2iSend1 val))
    (ascView_of_view hrv) hav
  rw [ha2i] at hasc
  exact h.say hview hrunning hrtkit hasc (replies_agree _ _ _)

theorem inStep_exec (e : Engines) (op : GuestOp) (hop : EndpointZero op) (h : InStep e) :
    InStep (e.exec op) := by
  cases op with
  | announce => exact inStep_announce h
  | read off => exact inStep_read h off
  | write off val =>
    by_cases hcpu : off = ascCpuControl
    · subst hcpu
      exact inStep_cpuControl h val
    by_cases hsend0 : off = ascA2iSend0
    · subst hsend0
      exact inStep_send0 h val
    by_cases hsend1 : off = ascA2iSend1
    · subst hsend1
      exact inStep_send1 h (hop val rfl)
    · have hsame : e.exec (.write off val) = e := by
        show Engines.mk (rtkitWrite e.rtkit off val) (ascWrite e.asc off val) = e
        rw [rtkitWrite, if_neg hcpu, if_neg hsend0, if_neg hsend1, ascWrite, if_neg hcpu,
          if_neg hsend0, if_neg hsend1]
      rw [hsame]
      exact h

/-! ## The answer to a HELLO_REPLY -/

structure EnginesOk (e : Engines) : Prop where
  inStep : InStep e
  rtkitRing : e.rtkit.rtk.toQueueDevice.Ok 64
  ascRing : e.asc.toQueueDevice.Ok 32
  display : epPresent e.rtkit.rtk.eps dcpEpMain.toNat = true

theorem appleDcpAttach_ok : (appleDcpAttach appleRtkitNew).rtk.toQueueDevice.Ok 64 := by
  rw [appleDcpAttach_queue]
  exact fresh_ok

theorem enginesOk_fresh : EnginesOk Engines.fresh where
  inStep := inStep_fresh
  rtkitRing := appleDcpAttach_ok
  ascRing := ascFresh_ok false
  display := by decide

theorem exec_present (c : Coproc) (op : GuestOp) (ep : ℕ) :
    epPresent (c.exec op.toRTKit).rtk.eps ep = epPresent c.rtk.eps ep := by
  have hboot : ∀ rtk : AppleRTKit, rtk.view.present = c.rtk.view.present →
      (appleRtkitBoot rtk).view.present = c.rtk.view.present := by
    intro rtk h
    rw [boot_view]
    split_ifs <;> exact h
  have hview : (c.exec op.toRTKit).rtk.view.present = c.rtk.view.present := by
    cases op with
    | announce => exact hboot c.rtk rfl
    | read off => exact congrArg EngineView.present (rtkitRead_view c.rtk off)
    | write off val =>
      show (rtkitWrite c off val).rtk.view.present = c.rtk.view.present
      unfold rtkitWrite
      simp only []
      split_ifs
      · exact hboot _ rfl
      · rfl
      · rfl
      · exact congrArg EngineView.present (handleA2i_view c c.rtk.a2iMsg (val.setWidth 32))
      · rfl
  rw [epPresent_view, epPresent_view, hview]

theorem exec_enginesOk (e : Engines) (op : GuestOp) (hop : EndpointZero op) (h : EnginesOk e) :
    EnginesOk (e.exec op) where
  inStep := inStep_exec e op hop h.inStep
  rtkitRing := h.rtkitRing.acts 64 (exec_acts e.rtkit op.toRTKit)
  ascRing := h.ascRing.acts 32 (ascExec_acts e.asc op.toAsc)
  display := (exec_present e.rtkit op _).trans h.display

theorem answer_offers {α : Type} {n : ℤ} {d : QueueDevice α} (h : d.Ok n) (xs : List α) :
    answer d (d.offers n xs) = xs.take (n - d.count).toNat := by
  obtain ⟨henq, -⟩ := QueueDevice.offers_split n h xs
  rw [answer, henq, List.drop_left]

/-- The inline mailbox never does. -/
theorem asc_never_advertises_display_endpoint {e : Engines} (h : EnginesOk e) {op : GuestOp}
    (hop : EndpointZero op) (hreply : SubmitsHelloReply e op) :
    ¬ Advertises ((answer e.asc.toQueueDevice (e.exec op).asc.toQueueDevice).map AscMsg.msg0)
      dcpEpMain.toNat := by
  obtain ⟨val, rfl, htype⟩ := hreply
  have hqueue := (send1_queues e (hop val rfl)).2
  have ha2i : e.asc.a2iMsg0 = e.rtkit.rtk.a2iMsg := congrArg AscView.a2iMsg0 h.inStep.view
  have hdcp : e.asc.isAns = false := congrArg AscView.isAns h.inStep.view
  rw [ascReplies, ha2i, if_pos htype, hdcp] at hqueue
  rw [hqueue, answer_offers h.ascRing]
  rintro ⟨msg, hmsg, -, -, hbit⟩
  obtain ⟨m, hm, rfl⟩ := List.mem_map.mp hmsg
  rw [List.mem_singleton.mp (List.mem_of_mem_take hm)] at hbit
  exact absurd hbit (by decide)

/-! ## Every run -/

/-- In a run in which neither ring overflows, the engines say the same outside the endpoint map and
both advertise the display endpoint to every HELLO_REPLY exactly when there is no HELLO_REPLY. -/
theorem engines_agree_iff (ops : List GuestOp) (hops : ∀ op ∈ ops, EndpointZero op)
    (hrtkit : (run Engines.exec Engines.fresh ops).rtkit.rtk.dropped = [])
    (hasc : (run Engines.exec Engines.fresh ops).asc.dropped = []) :
    (SameTraffic (run Engines.exec Engines.fresh ops) ∧
        EveryStep Engines.exec AnswersHelloReply Engines.fresh ops) ↔
      EveryStep Engines.exec (fun e op => ¬ SubmitsHelloReply e op) Engines.fresh ops := by
  have hok : Always Engines.exec EnginesOk Engines.fresh ops :=
    always_of_preserves Engines.exec EnginesOk EndpointZero exec_enginesOk hops enginesOk_fresh
  have hsame : SameTraffic (run Engines.exec Engines.fresh ops) := by
    rw [SameTraffic, QueueDevice.enqueued_eq_offered hrtkit, QueueDevice.enqueued_eq_offered hasc]
    exact hok.last.inStep.traffic
  constructor
  · rintro ⟨-, hanswers⟩ pre op post rfl hreply
    have hop : EndpointZero op := hops op (List.mem_append_right pre List.mem_cons_self)
    have hboth := hanswers pre op post rfl hreply
    have hpre := hok pre (List.prefix_append pre (op :: post))
    exact asc_never_advertises_display_endpoint hpre hop hreply hboth.2
  · intro hnone
    exact ⟨hsame, fun pre op post hsplit hreply => absurd hreply (hnone pre op post hsplit)⟩

theorem endpointZero_boot_then_submit (m : BitVec 64) :
    ∀ op ∈ [GuestOp.announce, .write ascA2iSend0 m, .write ascA2iSend1 0], EndpointZero op := by
  have hne : ascA2iSend0 ≠ ascA2iSend1 := by decide
  simp [EndpointZero, sendEp, mgmtEp, hne]

/-- Boot and a power request: nothing is lost and the map is not asked for. -/
theorem engines_agree_on_power_request :
    (SameTraffic (run Engines.exec Engines.fresh
          [.announce, .write ascA2iSend0 iopPwrMsg, .write ascA2iSend1 0]) ∧
        EveryStep Engines.exec AnswersHelloReply Engines.fresh
          [.announce, .write ascA2iSend0 iopPwrMsg, .write ascA2iSend1 0]) ↔
      EveryStep Engines.exec (fun e op => ¬ SubmitsHelloReply e op) Engines.fresh
        [.announce, .write ascA2iSend0 iopPwrMsg, .write ascA2iSend1 0] :=
  engines_agree_iff _ (endpointZero_boot_then_submit iopPwrMsg) (by decide) (by decide)

def helloReplyMsg : BitVec 64 := (mgmtHelloReply <<< 52) ||| 0xc000b

/-- After HELLO, HELLO_REPLY: the inline mailbox answers with an empty map. -/
theorem inline_map_lacks_display_endpoint :
    ¬ ∀ ops, (∀ op ∈ ops, EndpointZero op) →
      (run Engines.exec Engines.fresh ops).rtkit.rtk.dropped = [] →
      (run Engines.exec Engines.fresh ops).asc.dropped = [] →
      SameTraffic (run Engines.exec Engines.fresh ops) ∧
        EveryStep Engines.exec AnswersHelloReply Engines.fresh ops := by
  intro h
  have hzero := endpointZero_boot_then_submit helloReplyMsg
  obtain ⟨-, hanswers⟩ := h _ hzero (by decide) (by decide)
  have hok : EnginesOk (run Engines.exec Engines.fresh
      [.announce, .write ascA2iSend0 helloReplyMsg]) :=
    exec_enginesOk _ _ (hzero _ (by simp))
      (exec_enginesOk _ _ (hzero .announce (by simp)) enginesOk_fresh)
  have hreply : SubmitsHelloReply (run Engines.exec Engines.fresh
      [.announce, .write ascA2iSend0 helloReplyMsg]) (.write ascA2iSend1 0) :=
    ⟨0, rfl, by decide⟩
  exact asc_never_advertises_display_endpoint hok (hzero _ (by simp)) hreply
    (hanswers [.announce, .write ascA2iSend0 helloReplyMsg] _ [] rfl hreply).2

end SecureWorld.Mailbox
