import SecureWorld.Mailbox.Dcp

/-! # The coprocessor as a device

Message dispatch (`handle_a2i`), the register callbacks (`rtkit_read`, `rtkit_write`), the
self-announce timer, and the runs of the device: any list of operations applied to the device as
`apple_rtkit_new` makes it.
-/
namespace SecureWorld.Mailbox
open Foundations
set_option autoImplicit false

def callHandler (handler : RTKitEpHandler) (c : Coproc) (ep : BitVec 32)
    (msg : BitVec 64) : Coproc × Bool :=
  match handler with
  | .handleLogEp => ({ c with rtk := (handleLogEp c.rtk msg).1 }, (handleLogEp c.rtk msg).2)
  | .dcpEpHandler => dcpEpHandler c ep msg

def epHandler (rtk : AppleRTKit) (ep : BitVec 32) : Option RTKitEpHandler :=
  if h : ep.toNat < rtkitMaxEndpoints then (rtk.eps ⟨ep.toNat, h⟩).handler else none

def handleA2i (c : Coproc) (msg : BitVec 64) (epWord : BitVec 32) : Coproc :=
  let c := { c with rtk := { c.rtk with received := c.rtk.received ++ [(msg, epWord)] } }
  let ep := epWord &&& 0xff
  if ep = mgmtEp then { c with rtk := handleMgmt c.rtk msg }
  else
    match epHandler c.rtk ep with
    -- a message the handler leaves over is only logged
    | some handler => (callHandler handler c ep msg).1
    | none => c

/-- The register value a read returns and the device after it. -/
def rtkitRead (rtk : AppleRTKit) (off : BitVec 64) : BitVec 64 × AppleRTKit :=
  if off = ascCpuControl then (rtk.cpuControl.setWidth 64, rtk)
  else if off = ascI2aControl then (if rtk.count = 0 then ascCtrlEmpty else 0, rtk)
  else if off = ascA2iControl then (ascCtrlEmpty, rtk)
  else if off = ascI2aRecv0 then (if rtk.count = 0 then 0 else (rtk.q rtk.head).msg, rtk)
  else if off = ascI2aRecv1 then
    if rtk.count = 0 then (0, rtk)
    else
      ((rtk.q rtk.head).ep.setWidth 64,
        rtkitUpdateIrq { rtk with
          head := (rtk.head + 1) % 64
          count := rtk.count - 1
          hist := rtk.hist ++ [.popped (rtk.q rtk.head)] })
  else (0, rtk)

def rtkitWrite (c : Coproc) (off val : BitVec 64) : Coproc :=
  if off = ascCpuControl then
    let rtk := { c.rtk with cpuControl := val.setWidth 32 }
    if val &&& ascCpuControlRun ≠ 0 ∧ rtk.running = false then { c with rtk := appleRtkitBoot rtk }
    else { c with rtk }
  else if off = ascA2iSend0 then { c with rtk := { c.rtk with a2iMsg := val } }
  else if off = ascA2iSend1 then handleA2i c c.rtk.a2iMsg (val.setWidth 32)
  else c

/-- What can happen to the device: a send from a handler or a timer, the self-announce timer, an
endpoint registration, or a register access of the guest. -/
inductive RTKitOp where
  | send (ep : BitVec 32) (msg : BitVec 64)
  | announce
  | addEndpoint (ep : BitVec 32) (handler : RTKitEpHandler)
  | read (off : BitVec 64)
  | write (off val : BitVec 64)
deriving DecidableEq

def Coproc.exec (c : Coproc) : RTKitOp → Coproc
  | .send ep msg => { c with rtk := appleRtkitSend c.rtk ep msg }
  | .announce => { c with rtk := appleRtkitBoot c.rtk }
  | .addEndpoint ep handler => { c with rtk := appleRtkitAddEndpoint c.rtk ep handler }
  | .read off => { c with rtk := (rtkitRead c.rtk off).2 }
  | .write off val => rtkitWrite c off val

def Coproc.run (c : Coproc) (ops : List RTKitOp) : Coproc := Foundations.run Coproc.exec c ops

/-- The device as `apple_rtkit_new` returns it. -/
def Coproc.fresh : Coproc := { rtk := appleRtkitNew, dcp := zeroDCP }

def Coproc.Reachable (c : Coproc) : Prop := Foundations.Reachable Coproc.exec Coproc.fresh c

/-! ## What each operation does to the queue -/

/-- The replies to a message on an endpoint. -/
def replies (rtk : AppleRTKit) (msg : BitVec 64) (ep : BitVec 32) : List RTKitMsg :=
  if ep = mgmtEp then mgmtReplies rtk msg
  else
    match epHandler rtk ep with
    | some .dcpEpHandler => dcpReplies ep msg
    | some .handleLogEp => []
    | none => []

theorem handleA2i_queue (c : Coproc) (msg : BitVec 64) (epWord : BitVec 32) :
    (handleA2i c msg epWord).rtk.toQueueDevice =
      c.rtk.toQueueDevice.offers 64 (replies c.rtk msg (epWord &&& 0xff)) := by
  unfold handleA2i replies
  by_cases hep : epWord &&& 0xff = mgmtEp
  · simp only [if_pos hep]
    exact handleMgmt_queue _ _
  · have hh : epHandler { c.rtk with received := c.rtk.received ++ [(msg, epWord)] }
        (epWord &&& 0xff) = epHandler c.rtk (epWord &&& 0xff) := rfl
    simp only [if_neg hep, hh]
    cases epHandler c.rtk (epWord &&& 0xff) with
    | none => rfl
    | some handler =>
      cases handler with
      | handleLogEp => exact handleLogEp_queue _ _
      | dcpEpHandler => exact dcpEpHandler_queue _ _ _

/-- What a register write asks to be sent. -/
def writeReplies (rtk : AppleRTKit) (off val : BitVec 64) : List RTKitMsg :=
  if off = ascCpuControl then
    if val &&& ascCpuControlRun ≠ 0 ∧ rtk.running = false ∧ rtk.helloSent = false then
      [mgmtMsg mgmtHello helloMsg]
    else []
  else if off = ascA2iSend1 then replies rtk rtk.a2iMsg (val.setWidth 32 &&& 0xff)
  else []

theorem rtkitWrite_queue (c : Coproc) (off val : BitVec 64) :
    (rtkitWrite c off val).rtk.toQueueDevice =
      c.rtk.toQueueDevice.offers 64 (writeReplies c.rtk off val) := by
  unfold rtkitWrite writeReplies
  by_cases hcpu : off = ascCpuControl
  · simp only [if_pos hcpu]
    by_cases hrun : val &&& ascCpuControlRun ≠ 0 ∧ c.rtk.running = false
    · have hsent : (val &&& ascCpuControlRun ≠ 0 ∧ c.rtk.running = false ∧
          c.rtk.helloSent = false) ↔ c.rtk.helloSent = false :=
        ⟨fun h => h.2.2, fun h => ⟨hrun.1, hrun.2, h⟩⟩
      rw [if_pos hrun, if_congr hsent rfl rfl, appleRtkitBoot_queue]
      cases c.rtk.helloSent <;> rfl
    · have hno : ¬ (val &&& ascCpuControlRun ≠ 0 ∧ c.rtk.running = false ∧
          c.rtk.helloSent = false) := fun h => hrun ⟨h.1, h.2.1⟩
      simp only [if_neg hrun, if_neg hno]
      rfl
  by_cases hsend0 : off = ascA2iSend0
  · simp only [hsend0, if_true, if_neg (by decide : ¬ ascA2iSend0 = ascCpuControl),
      if_neg (by decide : ¬ ascA2iSend0 = ascA2iSend1)]
    rfl
  by_cases hsend1 : off = ascA2iSend1
  · simp only [if_neg hcpu, if_neg hsend0, if_pos hsend1]
    exact handleA2i_queue _ _ _
  · simp only [if_neg hcpu, if_neg hsend0, if_neg hsend1]
    rfl

/-- A read of RECV1 takes one message; every other read leaves the queue alone. -/
theorem rtkitRead_queue (rtk : AppleRTKit) (off : BitVec 64) :
    (rtkitRead rtk off).2.toQueueDevice =
      if off = ascI2aRecv1 then rtk.toQueueDevice.take 64 else rtk.toQueueDevice := by
  unfold rtkitRead
  by_cases hrecv : off = ascI2aRecv1
  · subst hrecv
    simp only [if_neg (by decide : ¬ ascI2aRecv1 = ascCpuControl),
      if_neg (by decide : ¬ ascI2aRecv1 = ascI2aControl),
      if_neg (by decide : ¬ ascI2aRecv1 = ascA2iControl),
      if_neg (by decide : ¬ ascI2aRecv1 = ascI2aRecv0), if_true]
    unfold QueueDevice.take
    split_ifs <;> rfl
  · simp only [if_neg hrecv]
    split_ifs <;> rfl

theorem exec_acts (c : Coproc) (op : RTKitOp) :
    QueueDevice.Acts 64 c.rtk.toQueueDevice (c.exec op).rtk.toQueueDevice := by
  cases op with
  | send ep msg => exact .inl ⟨[⟨msg, ep⟩], send_queue _ _ _⟩
  | announce => exact .inl ⟨_, appleRtkitBoot_queue _⟩
  | addEndpoint ep handler => exact .inl ⟨[], addEndpoint_queue _ _ _⟩
  | read off =>
    have hread := rtkitRead_queue c.rtk off
    by_cases hrecv : off = ascI2aRecv1
    · exact .inr (by rw [if_pos hrecv] at hread; exact hread)
    · exact .inl ⟨[], by rw [if_neg hrecv] at hread; exact hread⟩
  | write off val => exact .inl ⟨_, rtkitWrite_queue c off val⟩

theorem run_ok {c : Coproc} (h : c.rtk.toQueueDevice.Ok 64) (ops : List RTKitOp) :
    (c.run ops).rtk.toQueueDevice.Ok 64 :=
  run_preserves Coproc.exec (fun c => c.rtk.toQueueDevice.Ok 64) (fun _ => True)
    (fun c op _ hc => hc.acts 64 (exec_acts c op)) ops c (fun _ _ => trivial) h

theorem fresh_ok : Coproc.fresh.rtk.toQueueDevice.Ok 64 := by
  have hq : Coproc.fresh.rtk.toQueueDevice = QueueDevice.empty ⟨0, 0⟩ := appleRtkitNew_queue
  rw [hq]
  exact QueueDevice.ok_empty 64 (by decide) _

theorem Coproc.Reachable.ok {c : Coproc} (h : c.Reachable) : c.rtk.toQueueDevice.Ok 64 := by
  obtain ⟨ops, rfl⟩ := h
  exact run_ok fresh_ok ops

end SecureWorld.Mailbox
