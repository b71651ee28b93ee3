import SecureWorld.Mailbox.RTKit

/-! # The inline ASC mailbox (`qemu-patches/qemu-sptm-cl4-all.patch`)

The smaller coprocessor model of `darwin.c`: one 32-entry ring, the management endpoint only. Its
register offsets and message types are those of the RTKit engine.
-/
namespace SecureWorld.Mailbox
open Foundations
set_option autoImplicit false

def ascAnsBootStatus : BitVec 64 := 0x1300
def ascAnsBootStatusOk : BitVec 64 := 0xde71ce55

structure AscMsg where
  msg0 : BitVec 64
  msg1 : BitVec 32
deriving DecidableEq

structure AscMboxState extends QueueDevice AscMsg where
  a2iMsg0 : BitVec 64
  helloSent : Bool
  running : Bool
  isAns : Bool
  cpuControl : BitVec 32

def ascUpdateIrq (s : AscMboxState) : AscMboxState := { s with irq := decide (s.count > 0) }

def ascPush (s : AscMboxState) (msg0 : BitVec 64) (ep : BitVec 32) : AscMboxState :=
  if s.count = 32 then { s with hist := s.hist ++ [.dropped ⟨msg0, ep⟩] }
  else
    let slot := (s.head + s.count) % 32
    ascUpdateIrq { s with
      q := Function.update s.q slot ⟨msg0, ep⟩
      count := s.count + 1
      hist := s.hist ++ [.enqueued ⟨msg0, ep⟩] }

def ascSendMgmt (s : AscMboxState) (type payload : BitVec 64) : AscMboxState :=
  ascPush s ((type <<< 52) ||| payload) 0

def ascBoot (s : AscMboxState) : AscMboxState :=
  if s.helloSent then s else ascSendMgmt { s with helloSent := true } mgmtHello helloMsg

def ascHandle (s : AscMboxState) (msg0 : BitVec 64) (msg1 : BitVec 32) : AscMboxState :=
  let ep := msg1 &&& 0xff
  let type := mgmtType msg0
  if ep ≠ 0 then s
  else if type = mgmtHelloReply then
    let bitmap : BitVec 64 := if s.isAns then 0 else 1 <<< 0x24
    ascSendMgmt s mgmtEpmap (epmapLast ||| (bitmap &&& 0xffffffff))
  else if type = mgmtEpmap then s
  else if type = mgmtStartep then s
  else if type = mgmtIopPwr then ascSendMgmt s mgmtIopPwrAck (msg0 &&& 0xffff)
  else if type = mgmtApPwr then ascSendMgmt s mgmtApPwr (msg0 &&& 0xffff)
  else s

def ascRead (s : AscMboxState) (off : BitVec 64) : BitVec 64 × AscMboxState :=
  if off = ascCpuControl then (s.cpuControl.setWidth 64, s)
  else if off = ascAnsBootStatus then (if s.isAns && s.running then ascAnsBootStatusOk else 0, s)
  else if off = ascI2aControl then (if s.count = 0 then ascCtrlEmpty else 0, s)
  else if off = ascA2iControl then (ascCtrlEmpty, s)
  else if off = ascI2aRecv0 then (if s.count = 0 then 0 else (s.q s.head).msg0, s)
  else if off = ascI2aRecv1 then
    if s.count = 0 then (0, s)
    else
      ((s.q s.head).msg1.setWidth 64,
        ascUpdateIrq { s with
          head := (s.head + 1) % 32
          count := s.count - 1
          hist := s.hist ++ [.popped (s.q s.head)] })
  else (0, s)

def ascWrite (s : AscMboxState) (off val : BitVec 64) : AscMboxState :=
  if off = ascCpuControl then
    let s := { s with cpuControl := val.setWidth 32 }
    if val &&& ascCpuControlRun ≠ 0 ∧ s.running = false then ascBoot { s with running := true }
    else s
  else if off = ascA2iSend0 then { s with a2iMsg0 := val }
  else if off = ascA2iSend1 then ascHandle s s.a2iMsg0 (val.setWidth 32)
  else s

def ascAnnounceCb (s : AscMboxState) : AscMboxState :=
  if s.helloSent then s else ascBoot { s with running := true }

inductive AscOp where
  | push (msg0 : BitVec 64) (ep : BitVec 32)
  | announce
  | read (off : BitVec 64)
  | write (off val : BitVec 64)
deriving DecidableEq

def AscMboxState.exec (s : AscMboxState) : AscOp → AscMboxState
  | .push msg0 ep => ascPush s msg0 ep
  | .announce => ascAnnounceCb s
  | .read off => (ascRead s off).2
  | .write off val => ascWrite s off val

def AscMboxState.run (s : AscMboxState) (ops : List AscOp) : AscMboxState :=
  Foundations.run AscMboxState.exec s ops

/-- The mailbox as `init_one_asc` allocates it. -/
def AscMboxState.fresh (isAns : Bool) : AscMboxState where
  toQueueDevice := QueueDevice.empty ⟨0, 0⟩
  a2iMsg0 := 0
  helloSent := false
  running := false
  isAns := isAns
  cpuControl := 0

/-! ## What each operation does to the queue -/

@[simp] theorem ascPush_queue (s : AscMboxState) (msg0 : BitVec 64) (ep : BitVec 32) :
    (ascPush s msg0 ep).toQueueDevice = s.toQueueDevice.offer 32 ⟨msg0, ep⟩ := by
  unfold ascPush QueueDevice.offer
  by_cases hfull : s.count = 32
  · rw [if_pos hfull, if_pos hfull]
  · rw [if_neg hfull, if_neg hfull]
    rfl

theorem ascBoot_offers (s : AscMboxState) :
    ∃ xs, (ascBoot s).toQueueDevice = s.toQueueDevice.offers 32 xs := by
  unfold ascBoot
  split_ifs
  · exact ⟨[], rfl⟩
  · exact ⟨[_], ascPush_queue _ _ _⟩

theorem ascAnnounceCb_offers (s : AscMboxState) :
    ∃ xs, (ascAnnounceCb s).toQueueDevice = s.toQueueDevice.offers 32 xs := by
  unfold ascAnnounceCb
  split_ifs
  · exact ⟨[], rfl⟩
  · exact ascBoot_offers { s with running := true }

theorem ascHandle_offers (s : AscMboxState) (msg0 : BitVec 64) (msg1 : BitVec 32) :
    ∃ xs, (ascHandle s msg0 msg1).toQueueDevice = s.toQueueDevice.offers 32 xs := by
  have hnone : ∃ xs, s.toQueueDevice = s.toQueueDevice.offers 32 xs := ⟨[], rfl⟩
  have hsend : ∀ type payload : BitVec 64, ∃ xs,
      (ascSendMgmt s type payload).toQueueDevice = s.toQueueDevice.offers 32 xs :=
    fun type payload => ⟨[_], ascPush_queue _ _ _⟩
  unfold ascHandle
  simp only []
  split_ifs <;> first | exact hnone | exact hsend _ _

theorem ascWrite_offers (s : AscMboxState) (off val : BitVec 64) :
    ∃ xs, (ascWrite s off val).toQueueDevice = s.toQueueDevice.offers 32 xs := by
  unfold ascWrite
  simp only []
  split_ifs
  · exact ascBoot_offers { s with cpuControl := val.setWidth 32, running := true }
  · exact ⟨[], rfl⟩
  · exact ⟨[], rfl⟩
  · exact ascHandle_offers _ _ _
  · exact ⟨[], rfl⟩

/-- A read of RECV1 takes one message; every other read leaves the queue alone. -/
theorem ascRead_queue (s : AscMboxState) (off : BitVec 64) :
    (ascRead s off).2.toQueueDevice =
      if off = ascI2aRecv1 then s.toQueueDevice.take 32 else s.toQueueDevice := by
  unfold ascRead
  by_cases hrecv : off = ascI2aRecv1
  · subst hrecv
    simp only [if_neg (by decide : ¬ ascI2aRecv1 = ascCpuControl),
      if_neg (by decide : ¬ ascI2aRecv1 = ascAnsBootStatus),
      if_neg (by decide : ¬ ascI2aRecv1 = ascI2aControl),
      if_neg (by decide : ¬ ascI2aRecv1 = ascA2iControl),
      if_neg (by decide : ¬ ascI2aRecv1 = ascI2aRecv0), if_true]
    unfold QueueDevice.take
    split_ifs <;> rfl
  · simp only [if_neg hrecv]
    split_ifs <;> rfl

theorem ascExec_acts (s : AscMboxState) (op : AscOp) :
    QueueDevice.Acts 32 s.toQueueDevice (s.exec op).toQueueDevice := by
  cases op with
  | push msg0 ep => exact .inl ⟨[_], ascPush_queue _ _ _⟩
  | announce => exact .inl (ascAnnounceCb_offers s)
  | read off =>
    have hread := ascRead_queue s off
    by_cases hrecv : off = ascI2aRecv1
    · exact .inr (by rw [if_pos hrecv] at hread; exact hread)
    · exact .inl ⟨[], by rw [if_neg hrecv] at hread; exact hread⟩
  | write off val => exact .inl (ascWrite_offers s off val)

theorem ascRun_ok {s : AscMboxState} (h : s.toQueueDevice.Ok 32) (ops : List AscOp) :
    (s.run ops).toQueueDevice.Ok 32 :=
  run_preserves AscMboxState.exec (fun s => s.toQueueDevice.Ok 32) (fun _ => True)
    (fun s op _ hs => hs.acts 32 (ascExec_acts s op)) ops s (fun _ _ => trivial) h

theorem ascFresh_ok (isAns : Bool) : (AscMboxState.fresh isAns).toQueueDevice.Ok 32 :=
  QueueDevice.ok_empty 32 (by decide) _

end SecureWorld.Mailbox
