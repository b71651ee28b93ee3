import SecureWorld.Foundations.QueueDevice

/-! # The RTKit coprocessor engine (`scripts/apple_rtkit.c`)

State and functions of the coprocessor side of the ASC mailbox: the I2A ring, the boot HELLO, the
endpoint map and the management endpoint. Log output (`printf`, names, trace budgets) is left out.
`hist` and `received` are history variables: `hist` records what `apple_rtkit_send` and the RECV1
read did to each message, `received` the calls of `handle_a2i`. No function reads them.
-/
namespace SecureWorld.Mailbox
open Foundations
set_option autoImplicit false

/-! ## Registers and protocol constants -/

def ascCpuControl : BitVec 64 := 0x044
def ascCpuControlRun : BitVec 64 := 1 <<< 4
def ascA2iControl : BitVec 64 := 0x110
def ascI2aControl : BitVec 64 := 0x114
def ascA2iSend0 : BitVec 64 := 0x800
def ascA2iSend1 : BitVec 64 := 0x808
def ascI2aRecv0 : BitVec 64 := 0x830
def ascI2aRecv1 : BitVec 64 := 0x838
def ascCtrlFull : BitVec 64 := 1 <<< 16
def ascCtrlEmpty : BitVec 64 := 1 <<< 17

def mgmtEp : BitVec 32 := 0
def mgmtHello : BitVec 64 := 1
def mgmtHelloReply : BitVec 64 := 2
def mgmtStartep : BitVec 64 := 5
def mgmtIopPwr : BitVec 64 := 6
def mgmtIopPwrAck : BitVec 64 := 7
def mgmtEpmap : BitVec 64 := 8
def mgmtApPwr : BitVec 64 := 0xb

/-- Bits 59:52 of a management message. -/
def mgmtType (msg : BitVec 64) : BitVec 64 := (msg >>> 52) &&& 0xff

def epmapLast : BitVec 64 := 1 <<< 51
def rtkitVerMin : BitVec 64 := 11
def rtkitVerMax : BitVec 64 := 12

def rtkitMaxEndpoints : ℕ := 64

def epCrashlog : BitVec 32 := 1
def epSyslog : BitVec 32 := 2
def epDebug : BitVec 32 := 3
def epIoreporting : BitVec 32 := 4
def epOslog : BitVec 32 := 8

def bufferRequest : BitVec 64 := 1

/-! ## State -/

structure RTKitMsg where
  msg : BitVec 64
  ep : BitVec 32
deriving DecidableEq

/-- The endpoint handlers registered in the repository. -/
inductive RTKitEpHandler where
  | handleLogEp
  | dcpEpHandler
deriving DecidableEq

structure RTKitEndpoint where
  present : Bool
  started : Bool
  handler : Option RTKitEpHandler
deriving DecidableEq

structure SharedBuffer where
  iova : BitVec 64
  size : BitVec 32
  valid : Bool
deriving DecidableEq

structure AppleRTKit extends QueueDevice RTKitMsg where
  a2iMsg : BitVec 64
  cpuControl : BitVec 32
  running : Bool
  helloSent : Bool
  version : ℤ
  eps : Fin rtkitMaxEndpoints → RTKitEndpoint
  bufs : Fin 8 → SharedBuffer
  received : List (BitVec 64 × BitVec 32)

/-! ## Sending -/

def rtkitUpdateIrq (rtk : AppleRTKit) : AppleRTKit := { rtk with irq := decide (rtk.count > 0) }

def appleRtkitSend (rtk : AppleRTKit) (ep : BitVec 32) (msg : BitVec 64) : AppleRTKit :=
  if rtk.count = 64 then { rtk with hist := rtk.hist ++ [.dropped ⟨msg, ep⟩] }
  else
    let slot := (rtk.head + rtk.count) % 64
    rtkitUpdateIrq { rtk with
      q := Function.update rtk.q slot ⟨msg, ep⟩
      count := rtk.count + 1
      hist := rtk.hist ++ [.enqueued ⟨msg, ep⟩] }

def mgmtSend (rtk : AppleRTKit) (type payload : BitVec 64) : AppleRTKit :=
  appleRtkitSend rtk mgmtEp ((type <<< 52) ||| payload)

def appleRtkitAddEndpoint (rtk : AppleRTKit) (ep : BitVec 32) (handler : RTKitEpHandler) :
    AppleRTKit :=
  if h : ep.toNat < rtkitMaxEndpoints then
    let i : Fin rtkitMaxEndpoints := ⟨ep.toNat, h⟩
    let entry := { rtk.eps i with present := true, handler := some handler }
    { rtk with eps := Function.update rtk.eps i entry }
  else rtk

def helloMsg : BitVec 64 := (rtkitVerMax <<< 16) ||| rtkitVerMin

def appleRtkitBoot (rtk : AppleRTKit) : AppleRTKit :=
  if rtk.helloSent then rtk
  else mgmtSend { rtk with helloSent := true, running := true } mgmtHello helloMsg

/-! ## The endpoint map -/

/-- `rtk->eps[ep].present` behind the bound check of `ep`. -/
def epPresent (eps : Fin rtkitMaxEndpoints → RTKitEndpoint) (ep : ℕ) : Bool :=
  if h : ep < rtkitMaxEndpoints then (eps ⟨ep, h⟩).present else false

def lastBase (eps : Fin rtkitMaxEndpoints → RTKitEndpoint) : ℕ :=
  (List.range rtkitMaxEndpoints).foldl
    (fun last ep => if epPresent eps ep then ep / 32 else last) 0

def epmapBitmap (eps : Fin rtkitMaxEndpoints → RTKitEndpoint) (base : ℕ) : BitVec 64 :=
  (List.range 32).foldl
    (fun bitmap bit => if epPresent eps (base * 32 + bit) then bitmap ||| (1 <<< bit) else bitmap) 0

def epmapPayload (eps : Fin rtkitMaxEndpoints → RTKitEndpoint) (base : ℕ) : BitVec 64 :=
  let payload := (BitVec.ofNat 64 base <<< 32) ||| (epmapBitmap eps base &&& 0xffffffff)
  if base = lastBase eps then payload ||| epmapLast else payload

/-- Advertise every endpoint, in 32-bit bitmap chunks. -/
def sendEpmap (rtk : AppleRTKit) : AppleRTKit :=
  (List.range (lastBase rtk.eps + 1)).foldl
    (fun rtk' base => mgmtSend rtk' mgmtEpmap (epmapPayload rtk.eps base)) rtk

/-! ## The management endpoint and the log endpoints -/

def handleMgmt (rtk : AppleRTKit) (msg : BitVec 64) : AppleRTKit :=
  let type := mgmtType msg
  if type = mgmtHelloReply then
    sendEpmap { rtk with version := ((msg &&& 0xffff).toNat : ℤ) }
  else if type = mgmtEpmap then rtk
  else if type = mgmtStartep then
    let ep := ((msg >>> 32) &&& 0xff).toNat
    if h : ep < rtkitMaxEndpoints then
      if (rtk.eps ⟨ep, h⟩).present then
        let entry := { rtk.eps ⟨ep, h⟩ with started := true }
        { rtk with eps := Function.update rtk.eps ⟨ep, h⟩ entry }
      else rtk
    else rtk
  else if type = mgmtIopPwr then mgmtSend rtk mgmtIopPwrAck (msg &&& 0xffff)
  else if type = mgmtApPwr then mgmtSend rtk mgmtApPwr (msg &&& 0xffff)
  else rtk

/-- Record a shared buffer in the first free slot; with all eight taken it is forgotten. -/
def handleLogEp (rtk : AppleRTKit) (msg : BitVec 64) : AppleRTKit × Bool :=
  if mgmtType msg = bufferRequest then
    match (List.finRange 8).find? fun i => !(rtk.bufs i).valid with
    | some i =>
        let size := ((msg >>> 44) &&& 0xff).setWidth 32
        let buf : SharedBuffer := { iova := msg &&& 0xfffffffffff, size, valid := true }
        ({ rtk with bufs := Function.update rtk.bufs i buf }, true)
    | none => (rtk, true)
  else (rtk, true)

def zeroRTKit : AppleRTKit where
  toQueueDevice := QueueDevice.empty ⟨0, 0⟩
  a2iMsg := 0
  cpuControl := 0
  running := false
  helloSent := false
  version := 0
  eps := fun _ => ⟨false, false, none⟩
  bufs := fun _ => ⟨0, 0, false⟩
  received := []

def appleRtkitNew : AppleRTKit :=
  let rtk := appleRtkitAddEndpoint zeroRTKit epCrashlog .handleLogEp
  let rtk := appleRtkitAddEndpoint rtk epSyslog .handleLogEp
  let rtk := appleRtkitAddEndpoint rtk epDebug .handleLogEp
  let rtk := appleRtkitAddEndpoint rtk epIoreporting .handleLogEp
  appleRtkitAddEndpoint rtk epOslog .handleLogEp

/-! ## What each function does to the queue -/

@[simp] theorem send_queue (rtk : AppleRTKit) (ep : BitVec 32) (msg : BitVec 64) :
    (appleRtkitSend rtk ep msg).toQueueDevice = rtk.toQueueDevice.offer 64 ⟨msg, ep⟩ := by
  unfold appleRtkitSend QueueDevice.offer
  by_cases hfull : rtk.count = 64
  · rw [if_pos hfull, if_pos hfull]
  · rw [if_neg hfull, if_neg hfull]
    rfl

/-- A management message as it travels. -/
def mgmtMsg (type payload : BitVec 64) : RTKitMsg := ⟨(type <<< 52) ||| payload, mgmtEp⟩

@[simp] theorem mgmtSend_queue (rtk : AppleRTKit) (type payload : BitVec 64) :
    (mgmtSend rtk type payload).toQueueDevice = rtk.toQueueDevice.offer 64 (mgmtMsg type payload) :=
  send_queue rtk _ _

/-- The chunks `send_epmap` sends, in order. -/
def epmapMsgs (eps : Fin rtkitMaxEndpoints → RTKitEndpoint) : List RTKitMsg :=
  (List.range (lastBase eps + 1)).map fun base => mgmtMsg mgmtEpmap (epmapPayload eps base)

theorem sendEpmap_queue (rtk : AppleRTKit) :
    (sendEpmap rtk).toQueueDevice = rtk.toQueueDevice.offers 64 (epmapMsgs rtk.eps) := by
  have hfold : ∀ (bases : List ℕ) (r : AppleRTKit),
      (bases.foldl (fun r' base => mgmtSend r' mgmtEpmap (epmapPayload rtk.eps base)) r).toQueueDevice
        = r.toQueueDevice.offers 64
            (bases.map fun base => mgmtMsg mgmtEpmap (epmapPayload rtk.eps base)) := by
    intro bases
    induction bases with
    | nil => intro r; rfl
    | cons base bases ih => intro r; simp [ih]
  exact hfold _ _

/-- The replies of the management endpoint. -/
def mgmtReplies (rtk : AppleRTKit) (msg : BitVec 64) : List RTKitMsg :=
  if mgmtType msg = mgmtHelloReply then epmapMsgs rtk.eps
  else if mgmtType msg = mgmtIopPwr then [mgmtMsg mgmtIopPwrAck (msg &&& 0xffff)]
  else if mgmtType msg = mgmtApPwr then [mgmtMsg mgmtApPwr (msg &&& 0xffff)]
  else []

theorem handleMgmt_queue (rtk : AppleRTKit) (msg : BitVec 64) :
    (handleMgmt rtk msg).toQueueDevice = rtk.toQueueDevice.offers 64 (mgmtReplies rtk msg) := by
  unfold handleMgmt mgmtReplies
  by_cases hreply : mgmtType msg = mgmtHelloReply
  · simp only [hreply, if_true]
    exact sendEpmap_queue _
  by_cases hepmap : mgmtType msg = mgmtEpmap
  · simp only [hepmap, if_true, if_neg (by decide : ¬ mgmtEpmap = mgmtHelloReply),
      if_neg (by decide : ¬ mgmtEpmap = mgmtIopPwr), if_neg (by decide : ¬ mgmtEpmap = mgmtApPwr)]
    rfl
  by_cases hstart : mgmtType msg = mgmtStartep
  · simp only [hstart, if_true, if_neg (by decide : ¬ mgmtStartep = mgmtHelloReply),
      if_neg (by decide : ¬ mgmtStartep = mgmtEpmap),
      if_neg (by decide : ¬ mgmtStartep = mgmtIopPwr),
      if_neg (by decide : ¬ mgmtStartep = mgmtApPwr)]
    split_ifs <;> rfl
  · simp only [if_neg hreply, if_neg hepmap, if_neg hstart]
    split_ifs
    · exact mgmtSend_queue _ _ _
    · exact mgmtSend_queue _ _ _
    · rfl

theorem handleLogEp_queue (rtk : AppleRTKit) (msg : BitVec 64) :
    (handleLogEp rtk msg).1.toQueueDevice = rtk.toQueueDevice := by
  unfold handleLogEp
  split_ifs
  · split <;> rfl
  · rfl

theorem appleRtkitBoot_queue (rtk : AppleRTKit) :
    (appleRtkitBoot rtk).toQueueDevice =
      rtk.toQueueDevice.offers 64 (if rtk.helloSent then [] else [mgmtMsg mgmtHello helloMsg]) := by
  unfold appleRtkitBoot
  split_ifs
  · rfl
  · exact mgmtSend_queue _ _ _

@[simp] theorem addEndpoint_queue (rtk : AppleRTKit) (ep : BitVec 32) (handler : RTKitEpHandler) :
    (appleRtkitAddEndpoint rtk ep handler).toQueueDevice = rtk.toQueueDevice := by
  unfold appleRtkitAddEndpoint
  split_ifs <;> rfl

theorem appleRtkitNew_queue : appleRtkitNew.toQueueDevice = QueueDevice.empty ⟨0, 0⟩ := by
  simp only [appleRtkitNew, addEndpoint_queue]
  rfl

end SecureWorld.Mailbox
