import SecureWorld.Mailbox.RTKit

/-! # The DCP endpoints (`scripts/apple_dcp.c`)

The coprocessor side of the AFK handshake. One `AppleDCPState` serves the three endpoints; the
fields the handshake uses are kept. `recvReads` is a history variable: the guest addresses
`RBEP_RECV` read from, in order.
-/
namespace SecureWorld.Mailbox
open Foundations
set_option autoImplicit false

def dcpEpMain : BitVec 32 := 0x24
def dcpEpAlt : BitVec 32 := 0x25
def dcpEpEpic : BitVec 32 := 0x23

def rbepInit : BitVec 64 := 0x80
def rbepInitAck : BitVec 64 := 0xa0
def rbepGetbuf : BitVec 64 := 0x89
def rbepGetbufAck : BitVec 64 := 0xa1
def rbepInitTx : BitVec 64 := 0x8a
def rbepInitRx : BitVec 64 := 0x8b
def rbepStart : BitVec 64 := 0xa3
def rbepStartAck : BitVec 64 := 0xa4
def rbepRecv : BitVec 64 := 0x85

structure AppleDCPState where
  afkInited : Bool
  bfrDva : BitVec 64
  started : Bool
  msgs : BitVec 64
  recvReads : List (BitVec 64)
deriving DecidableEq

def zeroDCP : AppleDCPState := ⟨false, 0, false, 0, []⟩

/-- A coprocessor: the RTKit engine and the object behind its DCP endpoints. -/
structure Coproc where
  rtk : AppleRTKit
  dcp : AppleDCPState

def rbep (type : BitVec 64) : BitVec 64 := type <<< 48

/-- The AFK message type, bits 63:48. -/
def rbepType (msg : BitVec 64) : BitVec 64 := (msg >>> 48) &&& 0xffff

/-- Ask for a `0x1000`-byte shared buffer, tag 1. -/
def getbufMsg : BitVec 64 := rbep rbepGetbuf ||| ((0x1000 >>> 6) <<< 16) ||| 0x1

/-- The TX ring is the first half of the buffer, tag 1. -/
def initTxMsg : BitVec 64 := rbep rbepInitTx ||| (0 <<< 32) ||| ((0x800 >>> 6) <<< 16) ||| 0x1

/-- The RX ring is the second half of the buffer, tag 2. -/
def initRxMsg : BitVec 64 :=
  rbep rbepInitRx ||| ((0x800 >>> 6) <<< 32) ||| ((0x800 >>> 6) <<< 16) ||| 0x2

def dcpEpHandler (c : Coproc) (ep : BitVec 32) (msg : BitVec 64) : Coproc × Bool :=
  let type := rbepType msg
  let c := { c with dcp := { c.dcp with msgs := c.dcp.msgs + 1 } }
  if type = rbepInit then
    let rtk := appleRtkitSend c.rtk ep (rbep rbepInitAck)
    let rtk := appleRtkitSend rtk ep getbufMsg
    ({ c with rtk }, true)
  else if type = rbepGetbufAck then
    let dcp := { c.dcp with bfrDva := msg &&& 0xffffffffffff }
    let rtk := appleRtkitSend c.rtk ep initTxMsg
    let rtk := appleRtkitSend rtk ep initRxMsg
    let rtk := appleRtkitSend rtk ep (rbep rbepStart)
    ({ rtk, dcp := { dcp with afkInited := true } }, true)
  else if type = rbepStartAck then
    ({ c with dcp := { c.dcp with started := true } }, true)
  else if type = rbepRecv then
    ({ c with dcp := { c.dcp with recvReads := c.dcp.recvReads ++ [c.dcp.bfrDva] } }, true)
  else (c, true)

def appleDcpAttach (rtk : AppleRTKit) : Coproc :=
  let rtk := appleRtkitAddEndpoint rtk dcpEpEpic .dcpEpHandler
  let rtk := appleRtkitAddEndpoint rtk dcpEpMain .dcpEpHandler
  let rtk := appleRtkitAddEndpoint rtk dcpEpAlt .dcpEpHandler
  { rtk, dcp := zeroDCP }

/-- The replies of a DCP endpoint. -/
def dcpReplies (ep : BitVec 32) (msg : BitVec 64) : List RTKitMsg :=
  if rbepType msg = rbepInit then [⟨rbep rbepInitAck, ep⟩, ⟨getbufMsg, ep⟩]
  else if rbepType msg = rbepGetbufAck then
    [⟨initTxMsg, ep⟩, ⟨initRxMsg, ep⟩, ⟨rbep rbepStart, ep⟩]
  else []

theorem dcpEpHandler_queue (c : Coproc) (ep : BitVec 32) (msg : BitVec 64) :
    (dcpEpHandler c ep msg).1.rtk.toQueueDevice =
      c.rtk.toQueueDevice.offers 64 (dcpReplies ep msg) := by
  unfold dcpEpHandler dcpReplies
  by_cases hinit : rbepType msg = rbepInit
  · simp [hinit]
  by_cases hack : rbepType msg = rbepGetbufAck
  · simp [hack, if_neg (by decide : ¬ rbepGetbufAck = rbepInit)]
  · simp only [if_neg hinit, if_neg hack]
    split_ifs <;> rfl

@[simp] theorem appleDcpAttach_queue (rtk : AppleRTKit) :
    (appleDcpAttach rtk).rtk.toQueueDevice = rtk.toQueueDevice := by
  simp [appleDcpAttach]

end SecureWorld.Mailbox
