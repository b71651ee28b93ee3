import SecureWorld.Foundations.LastWrite
import SecureWorld.Mailbox.EngineAgreement

/-! # The NVMe window of the ANS (`ans_nvme_read`, `ans_nvme_write`)

A second register window of a coprocessor. Its boot status follows whichever engine plays the
coprocessor, the inline mailbox or the RTKit one; the two NVMMU registers are plain storage.
-/
namespace SecureWorld.Mailbox
open Foundations
set_option autoImplicit false

def ansNvmeBootStatus : BitVec 64 := 0x1300
def ansNvmeBootStatusOk : BitVec 64 := 0xde71ce55
def ansNvmeLinearSqCtrl : BitVec 64 := 0x24908
def ansNvmmuNumTcbs : BitVec 64 := 0x28100

/-- `rtk` if it is set, and `asc` otherwise. -/
inductive AnsEngine
  | asc (s : AscMboxState)
  | rtk (c : Coproc)

def AnsEngine.running : AnsEngine → Bool
  | .asc s => s.running
  | .rtk c => c.rtk.running

def AnsEngine.helloSent : AnsEngine → Bool
  | .asc s => s.helloSent
  | .rtk c => c.rtk.helloSent

structure AnsNvmeState where
  engine : AnsEngine
  linearSqCtrl : BitVec 32
  numTcbs : BitVec 32

def ansNvmeRead (s : AnsNvmeState) (off : BitVec 64) : BitVec 64 :=
  if off = ansNvmeBootStatus then if s.engine.running then ansNvmeBootStatusOk else 0
  else if off = ansNvmeLinearSqCtrl then s.linearSqCtrl.setWidth 64
  else if off = ansNvmmuNumTcbs then s.numTcbs.setWidth 64
  else 0

def ansNvmeWrite (s : AnsNvmeState) (off val : BitVec 64) : AnsNvmeState :=
  if off = ansNvmeLinearSqCtrl then { s with linearSqCtrl := val.setWidth 32 }
  else if off = ansNvmmuNumTcbs then { s with numTcbs := val.setWidth 32 }
  else s

/-- An access to the mailbox or the self-announce timer, or a store to the window. -/
inductive AnsOp
  | mailbox (op : GuestOp)
  | nvmeWrite (off val : BitVec 64)

def AnsEngine.exec (op : GuestOp) : AnsEngine → AnsEngine
  | .asc s => .asc (s.exec op.toAsc)
  | .rtk c => .rtk (c.exec op.toRTKit)

def ansExec (s : AnsNvmeState) : AnsOp → AnsNvmeState
  | .mailbox op => { s with engine := s.engine.exec op }
  | .nvmeWrite off val => ansNvmeWrite s off val

/-- The coprocessor is taken out of reset, or comes up by itself. -/
def GuestOp.Starts : GuestOp → Bool
  | .announce => true
  | .read _ => false
  | .write off val => off = ascCpuControl ∧ val &&& ascCpuControlRun ≠ 0

def AnsOp.Starts : AnsOp → Bool
  | .mailbox op => op.Starts
  | .nvmeWrite _ _ => false

/-- Running, and the HELLO sent, if `b`; neither otherwise. -/
def AnsEngine.Up (b : Bool) (e : AnsEngine) : Prop := e.running = b ∧ e.helloSent = b

/-! ## The engines -/

/-- A step that changes neither flag. -/
theorem AnsEngine.Up.same {e e' : AnsEngine} {b : Bool} (h : e.Up b)
    (hsame : e'.running = e.running ∧ e'.helloSent = e.helloSent) : e'.Up (b || false) := by
  rw [Bool.or_false]
  exact ⟨hsame.1.trans h.1, hsame.2.trans h.2⟩

theorem ascFlags_of_view {s s' : AscMboxState} (h : s'.view = s.view) :
    s'.running = s.running ∧ s'.helloSent = s.helloSent :=
  ⟨congrArg AscView.running h, congrArg AscView.helloSent h⟩

theorem rtkFlags_of_view {rtk rtk' : AppleRTKit} (h : rtk'.view = rtk.view) :
    rtk'.running = rtk.running ∧ rtk'.helloSent = rtk.helloSent :=
  ⟨congrArg EngineView.running h, congrArg EngineView.helloSent h⟩

/-- Once running is set, a boot leaves both flags set. -/
theorem ascBoot_up {s : AscMboxState} (hrunning : s.running = true) :
    (AnsEngine.asc (ascBoot s)).Up true := by
  have hview := ascBoot_view s
  exact ⟨(congrArg AscView.running hview).trans hrunning, congrArg AscView.helloSent hview⟩

theorem rtkitBoot_up {c : Coproc} {rtk : AppleRTKit} (h : rtk.running = rtk.helloSent) :
    (AnsEngine.rtk { c with rtk := appleRtkitBoot rtk }).Up true := by
  unfold appleRtkitBoot
  split_ifs with hsent
  · exact ⟨h.trans hsent, hsent⟩
  · exact rtkFlags_of_view (mgmtSend_view { rtk with helloSent := true, running := true } _ _)

theorem asc_up {s : AscMboxState} {b : Bool} (h : (AnsEngine.asc s).Up b) (op : GuestOp) :
    ((AnsEngine.asc s).exec op).Up (b || op.Starts) := by
  have hrunning : s.running = b := h.1
  have hsent : s.helloSent = b := h.2
  cases op with
  | announce =>
    show (AnsEngine.asc (ascAnnounceCb s)).Up (b || true)
    rw [Bool.or_true]
    unfold ascAnnounceCb
    split_ifs with hhello
    · exact ⟨(hrunning.trans hsent.symm).trans hhello, hhello⟩
    · exact ascBoot_up rfl
  | read off => exact AnsEngine.Up.same h (ascFlags_of_view (ascRead_view s off))
  | write off val =>
    show (AnsEngine.asc (ascWrite s off val)).Up _
    by_cases hstarts : off = ascCpuControl ∧ val &&& ascCpuControlRun ≠ 0
    · obtain ⟨hcpu, hrun⟩ := hstarts
      rw [show (GuestOp.write off val).Starts = true from decide_eq_true ⟨hcpu, hrun⟩, Bool.or_true,
        ascWrite, if_pos hcpu]
      dsimp only
      split_ifs with hboot
      · exact ascBoot_up rfl
      · have hb : s.running = true := Bool.of_not_eq_false fun hnot => hboot ⟨hrun, hnot⟩
        exact ⟨hb, (hsent.trans hrunning.symm).trans hb⟩
    · rw [show (GuestOp.write off val).Starts = false from decide_eq_false hstarts]
      refine AnsEngine.Up.same h ?_
      show (ascWrite s off val).running = s.running ∧ (ascWrite s off val).helloSent = s.helloSent
      unfold ascWrite
      dsimp only
      split_ifs with hcpu hboot
      · exact absurd ⟨hcpu, hboot.1⟩ hstarts
      · exact ⟨rfl, rfl⟩
      · exact ⟨rfl, rfl⟩
      · exact ascFlags_of_view (ascHandle_view _ _ _)
      · exact ⟨rfl, rfl⟩

theorem rtk_up {c : Coproc} {b : Bool} (h : (AnsEngine.rtk c).Up b) (op : GuestOp) :
    ((AnsEngine.rtk c).exec op).Up (b || op.Starts) := by
  have hflags : c.rtk.running = c.rtk.helloSent := h.1.trans h.2.symm
  cases op with
  | announce =>
    show (AnsEngine.rtk { c with rtk := appleRtkitBoot c.rtk }).Up (b || true)
    rw [Bool.or_true]
    exact rtkitBoot_up hflags
  | read off => exact AnsEngine.Up.same h (rtkFlags_of_view (rtkitRead_view c.rtk off))
  | write off val =>
    show (AnsEngine.rtk (rtkitWrite c off val)).Up _
    by_cases hstarts : off = ascCpuControl ∧ val &&& ascCpuControlRun ≠ 0
    · obtain ⟨hcpu, hrun⟩ := hstarts
      rw [show (GuestOp.write off val).Starts = true from decide_eq_true ⟨hcpu, hrun⟩, Bool.or_true,
        rtkitWrite, if_pos hcpu]
      dsimp only
      split_ifs with hboot
      · exact rtkitBoot_up hflags
      · have hb : c.rtk.running = true := Bool.of_not_eq_false fun hnot => hboot ⟨hrun, hnot⟩
        exact ⟨hb, hflags.symm.trans hb⟩
    · rw [show (GuestOp.write off val).Starts = false from decide_eq_false hstarts]
      refine AnsEngine.Up.same h ?_
      show (rtkitWrite c off val).rtk.running = c.rtk.running ∧
        (rtkitWrite c off val).rtk.helloSent = c.rtk.helloSent
      unfold rtkitWrite
      dsimp only
      split_ifs with hcpu hboot
      · exact absurd ⟨hcpu, hboot.1⟩ hstarts
      · exact ⟨rfl, rfl⟩
      · exact ⟨rfl, rfl⟩
      · exact rtkFlags_of_view (handleA2i_view _ _ _)
      · exact ⟨rfl, rfl⟩

theorem AnsEngine.Up.exec {e : AnsEngine} {b : Bool} (h : e.Up b) (op : GuestOp) :
    (e.exec op).Up (b || op.Starts) := by
  cases e with
  | asc s => exact asc_up h op
  | rtk c => exact rtk_up h op

/-! ## Runs -/

/-- A window in front of an engine as the machine makes it. -/
def ansFresh (rtkit : Bool) : AnsNvmeState where
  engine := if rtkit then .rtk Coproc.fresh else .asc (AscMboxState.fresh true)
  linearSqCtrl := 0
  numTcbs := 0

/-- What an operation writes to one of the two storage registers. -/
def nvmeStored (reg : BitVec 64) : AnsOp → Option (BitVec 32)
  | .mailbox _ => none
  | .nvmeWrite off val => if off = reg then some (val.setWidth 32) else none

theorem ansExec_up {s : AnsNvmeState} {b : Bool} (h : s.engine.Up b) (op : AnsOp) :
    (ansExec s op).engine.Up (b || op.Starts) := by
  cases op with
  | mailbox op => exact h.exec op
  | nvmeWrite off val =>
    refine AnsEngine.Up.same h ?_
    rw [ansExec, ansNvmeWrite]
    split_ifs <;> exact ⟨rfl, rfl⟩

theorem run_up : ∀ (ops : List AnsOp) {s : AnsNvmeState} {b : Bool}, s.engine.Up b →
    (run ansExec s ops).engine.Up (b || ops.any AnsOp.Starts)
  | [], _, b, h => by
      rw [List.any_nil, Bool.or_false]
      exact h
  | op :: ops, _, b, h => by
      rw [List.any_cons, ← Bool.or_assoc]
      exact run_up ops (ansExec_up h op)

theorem linearSqCtrl_isCell :
    IsCell ansExec AnsNvmeState.linearSqCtrl (nvmeStored ansNvmeLinearSqCtrl) := by
  rintro s (op | ⟨off, val⟩)
  · rfl
  · rw [ansExec, ansNvmeWrite, nvmeStored]
    split_ifs <;> rfl

theorem numTcbs_isCell : IsCell ansExec AnsNvmeState.numTcbs (nvmeStored ansNvmmuNumTcbs) := by
  rintro s (op | ⟨off, val⟩)
  · rfl
  · rw [ansExec, ansNvmeWrite, nvmeStored]
    by_cases hsq : off = ansNvmeLinearSqCtrl
    · have hne : off ≠ ansNvmmuNumTcbs := by
        rw [hsq]
        decide
      rw [if_pos hsq, if_neg hne]
      rfl
    · rw [if_neg hsq]
      split_ifs <;> rfl

end SecureWorld.Mailbox
