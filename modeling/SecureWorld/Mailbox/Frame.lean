import SecureWorld.Mailbox.Coprocessor

/-! # What the engine leaves alone

Message handlers write the queue, the version, the buffers and the `started` marks. The registers,
the boot flags and the endpoint registrations (`EngineView`) are written by register writes, boot
and `apple_rtkit_add_endpoint` only.
-/
namespace SecureWorld.Mailbox
open Foundations
set_option autoImplicit false

structure EngineView where
  a2iMsg : BitVec 64
  cpuControl : BitVec 32
  running : Bool
  helloSent : Bool
  present : Fin rtkitMaxEndpoints → Bool
  handler : Fin rtkitMaxEndpoints → Option RTKitEpHandler

def AppleRTKit.view (rtk : AppleRTKit) : EngineView where
  a2iMsg := rtk.a2iMsg
  cpuControl := rtk.cpuControl
  running := rtk.running
  helloSent := rtk.helloSent
  present := fun i => (rtk.eps i).present
  handler := fun i => (rtk.eps i).handler

theorem epPresent_view (rtk : AppleRTKit) (ep : ℕ) :
    epPresent rtk.eps ep =
      if h : ep < rtkitMaxEndpoints then rtk.view.present ⟨ep, h⟩ else false := rfl

theorem epHandler_view (rtk : AppleRTKit) (ep : BitVec 32) :
    epHandler rtk ep =
      if h : ep.toNat < rtkitMaxEndpoints then rtk.view.handler ⟨ep.toNat, h⟩ else none := rfl

theorem epHandler_congr {rtk rtk' : AppleRTKit} (h : rtk'.view = rtk.view) (ep : BitVec 32) :
    epHandler rtk' ep = epHandler rtk ep := by
  rw [epHandler_view, epHandler_view, h]

/-! ## Handlers -/

@[simp] theorem send_view (rtk : AppleRTKit) (ep : BitVec 32) (msg : BitVec 64) :
    (appleRtkitSend rtk ep msg).view = rtk.view := by
  unfold appleRtkitSend
  split_ifs <;> rfl

@[simp] theorem mgmtSend_view (rtk : AppleRTKit) (type payload : BitVec 64) :
    (mgmtSend rtk type payload).view = rtk.view := send_view _ _ _

@[simp] theorem sendEpmap_view (rtk : AppleRTKit) : (sendEpmap rtk).view = rtk.view := by
  have hfold : ∀ (bases : List ℕ) (r : AppleRTKit),
      (bases.foldl (fun r' base => mgmtSend r' mgmtEpmap (epmapPayload rtk.eps base)) r).view
        = r.view := by
    intro bases
    induction bases with
    | nil => intro r; rfl
    | cons base bases ih => intro r; rw [List.foldl_cons, ih, mgmtSend_view]
  exact hfold _ _

/-- STARTEP marks an endpoint; it registers none. -/
theorem startep_view (rtk : AppleRTKit) (i : Fin rtkitMaxEndpoints) :
    AppleRTKit.view
        { rtk with eps := Function.update rtk.eps i { rtk.eps i with started := true } } =
      rtk.view := by
  have hpresent : ∀ j, (Function.update rtk.eps i { rtk.eps i with started := true } j).present =
      (rtk.eps j).present := by
    intro j
    by_cases hj : j = i
    · subst hj
      rw [Function.update_self]
    · rw [Function.update_of_ne hj]
  have hhandler : ∀ j, (Function.update rtk.eps i { rtk.eps i with started := true } j).handler =
      (rtk.eps j).handler := by
    intro j
    by_cases hj : j = i
    · subst hj
      rw [Function.update_self]
    · rw [Function.update_of_ne hj]
  simp only [AppleRTKit.view, hpresent, hhandler]

@[simp] theorem handleMgmt_view (rtk : AppleRTKit) (msg : BitVec 64) :
    (handleMgmt rtk msg).view = rtk.view := by
  unfold handleMgmt
  simp only []
  split_ifs
  · exact sendEpmap_view _
  · rfl
  · exact startep_view _ _
  all_goals first | rfl | exact mgmtSend_view _ _ _

@[simp] theorem handleLogEp_view (rtk : AppleRTKit) (msg : BitVec 64) :
    (handleLogEp rtk msg).1.view = rtk.view := by
  unfold handleLogEp
  split_ifs
  · split <;> rfl
  · rfl

@[simp] theorem dcpEpHandler_view (c : Coproc) (ep : BitVec 32) (msg : BitVec 64) :
    (dcpEpHandler c ep msg).1.rtk.view = c.rtk.view := by
  simp only [dcpEpHandler]
  split_ifs <;> simp

@[simp] theorem handleA2i_view (c : Coproc) (msg : BitVec 64) (epWord : BitVec 32) :
    (handleA2i c msg epWord).rtk.view = c.rtk.view := by
  unfold handleA2i
  simp only []
  split_ifs
  · exact handleMgmt_view _ _
  · split
    · rename_i handler _
      cases handler with
      | handleLogEp => exact handleLogEp_view _ _
      | dcpEpHandler => exact dcpEpHandler_view _ _ _
    · rfl

/-! ## Reads, boot and writes -/

@[simp] theorem rtkitRead_view (rtk : AppleRTKit) (off : BitVec 64) :
    (rtkitRead rtk off).2.view = rtk.view := by
  unfold rtkitRead
  split_ifs <;> rfl

theorem boot_view (rtk : AppleRTKit) :
    (appleRtkitBoot rtk).view =
      if rtk.helloSent then rtk.view else { rtk.view with helloSent := true, running := true } := by
  unfold appleRtkitBoot
  split_ifs
  · rfl
  · exact mgmtSend_view _ _ _

theorem addEndpoint_flags (rtk : AppleRTKit) (ep : BitVec 32) (handler : RTKitEpHandler) :
    (appleRtkitAddEndpoint rtk ep handler).running = rtk.running ∧
      (appleRtkitAddEndpoint rtk ep handler).helloSent = rtk.helloSent := by
  unfold appleRtkitAddEndpoint
  split_ifs <;> exact ⟨rfl, rfl⟩

end SecureWorld.Mailbox
