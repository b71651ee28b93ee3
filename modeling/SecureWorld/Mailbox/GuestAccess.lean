import SecureWorld.Foundations.MemoryRegion
import SecureWorld.Mailbox.QueueRefinement

/-! # Guest accesses to the RTKit mailbox

`rtkit_ops` allows 8-byte accesses but leaves the implemented access size unset, so the memory core
runs an 8-byte access as two 4-byte callbacks. The callbacks compare exact register offsets: the
second half of a message word is lost on the way in and reads as zero on the way out.
-/
namespace SecureWorld.Mailbox
open Foundations
set_option autoImplicit false

def rtkitOps : MemoryRegionOps := { validMin := 4, validMax := 8, implMin := 0, implMax := 0 }

def guestStore (c : Coproc) (off : BitVec 64) (size : ℕ) (val : BitVec 64) : Coproc :=
  rtkitOps.guestWrite rtkitWrite c off size val

def guestLoad (rtk : AppleRTKit) (off : BitVec 64) (size : ℕ) : BitVec 64 × AppleRTKit :=
  rtkitOps.guestRead rtkitRead rtk off size

/-- The low 32 bits of a word, as one 4-byte callback carries them. -/
def lowHalf (m : BitVec 64) : BitVec 64 := m &&& 0xffffffff

theorem lowHalf_toNat (m : BitVec 64) : (lowHalf m).toNat = m.toNat % 2 ^ 32 := by
  rw [lowHalf, BitVec.toNat_and]
  exact Nat.and_two_pow_sub_one_eq_mod m.toNat 32

theorem lowHalf_eq_iff (m : BitVec 64) : lowHalf m = m ↔ m.toNat < 2 ^ 32 := by
  constructor
  · intro h
    rw [← h, lowHalf_toNat]
    exact Nat.mod_lt _ (by decide)
  · intro h
    apply BitVec.eq_of_toNat_eq
    rw [lowHalf_toNat, Nat.mod_eq_of_lt h]

/-- The sizes the guest may use for the endpoint word. -/
def WordSize (size : ℕ) : Prop := size = 4 ∨ size = 8

theorem guestStore_eight (c : Coproc) (off val : BitVec 64) :
    guestStore c off 8 val =
      rtkitWrite (rtkitWrite c off (lowHalf val)) (off + 4) (lowHalf (val >>> 32)) := by
  have h : guestStore c off 8 val =
      rtkitWrite (rtkitWrite c (off + 0#64) (lowHalf (val >>> 0))) (off + 4)
        (lowHalf (val >>> 32)) := rfl
  rw [h, BitVec.add_zero, BitVec.ushiftRight_zero]

theorem guestStore_four (c : Coproc) (off val : BitVec 64) :
    guestStore c off 4 val = rtkitWrite c off (lowHalf val) := by
  have h : guestStore c off 4 val = rtkitWrite c (off + 0#64) (lowHalf (val >>> 0)) := rfl
  rw [h, BitVec.add_zero, BitVec.ushiftRight_zero]

theorem guestLoad_eight (rtk : AppleRTKit) (off : BitVec 64) :
    guestLoad rtk off 8 =
      (lowHalf (rtkitRead rtk off).1 |||
          lowHalf (rtkitRead (rtkitRead rtk off).2 (off + 4)).1 <<< 32,
        (rtkitRead (rtkitRead rtk off).2 (off + 4)).2) := by
  have h : guestLoad rtk off 8 =
      (0#64 ||| lowHalf (rtkitRead rtk (off + 0#64)).1 <<< 0 |||
          lowHalf (rtkitRead (rtkitRead rtk (off + 0#64)).2 (off + 4)).1 <<< 32,
        (rtkitRead (rtkitRead rtk (off + 0#64)).2 (off + 4)).2) := rfl
  rw [h, BitVec.add_zero, BitVec.shiftLeft_zero, BitVec.zero_or]

theorem guestLoad_four (rtk : AppleRTKit) (off : BitVec 64) :
    guestLoad rtk off 4 = (lowHalf (rtkitRead rtk off).1, (rtkitRead rtk off).2) := by
  have h : guestLoad rtk off 4 =
      (0#64 ||| lowHalf (rtkitRead rtk (off + 0#64)).1 <<< 0,
        (rtkitRead rtk (off + 0#64)).2) := rfl
  rw [h, BitVec.add_zero, BitVec.shiftLeft_zero, BitVec.zero_or]

/-! ## Only `handle_a2i` records a received message -/

@[simp] theorem send_received (rtk : AppleRTKit) (ep : BitVec 32) (msg : BitVec 64) :
    (appleRtkitSend rtk ep msg).received = rtk.received := by
  unfold appleRtkitSend
  split_ifs <;> rfl

@[simp] theorem mgmtSend_received (rtk : AppleRTKit) (type payload : BitVec 64) :
    (mgmtSend rtk type payload).received = rtk.received := send_received _ _ _

theorem sendEpmap_received (rtk : AppleRTKit) : (sendEpmap rtk).received = rtk.received := by
  have hfold : ∀ (bases : List ℕ) (r : AppleRTKit),
      (bases.foldl (fun r' base => mgmtSend r' mgmtEpmap (epmapPayload rtk.eps base)) r).received
        = r.received := by
    intro bases
    induction bases with
    | nil => intro r; rfl
    | cons base bases ih => intro r; rw [List.foldl_cons, ih, mgmtSend_received]
  exact hfold _ _

theorem handleMgmt_received (rtk : AppleRTKit) (msg : BitVec 64) :
    (handleMgmt rtk msg).received = rtk.received := by
  unfold handleMgmt
  simp only []
  split_ifs
  · exact sendEpmap_received _
  all_goals first | rfl | exact mgmtSend_received _ _ _

theorem callHandler_received (handler : RTKitEpHandler) (c : Coproc) (ep : BitVec 32)
    (msg : BitVec 64) : (callHandler handler c ep msg).1.rtk.received = c.rtk.received := by
  cases handler with
  | handleLogEp =>
    simp only [callHandler, handleLogEp]
    split_ifs
    · split <;> rfl
    · rfl
  | dcpEpHandler =>
    simp only [callHandler, dcpEpHandler]
    split_ifs <;> simp

theorem handleA2i_received (c : Coproc) (msg : BitVec 64) (epWord : BitVec 32) :
    (handleA2i c msg epWord).rtk.received = c.rtk.received ++ [(msg, epWord)] := by
  unfold handleA2i
  simp only []
  split_ifs
  · exact handleMgmt_received _ _
  · split
    · exact callHandler_received _ _ _ _
    · rfl

/-! ## Stores: only the low half of a message arrives -/

theorem rtkitWrite_send0 (c : Coproc) (val : BitVec 64) :
    rtkitWrite c ascA2iSend0 val = { c with rtk := { c.rtk with a2iMsg := val } } := by
  rw [rtkitWrite, if_neg (by decide), if_pos rfl]

theorem rtkitWrite_send1 (c : Coproc) (val : BitVec 64) :
    rtkitWrite c ascA2iSend1 val = handleA2i c c.rtk.a2iMsg (val.setWidth 32) := by
  rw [rtkitWrite, if_neg (by decide), if_neg (by decide), if_pos rfl]

theorem rtkitWrite_other (c : Coproc) {off : BitVec 64} (hcpu : off ≠ ascCpuControl)
    (hsend0 : off ≠ ascA2iSend0) (hsend1 : off ≠ ascA2iSend1) (val : BitVec 64) :
    rtkitWrite c off val = c := by
  rw [rtkitWrite, if_neg hcpu, if_neg hsend0, if_neg hsend1]

theorem store_send0 (c : Coproc) (m : BitVec 64) :
    guestStore c ascA2iSend0 8 m = { c with rtk := { c.rtk with a2iMsg := lowHalf m } } := by
  rw [guestStore_eight, rtkitWrite_send0,
    rtkitWrite_other _ (by decide) (by decide) (by decide)]

theorem store_send1 (c : Coproc) {size : ℕ} (hsize : WordSize size) (e : BitVec 8) :
    guestStore c ascA2iSend1 size (e.setWidth 64) = handleA2i c c.rtk.a2iMsg (e.setWidth 32) := by
  have hlow : (lowHalf (e.setWidth 64)).setWidth 32 = e.setWidth 32 := by
    apply BitVec.eq_of_toNat_eq
    have he := e.isLt
    simp only [BitVec.toNat_setWidth, lowHalf_toNat]
    omega
  obtain rfl | rfl := hsize
  · rw [guestStore_four, rtkitWrite_send1, hlow]
  · rw [guestStore_eight, rtkitWrite_other _ (by decide) (by decide) (by decide),
      rtkitWrite_send1, hlow]

/-- A guest store of `m` to SEND0 and of `e` to SEND1 hands `handle_a2i` exactly `(m, e)`. -/
def StoreDelivers (c : Coproc) (size : ℕ) (m : BitVec 64) (e : BitVec 8) : Prop :=
  (guestStore (guestStore c ascA2iSend0 8 m) ascA2iSend1 size (e.setWidth 64)).rtk.received =
    c.rtk.received ++ [(m, e.setWidth 32)]

theorem storeDelivers_iff (c : Coproc) {size : ℕ} (hsize : WordSize size) (m : BitVec 64)
    (e : BitVec 8) : StoreDelivers c size m e ↔ m.toNat < 2 ^ 32 := by
  rw [StoreDelivers, store_send0, store_send1 _ hsize, handleA2i_received, ← lowHalf_eq_iff]
  constructor
  · intro h
    have hlast := List.append_cancel_left h
    exact (Prod.mk.inj (List.cons.inj hlast).1).1
  · intro h
    simp only [h]

/-! ## Loads: the high half of a message reads as zero -/

theorem rtkitRead_other (rtk : AppleRTKit) {off : BitVec 64} (hcpu : off ≠ ascCpuControl)
    (hi2a : off ≠ ascI2aControl) (ha2i : off ≠ ascA2iControl) (hrecv0 : off ≠ ascI2aRecv0)
    (hrecv1 : off ≠ ascI2aRecv1) : rtkitRead rtk off = (0, rtk) := by
  rw [rtkitRead, if_neg hcpu, if_neg hi2a, if_neg ha2i, if_neg hrecv0, if_neg hrecv1]

theorem load_recv0 {e : RTKitMsg} {rtk : AppleRTKit} (h : Front 64 e rtk.toQueueDevice) :
    guestLoad rtk ascI2aRecv0 8 = (lowHalf e.msg, rtk) := by
  have hsame : (rtkitRead rtk ascI2aRecv0).2 = rtk := by
    rw [rtkitRead, if_neg (by decide), if_neg (by decide), if_neg (by decide), if_pos rfl]
  rw [guestLoad_eight, hsame, rtkitRead_recv0 h, rtkitRead_other rtk (by decide) (by decide)
    (by decide) (by decide) (by decide)]
  simp [lowHalf]

theorem load_recv1 {e : RTKitMsg} {rtk : AppleRTKit} (h : Front 64 e rtk.toQueueDevice) {size : ℕ}
    (hsize : WordSize size) : (guestLoad rtk ascI2aRecv1 size).1 = e.ep.setWidth 64 ∧
      (guestLoad rtk ascI2aRecv1 size).2.popped = rtk.popped ++ [e] := by
  obtain ⟨hval, hpop⟩ := rtkitRead_recv1 h
  have hlow : lowHalf (e.ep.setWidth 64) = e.ep.setWidth 64 := by
    rw [lowHalf_eq_iff, BitVec.toNat_setWidth]
    have he := e.ep.isLt
    omega
  obtain rfl | rfl := hsize
  · rw [guestLoad_four, hval]
    exact ⟨hlow, hpop⟩
  · rw [guestLoad_eight, hval, rtkitRead_other (rtkitRead rtk ascI2aRecv1).2 (by decide)
      (by decide) (by decide) (by decide) (by decide), hlow]
    exact ⟨by simp [lowHalf], hpop⟩

/-- A guest load of RECV0 and then of RECV1 returns the two words of `e` and removes exactly it. -/
def LoadReturns (rtk : AppleRTKit) (size : ℕ) (e : RTKitMsg) : Prop :=
  (guestLoad rtk ascI2aRecv0 8).1 = e.msg ∧
    (guestLoad (guestLoad rtk ascI2aRecv0 8).2 ascI2aRecv1 size).1 = e.ep.setWidth 64 ∧
    (guestLoad (guestLoad rtk ascI2aRecv0 8).2 ascI2aRecv1 size).2.popped = rtk.popped ++ [e]

theorem loadReturns_iff {e : RTKitMsg} {rtk : AppleRTKit} (h : Front 64 e rtk.toQueueDevice)
    {size : ℕ} (hsize : WordSize size) : LoadReturns rtk size e ↔ e.msg.toNat < 2 ^ 32 := by
  rw [LoadReturns, load_recv0 h, ← lowHalf_eq_iff]
  exact ⟨fun hr => hr.1, fun hm => ⟨hm, load_recv1 h hsize⟩⟩

/-! ## The register interface -/

/-- A 64-bit message survives the register interface, on the way in or out, exactly when its high
half is zero. -/
theorem mailbox_word_survives_iff {c : Coproc} (hc : c.Reachable) {size : ℕ}
    (hsize : WordSize size) :
    (∀ m e, StoreDelivers c size m e ↔ m.toNat < 2 ^ 32) ∧
      (∀ e, 0 < c.rtk.count → c.rtk.q c.rtk.head = e →
        (LoadReturns c.rtk size e ↔ e.msg.toNat < 2 ^ 32)) :=
  ⟨fun m e => storeDelivers_iff c hsize m e,
    fun _ hpos hfront => loadReturns_iff ⟨hc.ok, hpos, hfront⟩ hsize⟩

/-- The HELLO waiting after boot: its type field does not reach the guest. -/
theorem hello_word_is_cut :
    (∀ m e, StoreDelivers (Coproc.fresh.exec .announce) 8 m e ↔ m.toNat < 2 ^ 32) ∧
      (∀ e, 0 < (Coproc.fresh.exec .announce).rtk.count →
        (Coproc.fresh.exec .announce).rtk.q (Coproc.fresh.exec .announce).rtk.head = e →
        (LoadReturns (Coproc.fresh.exec .announce).rtk 8 e ↔ e.msg.toNat < 2 ^ 32)) :=
  mailbox_word_survives_iff ⟨[.announce], rfl⟩ (.inr rfl)

/-- A HELLO_REPLY stored by the guest arrives without its type. -/
theorem hello_reply_loses_its_type :
    ¬ ∀ c : Coproc, c.Reachable → ∀ m e, StoreDelivers c 8 m e := by
  intro h
  have hsend := h Coproc.fresh (Reachable.refl _ _) 0x002000000000000b 0
  rw [storeDelivers_iff _ (.inr rfl)] at hsend
  exact absurd hsend (by decide)

end SecureWorld.Mailbox
