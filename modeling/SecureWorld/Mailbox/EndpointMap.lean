import SecureWorld.Mailbox.FlowControl

/-! # Reading an endpoint map

An EPMAP message carries a base in bits 34:32 and a bitmap of 32 endpoints in its low half. Read
that way, the chunks of `send_epmap` advertise exactly the registered endpoints.
-/
namespace SecureWorld.Mailbox
open Foundations
set_option autoImplicit false

def epmapBaseMask : BitVec 64 := 0x7

def epmapBase (msg : BitVec 64) : ℕ := ((msg >>> 32) &&& epmapBaseMask).toNat

/-- The endpoint is in one of the EPMAP chunks among the messages. -/
def Advertises (msgs : List (BitVec 64)) (ep : ℕ) : Prop :=
  ∃ msg ∈ msgs, mgmtType msg = mgmtEpmap ∧ epmapBase msg = ep / 32 ∧ msg.getLsbD (ep % 32) = true

/-! ## The fields of a management message -/

theorem low_mask_high {mask : BitVec 64} {n : ℕ} (hmask : mask >>> n = 0) (x : BitVec 64) :
    (x &&& mask) >>> n = 0 := by
  rw [BitVec.ushiftRight_and_distrib, hmask]
  exact BitVec.and_zero

theorem mgmtType_mgmtMsg (type : BitVec 64) {payload : BitVec 64} (hpayload : payload >>> 52 = 0) :
    mgmtType (mgmtMsg type payload).msg = ((type <<< 52) >>> 52) &&& 0xff := by
  have hor : (type <<< 52 ||| payload) >>> 52 = (type <<< 52) >>> 52 := by
    rw [BitVec.ushiftRight_or_distrib, hpayload]
    exact BitVec.or_zero
  rw [mgmtType, mgmtMsg, hor]

theorem epmapPayload_high (eps : Fin rtkitMaxEndpoints → RTKitEndpoint) {base : ℕ}
    (hbase : base ≤ 1) : epmapPayload eps base >>> 52 = 0 := by
  have hlow : (epmapBitmap eps base &&& 0xffffffff) >>> 52 = 0 := low_mask_high (by decide) _
  have hhigh : (BitVec.ofNat 64 base <<< 32) >>> 52 = 0 := by
    obtain rfl | rfl : base = 0 ∨ base = 1 := by omega
    all_goals decide
  have hlast : epmapLast >>> 52 = 0 := by decide
  unfold epmapPayload
  simp only []
  split_ifs
  · rw [BitVec.ushiftRight_or_distrib, BitVec.ushiftRight_or_distrib, hhigh, hlow, hlast]
    rfl
  · rw [BitVec.ushiftRight_or_distrib, hhigh, hlow]
    rfl

theorem epmapBase_msg (eps : Fin rtkitMaxEndpoints → RTKitEndpoint) {base : ℕ} (hbase : base ≤ 1) :
    epmapBase (mgmtMsg mgmtEpmap (epmapPayload eps base)).msg = base := by
  have hlow : (epmapBitmap eps base &&& 0xffffffff) >>> 32 = 0 := low_mask_high (by decide) _
  unfold epmapBase mgmtMsg epmapPayload
  simp only []
  split_ifs
  · simp only [BitVec.ushiftRight_or_distrib, hlow]
    obtain rfl | rfl : base = 0 ∨ base = 1 := by omega
    all_goals decide
  · simp only [BitVec.ushiftRight_or_distrib, hlow]
    obtain rfl | rfl : base = 0 ∨ base = 1 := by omega
    all_goals decide

/-! ## The bitmap -/

theorem shifted_one_bit {i : ℕ} (hi : i < 64) (bit : ℕ) :
    ((1 <<< bit : ℕ) : BitVec 64).getLsbD i = decide (bit = i) := by
  have hcast : ((1 <<< bit : ℕ) : BitVec 64).getLsbD i = (BitVec.ofNat 64 (2 ^ bit)).getLsbD i := by
    rw [Nat.one_shiftLeft]
    rfl
  rw [hcast, BitVec.getLsbD_ofNat, Nat.testBit_two_pow, decide_eq_true hi, Bool.true_and]

theorem bitmap_fold_bit (P : ℕ → Bool) {i : ℕ} (hi : i < 64) :
    ∀ (l : List ℕ) (bitmap : BitVec 64),
      (l.foldl (fun (bitmap : BitVec 64) bit =>
        if P bit then bitmap ||| (1 <<< bit) else bitmap) bitmap).getLsbD i =
          (bitmap.getLsbD i || (l.contains i && P i))
  | [], bitmap => by simp
  | bit :: l, bitmap => by
      rw [List.foldl_cons, bitmap_fold_bit P hi l, List.contains_cons]
      by_cases h : bit = i
      · subst h
        by_cases hP : P bit = true
        · rw [if_pos hP, BitVec.getLsbD_or, shifted_one_bit hi]
          simp [hP]
        · rw [if_neg hP]
          simp [hP]
      · have hne : (i == bit) = false := beq_eq_false_iff_ne.mpr (Ne.symm h)
        rw [hne, Bool.false_or]
        by_cases hP : P bit = true
        · rw [if_pos hP, BitVec.getLsbD_or, shifted_one_bit hi, decide_eq_false h, Bool.or_false]
        · rw [if_neg hP]

theorem epmapBitmap_bit (eps : Fin rtkitMaxEndpoints → RTKitEndpoint) (base : ℕ) {bit : ℕ}
    (hbit : bit < 32) :
    (epmapBitmap eps base).getLsbD bit = epPresent eps (base * 32 + bit) := by
  have hmem : (List.range 32).contains bit = true := by simpa using hbit
  have hzero : (0 : BitVec 64).getLsbD bit = false := BitVec.getLsbD_zero
  rw [epmapBitmap, bitmap_fold_bit (fun bit => epPresent eps (base * 32 + bit)) (by omega), hmem,
    hzero, Bool.false_or, Bool.true_and]

theorem epmap_msg_bit (eps : Fin rtkitMaxEndpoints → RTKitEndpoint) (base : ℕ) {bit : ℕ}
    (hbit : bit < 32) :
    (mgmtMsg mgmtEpmap (epmapPayload eps base)).msg.getLsbD bit =
      epPresent eps (base * 32 + bit) := by
  have hmask : (0xffffffff : BitVec 64).getLsbD bit = true :=
    (by decide : ∀ b < 32, (0xffffffff : BitVec 64).getLsbD b = true) bit hbit
  have hlast : epmapLast.getLsbD bit = false :=
    (by decide : ∀ b < 32, epmapLast.getLsbD b = false) bit hbit
  have hlow : (BitVec.ofNat 64 base <<< 32).getLsbD bit = false := by
    rw [BitVec.getLsbD_shiftLeft, decide_eq_true hbit]
    simp
  have hpayload : (epmapPayload eps base).getLsbD bit = epPresent eps (base * 32 + bit) := by
    unfold epmapPayload
    simp only []
    split_ifs
    · rw [BitVec.getLsbD_or, BitVec.getLsbD_or, BitVec.getLsbD_and, hmask, hlast, hlow,
        epmapBitmap_bit eps base hbit, Bool.or_false, Bool.false_or, Bool.and_true]
    · rw [BitVec.getLsbD_or, BitVec.getLsbD_and, hmask, hlow, epmapBitmap_bit eps base hbit,
        Bool.false_or, Bool.and_true]
  have htype : (mgmtEpmap <<< 52).getLsbD bit = false :=
    (by decide : ∀ b < 32, (mgmtEpmap <<< 52).getLsbD b = false) bit hbit
  rw [mgmtMsg, BitVec.getLsbD_or, hpayload, htype, Bool.false_or]

/-! ## The chunks of `send_epmap` -/

theorem epPresent_lastBase_aux (eps : Fin rtkitMaxEndpoints → RTKitEndpoint) {ep : ℕ}
    (hep : epPresent eps ep = true) :
    ∀ (l : List ℕ) (last : ℕ), l.Pairwise (· < ·) → (∀ x ∈ l, last ≤ x / 32) →
      (ep ∈ l ∨ ep / 32 ≤ last) →
      ep / 32 ≤ l.foldl (fun last ep => if epPresent eps ep then ep / 32 else last) last
  | [], last, _, _, hmem => by
      obtain hmem | hle := hmem
      · exact absurd hmem List.not_mem_nil
      · exact hle
  | x :: l, last, hpw, hlast, hmem => by
      obtain ⟨hx, hpw'⟩ := List.pairwise_cons.mp hpw
      rw [List.foldl_cons]
      apply epPresent_lastBase_aux eps hep l _ hpw'
      · intro y hy
        have hxy := hx y hy
        have hly := hlast y (List.mem_cons_of_mem x hy)
        split_ifs
        · exact Nat.div_le_div_right hxy.le
        · exact hly
      · obtain hmem | hle := hmem
        · rcases List.mem_cons.mp hmem with rfl | hmem
          · right
            rw [if_pos hep]
          · exact .inl hmem
        · right
          have hlx := hlast x List.mem_cons_self
          split_ifs <;> omega

theorem epPresent_lastBase (eps : Fin rtkitMaxEndpoints → RTKitEndpoint) {ep : ℕ}
    (hep : epPresent eps ep = true) : ep / 32 ≤ lastBase eps := by
  have hlt : ep < rtkitMaxEndpoints := by
    by_contra hge
    rw [epPresent, dif_neg hge] at hep
    exact Bool.false_ne_true hep
  exact epPresent_lastBase_aux eps hep _ 0 List.pairwise_lt_range (fun _ _ => Nat.zero_le _)
    (.inl (List.mem_range.mpr hlt))

/-! ## Registered endpoints and what the guest is told -/

def addEndpoints (rtk : AppleRTKit) (calls : List (BitVec 32 × RTKitEpHandler)) : AppleRTKit :=
  calls.foldl (fun rtk call => appleRtkitAddEndpoint rtk call.1 call.2) rtk

/-- The endpoints a chunk names: `32 * base + bit` for each bit of its bitmap. -/
def chunkEndpoints (msg : BitVec 64) : Set ℕ :=
  {ep | ∃ bit < 32, msg.getLsbD bit = true ∧ 32 * epmapBase msg + bit = ep}

/-- The messages are well-formed chunks of one map and together name exactly `eps`. -/
structure EncodesEndpoints (chunks : List RTKitMsg) (eps : Set ℕ) : Prop where
  payload : ∀ m ∈ chunks, ∃ payload : BitVec 64,
    payload >>> 52 = 0 ∧ m = mgmtMsg mgmtEpmap payload
  type : ∀ m ∈ chunks, mgmtType m.msg = mgmtEpmap
  bases : chunks.map (fun m => epmapBase m.msg) = List.range chunks.length
  last : chunks.map (fun m => m.msg.getLsbD 51) = List.replicate (chunks.length - 1) false ++ [true]
  endpoints : {ep | ∃ m ∈ chunks, ep ∈ chunkEndpoints m.msg} = eps

theorem addEndpoint_present (rtk : AppleRTKit) (ep : BitVec 32) (handler : RTKitEpHandler) (i : ℕ) :
    epPresent (appleRtkitAddEndpoint rtk ep handler).eps i = true ↔
      epPresent rtk.eps i = true ∨ (i < rtkitMaxEndpoints ∧ ep.toNat = i) := by
  unfold epPresent appleRtkitAddEndpoint
  by_cases hi : i < rtkitMaxEndpoints
  · by_cases hep : ep.toNat < rtkitMaxEndpoints
    · by_cases heq : ep.toNat = i
      · subst heq
        simp [hi]
      · have hne : (⟨i, hi⟩ : Fin rtkitMaxEndpoints) ≠ ⟨ep.toNat, hep⟩ := by
          intro h
          exact heq (Fin.mk.inj h).symm
        simp [hi, hep, heq, Function.update_of_ne hne]
    · have hne : ep.toNat ≠ i := by omega
      simp [hi, hep, hne]
  · simp [hi]

theorem addEndpoints_present (calls : List (BitVec 32 × RTKitEpHandler)) (i : ℕ) :
    ∀ rtk : AppleRTKit, epPresent (addEndpoints rtk calls).eps i = true ↔
      epPresent rtk.eps i = true ∨ (i < rtkitMaxEndpoints ∧ ∃ call ∈ calls, call.1.toNat = i) := by
  induction calls with
  | nil =>
    intro rtk
    simp [addEndpoints]
  | cons call calls ih =>
    intro rtk
    have hstep := ih (appleRtkitAddEndpoint rtk call.1 call.2)
    rw [addEndpoint_present] at hstep
    rw [addEndpoints, List.foldl_cons, ← addEndpoints, hstep, List.exists_mem_cons_iff]
    tauto

theorem addEndpoints_queue (calls : List (BitVec 32 × RTKitEpHandler)) :
    ∀ rtk : AppleRTKit, (addEndpoints rtk calls).toQueueDevice = rtk.toQueueDevice := by
  induction calls with
  | nil =>
    intro rtk
    rfl
  | cons call calls ih =>
    intro rtk
    rw [addEndpoints, List.foldl_cons, ← addEndpoints, ih, addEndpoint_queue]

/-! ## The chunks encode the registered endpoints -/

theorem epmap_msg_lastBit (eps : Fin rtkitMaxEndpoints → RTKitEndpoint) {base : ℕ}
    (hbase : base ≤ 1) :
    (mgmtMsg mgmtEpmap (epmapPayload eps base)).msg.getLsbD 51 = decide (base = lastBase eps) := by
  have htype : (mgmtEpmap <<< 52).getLsbD 51 = false := by decide
  have hmask : (0xffffffff : BitVec 64).getLsbD 51 = false := by decide
  have hbit : epmapLast.getLsbD 51 = true := by decide
  have hlow : (BitVec.ofNat 64 base <<< 32).getLsbD 51 = false := by
    obtain rfl | rfl : base = 0 ∨ base = 1 := by omega
    all_goals decide
  have hpayload : (epmapPayload eps base).getLsbD 51 = decide (base = lastBase eps) := by
    unfold epmapPayload
    simp only []
    split_ifs with h
    · rw [BitVec.getLsbD_or, hbit, Bool.or_true, decide_eq_true h]
    · rw [BitVec.getLsbD_or, BitVec.getLsbD_and, hmask, hlow, Bool.and_false, Bool.or_false,
        decide_eq_false h]
  rw [mgmtMsg, BitVec.getLsbD_or, htype, hpayload, Bool.false_or]

theorem chunkEndpoints_msg (eps : Fin rtkitMaxEndpoints → RTKitEndpoint) {base : ℕ}
    (hbase : base ≤ 1) (ep : ℕ) :
    ep ∈ chunkEndpoints (mgmtMsg mgmtEpmap (epmapPayload eps base)).msg ↔
      ep / 32 = base ∧ epPresent eps ep = true := by
  rw [chunkEndpoints, Set.mem_ofPred_eq, epmapBase_msg eps hbase]
  constructor
  · rintro ⟨bit, hbit, hset, rfl⟩
    rw [epmap_msg_bit eps base hbit, Nat.mul_comm] at hset
    exact ⟨by omega, hset⟩
  · rintro ⟨hdiv, hpresent⟩
    have hbit : ep % 32 < 32 := Nat.mod_lt _ (by decide)
    have hsplit : base * 32 + ep % 32 = ep := by omega
    refine ⟨ep % 32, hbit, ?_, by omega⟩
    rw [epmap_msg_bit eps base hbit, hsplit]
    exact hpresent

theorem range_last_flags (n : ℕ) :
    (List.range (n + 1)).map (fun k => decide (k = n)) = List.replicate n false ++ [true] := by
  have hfalse : (List.range n).map (fun k => decide (k = n)) = List.replicate n false := by
    rw [List.eq_replicate_iff]
    refine ⟨by simp, fun b hb => ?_⟩
    obtain ⟨k, hk, rfl⟩ := List.mem_map.mp hb
    exact decide_eq_false (List.mem_range.mp hk).ne
  rw [List.range_succ, List.map_append, hfalse]
  simp

theorem epmapMsgs_length (eps : Fin rtkitMaxEndpoints → RTKitEndpoint) :
    (epmapMsgs eps).length = lastBase eps + 1 := by
  rw [epmapMsgs, List.length_map, List.length_range]

theorem epmapMsgs_encode (eps : Fin rtkitMaxEndpoints → RTKitEndpoint) :
    EncodesEndpoints (epmapMsgs eps) {ep | epPresent eps ep = true} := by
  have hlast := lastBase_le eps
  have hmem : ∀ m ∈ epmapMsgs eps, ∃ base ≤ lastBase eps,
      m = mgmtMsg mgmtEpmap (epmapPayload eps base) := by
    intro m hm
    obtain ⟨base, hbase, rfl⟩ := List.mem_map.mp hm
    exact ⟨base, Nat.lt_succ_iff.mp (List.mem_range.mp hbase), rfl⟩
  constructor
  case payload =>
    intro m hm
    obtain ⟨base, hbase, rfl⟩ := hmem m hm
    exact ⟨_, epmapPayload_high eps (hbase.trans hlast), rfl⟩
  case type =>
    intro m hm
    obtain ⟨base, hbase, rfl⟩ := hmem m hm
    rw [mgmtType_mgmtMsg _ (epmapPayload_high eps (hbase.trans hlast))]
    decide
  case bases =>
    rw [epmapMsgs_length, epmapMsgs, List.map_map]
    conv_rhs => rw [← List.map_id (List.range _)]
    apply List.map_congr_left
    intro base hbase
    have hle := List.mem_range.mp hbase
    exact epmapBase_msg eps (by omega)
  case last =>
    rw [epmapMsgs_length, Nat.add_sub_cancel, ← range_last_flags, epmapMsgs, List.map_map]
    apply List.map_congr_left
    intro base hbase
    have hle := List.mem_range.mp hbase
    exact epmap_msg_lastBit eps (by omega)
  case endpoints =>
    ext ep
    rw [Set.mem_ofPred_eq, Set.mem_ofPred_eq]
    constructor
    · rintro ⟨m, hm, hep⟩
      obtain ⟨base, hbase, rfl⟩ := hmem m hm
      exact ((chunkEndpoints_msg eps (hbase.trans hlast) ep).mp hep).2
    · intro hep
      have hle := epPresent_lastBase eps hep
      refine ⟨_, List.mem_map.mpr ⟨ep / 32, List.mem_range.mpr (by omega), rfl⟩, ?_⟩
      exact (chunkEndpoints_msg eps (by omega) ep).mpr ⟨rfl, hep⟩

/-- With room for its chunks, `send_epmap` tells the guest exactly the registered endpoints. -/
theorem sendEpmap_encodes_registered (rtk : AppleRTKit) (calls : List (BitVec 32 × RTKitEpHandler))
    (hroom : rtk.count + (lastBase (addEndpoints rtk calls).eps + 1 : ℕ) ≤ 64) :
    ∃ chunks,
      (sendEpmap (addEndpoints rtk calls)).enqueued = rtk.enqueued ++ chunks ∧
      (sendEpmap (addEndpoints rtk calls)).dropped = rtk.dropped ∧
      EncodesEndpoints chunks {ep | epPresent rtk.eps ep = true ∨
        (ep < rtkitMaxEndpoints ∧ ∃ call ∈ calls, call.1.toNat = ep)} := by
  have hqueue : (addEndpoints rtk calls).toQueueDevice = rtk.toQueueDevice :=
    addEndpoints_queue calls rtk
  have hlength := epmapMsgs_length (addEndpoints rtk calls).eps
  have hfits : rtk.toQueueDevice.count + (epmapMsgs (addEndpoints rtk calls).eps).length ≤ 64 := by
    rw [hlength]
    exact hroom
  obtain ⟨henqueued, hdropped⟩ := QueueDevice.offers_of_room 64 hfits
  refine ⟨epmapMsgs (addEndpoints rtk calls).eps, ?_, ?_, ?_⟩
  · rw [sendEpmap_queue, hqueue, henqueued]
  · rw [sendEpmap_queue, hqueue, hdropped]
  · have hset : {ep | epPresent (addEndpoints rtk calls).eps ep = true} =
        {ep | epPresent rtk.eps ep = true ∨
          (ep < rtkitMaxEndpoints ∧ ∃ call ∈ calls, call.1.toNat = ep)} := by
      ext ep
      exact addEndpoints_present calls ep rtk
    rw [← hset]
    exact epmapMsgs_encode _

/-- A gap in the low chunk, both sides of the chunk boundary and an endpoint out of range. -/
theorem new_with_display_encodes :
    ∃ chunks,
      (sendEpmap (addEndpoints appleRtkitNew
        [(0x20, .dcpEpHandler), (31, .dcpEpHandler), (0x40, .dcpEpHandler)])).enqueued =
          appleRtkitNew.enqueued ++ chunks ∧
      (sendEpmap (addEndpoints appleRtkitNew
        [(0x20, .dcpEpHandler), (31, .dcpEpHandler), (0x40, .dcpEpHandler)])).dropped =
          appleRtkitNew.dropped ∧
      EncodesEndpoints chunks {ep | epPresent appleRtkitNew.eps ep = true ∨
        (ep < rtkitMaxEndpoints ∧ ∃ call ∈ [((0x20 : BitVec 32), RTKitEpHandler.dcpEpHandler),
          (31, .dcpEpHandler), (0x40, .dcpEpHandler)], call.1.toNat = ep)} :=
  sendEpmap_encodes_registered appleRtkitNew
    [(0x20, .dcpEpHandler), (31, .dcpEpHandler), (0x40, .dcpEpHandler)] (by decide)

end SecureWorld.Mailbox
