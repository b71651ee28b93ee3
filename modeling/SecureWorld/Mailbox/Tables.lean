import SecureWorld.Mailbox.GuestAccess

/-! # The tables behind the endpoints

What the engine remembers of the guest's messages: which endpoints it started and which shared
buffers it handed over. Both follow from the messages received, whatever else happened.
-/
namespace SecureWorld.Mailbox
open Foundations
set_option autoImplicit false

/-! ## What the messages ask for -/

def noBuffer : SharedBuffer := ⟨0, 0, false⟩

/-- A buffer as `handle_log_ep` records it. -/
def bufferOf (msg : BitVec 64) : SharedBuffer :=
  { iova := msg &&& 0xfffffffffff, size := ((msg >>> 44) &&& 0xff).setWidth 32, valid := true }

/-- The buffer that a message to a log endpoint brings. -/
def bufferBrought (rtk : AppleRTKit) (m : BitVec 64 × BitVec 32) : Option SharedBuffer :=
  let ep := m.2 &&& 0xff
  if ep ≠ mgmtEp ∧ epHandler rtk ep = some .handleLogEp ∧ mgmtType m.1 = bufferRequest then
    some (bufferOf m.1)
  else none

/-- The endpoint that a message asks to start. -/
def endpointStarted (m : BitVec 64 × BitVec 32) : Option ℕ :=
  if m.2 &&& 0xff = mgmtEp ∧ mgmtType m.1 = mgmtStartep then
    some ((m.1 >>> 32) &&& 0xff).toNat
  else none

/-- The tables are what the received messages made of those of `rtk₀`. -/
structure TablesAgree (rtk₀ rtk : AppleRTKit) : Prop where
  present : ∀ i, (rtk.eps i).present = (rtk₀.eps i).present
  handler : ∀ i, (rtk.eps i).handler = (rtk₀.eps i).handler
  started : ∀ i, (rtk.eps i).started =
    ((rtk₀.eps i).present && decide (i.val ∈ rtk.received.filterMap endpointStarted))
  bufs : ∀ i : Fin 8, rtk.bufs i =
    ((rtk.received.filterMap (bufferBrought rtk₀))[i.val]?).getD noBuffer

/-! ## Functions that leave the tables alone -/

/-- Endpoints, buffers and the record of messages. -/
def SameTables (rtk rtk' : AppleRTKit) : Prop :=
  rtk'.eps = rtk.eps ∧ rtk'.bufs = rtk.bufs ∧ rtk'.received = rtk.received

theorem SameTables.trans {a b c : AppleRTKit} (hab : SameTables a b) (hbc : SameTables b c) :
    SameTables a c :=
  ⟨hbc.1.trans hab.1, hbc.2.1.trans hab.2.1, hbc.2.2.trans hab.2.2⟩

theorem TablesAgree.same {rtk₀ rtk rtk' : AppleRTKit} (h : TablesAgree rtk₀ rtk)
    (hsame : SameTables rtk rtk') : TablesAgree rtk₀ rtk' := by
  obtain ⟨heps, hbufs, hreceived⟩ := hsame
  exact
    { present := fun i => heps ▸ h.present i
      handler := fun i => heps ▸ h.handler i
      started := fun i => by rw [heps, hreceived]; exact h.started i
      bufs := fun i => by rw [hbufs, hreceived]; exact h.bufs i }

theorem send_tables (rtk : AppleRTKit) (ep : BitVec 32) (msg : BitVec 64) :
    SameTables rtk (appleRtkitSend rtk ep msg) := by
  unfold appleRtkitSend
  split_ifs <;> exact ⟨rfl, rfl, rfl⟩

theorem sendEpmap_tables (rtk : AppleRTKit) : SameTables rtk (sendEpmap rtk) := by
  have hfold : ∀ (bases : List ℕ) (r : AppleRTKit), SameTables r
      (bases.foldl (fun r' base => mgmtSend r' mgmtEpmap (epmapPayload rtk.eps base)) r) := by
    intro bases
    induction bases with
    | nil => intro r; exact ⟨rfl, rfl, rfl⟩
    | cons base bases ih => intro r; exact (send_tables r _ _).trans (ih _)
  exact hfold _ _

theorem boot_tables (rtk : AppleRTKit) : SameTables rtk (appleRtkitBoot rtk) := by
  unfold appleRtkitBoot
  split_ifs
  · exact ⟨rfl, rfl, rfl⟩
  · exact SameTables.trans ⟨rfl, rfl, rfl⟩ (send_tables _ _ _)

theorem rtkitRead_tables (rtk : AppleRTKit) (off : BitVec 64) :
    SameTables rtk (rtkitRead rtk off).2 := by
  unfold rtkitRead
  split_ifs <;> exact ⟨rfl, rfl, rfl⟩

theorem dcpEpHandler_tables (c : Coproc) (ep : BitVec 32) (msg : BitVec 64) :
    SameTables c.rtk (dcpEpHandler c ep msg).1.rtk := by
  unfold dcpEpHandler
  dsimp only
  split_ifs
  · exact (send_tables _ _ _).trans (send_tables _ _ _)
  · exact ((send_tables _ _ _).trans (send_tables _ _ _)).trans (send_tables _ _ _)
  all_goals exact ⟨rfl, rfl, rfl⟩

/-! ## One message -/

theorem TablesAgree.epHandler_eq {rtk₀ rtk : AppleRTKit} (h : TablesAgree rtk₀ rtk)
    (ep : BitVec 32) : epHandler rtk ep = epHandler rtk₀ ep := by
  unfold epHandler
  split_ifs with hep
  · exact h.handler ⟨ep.toNat, hep⟩
  · rfl

/-- A message that asks for neither leaves the tables as they are. -/
theorem TablesAgree.record {rtk₀ rtk : AppleRTKit} (h : TablesAgree rtk₀ rtk)
    {m : BitVec 64 × BitVec 32} (hstart : endpointStarted m = none)
    (hbuf : bufferBrought rtk₀ m = none) :
    TablesAgree rtk₀ { rtk with received := rtk.received ++ [m] } where
  present := h.present
  handler := h.handler
  started i := by
    rw [h.started i, List.filterMap_append, List.filterMap_cons_none hstart]
    simp
  bufs i := by
    rw [h.bufs i, List.filterMap_append, List.filterMap_cons_none hbuf]
    simp

/-- A request to start an endpoint is granted to those present. -/
theorem TablesAgree.start {rtk₀ rtk : AppleRTKit} (h : TablesAgree rtk₀ rtk)
    {msg : BitVec 64} {epWord : BitVec 32} (hep : epWord &&& 0xff = mgmtEp)
    (htype : mgmtType msg = mgmtStartep) :
    TablesAgree rtk₀ (handleMgmt { rtk with received := rtk.received ++ [(msg, epWord)] } msg) := by
  have hstart : endpointStarted (msg, epWord) = some ((msg >>> 32) &&& 0xff).toNat :=
    if_pos ⟨hep, htype⟩
  have hbuf : bufferBrought rtk₀ (msg, epWord) = none := if_neg fun hb => hb.1 hep
  unfold handleMgmt
  dsimp only
  rw [if_neg (by rw [htype]; decide), if_neg (by rw [htype]; decide), if_pos htype]
  generalize ((msg >>> 32) &&& 0xff).toNat = n at hstart
  have hasked (i : Fin rtkitMaxEndpoints) :
      i.val ∈ (rtk.received ++ [(msg, epWord)]).filterMap endpointStarted ↔
        i.val ∈ rtk.received.filterMap endpointStarted ∨ i.val = n := by
    rw [List.filterMap_append, List.filterMap_cons_some hstart]
    simp
  have hbufs (i : Fin 8) : rtk.bufs i = (((rtk.received ++ [(msg, epWord)]).filterMap
      (bufferBrought rtk₀))[i.val]?).getD noBuffer := by
    rw [h.bufs i, List.filterMap_append, List.filterMap_cons_none hbuf]
    simp
  -- where the request is refused, nobody is at that place
  have hrefused (hno : ∀ i : Fin rtkitMaxEndpoints, i.val = n → (rtk.eps i).present = false) :
      TablesAgree rtk₀ { rtk with received := rtk.received ++ [(msg, epWord)] } :=
    { present := h.present
      handler := h.handler
      started := fun i => by
        rw [h.started i]
        by_cases hi : i.val = n
        · rw [← h.present i, hno i hi, Bool.false_and, Bool.false_and]
        · simp only [hasked, hi, or_false]
      bufs := hbufs }
  split_ifs with hlt hpresent
  · exact
      { present := fun i => by
          dsimp only
          by_cases hi : i = ⟨n, hlt⟩
          · rw [hi, Function.update_self]
            exact h.present _
          · rw [Function.update_of_ne hi]
            exact h.present i
        handler := fun i => by
          dsimp only
          by_cases hi : i = ⟨n, hlt⟩
          · rw [hi, Function.update_self]
            exact h.handler _
          · rw [Function.update_of_ne hi]
            exact h.handler i
        started := fun i => by
          dsimp only
          by_cases hi : i = ⟨n, hlt⟩
          · rw [hi, Function.update_self, ← h.present, hpresent, Bool.true_and]
            exact (decide_eq_true ((hasked _).mpr (.inr rfl))).symm
          · have hne : i.val ≠ n := fun hval => hi (Fin.ext hval)
            rw [Function.update_of_ne hi, h.started i]
            simp only [hasked, hne, or_false]
        bufs := hbufs }
  · refine hrefused fun i hi => ?_
    obtain rfl : i = ⟨n, hlt⟩ := Fin.ext hi
    exact Bool.eq_false_iff.mpr hpresent
  · exact hrefused fun i hi => absurd (hi ▸ i.isLt) hlt

/-- The first free slot is the one behind the slots taken. -/
theorem find_free {n : ℕ} {valid : Fin 8 → Bool} (hvalid : ∀ i, valid i = decide (i.val < n)) :
    (List.finRange 8).find? (fun i => !valid i) = if h : n < 8 then some ⟨n, h⟩ else none := by
  have hslots : ∀ k < 8, ∀ h : k < 8,
      (List.finRange 8).find? (fun i => !decide (i.val < k)) = some ⟨k, h⟩ := by decide
  simp only [hvalid]
  split_ifs with h
  · exact hslots n h h
  · refine List.find?_eq_none.mpr fun i _ => ?_
    simp only [Bool.not_eq_true', decide_eq_false_iff_not, not_not]
    omega

theorem bufferBrought_valid {rtk : AppleRTKit} {ms : List (BitVec 64 × BitVec 32)}
    {b : SharedBuffer} (hb : b ∈ ms.filterMap (bufferBrought rtk)) : b.valid = true := by
  obtain ⟨m, -, hm⟩ := List.mem_filterMap.mp hb
  rw [bufferBrought] at hm
  split_ifs at hm
  obtain rfl := Option.some.inj hm
  rfl

/-- A buffer goes to the next slot while there is one. -/
theorem TablesAgree.bring {rtk₀ rtk : AppleRTKit} (h : TablesAgree rtk₀ rtk)
    {msg : BitVec 64} {epWord : BitVec 32} (hep : epWord &&& 0xff ≠ mgmtEp)
    (hhandler : epHandler rtk₀ (epWord &&& 0xff) = some .handleLogEp)
    (htype : mgmtType msg = bufferRequest) :
    TablesAgree rtk₀
      (handleLogEp { rtk with received := rtk.received ++ [(msg, epWord)] } msg).1 := by
  have hstart : endpointStarted (msg, epWord) = none := if_neg fun hs => hep hs.1
  have hbrought : bufferBrought rtk₀ (msg, epWord) = some (bufferOf msg) :=
    if_pos ⟨hep, hhandler, htype⟩
  set taken := rtk.received.filterMap (bufferBrought rtk₀)
  have hbufs (i : Fin 8) : rtk.bufs i = (taken[i.val]?).getD noBuffer := h.bufs i
  have hall : (rtk.received ++ [(msg, epWord)]).filterMap (bufferBrought rtk₀) =
      taken ++ [bufferOf msg] := by
    rw [List.filterMap_append, List.filterMap_cons_some hbrought]
    rfl
  have hstarted (i : Fin rtkitMaxEndpoints) : (rtk.eps i).started = ((rtk₀.eps i).present &&
      decide (i.val ∈ (rtk.received ++ [(msg, epWord)]).filterMap endpointStarted)) := by
    rw [h.started i, List.filterMap_append, List.filterMap_cons_none hstart]
    simp
  have hvalid (i : Fin 8) : (rtk.bufs i).valid = decide (i.val < taken.length) := by
    rw [hbufs i]
    by_cases hi : i.val < taken.length
    · rw [List.getElem?_eq_getElem hi, Option.getD_some, decide_eq_true hi]
      exact bufferBrought_valid (List.getElem_mem hi)
    · rw [List.getElem?_eq_none (by omega), decide_eq_false hi]
      rfl
  rw [handleLogEp, if_pos htype, find_free hvalid]
  split_ifs with hroom
  · exact
      { present := h.present
        handler := h.handler
        started := hstarted
        bufs := fun i => by
          show Function.update rtk.bufs ⟨taken.length, hroom⟩ (bufferOf msg) i = _
          rw [hall]
          by_cases hi : i = ⟨taken.length, hroom⟩
          · rw [hi, Function.update_self, List.getElem?_concat_length, Option.getD_some]
          · have hne : i.val ≠ taken.length := fun hval => hi (Fin.ext hval)
            rw [Function.update_of_ne hi, hbufs i]
            by_cases hlt : i.val < taken.length
            · rw [List.getElem?_append_left hlt]
            · rw [List.getElem?_eq_none (by omega), List.getElem?_eq_none (by simp; omega)] }
  · exact
      { present := h.present
        handler := h.handler
        started := hstarted
        bufs := fun i => by
          have hi : i.val < taken.length := by omega
          show rtk.bufs i = _
          rw [hall, hbufs i, List.getElem?_append_left hi] }

theorem TablesAgree.deliver {rtk₀ : AppleRTKit} {c : Coproc} (h : TablesAgree rtk₀ c.rtk)
    (msg : BitVec 64) (epWord : BitVec 32) : TablesAgree rtk₀ (handleA2i c msg epWord).rtk := by
  unfold handleA2i
  dsimp only
  by_cases hep : epWord &&& 0xff = mgmtEp
  · rw [if_pos hep]
    by_cases htype : mgmtType msg = mgmtStartep
    · exact h.start hep htype
    · have hrecord := h.record (m := (msg, epWord)) (if_neg fun hs => htype hs.2)
        (if_neg fun hb => hb.1 hep)
      refine hrecord.same ?_
      unfold handleMgmt
      dsimp only
      rw [if_neg htype]
      split_ifs
      · exact SameTables.trans ⟨rfl, rfl, rfl⟩ (sendEpmap_tables _)
      · exact ⟨rfl, rfl, rfl⟩
      · exact send_tables _ _ _
      · exact send_tables _ _ _
      · exact ⟨rfl, rfl, rfl⟩
  · have hstart : endpointStarted (msg, epWord) = none := if_neg fun hs => hep hs.1
    have hhandler : epHandler { c.rtk with received := c.rtk.received ++ [(msg, epWord)] }
        (epWord &&& 0xff) = epHandler rtk₀ (epWord &&& 0xff) := h.epHandler_eq _
    rw [if_neg hep, hhandler]
    cases hwho : epHandler rtk₀ (epWord &&& 0xff) with
    | none => exact h.record hstart (if_neg fun hb => by rw [hwho] at hb; cases hb.2.1)
    | some handler =>
      cases handler with
      | handleLogEp =>
        by_cases htype : mgmtType msg = bufferRequest
        · exact h.bring hep hwho htype
        · have hrecord := h.record (m := (msg, epWord)) hstart (if_neg fun hb => htype hb.2.2)
          refine hrecord.same ?_
          show SameTables _ (handleLogEp _ msg).1
          rw [handleLogEp, if_neg htype]
          exact ⟨rfl, rfl, rfl⟩
      | dcpEpHandler =>
        have hrecord := h.record (m := (msg, epWord)) hstart
          (if_neg fun hb => by rw [hwho] at hb; cases hb.2.1)
        exact hrecord.same (dcpEpHandler_tables _ _ _)

/-! ## Runs -/

/-- An endpoint registration. -/
def RTKitOp.Registers : RTKitOp → Prop
  | .addEndpoint _ _ => True
  | _ => False

theorem TablesAgree.exec {rtk₀ : AppleRTKit} {c : Coproc} (h : TablesAgree rtk₀ c.rtk)
    {op : RTKitOp} (hop : ¬op.Registers) : TablesAgree rtk₀ (c.exec op).rtk := by
  cases op with
  | send ep msg => exact h.same (send_tables _ _ _)
  | announce => exact h.same (boot_tables _)
  | addEndpoint ep handler => exact absurd trivial hop
  | read off => exact h.same (rtkitRead_tables _ _)
  | write off val =>
    show TablesAgree rtk₀ (rtkitWrite c off val).rtk
    unfold rtkitWrite
    dsimp only
    split_ifs
    · exact h.same (SameTables.trans ⟨rfl, rfl, rfl⟩ (boot_tables _))
    · exact h.same ⟨rfl, rfl, rfl⟩
    · exact h.same ⟨rfl, rfl, rfl⟩
    · exact h.deliver _ _
    · exact h

/-- Before any message: no endpoint started, no buffer. -/
structure TablesEmpty (rtk : AppleRTKit) : Prop where
  started : ∀ i, (rtk.eps i).started = false
  bufs : ∀ i, rtk.bufs i = noBuffer
  received : rtk.received = []

theorem TablesEmpty.addEndpoint {rtk : AppleRTKit} (h : TablesEmpty rtk) (ep : BitVec 32)
    (handler : RTKitEpHandler) : TablesEmpty (appleRtkitAddEndpoint rtk ep handler) := by
  unfold appleRtkitAddEndpoint
  split_ifs with hep
  · refine ⟨fun i => ?_, h.bufs, h.received⟩
    dsimp only
    by_cases hi : i = ⟨ep.toNat, hep⟩
    · rw [hi, Function.update_self]
      exact h.started _
    · rw [Function.update_of_ne hi]
      exact h.started i
  · exact h

theorem new_tablesEmpty : TablesEmpty appleRtkitNew := by
  have hzero : TablesEmpty zeroRTKit := ⟨fun _ => rfl, fun _ => rfl, rfl⟩
  exact ((((hzero.addEndpoint _ _).addEndpoint _ _).addEndpoint _ _).addEndpoint _ _).addEndpoint _ _

/-- Once the endpoints are registered, any run of messages, timers and register accesses leaves
started exactly the endpoints present whose start was asked for, and holds the first eight buffers
brought, in the order in which they came. -/
theorem endpoint_tables (adds ops : List RTKitOp) (hadds : ∀ op ∈ adds, op.Registers)
    (hops : ∀ op ∈ ops, ¬op.Registers) :
    TablesAgree (Coproc.fresh.run adds).rtk (Coproc.fresh.run (adds ++ ops)).rtk := by
  have hempty : TablesEmpty (Coproc.fresh.run adds).rtk := by
    refine run_preserves Coproc.exec (fun c => TablesEmpty c.rtk) RTKitOp.Registers ?_ adds
      Coproc.fresh hadds new_tablesEmpty
    intro c op hop hc
    cases op with
    | addEndpoint ep handler => exact hc.addEndpoint ep handler
    | send | announce | read | write => exact absurd hop not_false
  have hstart : TablesAgree (Coproc.fresh.run adds).rtk (Coproc.fresh.run adds).rtk :=
    { present := fun _ => rfl
      handler := fun _ => rfl
      started := fun i => by rw [hempty.started i, hempty.received]; simp
      bufs := fun i => by rw [hempty.bufs i, hempty.received]; rfl }
  have hsplit : Coproc.fresh.run (adds ++ ops) = (Coproc.fresh.run adds).run ops :=
    run_append Coproc.exec _ adds ops
  rw [hsplit]
  exact run_preserves Coproc.exec (fun c => TablesAgree (Coproc.fresh.run adds).rtk c.rtk)
    (fun op => ¬op.Registers) (fun c op hop hc => hc.exec hop) ops _ hops hstart

/-- The DCP endpoints, and a guest that starts 0x24 and brings the syslog buffer. -/
def dcpAdds : List RTKitOp :=
  [.addEndpoint dcpEpEpic .dcpEpHandler, .addEndpoint dcpEpMain .dcpEpHandler,
    .addEndpoint dcpEpAlt .dcpEpHandler]

def dcpStarts : List RTKitOp :=
  [.announce, .write ascA2iSend0 0x0050002400000000, .write ascA2iSend1 0,
    .write ascA2iSend0 0x0010100012345000, .write ascA2iSend1 2]

theorem endpoint_tables_dcp :
    ((Coproc.fresh.run (dcpAdds ++ dcpStarts)).rtk.eps ⟨0x24, by decide⟩).started = true ∧
      (Coproc.fresh.run (dcpAdds ++ dcpStarts)).rtk.bufs 0 = ⟨0x12345000, 1, true⟩ := by
  have h := endpoint_tables dcpAdds dcpStarts
    (by simp [dcpAdds, RTKitOp.Registers]) (by simp [dcpStarts, RTKitOp.Registers])
  exact ⟨(h.started ⟨0x24, by decide⟩).trans (by decide +kernel), (h.bufs 0).trans (by decide +kernel)⟩

end SecureWorld.Mailbox
