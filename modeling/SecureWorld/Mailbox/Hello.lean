import SecureWorld.Mailbox.FlowControl
import SecureWorld.Mailbox.Frame

/-! # HELLO first, and once

`hello_sent` is set before the HELLO is handed to a ring that may refuse it, and SEND1 answers
management and AFK traffic whether or not the coprocessor has booted. The handshake order therefore
rests on the guest: it holds in exactly the runs that submit nothing that draws a reply before boot.
-/
namespace SecureWorld.Mailbox
open Foundations
set_option autoImplicit false

def hello : RTKitMsg := mgmtMsg mgmtHello helloMsg

/-- Guest accesses, timer callbacks and registrations; sends come from inside them. -/
def FromOutside : RTKitOp → Prop
  | .send _ _ => False
  | .announce => True
  | .addEndpoint _ _ => True
  | .read _ => True
  | .write _ _ => True

/-- Nothing is enqueued before boot, the HELLO is first, and after boot it is there exactly once. -/
structure HelloContract (rtk : AppleRTKit) : Prop where
  quiet : rtk.running = false → rtk.enqueued = []
  first : ∀ m, rtk.enqueued.head? = some m → m = hello
  once : rtk.helloSent = true → rtk.enqueued.count hello = 1

/-- The messages the engine answers. -/
def DrawsReply (rtk : AppleRTKit) (msg : BitVec 64) (ep : BitVec 32) : Prop :=
  if ep = mgmtEp then
    mgmtType msg = mgmtHelloReply ∨ mgmtType msg = mgmtIopPwr ∨ mgmtType msg = mgmtApPwr
  else
    epHandler rtk ep = some .dcpEpHandler ∧
      (rbepType msg = rbepInit ∨ rbepType msg = rbepGetbufAck)

/-- Before boot a SEND1 write submits no message that draws a reply. -/
def WaitsForBoot (c : Coproc) (op : RTKitOp) : Prop :=
  ∀ val, op = .write ascA2iSend1 val → c.rtk.helloSent = false →
    ¬ DrawsReply c.rtk c.rtk.a2iMsg (sendEp val)

/-! ## Replies -/

theorem epmapMsgs_ne_nil (eps : Fin rtkitMaxEndpoints → RTKitEndpoint) : epmapMsgs eps ≠ [] := by
  intro h
  have hlen := congrArg List.length h
  simp [epmapMsgs] at hlen

theorem replies_eq_nil_iff (rtk : AppleRTKit) (msg : BitVec 64) (ep : BitVec 32) :
    replies rtk msg ep = [] ↔ ¬ DrawsReply rtk msg ep := by
  unfold replies DrawsReply
  by_cases hep : ep = mgmtEp
  · simp only [if_pos hep, mgmtReplies]
    split_ifs with h₁ h₂ h₃
    · simp [h₁, epmapMsgs_ne_nil]
    · simp [h₂]
    · simp [h₃]
    · simp [h₁, h₂, h₃]
  · simp only [if_neg hep]
    cases epHandler rtk ep with
    | none => simp
    | some handler =>
      cases handler with
      | handleLogEp => simp
      | dcpEpHandler =>
        simp only [dcpReplies]
        split_ifs with h₁ h₂
        · simp [h₁]
        · simp [h₂]
        · simp [h₁, h₂]

/-- A type bit that the HELLO lacks tells a management message from it. -/
theorem mgmtMsg_ne_hello {type : BitVec 64} (bit : ℕ) (payload : BitVec 64)
    (hbit : (type <<< 52).getLsbD bit = true)
    (hhello : ((mgmtHello <<< 52) ||| helloMsg).getLsbD bit = false) :
    hello ≠ mgmtMsg type payload := by
  intro h
  have hmsg : (mgmtHello <<< 52) ||| helloMsg = (type <<< 52) ||| payload :=
    congrArg RTKitMsg.msg h
  rw [hmsg, BitVec.getLsbD_or, hbit, Bool.true_or] at hhello
  exact Bool.false_ne_true hhello.symm

theorem dcp_ne_hello {ep : BitVec 32} (hep : ep ≠ mgmtEp) (msg : BitVec 64) :
    hello ≠ ⟨msg, ep⟩ := fun h => hep (congrArg RTKitMsg.ep h).symm

theorem hello_not_mem_replies (rtk : AppleRTKit) (msg : BitVec 64) (ep : BitVec 32) :
    hello ∉ replies rtk msg ep := by
  unfold replies
  by_cases hep : ep = mgmtEp
  · have hepmap : ∀ payload, hello ≠ mgmtMsg mgmtEpmap payload := fun payload =>
      mgmtMsg_ne_hello 55 payload (by decide) (by decide)
    have hack : ∀ payload, hello ≠ mgmtMsg mgmtIopPwrAck payload := fun payload =>
      mgmtMsg_ne_hello 53 payload (by decide) (by decide)
    have hap : ∀ payload, hello ≠ mgmtMsg mgmtApPwr payload := fun payload =>
      mgmtMsg_ne_hello 53 payload (by decide) (by decide)
    simp only [if_pos hep, mgmtReplies]
    split_ifs
    · simp only [epmapMsgs, List.mem_map, not_exists, not_and]
      intro base _ h
      exact hepmap _ h.symm
    · simpa using hack _
    · simpa using hap _
    · exact List.not_mem_nil
  · simp only [if_neg hep]
    cases epHandler rtk ep with
    | none => exact List.not_mem_nil
    | some handler =>
      cases handler with
      | handleLogEp => exact List.not_mem_nil
      | dcpEpHandler =>
        simp only [dcpReplies]
        split_ifs
        · simp [dcp_ne_hello hep]
        · simp [dcp_ne_hello hep]
        · exact List.not_mem_nil

/-! ## One step -/

/-- What an operation from outside does to the boot flags and the queue: boot the coprocessor,
answer a message, or take one from the ring. -/
inductive BootStep (c : Coproc) (op : RTKitOp) (c' : Coproc) : Prop where
  | boots (hwait : WaitsForBoot c op) (hbefore : c.rtk.helloSent = false)
      (hafter : c'.rtk.helloSent = true ∧ c'.rtk.running = true)
      (hqueue : c'.rtk.toQueueDevice = c.rtk.toQueueDevice.offers 64 [hello])
  | answers (xs : List RTKitMsg) (hxs : hello ∉ xs)
      (hwait : c.rtk.helloSent = false → (xs = [] ↔ WaitsForBoot c op))
      (hflags : c'.rtk.helloSent = c.rtk.helloSent ∧ c'.rtk.running = c.rtk.running)
      (hqueue : c'.rtk.toQueueDevice = c.rtk.toQueueDevice.offers 64 xs)
  | takes (hwait : WaitsForBoot c op)
      (hflags : c'.rtk.helloSent = c.rtk.helloSent ∧ c'.rtk.running = c.rtk.running)
      (hqueue : c'.rtk.toQueueDevice = c.rtk.toQueueDevice.take 64)

theorem flags_of_view {rtk rtk' : AppleRTKit} (h : rtk'.view = rtk.view) :
    rtk'.helloSent = rtk.helloSent ∧ rtk'.running = rtk.running :=
  ⟨congrArg EngineView.helloSent h, congrArg EngineView.running h⟩

theorem waitsForBoot_of_ne {c : Coproc} {op : RTKitOp}
    (h : ∀ val, op ≠ .write ascA2iSend1 val) : WaitsForBoot c op :=
  fun val hop => absurd hop (h val)

/-- An operation that leaves flags and queue alone. -/
theorem BootStep.idle {c c' : Coproc} {op : RTKitOp} (hwait : WaitsForBoot c op)
    (hflags : c'.rtk.helloSent = c.rtk.helloSent ∧ c'.rtk.running = c.rtk.running)
    (hqueue : c'.rtk.toQueueDevice = c.rtk.toQueueDevice) : BootStep c op c' :=
  .answers [] List.not_mem_nil (fun _ => ⟨fun _ => hwait, fun _ => rfl⟩) hflags hqueue

/-- The boot of a device that has not said HELLO, whatever its other registers hold. -/
theorem bootStep_boot {c : Coproc} {op : RTKitOp} {rtk : AppleRTKit}
    (hwait : WaitsForBoot c op) (hqueue : rtk.toQueueDevice = c.rtk.toQueueDevice)
    (hflags : rtk.helloSent = c.rtk.helloSent ∧ rtk.running = c.rtk.running) :
    BootStep c op { c with rtk := appleRtkitBoot rtk } := by
  by_cases hsent : rtk.helloSent = true
  · have hsame : appleRtkitBoot rtk = rtk := by rw [appleRtkitBoot, if_pos hsent]
    refine .idle hwait ?_ ?_
    · rw [hsame]
      exact hflags
    · rw [hsame]
      exact hqueue
  · have hview := boot_view rtk
    have hoffers := appleRtkitBoot_queue rtk
    rw [if_neg hsent] at hview hoffers
    rw [hqueue] at hoffers
    have hfalse : c.rtk.helloSent = false := by
      rw [← hflags.1]
      exact Bool.eq_false_iff.mpr hsent
    exact .boots hwait hfalse ⟨congrArg EngineView.helloSent hview, congrArg EngineView.running hview⟩
      hoffers

/-- A submission is answered. -/
theorem bootStep_send1 (c : Coproc) (val : BitVec 64) :
    BootStep c (.write ascA2iSend1 val) (c.exec (.write ascA2iSend1 val)) := by
  have hexec : c.exec (.write ascA2iSend1 val) =
      handleA2i c c.rtk.a2iMsg (val.setWidth 32) := by
    rw [Coproc.exec, rtkitWrite, if_neg (by decide), if_neg (by decide), if_pos rfl]
  rw [hexec]
  refine .answers _ (hello_not_mem_replies _ _ _) ?_ (flags_of_view (handleA2i_view _ _ _))
    (handleA2i_queue _ _ _)
  intro hsent
  rw [replies_eq_nil_iff]
  constructor
  · intro hdraws val' hop' _
    obtain ⟨-, rfl⟩ := RTKitOp.write.inj hop'
    exact hdraws
  · intro hwait
    exact hwait val rfl hsent

theorem exec_bootStep (c : Coproc) (op : RTKitOp) (hop : FromOutside op) :
    BootStep c op (c.exec op) := by
  cases op with
  | send ep msg => exact hop.elim
  | announce => exact bootStep_boot (waitsForBoot_of_ne (by simp)) rfl ⟨rfl, rfl⟩
  | addEndpoint ep handler =>
    have hflags := addEndpoint_flags c.rtk ep handler
    exact .idle (waitsForBoot_of_ne (by simp)) ⟨hflags.2, hflags.1⟩ (addEndpoint_queue _ _ _)
  | read off =>
    have hwait : WaitsForBoot c (.read off) := waitsForBoot_of_ne (by simp)
    have hflags := flags_of_view (rtkitRead_view c.rtk off)
    have hqueue := rtkitRead_queue c.rtk off
    by_cases hrecv : off = ascI2aRecv1
    · rw [if_pos hrecv] at hqueue
      exact .takes hwait hflags hqueue
    · rw [if_neg hrecv] at hqueue
      exact .idle hwait hflags hqueue
  | write off val =>
    by_cases hsend1 : off = ascA2iSend1
    · subst hsend1
      exact bootStep_send1 c val
    · have hwait : WaitsForBoot c (.write off val) :=
        waitsForBoot_of_ne fun val' h => hsend1 (RTKitOp.write.inj h).1
      simp only [Coproc.exec, rtkitWrite]
      split_ifs
      · exact bootStep_boot hwait rfl ⟨rfl, rfl⟩
      · exact .idle hwait ⟨rfl, rfl⟩ rfl
      · exact .idle hwait ⟨rfl, rfl⟩ rfl
      · exact .idle hwait ⟨rfl, rfl⟩ rfl

/-! ## Every run -/

/-- The invariant of the runs that wait for boot. -/
structure Announced (rtk : AppleRTKit) : Prop where
  ok : rtk.toQueueDevice.Ok 64
  flags : rtk.running = rtk.helloSent
  silent : rtk.helloSent = false → rtk.enqueued = []
  greeted : rtk.helloSent = true → ∃ rest, rtk.enqueued = hello :: rest ∧ hello ∉ rest

theorem announced_fresh : Announced Coproc.fresh.rtk where
  ok := fresh_ok
  flags := rfl
  silent := fun _ => rfl
  greeted := fun h => absurd h (by decide)

theorem Announced.contract {rtk : AppleRTKit} (h : Announced rtk) : HelloContract rtk where
  quiet := fun hrun => h.silent (h.flags ▸ hrun)
  first := by
    intro m hm
    cases hsent : rtk.helloSent with
    | false =>
      rw [h.silent hsent] at hm
      simp at hm
    | true =>
      obtain ⟨rest, hrest, -⟩ := h.greeted hsent
      rw [hrest] at hm
      exact (Option.some.inj hm).symm
  once := by
    intro hsent
    obtain ⟨rest, hrest, hno⟩ := h.greeted hsent
    rw [hrest, List.count_cons_self, List.count_eq_zero_of_not_mem hno]

theorem Announced.step {c c' : Coproc} {op : RTKitOp} (h : Announced c.rtk)
    (hwaits : WaitsForBoot c op) (hstep : BootStep c op c') : Announced c'.rtk := by
  cases hstep with
  | boots _ hbefore hafter hqueue =>
    -- nothing was accepted before, so there is room for the HELLO
    have hnone := h.silent hbefore
    have hcount : c.rtk.count = 0 := h.ok.count_eq_zero 64 hnone
    obtain ⟨henq, -⟩ := QueueDevice.offers_split 64 h.ok [hello]
    rw [hnone, hcount] at henq
    refine ⟨hqueue ▸ h.ok.offers 64 _, hafter.2.trans hafter.1.symm, ?_, ?_⟩
    · intro hfalse
      rw [hafter.1] at hfalse
      exact absurd hfalse (by decide)
    · intro _
      refine ⟨[], ?_, List.not_mem_nil⟩
      rw [hqueue]
      exact henq
  | answers xs hxs hwait hflags hqueue =>
    obtain ⟨henq, -⟩ := QueueDevice.offers_split 64 h.ok xs
    rw [← hqueue] at henq
    refine ⟨hqueue ▸ h.ok.offers 64 xs, by rw [hflags.1, hflags.2, h.flags], ?_, ?_⟩
    · intro hfalse
      rw [hflags.1] at hfalse
      rw [henq, h.silent hfalse, (hwait hfalse).mpr hwaits]
      simp
    · intro htrue
      rw [hflags.1] at htrue
      obtain ⟨rest, hrest, hno⟩ := h.greeted htrue
      refine ⟨rest ++ xs.take (64 - c.rtk.count).toNat, ?_, ?_⟩
      · rw [henq, hrest, List.cons_append]
      · rw [List.mem_append, not_or]
        exact ⟨hno, fun hmem => hxs (List.mem_of_mem_take hmem)⟩
  | takes hwait hflags hqueue =>
    have henq : c'.rtk.enqueued = c.rtk.enqueued := by rw [hqueue, QueueDevice.take_enqueued]
    refine ⟨hqueue ▸ h.ok.take 64, by rw [hflags.1, hflags.2, h.flags], ?_, ?_⟩
    · rw [hflags.1, henq]
      exact h.silent
    · rw [hflags.1, henq]
      exact h.greeted

/-- A reply drawn before boot is enqueued before the HELLO. -/
theorem HelloContract.waits {c c' : Coproc} {op : RTKitOp} (h : Announced c.rtk)
    (hstep : BootStep c op c') (hafter : HelloContract c'.rtk) : WaitsForBoot c op := by
  cases hstep with
  | boots hwait _ _ _ => exact hwait
  | takes hwait _ _ => exact hwait
  | answers xs hxs hwait hflags hqueue =>
    intro val hop hsent
    have hnone := h.silent hsent
    have hrun : c'.rtk.running = false := by rw [hflags.2, h.flags, hsent]
    have hquiet := hafter.quiet hrun
    obtain ⟨henq, -⟩ := QueueDevice.offers_split 64 h.ok xs
    rw [← hqueue, hquiet, hnone, h.ok.count_eq_zero 64 hnone, List.nil_append] at henq
    have hxs' : xs = [] := by
      cases xs with
      | nil => rfl
      | cons x xs => simp at henq
    exact (hwait hsent).mp hxs' val hop hsent

/-- Over every run from the fresh device, the HELLO comes first and once in every state exactly when
no step submits a message that draws a reply before boot. -/
theorem hello_first_and_once_iff (ops : List RTKitOp) (hops : ∀ op ∈ ops, FromOutside op) :
    Always Coproc.exec (fun c => HelloContract c.rtk) Coproc.fresh ops ↔
      EveryStep Coproc.exec WaitsForBoot Coproc.fresh ops :=
  always_iff_everyStep Coproc.exec _ (fun c => Announced c.rtk) FromOutside WaitsForBoot
    (fun _ h => h.contract) (fun c op hop h hw => h.step hw (exec_bootStep c op hop))
    (fun c op hop h hafter => hafter.waits h (exec_bootStep c op hop)) ops _ hops announced_fresh

/-- Boot, then a power request. -/
theorem boot_then_power_request :
    Always Coproc.exec (fun c => HelloContract c.rtk) Coproc.fresh
        (.write ascCpuControl ascCpuControlRun :: submission iopPwrMsg 0) ↔
      EveryStep Coproc.exec WaitsForBoot Coproc.fresh
        (.write ascCpuControl ascCpuControlRun :: submission iopPwrMsg 0) :=
  hello_first_and_once_iff _ (by simp [submission, FromOutside])

/-! ## The HELLO that is lost -/

theorem submit_flags (c : Coproc) (m e : BitVec 64) :
    (submit c m e).rtk.helloSent = c.rtk.helloSent ∧
      (submit c m e).rtk.running = c.rtk.running := by
  have hsend0 : rtkitWrite c ascA2iSend0 m = { c with rtk := { c.rtk with a2iMsg := m } } := by
    rw [rtkitWrite, if_neg (by decide), if_pos rfl]
  have hsubmit : submit c m e =
      handleA2i { c with rtk := { c.rtk with a2iMsg := m } } m (e.setWidth 32) := by
    show rtkitWrite (rtkitWrite c ascA2iSend0 m) ascA2iSend1 e = _
    rw [hsend0, rtkitWrite, if_neg (by decide), if_neg (by decide), if_pos rfl]
  have hview := handleA2i_view { c with rtk := { c.rtk with a2iMsg := m } } m (e.setWidth 32)
  rw [hsubmit]
  exact ⟨congrArg EngineView.helloSent hview, congrArg EngineView.running hview⟩

theorem undrained_flags (n : ℕ) :
    (undrained n).rtk.helloSent = false ∧ (undrained n).rtk.running = false := by
  induction n with
  | zero => exact ⟨rfl, rfl⟩
  | succ n ih =>
    have hflags := submit_flags (undrained n) iopPwrMsg 0
    rw [undrained_succ, hflags.1, hflags.2]
    exact ih

theorem hello_not_mem_undrained (n : ℕ) : hello ∉ (undrained n).rtk.enqueued := by
  induction n with
  | zero => exact List.not_mem_nil
  | succ n ih =>
    obtain ⟨henq, -⟩ := QueueDevice.offers_split 64 (undrained_reachable n).ok
      (replies (undrained n).rtk iopPwrMsg (sendEp 0))
    rw [undrained_succ, submit_queue, henq, List.mem_append, not_or]
    exact ⟨ih, fun hmem => hello_not_mem_replies _ _ _ (List.mem_of_mem_take hmem)⟩

theorem run_after_undrained (n : ℕ) (op : RTKitOp) :
    Foundations.run Coproc.exec Coproc.fresh
        ((List.replicate n (submission iopPwrMsg 0)).flatten ++ [op]) = (undrained n).exec op := by
  rw [run_append, undrained, Coproc.run, run_cons, run_nil]

theorem submissions_fromOutside (n : ℕ) :
    ∀ op ∈ (List.replicate n (submission iopPwrMsg 0)).flatten, FromOutside op := by
  intro op hop
  obtain ⟨ops, hops, hop⟩ := List.mem_flatten.mp hop
  obtain ⟨-, rfl⟩ := List.mem_replicate.mp hops
  rcases List.mem_pair.mp hop with rfl | rfl <;> exact trivial

/-- RUN on a full ring sets `hello_sent` and enqueues nothing. -/
theorem run_on_full_ring {c : Coproc} (hok : c.rtk.toQueueDevice.Ok 64) (hfull : c.rtk.count = 64)
    (hrun : c.rtk.running = false) (hsent : c.rtk.helloSent = false) :
    (c.exec (.write ascCpuControl ascCpuControlRun)).rtk.helloSent = true ∧
      (c.exec (.write ascCpuControl ascCpuControlRun)).rtk.enqueued = c.rtk.enqueued := by
  constructor
  · have hview := boot_view { c.rtk with cpuControl := ascCpuControlRun.setWidth 32 }
    rw [if_neg (by rw [hsent]; exact Bool.false_ne_true)] at hview
    rw [Coproc.exec, rtkitWrite, if_pos rfl]
    simp only []
    rw [if_pos ⟨by decide, hrun⟩]
    exact congrArg EngineView.helloSent hview
  · obtain ⟨henq, -⟩ := QueueDevice.offers_split 64 hok
      (writeReplies c.rtk ascCpuControl ascCpuControlRun)
    rw [hfull, ← rtkitWrite_queue] at henq
    exact henq.trans (by simp)

/-- RUN after 64 undrained power acks: `hello_sent` is set and no HELLO is ever enqueued. -/
theorem hello_lost_on_full_ring :
    ¬ ∀ ops, (∀ op ∈ ops, FromOutside op) →
      Always Coproc.exec (fun c => HelloContract c.rtk) Coproc.fresh ops := by
  intro h
  have houtside : ∀ op ∈ (List.replicate 64 (submission iopPwrMsg 0)).flatten ++
      [.write ascCpuControl ascCpuControlRun], FromOutside op := by
    intro op hop
    rcases List.mem_append.mp hop with hop | hop
    · exact submissions_fromOutside 64 op hop
    · rw [List.mem_singleton.mp hop]
      exact trivial
  have hcontract := (h _ houtside).last
  rw [run_after_undrained] at hcontract
  obtain ⟨hsent, henq⟩ := run_on_full_ring (undrained_reachable 64).ok
    (undrained_count (le_refl 64)) (undrained_flags 64).2 (undrained_flags 64).1
  have honce := hcontract.once hsent
  have hzero := List.count_eq_zero_of_not_mem (hello_not_mem_undrained 64)
  rw [← henq] at hzero
  exact absurd (honce.symm.trans hzero) (by decide)

end SecureWorld.Mailbox
