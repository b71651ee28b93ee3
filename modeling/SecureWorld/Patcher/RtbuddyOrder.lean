import SecureWorld.Foundations.GuardedCall
import SecureWorld.Foundations.Reordering
import SecureWorld.Patcher.RtbuddyImages

/-! # The RTBuddy scripts in any order

No script checks what another writes, so they can run in any order. None accepts what it wrote
itself: applied twice, a script ends before it writes again.
-/
namespace SecureWorld.Patcher
open Foundations GuardedCall
set_option autoImplicit false

/-! ## Plans -/

/-- The assembler encodes what the scripts assemble, and disassembly takes a whole word. -/
structure Tools.A64 (tools : Tools) : Prop where
  nop : tools.asm "nop" 0 = leBytes 4 0xD503201F
  skip : tools.asm ("b 0x" ++ hexText exitVa) Place.gate.va =
    leBytes 4 (bWord (.ofNat 64 Place.gate.va) (.ofNat 64 exitVa)).toNat
  timeout : tools.asm "mov x1, #0" Place.tmo.va = leBytes 4 0xD2800001
  test : tools.asm ("cbz x0, 0x" ++ hexText retVa) Place.tramp.va =
    leBytes 4 (cbzWord 0 (.ofNat 64 Place.tramp.va) (.ofNat 64 retVa)).toNat
  jump : tools.asm ("b 0x" ++ hexText realFn) (Place.tramp.va + 4) =
    leBytes 4 (bWord (.ofNat 64 (Place.tramp.va + 4)) (.ofNat 64 realFn)).toNat
  back : tools.asm "ret" retVa = leBytes 4 retWord.toNat
  call : tools.asm ("bl 0x" ++ hexText Place.tramp.va) Place.patch.va =
    leBytes 4 (blWord (.ofNat 64 Place.patch.va) (.ofNat 64 Place.tramp.va)).toNat
  word : ∀ b va, tools.disasm b va ≠ [] → 4 ≤ b.length

theorem exitUnless_bind_ok {α : Type} {cond : Bool} {message : String} {f : Unit → Except Halt α}
    {a : α} : (exitUnless cond message >>= f) = .ok a ↔ cond = true ∧ f () = .ok a := by
  cases cond <;> simp [exitUnless, bind, Except.bind]

theorem byteAt_bind_ok {α : Type} {b : Bytes} {k : ℕ} {f : UInt8 → Except Halt α} {a : α} :
    (byteAt b k >>= f) = .ok a ↔ ∃ v, b[k]? = some v ∧ f v = .ok a := by
  rw [byteAt]
  cases b[k]? <;> simp [orHalt, bind, Except.bind]

theorem exitUnless_true {α : Type} {cond : Bool} {message : String} {f : Unit → Except Halt α}
    (h : cond = true) : (exitUnless cond message >>= f) = f () := by
  rw [h]
  rfl

theorem exitUnless_false {α : Type} {cond : Bool} {message : String} {f : Unit → Except Halt α}
    (h : cond = false) : (exitUnless cond message >>= f) = .error (.exit message) := by
  rw [h]
  rfl

theorem byteAt_some {α : Type} {b : Bytes} {k : ℕ} {v : UInt8} {f : UInt8 → Except Halt α}
    (h : b[k]? = some v) : (byteAt b k >>= f) = f v := by
  rw [byteAt, h]
  rfl

/-- The logging calls are where they should be. -/
def Anchored (read : Place → Bytes) : Prop :=
  read .find = [0x63, 0xd0, 0x0f, 0x91] ∧ read .succ = [0x63, 0x48, 0x10, 0x91]

theorem Anchored.congr {read read' : Place → Bytes} (h : Anchored read)
    (hfind : read' .find = read .find) (hsucc : read' .succ = read .succ) : Anchored read' :=
  ⟨hfind.trans h.1, hsucc.trans h.2⟩

theorem routeAnchors_bind_ok {α : Type} {read : Place → Bytes} {find succ : String}
    {f : Unit → Except Halt α} {a : α} :
    (routeAnchors read find succ >>= f) = .ok a ↔ Anchored read ∧ f () = .ok a := by
  by_cases hfind : read .find = [0x63, 0xd0, 0x0f, 0x91] <;>
    by_cases hsucc : read .succ = [0x63, 0x48, 0x10, 0x91] <;>
      simp [routeAnchors, Anchored, exitUnless, hfind, hsucc, bind, Except.bind]

theorem routeAnchors_true {α : Type} {read : Place → Bytes} {find succ : String}
    {f : Unit → Except Halt α} (h : Anchored read) : (routeAnchors read find succ >>= f) = f () := by
  simp [routeAnchors, exitUnless, h.1, h.2, bind, Except.bind]

section Plans
variable {tools : Tools} {read read' : Place → Bytes} {ws : List Write}

theorem Route.plan_ok : Route.plan tools read = .ok ws ↔ Anchored read ∧
    (∃ top, (read .cbz)[3]? = some top ∧ ∃ low, (read .cbz)[0]? = some low ∧
      (top = 0xb4 ∧ low &&& 0x1f = 0)) ∧ ws = [⟨.cbz, 4, tools.asm "nop" 0⟩] := by
  simp only [Route.plan, routeAnchors_bind_ok, byteAt_bind_ok, exitUnless_bind_ok,
    decide_eq_true_eq, pure, Except.pure, Except.ok.injEq]
  grind

theorem RouteSkip.plan_ok : RouteSkip.plan tools read = .ok ws ↔ Anchored read ∧
    (tools.first (read .cmp) Place.cmp.va).any (·.mnemonic = "cmp") ∧
    ((tools.first (read .gate) Place.gate.va).any fun i => i.mnemonic ∈ ["b.lo", "b.cc"]) ∧
    (tools.first (read .gate) Place.gate.va).elim "" CsInsn.opStr = "#0x" ++ hexText exitVa ∧
    tools.first (tools.asm ("b 0x" ++ hexText exitVa) Place.gate.va) Place.gate.va =
      some ⟨"b", "#0x" ++ hexText exitVa⟩ ∧
    ws = [⟨.gate, 4, tools.asm ("b 0x" ++ hexText exitVa) Place.gate.va⟩] := by
  simp only [RouteSkip.plan, routeAnchors_bind_ok, exitUnless_bind_ok, decide_eq_true_eq, pure,
    Except.pure, Except.ok.injEq, eq_comm (a := ws)]

theorem RouteSkip0.plan_ok : RouteSkip0.plan read = .ok ws ↔ Anchored read ∧
    (read .movX22 = [0x16, 0, 0x80, 0xd2] ∧ read .movX24 = [0x18, 0, 0x80, 0xd2]) ∧
    ws = [⟨.movX22, 4, [0x96, 0, 0x80, 0xd2]⟩, ⟨.movX24, 4, [0x38, 0, 0x80, 0xd2]⟩] := by
  simp only [RouteSkip0.plan, routeAnchors_bind_ok, exitUnless_bind_ok, decide_eq_true_eq, pure,
    Except.pure, Except.ok.injEq, eq_comm (a := ws)]

theorem RouteTimeout.plan_ok : RouteTimeout.plan tools read = .ok ws ↔ Anchored read ∧
    tools.first (read .movX0) Place.movX0.va = some ⟨"mov", "x0, x28"⟩ ∧
    tools.first (read .tmo) Place.tmo.va = some ⟨"mov", "x1, #-1"⟩ ∧
    (tools.first (read .bl) Place.bl.va).any (·.mnemonic = "bl") ∧
    tools.first (tools.asm "mov x1, #0" Place.tmo.va) Place.tmo.va = some ⟨"mov", "x1, #0"⟩ ∧
    ws = [⟨.tmo, 4, tools.asm "mov x1, #0" Place.tmo.va⟩] := by
  simp only [RouteTimeout.plan, routeAnchors_bind_ok, exitUnless_bind_ok, decide_eq_true_eq, pure,
    Except.pure, Except.ok.injEq, eq_comm (a := ws)]

/-- `i1 + i2 + i3` -/
def trampolineBytes (tools : Tools) : Bytes :=
  tools.asm ("cbz x0, 0x" ++ hexText retVa) Place.tramp.va ++
    tools.asm ("b 0x" ++ hexText realFn) (Place.tramp.va + 4) ++ tools.asm "ret" retVa

theorem SecureproxyV2.plan_ok (h : SecureproxyV2.plan tools read = .ok ws) :
    read .ldr = [0x60, 0xd6, 0x50, 0xf9] ∧
    (∃ top, (read .patch)[3]? = some top ∧ top &&& 0xfc = 0x94) ∧
    read .tramp = List.replicate 16 0 ∧
    ws = [⟨.tramp, (trampolineBytes tools).length, trampolineBytes tools⟩,
      ⟨.patch, 4, tools.asm ("bl 0x" ++ hexText Place.tramp.va) Place.patch.va⟩] := by
  simp only [SecureproxyV2.plan, byteAt_bind_ok, exitUnless_bind_ok, decide_eq_true_eq] at h
  obtain ⟨hldr, top, htop, hbl, hregion, h⟩ := h
  refine ⟨hldr, ⟨top, htop, hbl⟩, hregion, ?_⟩
  split at h
  · cases h
  · obtain ⟨-, hws⟩ := exitUnless_bind_ok.mp h
    exact (Except.ok.inj hws).symm

theorem trampolineBytes_length (hA : tools.A64) : (trampolineBytes tools).length = 12 := by
  rw [trampolineBytes, hA.test, hA.jump, hA.back]
  simp

/-- The plan looks only at what the script checks. -/
theorem RtbScript.plan_congr {s : RtbScript} (h : ∀ p ∈ s.reads, read' p = read p) :
    s.plan tools read' = s.plan tools read := by
  cases s with
  | secureproxyV2 =>
    simp only [RtbScript.plan, SecureproxyV2.plan, h .ldr (by decide), h .patch (by decide),
      h .tramp (by decide)]
  | route =>
    simp only [RtbScript.plan, Route.plan, routeAnchors, h .find (by decide), h .succ (by decide),
      h .cbz (by decide)]
  | routeSkip =>
    simp only [RtbScript.plan, RouteSkip.plan, routeAnchors, h .find (by decide),
      h .succ (by decide), h .cmp (by decide), h .gate (by decide)]
  | routeSkip0 =>
    simp only [RtbScript.plan, RouteSkip0.plan, routeAnchors, h .find (by decide),
      h .succ (by decide), h .movX22 (by decide), h .movX24 (by decide)]
  | routeTimeout =>
    simp only [RtbScript.plan, RouteTimeout.plan, routeAnchors, h .find (by decide),
      h .succ (by decide), h .movX0 (by decide), h .tmo (by decide), h .bl (by decide)]

theorem length_of_getElem? {b : Bytes} {k : ℕ} {v : UInt8} (h : b[k]? = some v) : k < b.length :=
  (List.getElem?_eq_some_iff.mp h).1

theorem length_of_first (hA : tools.A64) {b : Bytes} {va : ℕ} (h : tools.first b va ≠ none) :
    4 ≤ b.length :=
  hA.word b va fun hnil => h (by rw [Tools.first, hnil]; rfl)

/-- Each planned write is as long as its slice, at a place that was there as a whole. -/
def WellPlanned (read : Place → Bytes) (w : Write) : Prop :=
  w.bytes.length = w.size ∧ w.size ≤ w.place.size ∧ w.place.size ≤ (read w.place).length

theorem RtbScript.plan_wellPlanned (hA : tools.A64) {s : RtbScript}
    (h : s.plan tools read = .ok ws) :
    ws.map Write.place = s.writes ∧ ∀ w ∈ ws, WellPlanned read w := by
  cases s with
  | secureproxyV2 =>
    obtain ⟨-, ⟨top, htop, -⟩, hregion, rfl⟩ := SecureproxyV2.plan_ok h
    have hpatch := length_of_getElem? htop
    refine ⟨rfl, ?_⟩
    simp only [List.forall_mem_cons, WellPlanned, trampolineBytes_length hA, hA.call, hregion,
      leBytes_length]
    exact ⟨⟨trivial, by decide, by decide⟩, ⟨trivial, by decide, hpatch⟩, by simp⟩
  | route =>
    obtain ⟨-, ⟨top, htop, -⟩, rfl⟩ := Route.plan_ok.mp h
    have hcbz := length_of_getElem? htop
    refine ⟨rfl, ?_⟩
    simp only [List.forall_mem_cons, WellPlanned, hA.nop, leBytes_length]
    exact ⟨⟨trivial, by decide, hcbz⟩, by simp⟩
  | routeSkip =>
    obtain ⟨-, -, hgate, -, -, rfl⟩ := RouteSkip.plan_ok.mp h
    have hlen : 4 ≤ (read .gate).length :=
      length_of_first hA (fun hnone => by rw [hnone] at hgate; simp at hgate)
    refine ⟨rfl, ?_⟩
    simp only [List.forall_mem_cons, WellPlanned, hA.skip, leBytes_length]
    exact ⟨⟨trivial, by decide, hlen⟩, by simp⟩
  | routeSkip0 =>
    obtain ⟨-, ⟨hx22, hx24⟩, rfl⟩ := RouteSkip0.plan_ok.mp h
    refine ⟨rfl, ?_⟩
    simp only [List.forall_mem_cons, WellPlanned, hx22, hx24]
    exact ⟨by decide, by decide, by simp⟩
  | routeTimeout =>
    obtain ⟨-, -, htmo, -, -, rfl⟩ := RouteTimeout.plan_ok.mp h
    have hlen : 4 ≤ (read .tmo).length :=
      length_of_first hA (fun hnone => by rw [hnone] at htmo; cases htmo)
    refine ⟨rfl, ?_⟩
    simp only [List.forall_mem_cons, WellPlanned, hA.timeout, leBytes_length]
    exact ⟨⟨trivial, by decide, hlen⟩, by simp⟩

/-- What a script reads after it wrote makes it end. -/
theorem RtbScript.plan_again (hA : tools.A64) {s : RtbScript} (h : s.plan tools read = .ok ws)
    (hlen : ∀ p, (read' p).length ≤ p.size)
    (hkept : ∀ p ∈ s.reads, p ∉ s.writes → read' p = read p)
    (hnew : ∀ w ∈ ws, (read' w.place).take w.size = w.bytes) :
    ∃ message, s.plan tools read' = .error (.exit message) := by
  have hwhole (w : Write) (hw : w ∈ ws) (hsize : w.place.size ≤ w.size) :
      read' w.place = w.bytes := by
    rw [← hnew w hw, List.take_of_length_le ((hlen _).trans hsize)]
  have hfind (hreads : .find ∈ s.reads) (hwrites : .find ∉ s.writes) := hkept .find hreads hwrites
  have hsucc (hreads : .succ ∈ s.reads) (hwrites : .succ ∉ s.writes) := hkept .succ hreads hwrites
  cases s with
  | secureproxyV2 =>
    obtain ⟨hldr, -, -, rfl⟩ := SecureproxyV2.plan_ok h
    have hsite := hwhole ⟨.patch, 4, _⟩ (List.mem_cons_of_mem _ List.mem_cons_self) (le_refl 4)
    have htramp := hnew ⟨.tramp, _, trampolineBytes tools⟩ List.mem_cons_self
    rw [trampolineBytes_length hA] at htramp
    have hregion : read' .tramp ≠ List.replicate 16 0 := by
      intro hzero
      rw [hzero, trampolineBytes, hA.test, hA.jump, hA.back] at htramp
      exact absurd htramp (by decide)
    rw [hA.call] at hsite
    have htop : (read' .patch)[3]? = some 0x94 := by
      rw [hsite]
      decide
    simp only [RtbScript.plan, SecureproxyV2.plan]
    rw [exitUnless_true (decide_eq_true (by rw [hkept .ldr (by decide) (by decide), hldr])),
      byteAt_some htop, exitUnless_true (by decide), exitUnless_false (decide_eq_false hregion)]
    exact ⟨_, rfl⟩
  | route =>
    obtain ⟨hanchors, -, rfl⟩ := Route.plan_ok.mp h
    have hcbz := hwhole ⟨.cbz, 4, _⟩ List.mem_cons_self (le_refl 4)
    rw [hA.nop] at hcbz
    have htop : (read' .cbz)[3]? = some 0xd5 := by
      rw [hcbz]
      decide
    have hlow : (read' .cbz)[0]? = some 0x1f := by
      rw [hcbz]
      decide
    simp only [RtbScript.plan, Route.plan]
    rw [routeAnchors_true (hanchors.congr (hfind (by decide) (by decide)) (hsucc (by decide) (by decide))), byteAt_some htop, byteAt_some hlow,
      exitUnless_false (by decide)]
    exact ⟨_, rfl⟩
  | routeSkip =>
    obtain ⟨hanchors, hcmp, -, -, hchk, rfl⟩ := RouteSkip.plan_ok.mp h
    have hgate := hwhole ⟨.gate, 4, _⟩ List.mem_cons_self (le_refl 4)
    simp only [RtbScript.plan, RouteSkip.plan]
    rw [routeAnchors_true (hanchors.congr (hfind (by decide) (by decide)) (hsucc (by decide) (by decide))),
      exitUnless_true (by rw [hkept .cmp (by decide) (by decide), hcmp]),
      exitUnless_false (by rw [hgate, hchk]; decide)]
    exact ⟨_, rfl⟩
  | routeSkip0 =>
    obtain ⟨hanchors, -, rfl⟩ := RouteSkip0.plan_ok.mp h
    have hx22 := hwhole ⟨.movX22, 4, _⟩ List.mem_cons_self (le_refl 4)
    simp only [RtbScript.plan, RouteSkip0.plan]
    rw [routeAnchors_true (hanchors.congr (hfind (by decide) (by decide)) (hsucc (by decide) (by decide))),
      exitUnless_false (decide_eq_false fun hold => absurd (hx22.symm.trans hold.1) (by decide))]
    exact ⟨_, rfl⟩
  | routeTimeout =>
    obtain ⟨hanchors, hmov, -, -, hchk, rfl⟩ := RouteTimeout.plan_ok.mp h
    have htmo := hwhole ⟨.tmo, 4, _⟩ List.mem_cons_self (le_refl 4)
    simp only [RtbScript.plan, RouteTimeout.plan]
    rw [routeAnchors_true (hanchors.congr (hfind (by decide) (by decide)) (hsucc (by decide) (by decide))),
      exitUnless_true (decide_eq_true (by rw [hkept .movX0 (by decide) (by decide), hmov])),
      exitUnless_false (by rw [htmo, hchk]; decide)]
    exact ⟨_, rfl⟩

end Plans

/-! ## Writes -/

/-- `out` is `d` with the writes in it. -/
structure Written (o : Place → ℕ) (d out : Bytes) (ws : List Write) : Prop where
  length_eq : out.length = d.length
  there : ∀ w ∈ ws, slice out (o w.place) (o w.place + w.size) = w.bytes
  frame : ∀ i, (∀ w ∈ ws, i < o w.place ∨ o w.place + w.size ≤ i) → out[i]? = d[i]?

/-- Two writes do not overlap. -/
def Separate (o : Place → ℕ) (w v : Write) : Prop :=
  o w.place + w.size ≤ o v.place ∨ o v.place + v.size ≤ o w.place

theorem Separate.symm {o : Place → ℕ} {w v : Write} (h : Separate o w v) : Separate o v w :=
  Or.symm h

theorem Written.nil (o : Place → ℕ) (d : Bytes) : Written o d d [] :=
  ⟨rfl, fun _ hw => absurd hw List.not_mem_nil, fun _ _ => rfl⟩

theorem Written.append {o : Place → ℕ} {d mid out : Bytes} {ws vs : List Write}
    (h : Written o d mid ws) (h' : Written o mid out vs)
    (hsep : ∀ w ∈ ws, ∀ v ∈ vs, Separate o w v) : Written o d out (ws ++ vs) where
  length_eq := h'.length_eq.trans h.length_eq
  there w hw := by
    rcases List.mem_append.mp hw with hws | hvs
    · rw [← h.there w hws]
      refine slice_congr fun i hlow hhigh => h'.frame i fun v hv => ?_
      rcases hsep w hws v hv with hbelow | habove
      · exact .inl (by omega)
      · exact .inr (by omega)
    · exact h'.there w hvs
  frame i hi := by
    rw [h'.frame i fun v hv => hi v (List.mem_append_right _ hv),
      h.frame i fun w hw => hi w (List.mem_append_left _ hw)]

theorem slice_getElem? (d : Bytes) (a b k : ℕ) :
    (slice d a b)[k]? = if a + k < b then d[a + k]? else none := by
  rw [slice, List.getElem?_drop, List.getElem?_take]

/-- The same writes make the same image. -/
theorem Written.unique {o : Place → ℕ} {d out out' : Bytes} {ws vs : List Write}
    (h : Written o d out ws) (h' : Written o d out' vs) (hmem : ∀ w, w ∈ ws ↔ w ∈ vs) :
    out = out' := by
  refine List.ext_getElem? fun i => ?_
  by_cases hin : ∃ w ∈ ws, o w.place ≤ i ∧ i < o w.place + w.size
  · obtain ⟨w, hw, hlow, hhigh⟩ := hin
    have hsame : slice out (o w.place) (o w.place + w.size) =
        slice out' (o w.place) (o w.place + w.size) :=
      (h.there w hw).trans (h'.there w ((hmem w).mp hw)).symm
    have hbyte := congrArg (·[i - o w.place]?) hsame
    simpa only [slice_getElem?, Nat.add_sub_cancel' hlow, if_pos hhigh] using hbyte
  · have hout : ∀ w ∈ ws, i < o w.place ∨ o w.place + w.size ≤ i := by
      intro w hw
      by_contra hcon
      rw [not_or, Nat.not_lt, Nat.not_le] at hcon
      exact hin ⟨w, hw, hcon⟩
    rw [h.frame i hout, h'.frame i fun w hw => hout w ((hmem w).mpr hw)]

theorem applyWrites_written {o : Place → ℕ} {offsetOf : Place → ℤ} :
    ∀ {ws : List Write} {d : Bytes}, (∀ w ∈ ws, offsetOf w.place = o w.place) →
      (∀ w ∈ ws, w.bytes.length = w.size ∧ o w.place + w.size ≤ d.length) →
      ws.Pairwise (Separate o) → Written o d (ws.foldl (applyWrite offsetOf) d) ws
  | [], d, _, _, _ => Written.nil o d
  | w :: ws, d, hoff, hfit, hsep => by
      obtain ⟨hoffw, hoffws⟩ := List.forall_mem_cons.mp hoff
      obtain ⟨⟨hlen, hend⟩, hfitws⟩ := List.forall_mem_cons.mp hfit
      obtain ⟨hsepw, hsepws⟩ := List.pairwise_cons.mp hsep
      obtain ⟨hlength, hthere, hframe⟩ := pySetSlice_spec (hlen.symm ▸ hend)
      rw [hlen] at hlength hthere hframe
      have hfirst : Written o d (applyWrite offsetOf d w) [w] := by
        rw [applyWrite, hoffw]
        refine ⟨hlength, ?_, fun i hi => hframe i (hi w List.mem_cons_self)⟩
        simpa using hthere
      have hrest : Written o (applyWrite offsetOf d w)
          (ws.foldl (applyWrite offsetOf) (applyWrite offsetOf d w)) ws := by
        refine applyWrites_written hoffws (fun v hv => ?_) hsepws
        rw [hfirst.length_eq]
        exact hfitws v hv
      refine hfirst.append hrest fun v hv u hu => ?_
      rw [List.mem_singleton.mp hv]
      exact hsepw u hu

/-! ## One script on an image -/

theorem Place.va_apart {p q : Place} (hne : p ≠ q) (hp : p ≠ .tramp) (hq : q ≠ .tramp) :
    p.va + 4 ≤ q.va ∨ q.va + 4 ≤ p.va := by
  cases p <;> cases q <;>
    first | exact absurd rfl hne | exact absurd rfl hp | exact absurd rfl hq | decide

theorem Place.size_of_ne {p : Place} (h : p ≠ .tramp) : p.size = 4 := by
  cases p <;> first | rfl | exact absurd rfl h

theorem RtbScript.reads_tramp {s : RtbScript} (h : .tramp ∈ s.reads) : s = .secureproxyV2 := by
  cases s <;> first | rfl | exact absurd h (by decide)

theorem RtbScript.writes_subset (s : RtbScript) : ∀ p ∈ s.writes, p ∈ s.reads := by
  cases s <;> decide

theorem RtbScript.writes_nodup (s : RtbScript) : s.writes.Nodup := by
  cases s <;> decide

/-- No script checks what another writes. -/
theorem RtbScript.writes_unread {s s' : RtbScript} (hne : s ≠ s') :
    ∀ p ∈ s.writes, p ∉ s'.reads := by
  cases s <;> cases s' <;> first | exact absurd rfl hne | decide

/-- What is at the places of an image. -/
def placesOf (rtb kern : ℕ × ℕ) (d : Bytes) (p : Place) : Bytes :=
  slice d (placeOffset rtb kern p) (placeOffset rtb kern p + p.size)

theorem placesOf_length (rtb kern : ℕ × ℕ) (d : Bytes) (p : Place) :
    (placesOf rtb kern d p).length ≤ p.size := by
  rw [placesOf, slice_length]
  omega

section Image
variable {tools : Tools} {bound : ℕ} {d out : Bytes} {l : List RtbScript} {rtb kern : ℕ × ℕ}
  {s s' : RtbScript} {ws : List Write}

theorem RtbImage.places_apart (h : RtbImage bound d l rtb kern) (hs : s ∈ l) (hs' : s' ∈ l)
    {p q : Place} (hp : p ∈ s.reads) (hq : q ∈ s'.reads) (hne : p ≠ q) :
    placeOffset rtb kern p + p.size ≤ placeOffset rtb kern q ∨
      placeOffset rtb kern q + q.size ≤ placeOffset rtb kern p := by
  by_cases hpt : p = .tramp
  · have hqt : q ≠ .tramp := fun hqt => hne (hpt.trans hqt.symm)
    subst hpt
    rw [Place.size_of_ne hqt]
    exact (h.apart (RtbScript.reads_tramp hp ▸ hs) s' hs' q hq hqt).symm
  · by_cases hqt : q = .tramp
    · subst hqt
      rw [Place.size_of_ne hpt]
      exact h.apart (RtbScript.reads_tramp hq ▸ hs') s hs p hp hpt
    · have hvp := h.inText s hs p hp
      have hvq := h.inText s' hs' q hq
      have hva := Place.va_apart hne hpt hqt
      rw [if_neg hpt] at hvp
      rw [if_neg hqt] at hvq
      rw [placeOffset, placeOffset, if_neg hpt, if_neg hqt, Place.size_of_ne hpt,
        Place.size_of_ne hqt]
      omega

theorem RtbImage.bound_le (h : RtbImage bound d l rtb kern) (hs : s ∈ l) {p : Place}
    (hp : p ∈ s.reads) : bound ≤ placeOffset rtb kern p := by
  rw [placeOffset]
  split_ifs with hpt
  · subst hpt
    exact (h.kernel (RtbScript.reads_tramp hp ▸ hs)).2.trans (Nat.le_add_right _ _)
  · exact h.rtbuddy.2.trans (Nat.le_add_right _ _)

/-- On an image a script is its plan and the writes of the plan. -/
theorem RtbImage.main_eq (tools : Tools) (h : RtbImage bound d l rtb kern) (hs : s ∈ l) (dryRun : Bool) :
    ∃ offsetOf : Place → ℤ, (∀ p ∈ s.reads, offsetOf p = placeOffset rtb kern p) ∧
      s.main tools d dryRun = (s.plan tools (placesOf rtb kern d) >>= fun ws =>
        .ok (if dryRun then none else some (ws.foldl (applyWrite offsetOf) d))) := by
  obtain ⟨offsetOf, hlocate, hoff⟩ := h.locate hs
  refine ⟨offsetOf, hoff, ?_⟩
  have hread : ∀ p ∈ s.reads, readPlace d offsetOf p = placesOf rtb kern d p := by
    intro p hp
    rw [readPlace, hoff p hp, pySlice_natCast, placesOf]
  rw [RtbScript.main, hlocate, script_bind, RtbScript.plan_congr hread]
  rfl

variable (hA : tools.A64) (h : RtbImage bound d l rtb kern) (hs : s ∈ l)
include hA h hs

/-- Where the plan succeeds, its writes are made. -/
theorem RtbImage.main_written (hplan : s.plan tools (placesOf rtb kern d) = .ok ws) :
    ∃ out, s.main tools d false = .ok (some out) ∧
      Written (placeOffset rtb kern) d out ws := by
  obtain ⟨offsetOf, hoff, hmain⟩ := h.main_eq tools hs false
  obtain ⟨hplaces, hwell⟩ := RtbScript.plan_wellPlanned hA hplan
  have hwrite : ∀ w ∈ ws, w.place ∈ s.writes := fun w hw => hplaces ▸ List.mem_map_of_mem hw
  have hread : ∀ w ∈ ws, w.place ∈ s.reads := fun w hw => s.writes_subset _ (hwrite w hw)
  rw [hplan] at hmain
  refine ⟨_, hmain, applyWrites_written (fun w hw => hoff _ (hread w hw)) (fun w hw => ?_) ?_⟩
  · obtain ⟨hlen, hsize, hwhole⟩ := hwell w hw
    have hpos : 0 < w.place.size := by cases w.place <;> decide
    rw [placesOf, slice_length] at hwhole
    exact ⟨hlen, by omega⟩
  · have hnodup : (ws.map Write.place).Nodup := hplaces ▸ s.writes_nodup
    rw [List.Nodup, List.pairwise_map] at hnodup
    refine hnodup.imp_of_mem fun {w v} hw hv hne => ?_
    obtain ⟨-, hsizew, -⟩ := hwell w hw
    obtain ⟨-, hsizev, -⟩ := hwell v hv
    rcases h.places_apart hs hs (hread w hw) (hread v hv) hne with hbelow | habove
    · exact .inl (by omega)
    · exact .inr (by omega)

/-- A script that succeeded made the writes of its plan. -/
theorem RtbImage.main_ok (hmain : s.main tools d false = .ok (some out)) :
    ∃ ws, s.plan tools (placesOf rtb kern d) = .ok ws ∧
      Written (placeOffset rtb kern) d out ws := by
  obtain ⟨offsetOf, -, heq⟩ := h.main_eq tools hs false
  rw [hmain] at heq
  obtain ⟨ws, hplan, -⟩ := bind_eq_ok_iff.mp heq.symm
  obtain ⟨out', hmain', hwritten⟩ := h.main_written hA hs hplan
  obtain rfl : out = out' := Option.some.inj (Except.ok.inj (hmain.symm.trans hmain'))
  exact ⟨ws, hplan, hwritten⟩

theorem RtbImage.agreeBelow (hplan : s.plan tools (placesOf rtb kern d) = .ok ws)
    (hwritten : Written (placeOffset rtb kern) d out ws) : AgreeBelow bound d out where
  length_eq := hwritten.length_eq
  byte i hi := by
    obtain ⟨hplaces, -⟩ := RtbScript.plan_wellPlanned hA hplan
    refine hwritten.frame i fun w hw => .inl ?_
    have hwrite : w.place ∈ s.writes := hplaces ▸ List.mem_map_of_mem hw
    exact hi.trans_le (h.bound_le hs (s.writes_subset _ hwrite))

/-- The places that the script does not write are as before. -/
theorem RtbImage.places_kept (hplan : s.plan tools (placesOf rtb kern d) = .ok ws)
    (hwritten : Written (placeOffset rtb kern) d out ws) (hs' : s' ∈ l) {p : Place}
    (hp : p ∈ s'.reads) (hnot : p ∉ s.writes) :
    placesOf rtb kern out p = placesOf rtb kern d p := by
  obtain ⟨hplaces, hwell⟩ := RtbScript.plan_wellPlanned hA hplan
  refine slice_congr fun i hlow hhigh => hwritten.frame i fun w hw => ?_
  have hwrite : w.place ∈ s.writes := hplaces ▸ List.mem_map_of_mem hw
  have hne : w.place ≠ p := fun heq => hnot (heq ▸ hwrite)
  obtain ⟨-, hsize, -⟩ := hwell w hw
  rcases h.places_apart hs hs' (s.writes_subset _ hwrite) hp hne with hbelow | habove
  · exact .inr (by omega)
  · exact .inl (by omega)

theorem RtbImage.separate (hplan : s.plan tools (placesOf rtb kern d) = .ok ws) (hs' : s' ∈ l)
    (hne : s ≠ s') {vs : List Write} (hplan' : s'.plan tools (placesOf rtb kern d) = .ok vs) :
    ∀ w ∈ ws, ∀ v ∈ vs, Separate (placeOffset rtb kern) w v := by
  intro w hw v hv
  obtain ⟨hplaces, hwell⟩ := RtbScript.plan_wellPlanned hA hplan
  obtain ⟨hplaces', hwell'⟩ := RtbScript.plan_wellPlanned hA hplan'
  have hwrite : w.place ∈ s.writes := hplaces ▸ List.mem_map_of_mem hw
  have hread : v.place ∈ s'.reads :=
    s'.writes_subset _ (hplaces' ▸ List.mem_map_of_mem hv)
  have hplace : w.place ≠ v.place := fun heq =>
    RtbScript.writes_unread hne w.place hwrite (heq ▸ hread)
  obtain ⟨-, hsizew, -⟩ := hwell w hw
  obtain ⟨-, hsizev, -⟩ := hwell' v hv
  rcases h.places_apart hs hs' (s.writes_subset _ hwrite) hread hplace with hbelow | habove
  · exact .inl (by omega)
  · exact .inr (by omega)

end Image

/-! ## Many scripts -/

/-- The file after a script. -/
def RtbScript.apply (tools : Tools) (d : Bytes) (s : RtbScript) : Except Halt Bytes := do
  let written ← s.main tools d false
  return written.getD d

/-- The file after one script after another. -/
def applyScripts (tools : Tools) (scripts : List RtbScript) (d : Bytes) : Except Halt Bytes :=
  scripts.foldlM (RtbScript.apply tools) d

section Scripts
variable {tools : Tools} {bound : ℕ} {d out : Bytes} {l l' : List RtbScript} {rtb kern : ℕ × ℕ}
  (hA : tools.A64)
include hA

theorem RtbImage.apply_ok (h : RtbImage bound d l rtb kern) {s : RtbScript} (hs : s ∈ l) :
    s.apply tools d = .ok out ↔ ∃ ws, s.plan tools (placesOf rtb kern d) = .ok ws ∧
      Written (placeOffset rtb kern) d out ws := by
  have happly : s.apply tools d = .ok out ↔ s.main tools d false = .ok (some out) := by
    obtain ⟨offsetOf, -, heq⟩ := h.main_eq tools hs false
    rw [RtbScript.apply, heq]
    cases s.plan tools (placesOf rtb kern d) with
    | error e => simp [bind, Except.bind]
    | ok ws => simp [bind, Except.bind, pure, Except.pure]
  rw [happly]
  constructor
  · exact h.main_ok hA hs
  · rintro ⟨ws, hplan, hwritten⟩
    obtain ⟨out', hmain, hwritten'⟩ := h.main_written hA hs hplan
    rw [hmain, hwritten.unique hwritten' fun w => Iff.rfl]

theorem rtbScripts_changePlaces : ChangePlaces (RtbScript.apply tools) (· ∈ l)
    (fun d => RtbImage bound d l rtb kern) where
  keeps d s out hs h hstep := by
    obtain ⟨ws, hplan, hwritten⟩ := (h.apply_ok hA hs).mp hstep
    exact h.congr (h.agreeBelow hA hs hplan hwritten)
  swap d s s' mid out hs hs' hne h hstep hstep' := by
    obtain ⟨ws, hplan, hwritten⟩ := (h.apply_ok hA hs).mp hstep
    have hmid := h.congr (h.agreeBelow hA hs hplan hwritten)
    obtain ⟨vs, hplan', hwritten'⟩ := (hmid.apply_ok hA hs').mp hstep'
    -- neither sees the writes of the other
    have hfirst : s'.plan tools (placesOf rtb kern d) = .ok vs := by
      rw [← hplan']
      refine (RtbScript.plan_congr fun p hp => h.places_kept hA hs hplan hwritten hs' hp ?_).symm
      exact fun hwrite => RtbScript.writes_unread hne p hwrite hp
    obtain ⟨mid', -, hother⟩ := h.main_written hA hs' hfirst
    have hmid' := h.congr (h.agreeBelow hA hs' hfirst hother)
    have hsecond : s.plan tools (placesOf rtb kern mid') = .ok ws := by
      rw [← hplan]
      refine RtbScript.plan_congr fun p hp => h.places_kept hA hs' hfirst hother hs hp ?_
      exact fun hwrite => RtbScript.writes_unread (Ne.symm hne) p hwrite hp
    obtain ⟨out', -, hend⟩ := hmid'.main_written hA hs hsecond
    have hsep := h.separate hA hs hplan hs' hne hfirst
    have heq : out = out' := by
      refine (hwritten.append hwritten' hsep).unique
        (hother.append hend fun v hv w hw => (hsep w hw v hv).symm) fun w => ?_
      rw [List.mem_append, List.mem_append, or_comm]
    exact ⟨mid', (h.apply_ok hA hs').mpr ⟨vs, hfirst, hother⟩,
      (hmid'.apply_ok hA hs).mpr ⟨ws, hsecond, heq ▸ hend⟩⟩

/-- One script changes nothing but its places. -/
theorem RtbImage.apply_frame (h : RtbImage bound d l rtb kern) {s : RtbScript} (hs : s ∈ l)
    (hstep : s.apply tools d = .ok out) : out.length = d.length ∧ ∀ i,
      (∀ p ∈ s.writes, i < placeOffset rtb kern p ∨ placeOffset rtb kern p + p.size ≤ i) →
        out[i]? = d[i]? := by
  obtain ⟨ws, hplan, hwritten⟩ := (h.apply_ok hA hs).mp hstep
  obtain ⟨hplaces, hwell⟩ := RtbScript.plan_wellPlanned hA hplan
  refine ⟨hwritten.length_eq, fun i hi => hwritten.frame i fun w hw => ?_⟩
  obtain ⟨-, hsize, -⟩ := hwell w hw
  exact (hi w.place (hplaces ▸ List.mem_map_of_mem hw)).imp_right fun h => by omega

theorem RtbImage.applyScripts_frame {todo : List RtbScript} (htodo : ∀ s ∈ todo, s ∈ l) :
    ∀ {d : Bytes}, RtbImage bound d l rtb kern → applyScripts tools todo d = .ok out →
      out.length = d.length ∧ ∀ i, (∀ s ∈ todo, ∀ p ∈ s.writes,
        i < placeOffset rtb kern p ∨ placeOffset rtb kern p + p.size ≤ i) → out[i]? = d[i]? := by
  induction todo with
  | nil =>
    intro d _ hrun
    obtain rfl : d = out := Except.ok.inj hrun
    exact ⟨rfl, fun _ _ => rfl⟩
  | cons s todo ih =>
    intro d h hrun
    obtain ⟨hs, hrest⟩ := List.forall_mem_cons.mp htodo
    obtain ⟨mid, hstep, hrun'⟩ := foldlM_cons_ok.mp hrun
    obtain ⟨hlen, hframe⟩ := h.apply_frame hA hs hstep
    obtain ⟨hlen', hframe'⟩ := ih hrest ((rtbScripts_changePlaces hA).keeps d s mid hs h hstep) hrun'
    refine ⟨hlen'.trans hlen, fun i hi => ?_⟩
    obtain ⟨his, hitodo⟩ := List.forall_mem_cons.mp hi
    exact (hframe' i hitodo).trans (hframe i his)

/-- Scripts that succeed one after the other make the same image in every order, and change nothing
in it but the words at their places. -/
theorem rtbScripts_any_order (h : RtbImage bound d l rtb kern) (hnodup : l.Nodup)
    (hperm : l.Perm l') (hrun : applyScripts tools l d = .ok out) :
    applyScripts tools l' d = .ok out ∧ out.length = d.length ∧ ∀ i, (∀ s ∈ l, ∀ p ∈ s.writes,
      i < placeOffset rtb kern p ∨ placeOffset rtb kern p + p.size ≤ i) → out[i]? = d[i]? :=
  ⟨(rtbScripts_changePlaces hA).run_perm hperm hnodup (fun _ hs => hs) h hrun,
    h.applyScripts_frame hA (fun _ hs => hs) hrun⟩

theorem RtbImage.main_again (h : RtbImage bound d l rtb kern) {s : RtbScript} (hs : s ∈ l)
    (hstep : s.apply tools d = .ok out) (dryRun : Bool) :
    ∃ message, s.main tools out dryRun = .error (.exit message) := by
  obtain ⟨ws, hplan, hwritten⟩ := (h.apply_ok hA hs).mp hstep
  obtain ⟨-, hwell⟩ := RtbScript.plan_wellPlanned hA hplan
  have hout := h.congr (h.agreeBelow hA hs hplan hwritten)
  obtain ⟨message, hmessage⟩ := RtbScript.plan_again hA hplan (placesOf_length rtb kern out)
    (fun p hp hnot => h.places_kept hA hs hplan hwritten hs hp hnot) fun w hw => by
      obtain ⟨-, hsize, -⟩ := hwell w hw
      rw [← hwritten.there w hw, placesOf, slice, slice, List.take_drop, List.take_take,
        Nat.min_eq_left (by omega)]
  obtain ⟨offsetOf, -, hmain⟩ := hout.main_eq tools hs dryRun
  exact ⟨message, by rw [hmain, hmessage]; rfl⟩

/-- A script that was applied is not applied again, whatever other scripts ran before or after. -/
theorem rtbScripts_once (h : RtbImage bound d l rtb kern) (hnodup : l.Nodup)
    (hrun : applyScripts tools l d = .ok out) {s : RtbScript} (hs : s ∈ l) (dryRun : Bool) :
    ∃ message, s.main tools out dryRun = .error (.exit message) := by
  have hplaces : ChangePlaces (RtbScript.apply tools) (· ∈ l) (fun d => RtbImage bound d l rtb kern) :=
    rtbScripts_changePlaces hA
  -- the script might as well have been the last
  have hperm : l.Perm (l.erase s ++ [s]) :=
    (List.perm_cons_erase hs).trans (List.perm_append_singleton s (l.erase s)).symm
  have hlast := hplaces.run_perm hperm hnodup (fun _ hs => hs) h hrun
  rw [List.foldlM_append] at hlast
  obtain ⟨mid, hmid, hlast⟩ := bind_eq_ok_iff.mp hlast
  obtain ⟨out', hstep, hnil⟩ := foldlM_cons_ok.mp hlast
  obtain rfl : out' = out := Except.ok.inj hnil
  exact (hplaces.run_keeps (fun _ ha => List.mem_of_mem_erase ha) h hmid).main_again hA hs hstep
    dryRun

end Scripts

/-! ## An image of the route loop -/

/-- The instructions that the scripts look at, disassembled. -/
def a64Insn (w : BitVec 32) (va : BitVec 64) : Option CsInsn :=
  if w = 0x7100101F then some ⟨"cmp", "w0, #4"⟩
  else if w &&& 0xFF00001F = 0x54000003 then
    some ⟨"b.lo", "#0x" ++ hexText (target19 w va).toNat⟩
  else if w = 0xAA1C03E0 then some ⟨"mov", "x0, x28"⟩
  else if w = 0x92800001 then some ⟨"mov", "x1, #-1"⟩
  else if w = 0xD2800001 then some ⟨"mov", "x1, #0"⟩
  else if isB w then some ⟨"b", "#0x" ++ hexText (target26 w va).toNat⟩
  else if isBl w then some ⟨"bl", "#0x" ++ hexText (target26 w va).toNat⟩
  else if w &&& 0xFF00001F = 0xB4000000 then
    some ⟨"cbz", "x0, #0x" ++ hexText (target19 w va).toNat⟩
  else if w = retWord then some ⟨"ret", ""⟩
  else none

/-- Word by word, up to the first that is not known. -/
def a64Disasm : Bytes → ℕ → List CsInsn
  | b₀ :: b₁ :: b₂ :: b₃ :: rest, va =>
      match a64Insn (wordAt [b₀, b₁, b₂, b₃] 0) (.ofNat 64 va) with
      | some insn => insn :: a64Disasm rest (va + 4)
      | none => []
  | _, _ => []

def a64Asm (line : String) (va : ℕ) : BitVec 32 :=
  if line = "nop" then 0xD503201F
  else if line = "mov x1, #0" then 0xD2800001
  else if line = "ret" then retWord
  else if line = "b 0x" ++ hexText exitVa then bWord (.ofNat 64 va) (.ofNat 64 exitVa)
  else if line = "b 0x" ++ hexText realFn then bWord (.ofNat 64 va) (.ofNat 64 realFn)
  else if line = "bl 0x" ++ hexText Place.tramp.va then
    blWord (.ofNat 64 va) (.ofNat 64 Place.tramp.va)
  else cbzWord 0 (.ofNat 64 va) (.ofNat 64 retVa)

def a64Tools : Tools where
  asm line va := leBytes 4 (a64Asm line va).toNat
  disasm := a64Disasm

theorem a64Tools_a64 : a64Tools.A64 where
  nop := by decide +kernel
  skip := by decide +kernel
  timeout := by decide +kernel
  test := by decide +kernel
  jump := by decide +kernel
  back := by decide +kernel
  call := by decide +kernel
  word b va h := by
    rcases b with _ | ⟨b₀, _ | ⟨b₁, _ | ⟨b₂, _ | ⟨b₃, rest⟩⟩⟩⟩
    · exact absurd rfl h
    · exact absurd rfl h
    · exact absurd rfl h
    · exact absurd rfl h
    · simp

/-- Words with gaps of zeros, up to the given offsets. -/
def spread : ℕ → List (ℕ × BitVec 32) → Bytes
  | _, [] => []
  | off, (next, w) :: rest =>
      List.replicate (next - off) 0 ++ leBytes 4 w.toNat ++ spread (next + 4) rest

/-- RTBuddy as the only entry, with the code from the gate of the loop to its second log. -/
def routeImage : Bytes :=
  leBytes 4 0xFEEDFACF ++ List.replicate 8 0 ++ leBytes 4 12 ++ leBytes 4 1 ++
    List.replicate 12 0 ++
    (leBytes 4 0x80000035 ++ leBytes 4 64 ++ leBytes 8 0xFFFFFFF007004000 ++ leBytes 8 96 ++
      leBytes 4 32 ++ List.replicate 4 0 ++ rtbuddyName ++ List.replicate 8 0) ++
    (leBytes 4 0xFEEDFACF ++ List.replicate 12 0 ++ leBytes 4 1 ++ List.replicate 12 0) ++
    (leBytes 4 0x19 ++ leBytes 4 72 ++ asciiBytes "__TEXT_EXEC" ++ List.replicate 5 0 ++
      leBytes 8 Place.cmp.va ++ leBytes 8 0x210 ++ leBytes 8 200 ++ leBytes 8 0x210 ++
      List.replicate 16 0) ++
    spread 0 [(0, 0x7100101F), (4, 0x54001103), (8, 0xD2800016), (0xC, 0xD2800018),
      (0x80, 0x910FD063), (0xF0, 0xAA1C03E0), (0xF4, 0x92800001), (0xF8, 0x94000010),
      (0x170, 0xB4000120), (0x20C, 0x91104863)]

def routeScripts : List RtbScript := [.route, .routeSkip, .routeSkip0, .routeTimeout]

theorem routeImage_image : RtbImage 200 routeImage routeScripts (Place.cmp.va, 200) (0, 0) where
  commands := by decide +kernel
  ids := by decide +kernel
  rtbuddy := ⟨⟨96, ⟨Place.cmp.va, 0x210, 200, 0x210⟩, by decide +kernel, by decide +kernel,
    by decide +kernel, rfl⟩, by decide⟩
  kernel h := absurd h (by decide)
  inText := by decide
  apart h := absurd h (by decide)

theorem routeImage_runs : ∃ out, applyScripts a64Tools routeScripts routeImage = .ok out := by
  have hok : (applyScripts a64Tools routeScripts routeImage).isOk = true := by decide +kernel
  cases hrun : applyScripts a64Tools routeScripts routeImage with
  | ok out => exact ⟨out, rfl⟩
  | error e =>
    rw [hrun] at hok
    cases hok

theorem rtbScripts_any_order_route : ∃ out,
    applyScripts a64Tools [.routeTimeout, .routeSkip0, .routeSkip, .route] routeImage = .ok out := by
  obtain ⟨out, hrun⟩ := routeImage_runs
  exact ⟨out, (rtbScripts_any_order a64Tools_a64 routeImage_image (by decide) (by decide) hrun).1⟩

theorem rtbScripts_once_route : ∃ out, applyScripts a64Tools routeScripts routeImage = .ok out ∧
    ∃ message, RtbScript.route.main a64Tools out false = .error (.exit message) := by
  obtain ⟨out, hrun⟩ := routeImage_runs
  exact ⟨out, hrun, rtbScripts_once a64Tools_a64 routeImage_image (by decide) hrun (by decide) false⟩

end SecureWorld.Patcher
