import SecureWorld.Patcher.RtbuddyScripts

/-! # Images for the RTBuddy scripts

An image whose load commands lie below all code: what the scripts find in it does not change when
they write. The places they look at do not overlap in the file.
-/
namespace SecureWorld.Patcher
open Foundations
set_option autoImplicit false

/-! ## Slices -/

theorem pyIndex_natCast (n i : ℕ) : pyIndex n i = min i n := by
  rw [pyIndex, if_neg (by omega), Int.toNat_natCast]

theorem pySlice_natCast (d : Bytes) (a n : ℕ) : pySlice d a (a + n) = slice d a (a + n) := by
  rw [pySlice, ← Int.natCast_add, pyIndex_natCast, pyIndex_natCast, slice, slice]
  by_cases ha : a ≤ d.length
  · rw [Nat.min_eq_left ha, List.take_eq_take_min (i := a + n)]
  · rw [List.drop_eq_nil_of_le, List.drop_eq_nil_of_le]
    all_goals
      rw [List.length_take]
      omega

theorem slice_congr {d out : Bytes} {a b : ℕ} (h : ∀ i, a ≤ i → i < b → out[i]? = d[i]?) :
    slice out a b = slice d a b := by
  refine List.ext_getElem? fun k => ?_
  simp only [slice, List.getElem?_drop, List.getElem?_take]
  exact if_ctx_congr Iff.rfl (fun hk => h _ (Nat.le_add_right a k) hk) fun _ => rfl

/-- Bytes of the same number written over a part of the data. -/
theorem pySetSlice_spec {d new : Bytes} {a : ℕ} (h : a + new.length ≤ d.length) :
    let out := pySetSlice d a (a + new.length) new
    out.length = d.length ∧ slice out a (a + new.length) = new ∧
      ∀ i, i < a ∨ a + new.length ≤ i → out[i]? = d[i]? := by
  have hout : pySetSlice d a (a + new.length) new =
      d.take a ++ new ++ d.drop (a + new.length) := by
    rw [pySetSlice, ← Int.natCast_add, pyIndex_natCast, pyIndex_natCast,
      Nat.min_eq_left (by omega), Nat.min_eq_left h, Nat.max_eq_right (by omega)]
  have htake : (d.take a).length = a := by rw [List.length_take]; omega
  intro out
  rw [show out = _ from hout]
  refine ⟨?_, ?_, fun i hi => ?_⟩
  · rw [List.length_append, List.length_append, htake, List.length_drop]
    omega
  · rw [slice, List.take_left' (by rw [List.length_append, htake]), List.drop_left' htake]
  · rcases hi with hlt | hge
    · rw [List.append_assoc, List.getElem?_append_left (by omega), List.getElem?_take, if_pos hlt]
    · rw [List.getElem?_append_right (by rw [List.length_append]; omega), List.length_append, htake,
        List.getElem?_drop]
      congr 1
      omega

/-! ## Load commands -/

/-- The header at `base` and its commands, as far as they are read, lie below `bound`. -/
structure CommandsBelow (bound : ℕ) (d : Bytes) (base : ℕ) : Prop where
  header : base + 20 ≤ bound
  commands : ∀ o ∈ loadCommands d base, o + 56 ≤ bound

instance (bound : ℕ) (d : Bytes) (base : ℕ) : Decidable (CommandsBelow bound d base) :=
  decidable_of_iff (base + 20 ≤ bound ∧ ∀ o ∈ loadCommands d base, o + 56 ≤ bound)
    ⟨fun h => ⟨h.1, h.2⟩, fun h => ⟨h.1, h.2⟩⟩

/-- The ids behind the fixed part of the entries end below `bound`. -/
def IdsBelow (bound : ℕ) (d : Bytes) : Prop :=
  ∀ o ∈ loadCommands d 0, wordAt d o = lcFilesetEntry → 0 ∈ slice d (o + 32) bound

instance (bound : ℕ) (d : Bytes) : Decidable (IdsBelow bound d) :=
  inferInstanceAs (Decidable (∀ o ∈ _, _ → _))

section Congr
variable {bound : ℕ} {d out : Bytes} (h : AgreeBelow bound d out)
include h

theorem loadCommandsFrom_congr (n p : ℕ) (hall : ∀ o ∈ commandOffsets d n p, o + 56 ≤ bound) :
    commandOffsets out n p = commandOffsets d n p := by
  induction n generalizing p with
  | zero => rfl
  | succ n ih =>
    have hp := hall p List.mem_cons_self
    rw [commandOffsets, commandOffsets, h.unpackI (p + 4) (by omega)]
    cases hsize : unpackI d (p + 4) with
    | error => rfl
    | ok cmdsize => exact congrArg _ (ih _ (commandOffsets_rest hsize hall))

theorem loadCommands_congr {base : ℕ} (hb : CommandsBelow bound d base) :
    loadCommands out base = loadCommands d base := by
  have hlow := hb.header
  have hword : wordAt out (base + 16) = wordAt d (base + 16) :=
    wordAt_congr fun k hk => h.byte _ (by omega)
  rw [loadCommands, loadCommands, hword]
  exact loadCommandsFrom_congr h _ _ hb.commands

theorem machoCmdsFrom_congr {α : Type} {body body' : ℕ → BitVec 32 → Except PyError (Option α)}
    (n p : ℕ) (hall : ∀ o ∈ commandOffsets d n p, o + 56 ≤ bound)
    (hbody : ∀ o ∈ commandOffsets d n p, body' o (wordAt d o) = body o (wordAt d o)) :
    machoCmdsFrom out body' n p = machoCmdsFrom d body n p := by
  induction n generalizing p with
  | zero => rfl
  | succ n ih =>
    have hp := hall p List.mem_cons_self
    rw [machoCmdsFrom, machoCmdsFrom, h.unpackI p (by omega), h.unpackI (p + 4) (by omega)]
    cases hcmd : unpackI d p with
    | error => rfl
    | ok cmd =>
      cases hsize : unpackI d (p + 4) with
      | error => rfl
      | ok cmdsize =>
        have hfirst := hbody p List.mem_cons_self
        rw [wordAt_of_unpackI hcmd] at hfirst
        rw [ok_bind, ok_bind, ok_bind, ok_bind, hfirst,
          ih _ (commandOffsets_rest hsize hall) (commandOffsets_rest hsize hbody)]

theorem machoCmds_congr {α : Type} {base : ℕ} (hb : CommandsBelow bound d base)
    {body body' : ℕ → BitVec 32 → Except PyError (Option α)}
    (hbody : ∀ o ∈ loadCommands d base, body' o (wordAt d o) = body o (wordAt d o)) :
    machoCmds out base body' = machoCmds d base body := by
  have hlow := hb.header
  rw [machoCmds, machoCmds, h.unpackI (base + 16) (by omega)]
  cases hncmds : unpackI d (base + 16) with
  | error => rfl
  | ok ncmds =>
    obtain ⟨-, hall⟩ := hb
    rw [loadCommands, wordAt_of_unpackI hncmds] at hall hbody
    exact machoCmdsFrom_congr h _ _ hall hbody

/-- An id that ends below `bound` is the same in both images. -/
theorem cstringAt_congr {p : ℕ} (hnul : 0 ∈ slice d p bound) : cstringAt out p = cstringAt d p := by
  have hslice : slice out p bound = slice d p bound := h.slice (le_refl bound)
  have hmem (e : Bytes) (he : 0 ∈ slice e p bound) : cstringAt e p = untilNul (slice e p bound) := by
    have hsplit : e.drop p = slice e p bound ++ (e.drop bound).drop (p - (e.take bound).length) := by
      rw [slice, ← List.drop_append, List.take_append_drop]
    have hthere : 0 ∈ e.drop p := by
      rw [hsplit]
      exact List.mem_append_left _ he
    rw [cstringAt, if_pos hthere, hsplit, untilNul_append he]
  rw [hmem out (hslice ▸ hnul), hmem d hnul, hslice]

theorem filesetFileoff_congr (hb : CommandsBelow bound d 0) (hids : IdsBelow bound d)
    (name : Bytes) : filesetFileoff out name = filesetFileoff d name := by
  refine machoCmds_congr h hb fun o ho => ?_
  have hlow := hb.commands o ho
  refine if_ctx_congr Iff.rfl (fun hcmd => ?_) fun _ => rfl
  rw [h.unpackQ (o + 8) (by omega), h.unpackQ (o + 16) (by omega),
    cstringAt_congr h (hids o ho hcmd)]

theorem textExecSegment_congr {fo : ℕ} (hb : CommandsBelow bound d fo) :
    textExecSegment out fo = textExecSegment d fo := by
  refine machoCmds_congr h hb fun o ho => ?_
  have hlow := hb.commands o ho
  rw [h.unpackQ (o + 24) (by omega), h.unpackQ (o + 32) (by omega), h.unpackQ (o + 40) (by omega),
    h.unpackQ (o + 48) (by omega), h.slice (show o + 24 ≤ bound by omega)]

end Congr

/-! ## The code the scripts find -/

theorem machoCmdsFrom_of_ok {α : Type} {d : Bytes}
    {body body' : ℕ → BitVec 32 → Except PyError (Option α)}
    (hbody : ∀ p cmd a, body p cmd = .ok a → body' p cmd = .ok a) (n p : ℕ) {r : Option α}
    (h : machoCmdsFrom d body n p = .ok r) : machoCmdsFrom d body' n p = .ok r := by
  induction n generalizing p with
  | zero => exact h
  | succ n ih =>
    rw [machoCmdsFrom] at h ⊢
    obtain ⟨cmd, hcmd, h⟩ := bind_eq_ok_iff.mp h
    obtain ⟨cs, hcs, h⟩ := bind_eq_ok_iff.mp h
    obtain ⟨found, hfound, h⟩ := bind_eq_ok_iff.mp h
    rw [hcmd, ok_bind, hcs, ok_bind, hbody p cmd found hfound, ok_bind]
    cases found with
    | some a => exact h
    | none => exact ih _ h

/-- Unpacking every segment or only the one that is returned makes no difference where all of them
can be unpacked. -/
theorem textExecOnMatch_of_ok {d : Bytes} {fo : ℕ} {r : Option Segment}
    (h : textExecSegment d fo = .ok r) : textExecOnMatch d fo = .ok r := by
  obtain ⟨ncmds, hncmds, hloop⟩ := bind_eq_ok_iff.mp h
  rw [textExecOnMatch, machoCmds, hncmds, ok_bind]
  refine machoCmdsFrom_of_ok (fun p cmd a ha => ?_) _ _ hloop
  by_cases hcmd : cmd = lcSegment64
  · rw [if_pos hcmd] at ha
    obtain ⟨vmaddr, hvmaddr, ha⟩ := bind_eq_ok_iff.mp ha
    obtain ⟨vmsize, hvmsize, ha⟩ := bind_eq_ok_iff.mp ha
    obtain ⟨foff, hfoff, ha⟩ := bind_eq_ok_iff.mp ha
    obtain ⟨fsz, hfsz, ha⟩ := bind_eq_ok_iff.mp ha
    by_cases hname : rstripNul (slice d (p + 8) (p + 24)) = asciiBytes "__TEXT_EXEC"
    · rw [if_pos hname] at ha
      rw [if_pos ⟨hcmd, hname⟩, hvmaddr, ok_bind, hvmsize, ok_bind, hfoff, ok_bind, hfsz, ok_bind]
      exact ha
    · rw [if_neg hname] at ha
      rw [if_neg fun hand => hname hand.2]
      exact ha
  · rw [if_neg hcmd] at ha
    rw [if_neg fun hand => hcmd hand.1]
    exact ha

/-- The kext `name` is an entry, and its code is at this address and file offset. -/
def HasText (bound : ℕ) (d name : Bytes) (text : ℕ × ℕ) : Prop :=
  ∃ fo seg, filesetFileoff d name = .ok (some fo) ∧ CommandsBelow bound d fo ∧
    textExecSegment d fo = .ok (some seg) ∧ addressAndOffset seg = text

/-- What a script checks. -/
def RtbScript.reads : RtbScript → List Place
  | .secureproxyV2 => [.ldr, .patch, .tramp]
  | .route => [.find, .succ, .cbz]
  | .routeSkip => [.find, .succ, .cmp, .gate]
  | .routeSkip0 => [.find, .succ, .movX22, .movX24]
  | .routeTimeout => [.find, .succ, .movX0, .tmo, .bl]

/-- What it writes over. -/
def RtbScript.writes : RtbScript → List Place
  | .secureproxyV2 => [.tramp, .patch]
  | .route => [.cbz]
  | .routeSkip => [.gate]
  | .routeSkip0 => [.movX22, .movX24]
  | .routeTimeout => [.tmo]

/-- The file offset of a place. -/
def placeOffset (rtb kern : ℕ × ℕ) (p : Place) : ℕ :=
  if p = .tramp then kern.2 + (p.va - kern.1) else rtb.2 + (p.va - rtb.1)

/-- An image for the scripts of `l`: the load commands they read lie below `bound`, all code above.
What they check lies in the code that they find, and the filler in the kernel is not RTBuddy's. -/
structure RtbImage (bound : ℕ) (d : Bytes) (l : List RtbScript) (rtb kern : ℕ × ℕ) : Prop where
  commands : CommandsBelow bound d 0
  ids : IdsBelow bound d
  rtbuddy : HasText bound d rtbuddyName rtb ∧ bound ≤ rtb.2
  kernel : .secureproxyV2 ∈ l → HasText bound d kernelName kern ∧ bound ≤ kern.2
  inText : ∀ s ∈ l, ∀ p ∈ s.reads, (if p = .tramp then kern.1 else rtb.1) ≤ p.va
  apart : .secureproxyV2 ∈ l → ∀ s ∈ l, ∀ p ∈ s.reads, p ≠ .tramp →
    placeOffset rtb kern p + 4 ≤ placeOffset rtb kern .tramp ∨
      placeOffset rtb kern .tramp + 16 ≤ placeOffset rtb kern p

theorem HasText.congr {bound : ℕ} {d out name : Bytes} {text : ℕ × ℕ}
    (htext : HasText bound d name text) (hb : CommandsBelow bound d 0) (hids : IdsBelow bound d)
    (h : AgreeBelow bound d out) : HasText bound out name text := by
  obtain ⟨fo, seg, hfo, hbelow, hseg, heq⟩ := htext
  have hload := loadCommands_congr h hbelow
  refine ⟨fo, seg, (filesetFileoff_congr h hb hids name).trans hfo, ⟨hbelow.header, ?_⟩,
    (textExecSegment_congr h hbelow).trans hseg, heq⟩
  rw [hload]
  exact hbelow.commands

section Image
variable {bound : ℕ} {d out : Bytes} {l : List RtbScript} {rtb kern : ℕ × ℕ}

theorem RtbImage.congr (himg : RtbImage bound d l rtb kern) (h : AgreeBelow bound d out) :
    RtbImage bound out l rtb kern where
  commands := by
    refine ⟨himg.commands.header, ?_⟩
    rw [loadCommands_congr h himg.commands]
    exact himg.commands.commands
  ids o ho hcmd := by
    rw [loadCommands_congr h himg.commands] at ho
    have hlow := himg.commands.commands o ho
    have hword : wordAt out o = wordAt d o := wordAt_congr fun k hk => h.byte _ (by omega)
    rw [h.slice (le_refl bound)]
    exact himg.ids o ho (hword ▸ hcmd)
  rtbuddy := ⟨himg.rtbuddy.1.congr himg.commands himg.ids h, himg.rtbuddy.2⟩
  kernel hmem := ⟨(himg.kernel hmem).1.congr himg.commands himg.ids h, (himg.kernel hmem).2⟩
  inText := himg.inText
  apart := himg.apart

theorem offsetIn_eq {text : ℕ × ℕ} {p : Place} (h : text.1 ≤ p.va) :
    offsetIn text p = (text.2 + (p.va - text.1) : ℕ) := by
  rw [offsetIn]
  omega

/-- The script finds its places. -/
theorem RtbImage.locate (h : RtbImage bound d l rtb kern) {s : RtbScript} (hs : s ∈ l) :
    ∃ offsetOf, s.locate d = .ok offsetOf ∧
      ∀ p ∈ s.reads, offsetOf p = placeOffset rtb kern p := by
  obtain ⟨⟨fo, seg, hfo, -, hseg, rfl⟩, -⟩ := h.rtbuddy
  have hin := h.inText s hs
  have hplain : ∀ p ∈ s.reads, p ≠ .tramp →
      offsetIn (seg.vmaddr, seg.fileoff) p = placeOffset (addressAndOffset seg) kern p := by
    intro p hp hne
    have hlow := hin p hp
    rw [if_neg hne] at hlow
    rw [placeOffset, if_neg hne]
    exact offsetIn_eq hlow
  have hfirst : SecureproxyV2.textExec d fo = .ok (some (seg.vmaddr, seg.fileoff)) := by
    rw [SecureproxyV2.textExec, hseg]
    rfl
  have hskip : RouteSkip.textExec d fo =
      .ok (some (seg.vmaddr, seg.fileoff, seg.filesize)) := by
    rw [RouteSkip.textExec, hseg]
    rfl
  cases s with
  | secureproxyV2 =>
    obtain ⟨⟨kfo, kseg, hkfo, -, hkseg, rfl⟩, -⟩ := h.kernel hs
    refine ⟨fun p => if p = .tramp then offsetIn (kseg.vmaddr, kseg.fileoff) p
      else offsetIn (seg.vmaddr, seg.fileoff) p, ?_, fun p hp => ?_⟩
    · have hkern : SecureproxyV2.textExec d kfo = .ok (some (kseg.vmaddr, kseg.fileoff)) := by
        rw [SecureproxyV2.textExec, hkseg]
        rfl
      simp only [RtbScript.locate, hfo, hfirst, hkfo, hkern, py, orHalt, script_bind]
      rfl
    · dsimp only
      by_cases htramp : p = .tramp
      · have hlow := hin p hp
        rw [if_pos htramp] at hlow
        rw [if_pos htramp, placeOffset, if_pos htramp]
        exact offsetIn_eq hlow
      · rw [if_neg htramp]
        exact hplain p hp htramp
  | route =>
    refine ⟨offsetIn (seg.vmaddr, seg.fileoff), ?_, fun p hp => hplain p hp ?_⟩
    · simp only [RtbScript.locate, hfo, hfirst, py, orHalt, script_bind]
      rfl
    · rintro rfl
      simp [RtbScript.reads] at hp
  | routeSkip =>
    refine ⟨offsetIn (seg.vmaddr, seg.fileoff), ?_, fun p hp => hplain p hp ?_⟩
    · simp only [RtbScript.locate, hfo, hskip, py, orHalt, script_bind]
      rfl
    · rintro rfl
      simp [RtbScript.reads] at hp
  | routeSkip0 | routeTimeout =>
    refine ⟨offsetIn (seg.vmaddr, seg.fileoff), ?_, fun p hp => hplain p hp ?_⟩
    · simp only [RtbScript.locate, hfo, textExecOnMatch_of_ok hseg, py, orHalt, script_bind]
      rfl
    · rintro rfl
      simp [RtbScript.reads] at hp

end Image
end SecureWorld.Patcher
