import SecureWorld.Panel.Console

/-! # The on-panel keyboard (`darwin_kbd_event` of the machine)

Key events arrive as Linux key codes; a key that goes down puts one byte into the guest's UART.
Which Linux code stands for which key is QEMU's table and a parameter here.
-/
namespace SecureWorld.Panel
open Foundations
set_option autoImplicit false

/-- The `Q_KEY_CODE_…` the machine knows; all others are `other`. -/
inductive QKeyCode
  | keyA | keyB | keyC | keyD | keyE | keyF | keyG | keyH | keyI | keyJ | keyK | keyL | keyM | keyN
  | keyO | keyP | keyQ | keyR | keyS | keyT | keyU | keyV | keyW | keyX | keyY | keyZ
  | key0 | key1 | key2 | key3 | key4 | key5 | key6 | key7 | key8 | key9
  | spc | ret | tab | backspace | esc | minus | equal | bracketLeft | bracketRight | backslash
  | semicolon | apostrophe | graveAccent | comma | dot | slash
  | shift | shiftR | ctrl | ctrlR | other
  deriving DecidableEq, Repr

def chr (c : Char) : Byte := BitVec.ofNat 8 c.toNat

def qcodeToAscii (q : QKeyCode) (sh : Bool) : Byte :=
  match q with
  | .keyA => if sh then chr 'A' else chr 'a'
  | .keyB => if sh then chr 'B' else chr 'b'
  | .keyC => if sh then chr 'C' else chr 'c'
  | .keyD => if sh then chr 'D' else chr 'd'
  | .keyE => if sh then chr 'E' else chr 'e'
  | .keyF => if sh then chr 'F' else chr 'f'
  | .keyG => if sh then chr 'G' else chr 'g'
  | .keyH => if sh then chr 'H' else chr 'h'
  | .keyI => if sh then chr 'I' else chr 'i'
  | .keyJ => if sh then chr 'J' else chr 'j'
  | .keyK => if sh then chr 'K' else chr 'k'
  | .keyL => if sh then chr 'L' else chr 'l'
  | .keyM => if sh then chr 'M' else chr 'm'
  | .keyN => if sh then chr 'N' else chr 'n'
  | .keyO => if sh then chr 'O' else chr 'o'
  | .keyP => if sh then chr 'P' else chr 'p'
  | .keyQ => if sh then chr 'Q' else chr 'q'
  | .keyR => if sh then chr 'R' else chr 'r'
  | .keyS => if sh then chr 'S' else chr 's'
  | .keyT => if sh then chr 'T' else chr 't'
  | .keyU => if sh then chr 'U' else chr 'u'
  | .keyV => if sh then chr 'V' else chr 'v'
  | .keyW => if sh then chr 'W' else chr 'w'
  | .keyX => if sh then chr 'X' else chr 'x'
  | .keyY => if sh then chr 'Y' else chr 'y'
  | .keyZ => if sh then chr 'Z' else chr 'z'
  | .key0 => if sh then chr ')' else chr '0'
  | .key1 => if sh then chr '!' else chr '1'
  | .key2 => if sh then chr '@' else chr '2'
  | .key3 => if sh then chr '#' else chr '3'
  | .key4 => if sh then chr '$' else chr '4'
  | .key5 => if sh then chr '%' else chr '5'
  | .key6 => if sh then chr '^' else chr '6'
  | .key7 => if sh then chr '&' else chr '7'
  | .key8 => if sh then chr '*' else chr '8'
  | .key9 => if sh then chr '(' else chr '9'
  | .spc => chr ' '
  | .ret => 0x0d
  | .tab => 0x09
  | .backspace => 0x7f
  | .esc => 0x1b
  | .minus => if sh then chr '_' else chr '-'
  | .equal => if sh then chr '+' else chr '='
  | .bracketLeft => if sh then 0x7b else chr '['
  | .bracketRight => if sh then 0x7d else chr ']'
  | .backslash => if sh then chr '|' else 0x5c
  | .semicolon => if sh then chr ':' else chr ';'
  | .apostrophe => if sh then 0x22 else 0x27
  | .graveAccent => if sh then chr '~' else 0x60
  | .comma => if sh then chr '<' else chr ','
  | .dot => if sh then chr '>' else chr '.'
  | .slash => if sh then chr '?' else chr '/'
  | .shift | .shiftR | .ctrl | .ctrlR | .other => 0

/-- `Ctrl` turns letters of both cases into 1 to 26. -/
def controlByte (c : Byte) : Byte :=
  if chr 'a' ≤ c ∧ c ≤ chr 'z' then c - chr 'a' + 1
  else if chr 'A' ≤ c ∧ c ≤ chr 'Z' then c - chr 'A' + 1
  else c

/-- The event handler's statics, and the bytes the UART has received. -/
structure Keyboard where
  kbdShift : Bool
  kbdCtrl : Bool
  received : List Byte

structure InputEvent where
  isKey : Bool
  key : ℕ
  down : Bool

def darwinUartInject (s : Keyboard) (buf : List Byte) : Keyboard :=
  { s with received := s.received ++ buf }

section Handler
variable (linuxToQcode : ℕ → QKeyCode)

def darwinKbdEvent (s : Keyboard) (evt : InputEvent) : Keyboard :=
  if ¬ evt.isKey then s
  else
    let q := linuxToQcode evt.key
    if q = .shift ∨ q = .shiftR then { s with kbdShift := evt.down }
    else if q = .ctrl ∨ q = .ctrlR then { s with kbdCtrl := evt.down }
    else if ¬ evt.down then s
    else
      let c := qcodeToAscii q s.kbdShift
      if c = 0 then s
      else darwinUartInject s [if s.kbdCtrl then controlByte c else c]

/-! ## What one event does -/

def IsModifier (q : QKeyCode) : Prop := q = .shift ∨ q = .shiftR ∨ q = .ctrl ∨ q = .ctrlR

instance (q : QKeyCode) : Decidable (IsModifier q) := by unfold IsModifier; infer_instance

/-- The byte of a key under the two modifiers, none for a key without a character. -/
def keyByte (q : QKeyCode) (sh ctrl : Bool) : Option Byte :=
  let c := qcodeToAscii q sh
  if c = 0 then none else some (if ctrl then controlByte c else c)

variable {linuxToQcode}

theorem event_shift (s : Keyboard) {key : ℕ} (hkey : linuxToQcode key = .shift) (down : Bool) :
    darwinKbdEvent linuxToQcode s ⟨true, key, down⟩ = { s with kbdShift := down } := by
  simp [darwinKbdEvent, hkey]

theorem event_ctrl (s : Keyboard) {key : ℕ} (hkey : linuxToQcode key = .ctrl) (down : Bool) :
    darwinKbdEvent linuxToQcode s ⟨true, key, down⟩ = { s with kbdCtrl := down } := by
  simp [darwinKbdEvent, hkey]

theorem event_up (s : Keyboard) {key : ℕ} (hkey : ¬ IsModifier (linuxToQcode key)) :
    darwinKbdEvent linuxToQcode s ⟨true, key, false⟩ = s := by
  simp only [IsModifier, not_or] at hkey
  simp [darwinKbdEvent, hkey]

theorem event_down (s : Keyboard) {key : ℕ} (hkey : ¬ IsModifier (linuxToQcode key)) :
    darwinKbdEvent linuxToQcode s ⟨true, key, true⟩ =
      { s with received := s.received ++
        (keyByte (linuxToQcode key) s.kbdShift s.kbdCtrl).toList } := by
  simp only [IsModifier, not_or] at hkey
  simp only [darwinKbdEvent, hkey, keyByte, darwinUartInject, not_true_eq_false, or_self, if_false]
  split_ifs
  · rw [Option.toList_none, List.append_nil]
  · rfl
  · rfl

end Handler

/-- Every byte from 1 to 127 but the four above Escape. -/
def Typeable (b : Byte) : Prop := (1 ≤ b.toNat ∧ b.toNat ≤ 27) ∨ (32 ≤ b.toNat ∧ b.toNat ≤ 127)

instance (b : Byte) : Decidable (Typeable b) := by unfold Typeable; infer_instance

theorem Typeable.control : ∀ n : Fin 128, Typeable (BitVec.ofNat 8 n) →
    Typeable (controlByte (BitVec.ofNat 8 n)) := by
  decide +kernel

theorem Typeable.exists_fin {b : Byte} (h : Typeable b) : ∃ n : Fin 128, BitVec.ofNat 8 n = b := by
  have hlt : b.toNat < 128 := by
    unfold Typeable at h
    omega
  exact ⟨⟨b.toNat, hlt⟩, BitVec.ofNat_toNat 8 b⟩

theorem qcodeToAscii_typeable (q : QKeyCode) (sh : Bool) (h : qcodeToAscii q sh ≠ 0) :
    Typeable (qcodeToAscii q sh) := by
  cases q <;> cases sh <;> first | exact absurd rfl h | decide +kernel

theorem keyByte_typeable {q : QKeyCode} {sh ctrl : Bool} {b : Byte}
    (h : keyByte q sh ctrl = some b) : Typeable b := by
  rw [keyByte] at h
  split_ifs at h with hzero hctrl
  · obtain rfl := Option.some.inj h
    have hkey := qcodeToAscii_typeable q sh hzero
    obtain ⟨n, hn⟩ := hkey.exists_fin
    rw [← hn] at hkey ⊢
    exact Typeable.control n hkey
  · obtain rfl := Option.some.inj h
    exact qcodeToAscii_typeable q sh hzero

/-- The keys that type something. -/
def typingKeys : List QKeyCode :=
  [.keyA, .keyB, .keyC, .keyD, .keyE, .keyF, .keyG, .keyH, .keyI, .keyJ, .keyK, .keyL, .keyM, .keyN,
    .keyO, .keyP, .keyQ, .keyR, .keyS, .keyT, .keyU, .keyV, .keyW, .keyX, .keyY, .keyZ,
    .key0, .key1, .key2, .key3, .key4, .key5, .key6, .key7, .key8, .key9,
    .spc, .ret, .tab, .backspace, .esc, .minus, .equal, .bracketLeft, .bracketRight, .backslash,
    .semicolon, .apostrophe, .graveAccent, .comma, .dot, .slash]

theorem exists_key : ∀ n : Fin 128, Typeable (BitVec.ofNat 8 n) →
    ∃ q ∈ typingKeys, ∃ sh ctrl : Bool, ¬ IsModifier q ∧
      keyByte q sh ctrl = some (BitVec.ofNat 8 n) := by
  decide +kernel

/-! ## Whole typing sessions -/

def Keyboard.fresh : Keyboard := ⟨false, false, []⟩

section Sessions
variable {linuxToQcode : ℕ → QKeyCode}

theorem event_typeable (s : Keyboard) (evt : InputEvent) (h : ∀ b ∈ s.received, Typeable b) :
    ∀ b ∈ (darwinKbdEvent linuxToQcode s evt).received, Typeable b := by
  obtain ⟨isKey, key, down⟩ := evt
  cases isKey with
  | false => exact h
  | true =>
    by_cases hmod : IsModifier (linuxToQcode key)
    · have hsame : (darwinKbdEvent linuxToQcode s ⟨true, key, down⟩).received = s.received := by
        rcases hmod with hq | hq | hq | hq <;> simp [darwinKbdEvent, hq]
      rw [hsame]
      exact h
    · cases down with
      | false =>
        rw [event_up s hmod]
        exact h
      | true =>
        rw [event_down s hmod]
        intro b hb
        rcases List.mem_append.mp hb with hb | hb
        · exact h b hb
        · exact keyByte_typeable (Option.mem_toList.mp hb)

/-- The keys pressed and released around a byte: the modifiers first, the key, the modifiers. -/
def strokes (shiftKey ctrlKey key : ℕ) (sh ctrl : Bool) : List InputEvent :=
  [⟨true, shiftKey, sh⟩, ⟨true, ctrlKey, ctrl⟩, ⟨true, key, true⟩, ⟨true, key, false⟩,
    ⟨true, shiftKey, false⟩, ⟨true, ctrlKey, false⟩]

theorem run_strokes {shiftKey ctrlKey key : ℕ} (hshift : linuxToQcode shiftKey = .shift)
    (hctrl : linuxToQcode ctrlKey = .ctrl) (hkey : ¬ IsModifier (linuxToQcode key)) {sh ctrl : Bool}
    {b : Byte} (hb : keyByte (linuxToQcode key) sh ctrl = some b) (text : List Byte) :
    run (darwinKbdEvent linuxToQcode) ⟨false, false, text⟩ (strokes shiftKey ctrlKey key sh ctrl) =
      ⟨false, false, text ++ [b]⟩ := by
  simp only [strokes, run_cons, run_nil, event_shift _ hshift, event_ctrl _ hctrl,
    event_down _ hkey, event_up _ hkey, hb, Option.toList_some]

theorem exists_strokes (hkeys : ∀ q ∈ QKeyCode.shift :: .ctrl :: typingKeys,
      ∃ key, linuxToQcode key = q) {b : Byte} (hb : Typeable b) (text : List Byte) :
    ∃ evts, run (darwinKbdEvent linuxToQcode) ⟨false, false, text⟩ evts =
      ⟨false, false, text ++ [b]⟩ := by
  obtain ⟨shiftKey, hshift⟩ := hkeys .shift List.mem_cons_self
  obtain ⟨ctrlKey, hctrl⟩ := hkeys .ctrl (List.mem_cons_of_mem _ List.mem_cons_self)
  obtain ⟨n, rfl⟩ := hb.exists_fin
  obtain ⟨q, hq, sh, ctrl, hmod, hbyte⟩ := exists_key n hb
  obtain ⟨key, rfl⟩ := hkeys q (List.mem_cons_of_mem _ (List.mem_cons_of_mem _ hq))
  exact ⟨_, run_strokes hshift hctrl hmod hbyte text⟩

/-- Whatever keys are pressed and released in whatever order, the guest receives only bytes from 1
to 127 other than 28 to 31; and every text of these bytes can be typed, with the modifiers released
at its end. -/
theorem keyboard_types_exactly (linuxToQcode : ℕ → QKeyCode)
    (hkeys : ∀ q ∈ QKeyCode.shift :: .ctrl :: typingKeys, ∃ key, linuxToQcode key = q) :
    (∀ evts, ∀ b ∈ (run (darwinKbdEvent linuxToQcode) Keyboard.fresh evts).received, Typeable b) ∧
      ∀ text : List Byte, (∀ b ∈ text, Typeable b) →
        ∃ evts, run (darwinKbdEvent linuxToQcode) Keyboard.fresh evts = ⟨false, false, text⟩ := by
  constructor
  · intro evts
    exact run_preserves (darwinKbdEvent linuxToQcode) (fun s => ∀ b ∈ s.received, Typeable b)
      (fun _ => True) (fun s evt _ h => event_typeable s evt h) evts _ (fun _ _ => trivial)
      (List.forall_mem_nil _)
  · intro text
    induction text using List.reverseRecOn with
    | nil => exact fun _ => ⟨[], rfl⟩
    | append_singleton text b ih =>
      intro htext
      rw [List.forall_mem_append, List.forall_mem_singleton] at htext
      obtain ⟨evts, hevts⟩ := ih htext.1
      obtain ⟨more, hmore⟩ := exists_strokes hkeys htext.2 text
      exact ⟨evts ++ more, by rw [run_append, hevts, hmore]⟩

end Sessions

/-- The codes of the main block of a keyboard, by row. -/
def linuxKeys : List (ℕ × List QKeyCode) :=
  [(1, [.esc, .key1, .key2, .key3, .key4, .key5, .key6, .key7, .key8, .key9, .key0, .minus, .equal,
      .backspace, .tab, .keyQ, .keyW, .keyE, .keyR, .keyT, .keyY, .keyU, .keyI, .keyO, .keyP,
      .bracketLeft, .bracketRight, .ret, .ctrl, .keyA, .keyS, .keyD, .keyF, .keyG, .keyH, .keyJ,
      .keyK, .keyL, .semicolon, .apostrophe, .graveAccent, .shift, .backslash, .keyZ, .keyX, .keyC,
      .keyV, .keyB, .keyN, .keyM, .comma, .dot, .slash, .shiftR]), (57, [.spc]), (97, [.ctrlR])]

def linuxKey (key : ℕ) : QKeyCode :=
  (linuxKeys.findSome? fun (first, qs) =>
    if key < first then none else qs[key - first]?).getD .other

theorem keyboard_types_exactly_login :
    ∃ evts, run (darwinKbdEvent linuxKey) Keyboard.fresh evts =
      ⟨false, false, [0x03, 0x69, 0x64, 0x0d]⟩ :=
  (keyboard_types_exactly linuxKey (fun q hq =>
    have h : ∀ q ∈ QKeyCode.shift :: .ctrl :: typingKeys, ∃ key ∈ List.range 98, linuxKey key = q :=
      by decide +kernel
    let ⟨key, _, hkey⟩ := h q hq
    ⟨key, hkey⟩)).2 _ (by decide)

end SecureWorld.Panel
