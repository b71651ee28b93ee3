import SecureWorld.Patcher.FilesetReaders

/-! # The RTBuddy scripts

Five scripts patch RTBuddy's `start()` in a fileset kernelcache. Each finds the code of the kext by
its load commands, checks what is at fixed addresses, and then writes a few words there. A word
that is not what it should be ends the script before it writes.
-/
namespace SecureWorld.Patcher
open Foundations
set_option autoImplicit false

/-! ## Python -/

/-- What ends a script early. -/
inductive Halt
  /-- `sys.exit` -/
  | exit (message : String)
  | python (e : PyError)
  /-- `IndexError` -/
  | index
  /-- `TypeError` -/
  | type
deriving DecidableEq

theorem script_bind {α β : Type} (a : α) (f : α → Except Halt β) :
    (Except.ok a >>= f) = f a := rfl

def py {α : Type} : Except PyError α → Except Halt α
  | .ok a => .ok a
  | .error e => .error (.python e)

def exitUnless (cond : Bool) (message : String) : Except Halt Unit :=
  if cond then .ok () else .error (.exit message)

def orHalt {α : Type} (a : Option α) (halt : Halt) : Except Halt α :=
  match a with
  | some a => .ok a
  | none => .error halt

def byteAt (b : Bytes) (k : ℕ) : Except Halt UInt8 := orHalt b[k]? .index

/-- Where the index `i` of a slice cuts: from the end if it is negative. -/
def pyIndex (n : ℕ) (i : ℤ) : ℕ := if i < 0 then (i + n).toNat else min i.toNat n

/-- `d[a:b]` -/
def pySlice (d : Bytes) (a b : ℤ) : Bytes := slice d (pyIndex d.length a) (pyIndex d.length b)

/-- `d[a:b] = new` -/
def pySetSlice (d : Bytes) (a b : ℤ) (new : Bytes) : Bytes :=
  d.take (pyIndex d.length a) ++ new ++ d.drop (max (pyIndex d.length a) (pyIndex d.length b))

def hexText (n : ℕ) : String := String.ofList (Nat.toDigits 16 n)

/-- `b.hex()` -/
def hexOf (b : Bytes) : String :=
  String.join (b.map fun c => hexText (c.toNat / 16) ++ hexText (c.toNat % 16))

/-! ## Tools and addresses -/

structure CsInsn where
  mnemonic : String
  opStr : String
deriving DecidableEq

/-- The assembler's bytes for a line at an address, the disassembler's instructions. -/
structure Tools where
  asm : String → ℕ → Bytes
  disasm : Bytes → ℕ → List CsInsn

/-- What the scripts look at. -/
inductive Place
  | find | succ
  | cbz
  | cmp | gate
  | movX22 | movX24
  | movX0 | tmo | bl
  | ldr | patch | tramp
deriving DecidableEq

def Place.va : Place → ℕ
  | .find => 0xFFFFFFF00A7C5200
  | .succ => 0xFFFFFFF00A7C538C
  | .cbz => 0xFFFFFFF00A7C52F0
  | .cmp => 0xFFFFFFF00A7C5180
  | .gate => 0xFFFFFFF00A7C5184
  | .movX22 => 0xFFFFFFF00A7C5188
  | .movX24 => 0xFFFFFFF00A7C518C
  | .movX0 => 0xFFFFFFF00A7C5270
  | .tmo => 0xFFFFFFF00A7C5274
  | .bl => 0xFFFFFFF00A7C5278
  | .ldr => 0xFFFFFFF00A7BB5A4
  | .patch => 0xFFFFFFF00A7BB5A8
  | .tramp => 0xFFFFFFF00AA61F00

def Place.size : Place → ℕ
  | .tramp => 16
  | _ => 4

/-- The loop exit, `EXIT_VA`. -/
def exitVa : ℕ := 0xFFFFFFF00A7C53A4

/-- `REAL_FN` -/
def realFn : ℕ := 0xFFFFFFF00A7CC8AC

/-- `RET_VA` -/
def retVa : ℕ := Place.tramp.va + 8

/-- `d[offset : offset + size] = bytes` -/
structure Write where
  place : Place
  size : ℕ
  bytes : Bytes
deriving DecidableEq

abbrev Plan := (Place → Bytes) → Except Halt (List Write)

/-! ## Checks and writes -/

/-- The two logging calls of the route loop. -/
def routeAnchors (read : Place → Bytes) (find succ : String) : Except Halt Unit := do
  exitUnless (read .find = [0x63, 0xd0, 0x0f, 0x91]) find
  exitUnless (read .succ = [0x63, 0x48, 0x10, 0x91]) succ

def Route.plan (tools : Tools) : Plan := fun read => do
  routeAnchors read "anchor mismatch: 'Finding route' add not where expected"
    "anchor mismatch: 'Success route' add not where expected"
  let cur := read .cbz
  let top ← byteAt cur 3
  let low ← byteAt cur 0
  exitUnless (top = 0xb4 ∧ low &&& 0x1f = 0) ("target is not 'cbz x0, ...': " ++ hexOf cur)
  return [⟨.cbz, 4, tools.asm "nop" 0⟩]

/-- `next(md.disasm(b, va), None)` -/
def Tools.first (tools : Tools) (b : Bytes) (va : ℕ) : Option CsInsn := (tools.disasm b va).head?

/-- `i.mnemonic if i else '??'` -/
def mnemonicOf (i : Option CsInsn) : String := i.elim "??" CsInsn.mnemonic

def RouteSkip.plan (tools : Tools) : Plan := fun read => do
  routeAnchors read "anchor mismatch: 'Finding route' add not where expected"
    "anchor mismatch: 'Success route' add not where expected"
  let cmp := tools.first (read .cmp) Place.cmp.va
  let gate := tools.first (read .gate) Place.gate.va
  exitUnless (cmp.any (·.mnemonic = "cmp"))
    ("anchor mismatch: expected 'cmp' at CMP_VA, got " ++ mnemonicOf cmp)
  exitUnless (gate.any fun i => i.mnemonic ∈ ["b.lo", "b.cc"])
    ("anchor mismatch: expected 'b.lo' at GATE_VA, got " ++ mnemonicOf gate)
  let target := gate.elim "" CsInsn.opStr
  exitUnless (target = "#0x" ++ hexText exitVa)
    ("anchor mismatch: b.lo target is " ++ target ++ ", expected #0x" ++ hexText exitVa)
  let new := tools.asm ("b 0x" ++ hexText exitVa) Place.gate.va
  let chk := tools.first new Place.gate.va
  exitUnless (chk = some ⟨"b", "#0x" ++ hexText exitVa⟩) "replacement verification failed"
  return [⟨.gate, 4, new⟩]

def RouteSkip0.plan : Plan := fun read => do
  routeAnchors read "anchor Finding" "anchor Success"
  exitUnless (read .movX22 = [0x16, 0, 0x80, 0xd2] ∧ read .movX24 = [0x18, 0, 0x80, 0xd2])
    "anchor mismatch: expected mov x22,#0 / mov x24,#0"
  return [⟨.movX22, 4, [0x96, 0, 0x80, 0xd2]⟩, ⟨.movX24, 4, [0x38, 0, 0x80, 0xd2]⟩]

/-- `f"{i.mnemonic if i else '??'} {i.op_str if i else ''}"` -/
def insnText (i : Option CsInsn) : String := mnemonicOf i ++ " " ++ i.elim "" CsInsn.opStr

def RouteTimeout.plan (tools : Tools) : Plan := fun read => do
  routeAnchors read "anchor mismatch: 'Finding route' add"
    "anchor mismatch: 'Success route' add"
  let movX0 := tools.first (read .movX0) Place.movX0.va
  let tmo := tools.first (read .tmo) Place.tmo.va
  let bl := tools.first (read .bl) Place.bl.va
  exitUnless (movX0 = some ⟨"mov", "x0, x28"⟩)
    ("anchor mismatch: expected 'mov x0, x28', got " ++ insnText movX0)
  exitUnless (tmo = some ⟨"mov", "x1, #-1"⟩)
    ("anchor mismatch: expected 'mov x1, #-1', got " ++ insnText tmo)
  exitUnless (bl.any (·.mnemonic = "bl"))
    ("anchor mismatch: expected 'bl' after timeout, got " ++ mnemonicOf bl)
  let new := tools.asm "mov x1, #0" Place.tmo.va
  let chk := tools.first new Place.tmo.va
  exitUnless (chk = some ⟨"mov", "x1, #0"⟩) "replacement verification failed"
  return [⟨.tmo, 4, new⟩]

/-- An instruction, and the mnemonic and operands wanted of it; no operands, no matter which. -/
def unlikeWanted : CsInsn × CsInsn → Bool
  | (insn, want) => insn.mnemonic ≠ want.mnemonic ∨ (want.opStr ≠ "" ∧ insn.opStr ≠ want.opStr)

def SecureproxyV2.plan (tools : Tools) : Plan := fun read => do
  exitUnless (read .ldr = [0x60, 0xd6, 0x50, 0xf9])
    "anchor mismatch: expected 'ldr x0, [x19, #0x21a8]' at LDR_VA"
  let cur := read .patch
  let top ← byteAt cur 3
  exitUnless (top &&& 0xfc = 0x94)
    ("anchor mismatch: expected 'bl ...' at PATCH_VA, got " ++ hexOf cur)
  let region := read .tramp
  exitUnless (region = List.replicate 16 0)
    ("anchor mismatch: expected 16 zero bytes (udf filler) at TRAMP_VA, got " ++ hexOf region ++
      " -- refusing to overwrite non-dead code")
  let trampoline := tools.asm ("cbz x0, 0x" ++ hexText retVa) Place.tramp.va ++
    tools.asm ("b 0x" ++ hexText realFn) (Place.tramp.va + 4) ++ tools.asm "ret" retVa
  let site := tools.asm ("bl 0x" ++ hexText Place.tramp.va) Place.patch.va
  -- a shorter disassembly is compared as far as it goes
  let wanted : List CsInsn := [⟨"cbz", "x0, #0x" ++ hexText retVa⟩,
    ⟨"b", "#0x" ++ hexText realFn⟩, ⟨"ret", ""⟩]
  if let some (insn, want) :=
      ((tools.disasm trampoline Place.tramp.va).zip wanted).find? unlikeWanted then
    .error (.exit ("trampoline verification failed: got " ++ insn.mnemonic ++ " " ++ insn.opStr ++
      ", want " ++ want.mnemonic ++ " " ++ want.opStr))
  exitUnless (tools.first site Place.patch.va = some ⟨"bl", "#0x" ++ hexText Place.tramp.va⟩)
    "patch-site verification failed"
  return [⟨.tramp, trampoline.length, trampoline⟩, ⟨.patch, 4, site⟩]

/-! ## The code of a kext -/

/-- `tx` and `text_exec` of `patch_rtbuddy_route_skip0.py` and `patch_rtbuddy_route_timeout.py`:
the fields are unpacked only if the name matches. -/
def textExecOnMatch (d : Bytes) (fo : ℕ) : Except PyError (Option Segment) :=
  machoCmds d fo fun p cmd =>
    if cmd = lcSegment64 ∧ rstripNul (slice d (p + 8) (p + 24)) = asciiBytes "__TEXT_EXEC" then do
      let vmaddr ← unpackQ d (p + 24)
      let vmsize ← unpackQ d (p + 32)
      let foff ← unpackQ d (p + 40)
      let fsz ← unpackQ d (p + 48)
      return some ⟨vmaddr, vmsize, foff, fsz⟩
    else .ok none

def rtbuddyName : Bytes := asciiBytes "com.apple.driver.RTBuddy"

def kernelName : Bytes := asciiBytes "com.apple.kernel"

/-- `tx_fo + (va - tx_va)` -/
def offsetIn (text : ℕ × ℕ) (p : Place) : ℤ := text.2 + ((p.va : ℤ) - text.1)

inductive RtbScript
  | secureproxyV2 | route | routeSkip | routeSkip0 | routeTimeout
deriving DecidableEq

/-- The file offsets of the places; a halt where the code is not found. -/
def RtbScript.locate : RtbScript → Bytes → Except Halt (Place → ℤ)
  | .secureproxyV2, d => do
      let rtbFo ← orHalt (← py (filesetFileoff d rtbuddyName)) (.exit "RTBuddy fileset not found")
      let rtbTx ← orHalt (← py (SecureproxyV2.textExec d rtbFo))
        (.exit "RTBuddy __TEXT_EXEC not found")
      let kernFo ← orHalt (← py (filesetFileoff d kernelName))
        (.exit "com.apple.kernel fileset not found")
      let kernTx ← orHalt (← py (SecureproxyV2.textExec d kernFo))
        (.exit "com.apple.kernel __TEXT_EXEC not found")
      return fun p => if p = .tramp then offsetIn kernTx p else offsetIn rtbTx p
  | .route, d => do
      let fo ← orHalt (← py (filesetFileoff d rtbuddyName)) (.exit "RTBuddy fileset not found")
      let tx ← orHalt (← py (SecureproxyV2.textExec d fo)) (.exit "RTBuddy __TEXT_EXEC not found")
      return offsetIn tx
  | .routeSkip, d => do
      let fo ← orHalt (← py (filesetFileoff d rtbuddyName)) (.exit "RTBuddy fileset not found")
      let tx ← orHalt (← py (RouteSkip.textExec d fo)) (.exit "RTBuddy __TEXT_EXEC not found")
      return offsetIn (tx.1, tx.2.1)
  | .routeSkip0, d => do
      let fo ← orHalt (← py (filesetFileoff d rtbuddyName)) .type
      let tx ← orHalt (← py (textExecOnMatch d fo)) .type
      return offsetIn (tx.vmaddr, tx.fileoff)
  | .routeTimeout, d => do
      let fo ← orHalt (← py (filesetFileoff d rtbuddyName)) (.exit "RTBuddy fileset not found")
      let tx ← orHalt (← py (textExecOnMatch d fo)) (.exit "RTBuddy __TEXT_EXEC not found")
      return offsetIn (tx.vmaddr, tx.fileoff)

def RtbScript.plan (tools : Tools) : RtbScript → Plan
  | .secureproxyV2 => SecureproxyV2.plan tools
  | .route => Route.plan tools
  | .routeSkip => RouteSkip.plan tools
  | .routeSkip0 => RouteSkip0.plan
  | .routeTimeout => RouteTimeout.plan tools

def applyWrite (offsetOf : Place → ℤ) (d : Bytes) (w : Write) : Bytes :=
  pySetSlice d (offsetOf w.place) (offsetOf w.place + w.size) w.bytes

def readPlace (d : Bytes) (offsetOf : Place → ℤ) (p : Place) : Bytes :=
  pySlice d (offsetOf p) (offsetOf p + p.size)

/-- What `main` writes to the file; nothing in a dry run. -/
def RtbScript.main (tools : Tools) (s : RtbScript) (d : Bytes) (dryRun : Bool) :
    Except Halt (Option Bytes) := do
  let offsetOf ← s.locate d
  let ws ← s.plan tools (readPlace d offsetOf)
  return if dryRun then none else some (ws.foldl (applyWrite offsetOf) d)

end SecureWorld.Patcher
