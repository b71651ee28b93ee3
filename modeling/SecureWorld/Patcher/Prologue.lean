import SecureWorld.Patcher.PyBytes

/-! # From a cross reference back to the function's entry (`_walk_back_to_prologue`)

The walk stops at PACIBSP, or at a return with a prologue-looking word after it. On a segment laid
out function by function it finds the enclosing one unless the function has such a stop inside.
-/
namespace SecureWorld.Patcher
open Foundations
set_option autoImplicit false

def pacibsp : BitVec 32 := 0xD503237F

def retab : BitVec 32 := 0xD65F0FFF

def ret : BitVec 32 := 0xD65F03C0

/-- PACIBSP, STP with base SP (signed offset, pre- or post-indexed), or SUB SP, SP, #imm. -/
def isPrologueStart (insn : BitVec 32) : Bool :=
  if insn = pacibsp then true
  else if insn &&& 0x7FC00000 ∈ ([0x29000000, 0x29800000, 0x28800000] : List (BitVec 32)) ∧
      (insn >>> 5) &&& 0x1F = 0x1F then true
  else insn &&& 0xFF0003FF = 0xD10003FF

def isReturn (insn : BitVec 32) : Bool := insn ∈ [ret, retab]

def walkBackToPrologue (data : Bytes) (xrefFileoff : ℕ) : Except PyError (Option ℕ) :=
  let maxBack := 4096
  (rangeDown xrefFileoff (xrefFileoff - maxBack) 4).findSomeM? fun off => do
    let insn ← unpackI data off
    if insn = pacibsp then return some off
    if isReturn insn then
      let cand := off + 4
      let c ← unpackI data cand
      -- otherwise an early return inside the function
      if isPrologueStart c then return some cand
    return none

/-! ## The stops of the walk -/

/-- What the walk returns at `off`, if it stops there. -/
def stopAt (data : Bytes) (off : ℕ) : Option ℕ :=
  if wordAt data off = pacibsp then some off
  else if isReturn (wordAt data off) ∧ isPrologueStart (wordAt data (off + 4)) then some (off + 4)
  else none

/-- The offsets the walk from `xref` looks at. -/
def walkWindow (xref : ℕ) : List ℕ := rangeDown xref (xref - 4096) 4

theorem mem_walkWindow {xref off : ℕ} :
    off ∈ walkWindow xref ↔ xref - 4096 < off ∧ ∃ k, xref = off + k * 4 :=
  mem_rangeDown (by decide)

theorem walkBackToPrologue_eq {data : Bytes} {xref : ℕ} (h : xref + 8 ≤ data.length) :
    walkBackToPrologue data xref = .ok ((walkWindow xref).findSome? (stopAt data)) := by
  refine findSomeM?_eq_ok fun off hoff => ?_
  obtain ⟨-, k, hk⟩ := mem_walkWindow.mp hoff
  simp only [unpackI_ok (show off + 4 ≤ data.length by omega),
    unpackI_ok (show off + 4 + 4 ≤ data.length by omega), bind, Except.bind, pure, Except.pure,
    stopAt]
  split_ifs <;> first | rfl | simp_all

/-- The walk returns the result of the nearest stop. -/
theorem walk_some_iff {data : Bytes} {xref : ℕ} (h : xref + 8 ≤ data.length) (c : ℕ) :
    walkBackToPrologue data xref = .ok (some c) ↔ ∃ off ∈ walkWindow xref,
      stopAt data off = some c ∧ ∀ off' ∈ walkWindow xref, off < off' → stopAt data off' = none := by
  rw [walkBackToPrologue_eq h, Except.ok.injEq]
  exact findSome?_rangeDown (by decide) _ _

theorem walk_none_iff {data : Bytes} {xref : ℕ} (h : xref + 8 ≤ data.length) :
    walkBackToPrologue data xref = .ok none ↔ ∀ off ∈ walkWindow xref, stopAt data off = none := by
  rw [walkBackToPrologue_eq h, Except.ok.injEq]
  exact List.findSome?_eq_none_iff

theorem stopAt_eq_some {data : Bytes} {off c : ℕ} (h : stopAt data off = some c) :
    wordAt data off = pacibsp ∧ c = off ∨
      isReturn (wordAt data off) ∧ isPrologueStart (wordAt data (off + 4)) ∧ c = off + 4 := by
  unfold stopAt at h
  split_ifs at h with hpac hret
  · exact .inl ⟨hpac, (Option.some.inj h).symm⟩
  · exact .inr ⟨hret.1, hret.2, (Option.some.inj h).symm⟩

theorem isPrologueStart_pacibsp : isPrologueStart pacibsp = true := by decide

theorem not_isPrologueStart_of_isReturn {w : BitVec 32} (h : isReturn w) :
    isPrologueStart w = false := by
  simp only [isReturn, List.mem_cons, List.not_mem_nil, or_false, decide_eq_true_eq] at h
  rcases h with rfl | rfl <;> decide

end SecureWorld.Patcher
