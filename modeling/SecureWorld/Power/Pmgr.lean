import SecureWorld.Foundations.LastWrite
import SecureWorld.Foundations.MemoryRegion

/-! # The power manager (`pmgr_read`, `pmgr_write`)

One 32-bit register for each block behind a power gate. A store names the power state wanted; the
register shows the transition as already complete, so a driver that waits for it never waits.
-/
namespace SecureWorld.Power
open Foundations
set_option autoImplicit false

structure PmgrState where
  regs : ℕ → BitVec 32
  nregs : ℕ

def pmgrRead (s : PmgrState) (off : BitVec 64) : BitVec 64 :=
  let i := off.toNat >>> 2
  if i < s.nregs then (s.regs i).setWidth 64 else 0

def psTarget (v : BitVec 32) : BitVec 32 := (v >>> 0) &&& 0xf

def psActual (v : BitVec 32) : BitVec 32 := (v >>> 4) &&& 0xf

def pmgrWasPwrgated : BitVec 32 := 1 <<< 8

def pmgrWasClkgated : BitVec 32 := 1 <<< 9

/-- A stored word as the register shows it. -/
def settled (v : BitVec 32) : BitVec 32 :=
  let target := psTarget v
  let v := v &&& ~~~(0xf#32 <<< 4)
  let v := v ||| (target <<< 4)
  v &&& ~~~(pmgrWasPwrgated ||| pmgrWasClkgated)

def pmgrWrite (s : PmgrState) (off val : BitVec 64) : PmgrState :=
  let i := off.toNat >>> 2
  if i ≥ s.nregs then s else { s with regs := Function.update s.regs i (settled (val.setWidth 32)) }

def pmgrOps : MemoryRegionOps := { validMin := 4, validMax := 8, implMin := 0, implMax := 0 }

/-- One region of `init_pmgr`, `len` bytes long. -/
def initPmgr (len : BitVec 64) : PmgrState := ⟨fun _ => 0, len.toNat >>> 2⟩

/-! ## Guest accesses -/

/-- A store of 8 bytes if `wide`, of 4 otherwise. -/
structure GuestStore where
  off : BitVec 64
  wide : Bool
  val : BitVec 64

def GuestStore.size (w : GuestStore) : ℕ := if w.wide then 8 else 4

/-- The memory core refuses an access that is not aligned. -/
def guestStore (s : PmgrState) (w : GuestStore) : PmgrState :=
  if w.off.toNat % w.size = 0 then pmgrOps.guestWrite pmgrWrite s w.off w.size w.val else s

def guestLoad (s : PmgrState) (off : BitVec 64) : BitVec 32 :=
  if off.toNat % 4 = 0 then
    (pmgrOps.guestRead (fun s off => (pmgrRead s off, s)) s off 4).1.setWidth 32
  else 0

/-- What a store writes to register `i`. -/
def registerWrite (i : ℕ) (w : GuestStore) : Option (BitVec 32) :=
  if w.off.toNat % w.size ≠ 0 then none
  else if w.off.toNat = 4 * i then some (w.val.setWidth 32)
  else if w.wide = true ∧ w.off.toNat + 4 = 4 * i then some ((w.val >>> 32).setWidth 32)
  else none

/-! ## A settled word -/

/-- Bits 7:4 repeat bits 3:0, bits 8 and 9 are clear, and the others are as stored. -/
theorem settled_getLsbD (v : BitVec 32) {k : ℕ} (hk : k < 32) :
    (settled v).getLsbD k =
      if 4 ≤ k ∧ k < 8 then v.getLsbD (k - 4)
      else if k = 8 ∨ k = 9 then false
      else v.getLsbD k := by
  have hmask : ∀ j < 32, (~~~(0xf#32 <<< 4)).getLsbD j = !decide (4 ≤ j ∧ j < 8) ∧
      (0xf#32).getLsbD j = decide (j < 4) ∧
      (~~~(pmgrWasPwrgated ||| pmgrWasClkgated)).getLsbD j = !decide (j = 8 ∨ j = 9) := by decide
  obtain ⟨hactual, -, hgated⟩ := hmask k hk
  have hlow := (hmask (k - 4) (by omega)).2.1
  simp only [settled, psTarget, BitVec.getLsbD_and, BitVec.getLsbD_or, BitVec.getLsbD_shiftLeft,
    BitVec.ushiftRight_zero, hactual, hgated]
  rcases (by omega : k < 4 ∨ (4 ≤ k ∧ k < 8) ∨ (k = 8 ∨ k = 9) ∨ 10 ≤ k) with h | h | h | h
  · have h8 : ¬(k = 8 ∨ k = 9) := by omega
    have h4 : ¬(4 ≤ k ∧ k < 8) := by omega
    simp [h, h4, h8]
  · have h8 : ¬(k = 8 ∨ k = 9) := by omega
    have h4 : ¬k < 4 := by omega
    have h0 : k - 4 < 4 := by omega
    simp only [h0, decide_true] at hlow
    simp [h, h4, h8, hk, hlow]
  · simp [h]
    omega
  · have h8 : ¬(k = 8 ∨ k = 9) := by omega
    have h4 : ¬(4 ≤ k ∧ k < 8) := by omega
    have h0 : ¬k - 4 < 4 := by omega
    simp only [h0, decide_false] at hlow
    simp [h4, h8, hlow]

theorem nibble_getLsbD (v : BitVec 32) {k : ℕ} (hk : k < 32) :
    (v &&& 0xf).getLsbD k = (v.getLsbD k && decide (k < 4)) := by
  have hmask : ∀ j < 32, (0xf : BitVec 32).getLsbD j = decide (j < 4) := by decide
  rw [BitVec.getLsbD_and, hmask k hk]

/-- The transition is complete: the register reads back the state wanted as the actual one. -/
theorem ps_settled (v : BitVec 32) :
    psActual (settled v) = psTarget v ∧ psTarget (settled v) = psTarget v := by
  constructor
  · refine BitVec.eq_of_getLsbD_eq fun k hk => ?_
    rw [psActual, psTarget, nibble_getLsbD _ hk, nibble_getLsbD _ hk, BitVec.getLsbD_ushiftRight,
      BitVec.ushiftRight_zero]
    by_cases h4 : k < 4
    · rw [settled_getLsbD v (by omega), if_pos ⟨by omega, by omega⟩, Nat.add_sub_cancel_left]
    · simp [h4]
  · refine BitVec.eq_of_getLsbD_eq fun k hk => ?_
    rw [psTarget, psTarget, nibble_getLsbD _ hk, nibble_getLsbD _ hk, BitVec.ushiftRight_zero,
      BitVec.ushiftRight_zero]
    by_cases h4 : k < 4
    · rw [settled_getLsbD v hk, if_neg (by omega), if_neg (by omega)]
    · simp [h4]

/-! ## Runs of stores -/

@[simp] theorem pmgrWrite_nregs (s : PmgrState) (off val : BitVec 64) :
    (pmgrWrite s off val).nregs = s.nregs := by
  rw [pmgrWrite]
  split_ifs <;> rfl

theorem pmgrWrite_reg {s : PmgrState} {i : ℕ} (hi : i < s.nregs) (off val : BitVec 64) :
    (pmgrWrite s off val).regs i =
      if off.toNat / 4 = i then settled (val.setWidth 32) else s.regs i := by
  have hshift : off.toNat >>> 2 = off.toNat / 4 := Nat.shiftRight_eq_div_pow _ 2
  rw [pmgrWrite, hshift]
  by_cases hreg : off.toNat / 4 = i
  · rw [if_neg (by omega), if_pos hreg, hreg]
    exact Function.update_self _ _ _
  · rw [if_neg hreg]
    split_ifs
    · rfl
    · exact Function.update_of_ne (Ne.symm hreg) _ _

theorem lowHalf_setWidth (v : BitVec 64) : (v &&& 0xffffffff#64).setWidth 32 = v.setWidth 32 := by
  rw [BitVec.setWidth_and]
  exact BitVec.and_allOnes

/-- The callbacks of a store: one, or two for a wide one. -/
theorem guestStore_of_aligned {s : PmgrState} {w : GuestStore} (h : w.off.toNat % w.size = 0) :
    guestStore s w =
      if w.wide = true then
        pmgrWrite (pmgrWrite s w.off (w.val &&& 0xffffffff#64)) (w.off + 4)
          ((w.val >>> 32) &&& 0xffffffff#64)
      else pmgrWrite s w.off (w.val &&& 0xffffffff#64) := by
  rw [guestStore, if_pos h]
  obtain ⟨off, wide, val⟩ := w
  have hfirst : pmgrWrite s (off + 0#64) ((val >>> 0) &&& 0xffffffff#64) =
      pmgrWrite s off (val &&& 0xffffffff#64) := by rw [BitVec.add_zero, BitVec.ushiftRight_zero]
  cases wide with
  | false =>
    have hone : pmgrOps.guestWrite pmgrWrite s off 4 val =
        pmgrWrite s (off + 0#64) ((val >>> 0) &&& 0xffffffff#64) := rfl
    rw [hfirst] at hone
    exact hone
  | true =>
    have htwo : pmgrOps.guestWrite pmgrWrite s off 8 val =
        pmgrWrite (pmgrWrite s (off + 0#64) ((val >>> 0) &&& 0xffffffff#64)) (off + 4)
          ((val >>> 32) &&& 0xffffffff#64) := rfl
    rw [hfirst] at htwo
    exact htwo

theorem guestStore_nregs (s : PmgrState) (w : GuestStore) :
    (guestStore s w).nregs = s.nregs := by
  by_cases h : w.off.toNat % w.size = 0
  · rw [guestStore_of_aligned h]
    split_ifs <;> simp only [pmgrWrite_nregs]
  · rw [guestStore, if_neg h]

theorem guestStore_reg {s : PmgrState} {i : ℕ} (hi : i < s.nregs) (w : GuestStore) :
    (guestStore s w).regs i = ((registerWrite i w).map settled).getD (s.regs i) := by
  by_cases h : w.off.toNat % w.size = 0
  · have hfour : w.off.toNat % 4 = 0 := by
      rw [GuestStore.size] at h
      split_ifs at h <;> omega
    have hlow : (pmgrWrite s w.off (w.val &&& 0xffffffff#64)).regs i =
        if w.off.toNat = 4 * i then settled (w.val.setWidth 32) else s.regs i := by
      rw [pmgrWrite_reg hi, lowHalf_setWidth]
      exact if_congr (by omega) rfl rfl
    rw [guestStore_of_aligned h, registerWrite, if_neg (not_not_intro h)]
    by_cases hwide : w.wide = true
    · have hoff := w.off.isLt
      rw [GuestStore.size, if_pos hwide] at h
      have hnext : (w.off + 4).toNat = w.off.toNat + 4 := by bv_omega
      rw [if_pos hwide, pmgrWrite_reg (by rwa [pmgrWrite_nregs]), hlow, lowHalf_setWidth, hnext]
      by_cases hhigh : w.off.toNat + 4 = 4 * i
      · rw [if_pos (by omega), if_neg (by omega), if_pos ⟨hwide, hhigh⟩]
        rfl
      · have hnot : ¬(w.wide = true ∧ w.off.toNat + 4 = 4 * i) := fun hboth => hhigh hboth.2
        rw [if_neg (by omega), if_neg hnot]
        split_ifs <;> rfl
    · have hnot : ¬(w.wide = true ∧ w.off.toNat + 4 = 4 * i) := fun hboth => hwide hboth.1
      rw [if_neg hwide, hlow, if_neg hnot]
      split_ifs <;> rfl
  · rw [guestStore, if_neg h, registerWrite, if_pos h]
    rfl

theorem run_regs {i : ℕ} : ∀ (ws : List GuestStore) {s : PmgrState}, i < s.nregs →
    (run guestStore s ws).nregs = s.nregs ∧
      (run guestStore s ws).regs i =
        ((lastWrite (registerWrite i) ws).map settled).getD (s.regs i)
  | [], _, _ => ⟨rfl, rfl⟩
  | w :: ws, s, hi => by
      have hnregs := guestStore_nregs s w
      obtain ⟨hrest, hreg⟩ := run_regs ws (s := guestStore s w) (hnregs.symm ▸ hi)
      refine ⟨hrest.trans hnregs, ?_⟩
      rw [run_cons, hreg, guestStore_reg hi, lastWrite]
      cases lastWrite (registerWrite i) ws with
      | none => rfl
      | some v => rfl

theorem guestLoad_of_aligned {s : PmgrState} {off : BitVec 64} (h : off.toNat % 4 = 0) :
    guestLoad s off = if off.toNat / 4 < s.nregs then s.regs (off.toNat / 4) else 0 := by
  have hone : guestLoad s off =
      (0#64 ||| ((pmgrRead s (off + 0#64) &&& 0xffffffff#64) <<< 0)).setWidth 32 := if_pos h
  have hshift : off.toNat >>> 2 = off.toNat / 4 := Nat.shiftRight_eq_div_pow _ 2
  rw [hone, BitVec.add_zero, BitVec.shiftLeft_zero, BitVec.zero_or, lowHalf_setWidth, pmgrRead,
    hshift]
  split_ifs
  · exact BitVec.setWidth_setWidth_of_le _ (by decide)
  · rfl

/-- After any run of stores of 4 and 8 bytes, a load of a register gives what the last store to it
settles to, and 0 where there is none; the actual power state is always the one wanted. -/
theorem pmgr_run (len : BitVec 64) (ws : List GuestStore) {off : BitVec 64}
    (hoff : off.toNat % 4 = 0) :
    guestLoad (run guestStore (initPmgr len) ws) off =
        (if off.toNat / 4 < len.toNat / 4 then
          ((lastWrite (registerWrite (off.toNat / 4)) ws).map settled).getD 0
        else 0) ∧
      psActual (guestLoad (run guestStore (initPmgr len) ws) off) =
        psTarget (guestLoad (run guestStore (initPmgr len) ws) off) := by
  have hload : guestLoad (run guestStore (initPmgr len) ws) off =
      if off.toNat / 4 < len.toNat / 4 then
        ((lastWrite (registerWrite (off.toNat / 4)) ws).map settled).getD 0
      else 0 := by
    have hlen : (initPmgr len).nregs = len.toNat / 4 := Nat.shiftRight_eq_div_pow _ 2
    have hnregs : (run guestStore (initPmgr len) ws).nregs = (initPmgr len).nregs :=
      run_preserves guestStore (fun s => s.nregs = (initPmgr len).nregs) (fun _ => True)
        (fun s w _ hs => (guestStore_nregs s w).trans hs) ws _ (fun _ _ => trivial) rfl
    rw [guestLoad_of_aligned hoff, hnregs, hlen]
    by_cases hin : off.toNat / 4 < len.toNat / 4
    · rw [if_pos hin, if_pos hin, (run_regs ws (hlen ▸ hin)).2]
      rfl
    · rw [if_neg hin, if_neg hin]
  refine ⟨hload, ?_⟩
  rw [hload]
  split_ifs
  · cases lastWrite (registerWrite (off.toNat / 4)) ws with
    | none => rfl
    | some v => exact (ps_settled v).1.trans (ps_settled v).2.symm
  · rfl

/-- A driver powers a block up through register 1 and finds it up. -/
theorem pmgr_run_powerUp :
    guestLoad (run guestStore (initPmgr 0x1000) [⟨4, false, 0x3f0⟩, ⟨0, true, 0xf00000000⟩]) 4 =
      0xff :=
  (pmgr_run 0x1000 [⟨4, false, 0x3f0⟩, ⟨0, true, 0xf00000000⟩] (by decide)).1.trans (by decide)

end SecureWorld.Power
