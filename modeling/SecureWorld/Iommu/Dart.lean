import SecureWorld.Foundations.LastWrite
import SecureWorld.Foundations.MemoryRegion

/-! # The DART of the display (`dart_read`, `dart_write`)

Two tables with one word for each stream id, and a bank of enable bits that one register sets and
another clears. `PARAMS4` advertises 256 stream ids; of the eight words of enable bits they need, the
switches on the offset decode the first.
-/
namespace SecureWorld.Iommu
open Foundations
set_option autoImplicit false

def dartT8110Params3 : BitVec 64 := 0x008
def dartT8110Params4 : BitVec 64 := 0x00c
def dartT8110TlbCmd : BitVec 64 := 0x080
def dartT8110Error : BitVec 64 := 0x100
def dartT8110ErrorMask : BitVec 64 := 0x104
def dartT8110Protect : BitVec 64 := 0x200
def dartT8110Unprotect : BitVec 64 := 0x204
def dartT8110EnableStreams : BitVec 64 := 0xc00
def dartT8110DisableStreams : BitVec 64 := 0xc20
def dartT8110Tcr : BitVec 64 := 0x1000
def dartT8110Ttbr : BitVec 64 := 0x1400
def dartSidCount : ℕ := 256

structure DartState where
  tcr : Fin dartSidCount → BitVec 32
  ttbr : Fin dartSidCount → BitVec 32
  enabledStreams : BitVec 32
  protect : BitVec 32
  errorMask : BitVec 32

/-- `off >= base && off < base + DART_SID_COUNT * 4`, with the index `(off - base) >> 2`. -/
def tableIndex (base off : BitVec 64) : Option (Fin dartSidCount) :=
  if h : base.toNat ≤ off.toNat ∧ off.toNat < base.toNat + dartSidCount * 4 then
    some ⟨(off.toNat - base.toNat) / 4, by omega⟩
  else none

def dartRead (s : DartState) (off : BitVec 64) : BitVec 64 :=
  match tableIndex dartT8110Ttbr off with
  | some i => (s.ttbr i).setWidth 64
  | none =>
    match tableIndex dartT8110Tcr off with
    | some i => (s.tcr i).setWidth 64
    | none =>
      if off = dartT8110Params3 then (42#64 <<< 24) ||| (32#64 <<< 16) ||| (1#64 <<< 8)
      else if off = dartT8110Params4 then (16#64 <<< 16) ||| BitVec.ofNat 64 dartSidCount
      else if off = dartT8110TlbCmd then 0
      else if off = dartT8110Error then 0
      else if off = dartT8110ErrorMask then s.errorMask.setWidth 64
      else if off = dartT8110Protect then s.protect.setWidth 64
      else if off = dartT8110EnableStreams then s.enabledStreams.setWidth 64
      else 0

def dartWrite (s : DartState) (off val : BitVec 64) : DartState :=
  match tableIndex dartT8110Ttbr off with
  | some i => { s with ttbr := Function.update s.ttbr i (val.setWidth 32) }
  | none =>
    match tableIndex dartT8110Tcr off with
    | some i => { s with tcr := Function.update s.tcr i (val.setWidth 32) }
    | none =>
      if off = dartT8110ErrorMask then { s with errorMask := val.setWidth 32 }
      else if off = dartT8110Protect then { s with protect := s.protect ||| val.setWidth 32 }
      else if off = dartT8110Unprotect then
        { s with protect := s.protect &&& ~~~val.setWidth 32 }
      else if off = dartT8110EnableStreams then
        { s with enabledStreams := s.enabledStreams ||| val.setWidth 32 }
      else if off = dartT8110DisableStreams then
        { s with enabledStreams := s.enabledStreams &&& ~~~val.setWidth 32 }
      else s

def dartOps : MemoryRegionOps := { validMin := 4, validMax := 8, implMin := 0, implMax := 0 }

/-- `g_new0` -/
def createDart : DartState := ⟨fun _ => 0, fun _ => 0, 0, 0, 0⟩

/-! ## 32-bit guest accesses -/

structure GuestStore where
  off : BitVec 64
  val : BitVec 32

/-- The memory core refuses an access that is not aligned: the region does not set
`valid.unaligned`. -/
def guestStore (s : DartState) (w : GuestStore) : DartState :=
  if w.off.toNat % 4 = 0 then dartOps.guestWrite dartWrite s w.off 4 (w.val.setWidth 64) else s

def guestLoad (s : DartState) (off : BitVec 64) : BitVec 32 :=
  if off.toNat % 4 = 0 then
    (dartOps.guestRead (fun s off => (dartRead s off, s)) s off 4).1.setWidth 32
  else 0

theorem guestStore_of_aligned {s : DartState} {w : GuestStore} (h : w.off.toNat % 4 = 0) :
    guestStore s w = dartWrite s w.off (w.val.setWidth 64) := by
  have hone : guestStore s w =
      dartWrite s (w.off + 0#64) ((w.val.setWidth 64 >>> 0) &&& 0xffffffff#64) := if_pos h
  have hmask : w.val.setWidth 64 &&& 0xffffffff#64 = w.val.setWidth 64 := by
    apply BitVec.eq_of_toNat_eq
    have hlow := Nat.and_two_pow_sub_one_eq_mod (w.val.setWidth 64).toNat 32
    rw [BitVec.toNat_and]
    refine hlow.trans ?_
    rw [BitVec.toNat_setWidth]
    omega
  rw [hone, BitVec.add_zero, BitVec.ushiftRight_zero, hmask]

theorem guestLoad_of_aligned {s : DartState} {off : BitVec 64} (h : off.toNat % 4 = 0) :
    guestLoad s off = (dartRead s off).setWidth 32 := by
  have hone : guestLoad s off =
      (0#64 ||| ((dartRead s (off + 0#64) &&& 0xffffffff#64) <<< 0)).setWidth 32 := if_pos h
  rw [hone, BitVec.add_zero, BitVec.shiftLeft_zero, BitVec.zero_or, BitVec.setWidth_and]
  exact BitVec.and_allOnes

/-! ## The registers of a stream -/

def tableReg (base : BitVec 64) (sid : ℕ) : BitVec 64 := base + BitVec.ofNat 64 (4 * sid)

/-- The word of a bank that the bit of the stream is in. -/
def bankReg (base : BitVec 64) (sid : ℕ) : BitVec 64 := base + BitVec.ofNat 64 (4 * (sid / 32))

theorem tableIndex_eq_some_iff {base off : BitVec 64} (hbase : base.toNat % 4 = 0)
    (hfits : base.toNat + dartSidCount * 4 < 2 ^ 64) (hoff : off.toNat % 4 = 0)
    {i : Fin dartSidCount} : tableIndex base off = some i ↔ off = tableReg base i := by
  have hi := i.isLt
  have hreg : (tableReg base i).toNat = base.toNat + 4 * i := by
    rw [tableReg, BitVec.toNat_add, BitVec.toNat_ofNat]
    omega
  rw [← BitVec.toNat_inj, hreg, tableIndex]
  split_ifs with h
  · rw [Option.some_inj, Fin.ext_iff]
    dsimp only
    omega
  · constructor
    · intro hnone
      cases hnone
    · omega

/-- What a store writes to one register. -/
def registerWrite (off : BitVec 64) (w : GuestStore) : Option (BitVec 32) :=
  if w.off = off then some w.val else none

/-- What a store to the enable or the disable bank does to the bit of the stream. -/
def streamWrite (sid : ℕ) (w : GuestStore) : Option Bool :=
  if w.val.getLsbD (sid % 32) = false then none
  else if w.off = bankReg dartT8110EnableStreams sid then some true
  else if w.off = bankReg dartT8110DisableStreams sid then some false
  else none

theorem tableReg_toNat {base : BitVec 64} (hbase : base.toNat ≤ 0x1400) {sid : ℕ}
    (hsid : sid < dartSidCount) : (tableReg base sid).toNat = base.toNat + 4 * sid := by
  rw [dartSidCount] at hsid
  rw [tableReg, BitVec.toNat_add, BitVec.toNat_ofNat]
  omega

theorem ttbr_toNat (i : Fin dartSidCount) :
    (tableReg dartT8110Ttbr i).toNat = 0x1400 + 4 * i := tableReg_toNat (by decide) i.isLt

theorem tcr_toNat (i : Fin dartSidCount) :
    (tableReg dartT8110Tcr i).toNat = 0x1000 + 4 * i := tableReg_toNat (by decide) i.isLt

theorem ttbr_inj {i j : Fin dartSidCount} :
    tableReg dartT8110Ttbr j = tableReg dartT8110Ttbr i ↔ j = i := by
  rw [← BitVec.toNat_inj, ttbr_toNat, ttbr_toNat, Fin.ext_iff]
  omega

theorem tcr_inj {i j : Fin dartSidCount} :
    tableReg dartT8110Tcr j = tableReg dartT8110Tcr i ↔ j = i := by
  rw [← BitVec.toNat_inj, tcr_toNat, tcr_toNat, Fin.ext_iff]
  omega

theorem tcr_ne_ttbr (i j : Fin dartSidCount) :
    tableReg dartT8110Tcr j ≠ tableReg dartT8110Ttbr i := by
  have hj : (j : ℕ) < 256 := j.isLt
  rw [ne_eq, ← BitVec.toNat_inj, tcr_toNat, ttbr_toNat]
  omega

/-! ## What a store does -/

theorem ttbr_index {off : BitVec 64} (hoff : off.toNat % 4 = 0) {i : Fin dartSidCount} :
    tableIndex dartT8110Ttbr off = some i ↔ off = tableReg dartT8110Ttbr i :=
  tableIndex_eq_some_iff (by decide) (by decide) hoff

theorem tcr_index {off : BitVec 64} (hoff : off.toNat % 4 = 0) {i : Fin dartSidCount} :
    tableIndex dartT8110Tcr off = some i ↔ off = tableReg dartT8110Tcr i :=
  tableIndex_eq_some_iff (by decide) (by decide) hoff

/-- Outside the tables only the enable bits of the streams can change. -/
structure SwitchWrite (s : DartState) (off val : BitVec 64) (s' : DartState) : Prop where
  not_ttbr : ∀ i : Fin dartSidCount, off ≠ tableReg dartT8110Ttbr i
  not_tcr : ∀ i : Fin dartSidCount, off ≠ tableReg dartT8110Tcr i
  ttbr : s'.ttbr = s.ttbr
  tcr : s'.tcr = s.tcr
  enabledStreams : s'.enabledStreams =
    if off = dartT8110EnableStreams then s.enabledStreams ||| val.setWidth 32
    else if off = dartT8110DisableStreams then s.enabledStreams &&& ~~~val.setWidth 32
    else s.enabledStreams

theorem switchWrite_of_index {s : DartState} {off val : BitVec 64} (hoff : off.toNat % 4 = 0)
    (httbr : tableIndex dartT8110Ttbr off = none) (htcr : tableIndex dartT8110Tcr off = none) :
    SwitchWrite s off val (dartWrite s off val) := by
  have hnot (i : Fin dartSidCount) :
      off ≠ tableReg dartT8110Ttbr i ∧ off ≠ tableReg dartT8110Tcr i := by
    rw [ne_eq, ← ttbr_index hoff, httbr, ne_eq, ← tcr_index hoff, htcr]
    exact ⟨nofun, nofun⟩
  rw [dartWrite, httbr, htcr]
  dsimp only
  by_cases hmask : off = dartT8110ErrorMask
  · subst hmask
    exact ⟨fun i => (hnot i).1, fun i => (hnot i).2, rfl, rfl, rfl⟩
  by_cases hprotect : off = dartT8110Protect
  · subst hprotect
    exact ⟨fun i => (hnot i).1, fun i => (hnot i).2, rfl, rfl, rfl⟩
  by_cases hunprotect : off = dartT8110Unprotect
  · subst hunprotect
    exact ⟨fun i => (hnot i).1, fun i => (hnot i).2, rfl, rfl, rfl⟩
  rw [if_neg hmask, if_neg hprotect, if_neg hunprotect]
  refine ⟨fun i => (hnot i).1, fun i => (hnot i).2, ?_, ?_, ?_⟩ <;> split_ifs <;> rfl

/-- An aligned store goes to one word of a table or to the switch. -/
theorem write_cases (s : DartState) {off : BitVec 64} (val : BitVec 64)
    (hoff : off.toNat % 4 = 0) :
    (∃ i : Fin dartSidCount, off = tableReg dartT8110Ttbr i ∧
        dartWrite s off val = { s with ttbr := Function.update s.ttbr i (val.setWidth 32) }) ∨
      (∃ i : Fin dartSidCount, off = tableReg dartT8110Tcr i ∧
        dartWrite s off val = { s with tcr := Function.update s.tcr i (val.setWidth 32) }) ∨
      SwitchWrite s off val (dartWrite s off val) := by
  cases httbr : tableIndex dartT8110Ttbr off with
  | some i =>
    refine .inl ⟨i, (ttbr_index hoff).mp httbr, ?_⟩
    rw [dartWrite, httbr]
  | none =>
    cases htcr : tableIndex dartT8110Tcr off with
    | some i =>
      refine .inr (.inl ⟨i, (tcr_index hoff).mp htcr, ?_⟩)
      rw [dartWrite, httbr, htcr]
    | none => exact .inr (.inr (switchWrite_of_index hoff httbr htcr))

/-! ## Each register of a stream is a cell -/

theorem isCell_of_aligned {β : Type} {cell : DartState → β} {writes : GuestStore → Option β}
    (hwrite : ∀ s off val, off.toNat % 4 = 0 →
      cell (dartWrite s off (val.setWidth 64)) = (writes ⟨off, val⟩).getD (cell s))
    (hnone : ∀ off val, ¬ off.toNat % 4 = 0 → writes ⟨off, val⟩ = none) :
    IsCell guestStore cell writes := by
  rintro s ⟨off, val⟩
  by_cases halign : off.toNat % 4 = 0
  · rw [guestStore_of_aligned halign]
    exact hwrite s off val halign
  · rw [guestStore, if_neg halign, hnone off val halign]
    rfl

theorem ttbr_isCell (i : Fin dartSidCount) :
    IsCell guestStore (fun s => s.ttbr i) (registerWrite (tableReg dartT8110Ttbr i)) := by
  apply isCell_of_aligned
  · intro s off val halign
    dsimp only [registerWrite]
    obtain ⟨j, rfl, hs⟩ | ⟨j, rfl, hs⟩ | hs := write_cases s (val.setWidth 64) halign
    · rw [hs]
      dsimp only
      by_cases hij : j = i
      · rw [if_pos (ttbr_inj.mpr hij), hij, Function.update_self, Option.getD_some]
        exact BitVec.setWidth_setWidth_of_le val (by decide)
      · rw [if_neg (mt ttbr_inj.mp hij), Function.update_of_ne (Ne.symm hij), Option.getD_none]
    · rw [hs, if_neg (tcr_ne_ttbr i j), Option.getD_none]
    · rw [hs.ttbr, if_neg (hs.not_ttbr i), Option.getD_none]
  · intro off val halign
    refine if_neg fun h : off = _ => halign ?_
    rw [h, ttbr_toNat]
    omega

theorem tcr_isCell (i : Fin dartSidCount) :
    IsCell guestStore (fun s => s.tcr i) (registerWrite (tableReg dartT8110Tcr i)) := by
  apply isCell_of_aligned
  · intro s off val halign
    dsimp only [registerWrite]
    obtain ⟨j, rfl, hs⟩ | ⟨j, rfl, hs⟩ | hs := write_cases s (val.setWidth 64) halign
    · rw [hs, if_neg (tcr_ne_ttbr j i).symm, Option.getD_none]
    · rw [hs]
      dsimp only
      by_cases hij : j = i
      · rw [if_pos (tcr_inj.mpr hij), hij, Function.update_self, Option.getD_some]
        exact BitVec.setWidth_setWidth_of_le val (by decide)
      · rw [if_neg (mt tcr_inj.mp hij), Function.update_of_ne (Ne.symm hij), Option.getD_none]
    · rw [hs.tcr, if_neg (hs.not_tcr i), Option.getD_none]
  · intro off val halign
    refine if_neg fun h : off = _ => halign ?_
    rw [h, tcr_toNat]
    omega

theorem bankReg_toNat {base : BitVec 64} (hbase : base.toNat ≤ 0x1400) {sid : ℕ}
    (hsid : sid < dartSidCount) : (bankReg base sid).toNat = base.toNat + 4 * (sid / 32) := by
  rw [dartSidCount] at hsid
  rw [bankReg, BitVec.toNat_add, BitVec.toNat_ofNat]
  omega

/-- No bank register is in a table or unaligned. -/
theorem streamWrite_eq_none {sid : ℕ} (hsid : sid < dartSidCount) {off : BitVec 64}
    (hoff : ¬ off.toNat % 4 = 0 ∨ 0x1000 ≤ off.toNat) (val : BitVec 32) :
    streamWrite sid ⟨off, val⟩ = none := by
  have henable : (bankReg dartT8110EnableStreams sid).toNat = 0xc00 + 4 * (sid / 32) :=
    bankReg_toNat (by decide) hsid
  have hdisable : (bankReg dartT8110DisableStreams sid).toNat = 0xc20 + 4 * (sid / 32) :=
    bankReg_toNat (by decide) hsid
  rw [dartSidCount] at hsid
  have hne₁ : off ≠ bankReg dartT8110EnableStreams sid := by
    rw [ne_eq, ← BitVec.toNat_inj, henable]
    omega
  have hne₂ : off ≠ bankReg dartT8110DisableStreams sid := by
    rw [ne_eq, ← BitVec.toNat_inj, hdisable]
    omega
  rw [streamWrite, if_neg hne₁, if_neg hne₂, ite_self]

theorem stream_isCell {sid : ℕ} (hsid : sid < 32) :
    IsCell guestStore (fun s => s.enabledStreams.getLsbD sid) (streamWrite sid) := by
  have hcount : sid < dartSidCount := hsid.trans (by decide)
  have hword (base : BitVec 64) : bankReg base sid = base := by
    rw [bankReg, Nat.div_eq_of_lt hsid]
    exact BitVec.add_zero base
  apply isCell_of_aligned
  · intro s off val halign
    obtain ⟨j, rfl, hs⟩ | ⟨j, rfl, hs⟩ | hs := write_cases s (val.setWidth 64) halign
    · have htable := ttbr_toNat j
      rw [hs, streamWrite_eq_none hcount (.inr (by omega)), Option.getD_none]
    · have htable := tcr_toNat j
      rw [hs, streamWrite_eq_none hcount (.inr (by omega)), Option.getD_none]
    · rw [hs.enabledStreams, streamWrite, hword, hword, Nat.mod_eq_of_lt hsid,
        BitVec.setWidth_setWidth_of_le val (by decide), BitVec.setWidth_eq]
      dsimp only
      cases hbit : val.getLsbD sid with
      | false =>
        rw [if_pos rfl, Option.getD_none]
        split_ifs
        · rw [BitVec.getLsbD_or, hbit, Bool.or_false]
        · rw [BitVec.getLsbD_and, BitVec.getLsbD_not, hbit, decide_eq_true hsid]
          exact Bool.and_true _
        · rfl
      | true =>
        rw [if_neg (fun h : true = false => Bool.noConfusion h)]
        split_ifs
        · rw [BitVec.getLsbD_or, hbit, Bool.or_true, Option.getD_some]
        · rw [BitVec.getLsbD_and, BitVec.getLsbD_not, hbit, Option.getD_some]
          simp
        · rfl
  · intro off val halign
    exact streamWrite_eq_none hcount (.inl halign) val

/-! ## What the guest sees of a stream -/

/-- The stream ids that `PARAMS4` advertises. -/
def advertisedSids (s : DartState) : ℕ := (guestLoad s dartT8110Params4).toNat % 2 ^ 16

/-- The registers of the stream, after the stores. -/
structure PerStream (ws : List GuestStore) (sid : ℕ) : Prop where
  enabled : (guestLoad (run guestStore createDart ws)
      (bankReg dartT8110EnableStreams sid)).getLsbD (sid % 32) = true ↔
    lastWrite (streamWrite sid) ws = some true
  tcr : guestLoad (run guestStore createDart ws) (tableReg dartT8110Tcr sid) =
    (lastWrite (registerWrite (tableReg dartT8110Tcr sid)) ws).getD 0
  ttbr : guestLoad (run guestStore createDart ws) (tableReg dartT8110Ttbr sid) =
    (lastWrite (registerWrite (tableReg dartT8110Ttbr sid)) ws).getD 0

theorem read_ttbr (s : DartState) (i : Fin dartSidCount) :
    guestLoad s (tableReg dartT8110Ttbr i) = s.ttbr i := by
  have halign : (tableReg dartT8110Ttbr i).toNat % 4 = 0 := by
    rw [ttbr_toNat]
    omega
  rw [guestLoad_of_aligned halign, dartRead, (ttbr_index halign).mpr rfl]
  exact BitVec.setWidth_setWidth_of_le (s.ttbr i) (by decide)

theorem read_tcr (s : DartState) (i : Fin dartSidCount) :
    guestLoad s (tableReg dartT8110Tcr i) = s.tcr i := by
  have halign : (tableReg dartT8110Tcr i).toNat % 4 = 0 := by
    rw [tcr_toNat]
    omega
  have httbr : tableIndex dartT8110Ttbr (tableReg dartT8110Tcr i) = none := by
    cases hindex : tableIndex dartT8110Ttbr (tableReg dartT8110Tcr i) with
    | none => rfl
    | some j => exact absurd ((ttbr_index halign).mp hindex) (tcr_ne_ttbr j i)
  rw [guestLoad_of_aligned halign, dartRead, httbr, (tcr_index halign).mpr rfl]
  exact BitVec.setWidth_setWidth_of_le (s.tcr i) (by decide)

theorem params4_advertises (s : DartState) : advertisedSids s = dartSidCount := by
  have httbr : tableIndex dartT8110Ttbr dartT8110Params4 = none := by decide
  have htcr : tableIndex dartT8110Tcr dartT8110Params4 = none := by decide
  have hread : dartRead s dartT8110Params4 = (16#64 <<< 16) ||| BitVec.ofNat 64 dartSidCount := by
    rw [dartRead, httbr, htcr]
    rfl
  rw [advertisedSids, guestLoad_of_aligned (by decide), hread]
  rfl

/-- Of the enable bank only the first word is decoded. -/
theorem read_enable (s : DartState) {sid : ℕ} (hsid : sid < dartSidCount) :
    guestLoad s (bankReg dartT8110EnableStreams sid) =
      if sid < 32 then s.enabledStreams else 0#32 := by
  have hreg : (bankReg dartT8110EnableStreams sid).toNat = 0xc00 + 4 * (sid / 32) :=
    bankReg_toNat (by decide) hsid
  rw [dartSidCount] at hsid
  rw [guestLoad_of_aligned (by omega)]
  by_cases hword : sid < 32
  · have henable : bankReg dartT8110EnableStreams sid = dartT8110EnableStreams := by
      rw [bankReg, Nat.div_eq_of_lt hword]
      rfl
    have hread : dartRead s dartT8110EnableStreams = s.enabledStreams.setWidth 64 := rfl
    rw [if_pos hword, henable, hread]
    exact BitVec.setWidth_setWidth_of_le s.enabledStreams (by decide)
  · have httbr : tableIndex dartT8110Ttbr (bankReg dartT8110EnableStreams sid) = none :=
      dif_neg fun h => by
        have hbase : dartT8110Ttbr.toNat = 0x1400 := rfl
        omega
    have htcr : tableIndex dartT8110Tcr (bankReg dartT8110EnableStreams sid) = none :=
      dif_neg fun h => by
        have hbase : dartT8110Tcr.toNat = 0x1000 := rfl
        omega
    have hne (c : BitVec 64) (hc : c.toNat ≤ 0xc00) :
        bankReg dartT8110EnableStreams sid ≠ c := by
      rw [ne_eq, ← BitVec.toNat_inj, hreg]
      omega
    rw [if_neg hword, dartRead, httbr, htcr]
    dsimp only
    rw [if_neg (hne _ (by decide)), if_neg (hne _ (by decide)), if_neg (hne _ (by decide)),
      if_neg (hne _ (by decide)), if_neg (hne _ (by decide)), if_neg (hne _ (by decide)),
      if_neg (hne _ (by decide))]
    rfl

/-- A stream's registers behave as they should exactly if its enable bit is in the first word of the
bank, or is not set. -/
theorem perStream_iff (ws : List GuestStore) (sid : ℕ)
    (hsid : sid < advertisedSids (run guestStore createDart ws)) :
    PerStream ws sid ↔ sid < 32 ∨ lastWrite (streamWrite sid) ws ≠ some true := by
  rw [params4_advertises] at hsid
  have htcr := (tcr_isCell ⟨sid, hsid⟩).run ws createDart
  have httbr := (ttbr_isCell ⟨sid, hsid⟩).run ws createDart
  rw [← read_tcr] at htcr
  rw [← read_ttbr] at httbr
  constructor
  · rintro ⟨henabled, -, -⟩
    by_cases hword : sid < 32
    · exact .inl hword
    · rw [read_enable _ hsid, if_neg hword, BitVec.getLsbD_zero] at henabled
      exact .inr fun hlast => Bool.noConfusion (henabled.mpr hlast)
  · intro hdecoded
    refine ⟨?_, htcr, httbr⟩
    rw [read_enable _ hsid]
    by_cases hword : sid < 32
    · rw [if_pos hword, Nat.mod_eq_of_lt hword, (stream_isCell hword).run ws createDart]
      cases lastWrite (streamWrite sid) ws with
      | none => simp [createDart]
      | some b => simp
    · rw [if_neg hword, BitVec.getLsbD_zero]
      have hlast := hdecoded.resolve_left hword
      simp [hlast]

/-- Stream 4 enabled, disabled again and configured. -/
theorem low_stream_perStream :
    PerStream [⟨0xc00, 0x10⟩, ⟨0xc20, 0x10⟩, ⟨0x1010, 7⟩] 4 :=
  (perStream_iff _ 4 (by decide)).mpr (.inl (by decide))

/-- A stream of the second word is enabled, and the enable bank reads 0. -/
theorem high_stream_not_enabled : ¬ ∀ (ws : List GuestStore) (sid : ℕ),
    sid < advertisedSids (run guestStore createDart ws) → PerStream ws sid := by
  intro h
  have henabled := (h [⟨0xc04, 1⟩] 32 (by decide)).enabled
  exact absurd (henabled.mpr (by decide)) (by decide)

end SecureWorld.Iommu
