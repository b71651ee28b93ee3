import SecureWorld.Foundations.LastWrite
import SecureWorld.Foundations.StraightLine
import SecureWorld.Patcher.Xref

/-! # Cross references by raw words (`xref_fast.py`)

The scanner goes through a segment once and keeps, for each register, the page of the last ADRP. An
ADR to the register makes it forget the page; no other instruction does.
-/
namespace SecureWorld.Md0
open Foundations Armv8 Patcher
set_option autoImplicit false

structure Seg where
  vmaddr : ℕ
  fileoff : ℕ
  filesize : ℕ
  initprot : ℕ
deriving DecidableEq

def execSegs (segs : List Seg) : List Seg :=
  segs.filter fun s => s.initprot &&& 0x4 ≠ 0 ∧ 0 < s.filesize

def sxt (v bits : ℕ) : ℤ :=
  if v &&& 1 <<< (bits - 1) ≠ 0 then (v : ℤ) - (1 <<< bits : ℕ) else v

/-- `adrp+add`, `adr` and `adrp+ldr/str@` -/
inductive Kind
  | adrpAdd
  | adr
  | adrpLdrStr
deriving DecidableEq

structure Hit where
  pc : ℕ
  kind : Kind
  tv : ℤ
  seg : Seg
deriving DecidableEq

/-- `adrp_page` -/
abbrev Pages := BitVec 5 → Option ℤ

/-- A word with its address. -/
abbrev Op := ℕ × BitVec 32

/-- The signed immediate of ADRP and ADR. -/
def splitImm (w : BitVec 32) : ℤ :=
  let immlo := ((w >>> 29) &&& 3).toNat
  let immhi := ((w >>> 5) &&& 0x7ffff).toNat
  sxt (immhi <<< 2 ||| immlo) 21

def adrpPage (op : Op) : ℤ := clearPageOff op.1 + splitImm op.2 <<< (12 : ℕ)

def imm12 (w : BitVec 32) : ℕ := ((w >>> 10) &&& 0xfff).toNat

def addOffset (w : BitVec 32) : ℕ :=
  if (w >>> 22) &&& 1 ≠ 0 then imm12 w <<< 12 else imm12 w

def ldrStrOffset (w : BitVec 32) : ℕ := imm12 w <<< ((w >>> 30) &&& 3).toNat

/-- The hit at `op` when the register it names holds the page. -/
def pageHit (targets : List ℤ) (seg : Seg) (page : Pages) (op : Op) (kind : Kind) (offset : ℕ) :
    List Hit :=
  match page (rnOf op.2) with
  | some p => if p + offset ∈ targets then [⟨op.1, kind, p + offset, seg⟩] else []
  | none => []

/-- One pass of the loop. -/
def scanWord (targets : List ℤ) (seg : Seg) (page : Pages) (op : Op) : Pages × List Hit :=
  let (pc, w) := op
  if w &&& 0x9F000000 = 0x90000000 then
    (Function.update page (rdOf w) (some (adrpPage op)), [])
  else if w &&& 0x7F800000 = 0x11000000 ∧ w &&& 0x80000000 ≠ 0 then
    (page, if (w >>> 24) &&& 0x1f = 0x11 then
      pageHit targets seg page op .adrpAdd (addOffset w) else [])
  else if w &&& 0x9F000000 = 0x10000000 then
    (Function.update page (rdOf w) none,
      if pc + splitImm w ∈ targets then [⟨pc, .adr, pc + splitImm w, seg⟩] else [])
  else if w &&& 0x3B000000 = 0x39000000 then
    (page, pageHit targets seg page op .adrpLdrStr (ldrStrOffset w))
  else (page, [])

def scanCode (targets : List ℤ) (seg : Seg) : Pages → List Op → List Hit
  | _, [] => []
  | page, op :: ops =>
      (scanWord targets seg page op).2 ++ scanCode targets seg (scanWord targets seg page op).1 ops

def codeWords (data : Bytes) (s : Seg) : List Op :=
  let code := slice data s.fileoff (s.fileoff + s.filesize)
  (List.range (code.length / 4)).map fun i => (s.vmaddr + i * 4, wordAt code (i * 4))

def findXrefs (data : Bytes) (segs : List Seg) (targets : List ℤ) : List Hit :=
  (execSegs segs).flatMap fun s => scanCode targets s (fun _ => none) (codeWords data s)

/-! ## What the scanner computes -/

theorem mem_scanCode {targets : List ℤ} {seg : Seg} {page : Pages} {ops : List Op} {h : Hit} :
    h ∈ scanCode targets seg page ops ↔ ∃ pre o post, ops = pre ++ o :: post ∧
      h ∈ (scanWord targets seg (run (fun p op => (scanWord targets seg p op).1) page pre) o).2 := by
  induction ops generalizing page with
  | nil => simp [scanCode]
  | cons op ops ih =>
    rw [scanCode, List.mem_append, ih]
    constructor
    · rintro (hnow | ⟨pre, o, post, rfl, hlater⟩)
      · exact ⟨[], op, ops, rfl, hnow⟩
      · exact ⟨op :: pre, o, post, rfl, hlater⟩
    · rintro ⟨pre, o, post, heq, hmem⟩
      cases pre with
      | nil =>
        obtain ⟨rfl, rfl⟩ := List.cons.inj heq
        exact .inl hmem
      | cons p pre =>
        obtain ⟨rfl, rfl⟩ := List.cons.inj heq
        exact .inr ⟨pre, o, post, rfl, hmem⟩

def IsAdrp (w : BitVec 32) : Prop := w &&& 0x9F000000 = 0x90000000

instance (w : BitVec 32) : Decidable (IsAdrp w) := inferInstanceAs (Decidable (_ = _))

/-- What the scanner notes down for a register. -/
def pageWrite (r : BitVec 5) (op : Op) : Option (Option ℤ) :=
  if rdOf op.2 = r then
    if IsAdrp op.2 then some (some (adrpPage op)) else if IsAdr op.2 then some none else none
  else none

/-- The offset the scanner adds to the page in the register that a word names. -/
def pageUse (w : BitVec 32) : Option (Kind × ℕ) :=
  if w &&& 0xFF800000 = 0x91000000 then some (.adrpAdd, addOffset w)
  else if IsUnsignedOffset w then some (.adrpLdrStr, ldrStrOffset w)
  else none

theorem isAddImm64_iff {w : BitVec 32} :
    (w &&& 0x7F800000 = 0x11000000 ∧ w &&& 0x80000000 ≠ 0) ↔ w &&& 0xFF800000 = 0x91000000 := by
  constructor
  · rintro ⟨hlow, hsf⟩
    have hbit : w &&& BitVec.twoPow 32 31 = BitVec.twoPow 32 31 := by
      rw [BitVec.and_twoPow]
      refine if_pos ?_
      by_contra hclear
      exact hsf ((BitVec.and_twoPow w 31).trans (if_neg hclear))
    have hmask : (0xFF800000 : BitVec 32) = 0x7F800000 ||| BitVec.twoPow 32 31 := by decide
    rw [hmask, BitVec.and_or_distrib_left, hlow, hbit]
    decide
  · intro h
    have hsf : w &&& 0x80000000 = 0x80000000 := and_mask_mono h (by decide)
    refine ⟨and_mask_mono h (by decide), fun hzero => ?_⟩
    exact absurd (hsf.symm.trans hzero) (by decide)

theorem opcode_of_addImm64 {w : BitVec 32} (h : w &&& 0xFF800000 = 0x91000000) :
    (w >>> 24) &&& 0x1f = 0x11 := by
  have hmask : w &&& 0x1f000000 = 0x11000000 := and_mask_mono h (by decide)
  have hshift : (0x1f : BitVec 32) = 0x1f000000#32 >>> 24 := by decide
  rw [hshift, ← BitVec.ushiftRight_and_distrib]
  have hopcode := congrArg (fun v : BitVec 32 => v >>> 24) hmask
  exact hopcode.trans (by decide)

/-- Words with different values under two masks. -/
theorem mask_ne {w m v m' v' : BitVec 32} (h : w &&& m = v) (hne : v &&& m' ≠ v' &&& m) :
    w &&& m' ≠ v' := by
  rintro rfl
  apply hne
  rw [← h, BitVec.and_assoc, BitVec.and_assoc, BitVec.and_comm m m']

section Word
variable {targets : List ℤ} {seg : Seg} {page : Pages} {op : Op}

theorem scanWord_of_adrp (h : IsAdrp op.2) : scanWord targets seg page op =
    (Function.update page (rdOf op.2) (some (adrpPage op)), []) := if_pos h

theorem scanWord_of_add (h : op.2 &&& 0xFF800000 = 0x91000000) : scanWord targets seg page op =
    (page, pageHit targets seg page op .adrpAdd (addOffset op.2)) := by
  have hadrp : ¬op.2 &&& 0x9F000000 = 0x90000000 := mask_ne h (by decide)
  rw [scanWord, if_neg hadrp, if_pos (isAddImm64_iff.mpr h), if_pos (opcode_of_addImm64 h)]

theorem scanWord_of_adr (h : IsAdr op.2) : scanWord targets seg page op =
    (Function.update page (rdOf op.2) none, if op.1 + splitImm op.2 ∈ targets then
      [⟨op.1, .adr, op.1 + splitImm op.2, seg⟩] else []) := by
  have hadrp : ¬op.2 &&& 0x9F000000 = 0x90000000 := mask_ne h (by decide)
  have hadd : ¬op.2 &&& 0xFF800000 = 0x91000000 := mask_ne h (by decide)
  rw [scanWord, if_neg hadrp, if_neg (mt isAddImm64_iff.mp hadd)]
  exact if_pos h

theorem scanWord_of_ldrStr (h : IsUnsignedOffset op.2) : scanWord targets seg page op =
    (page, pageHit targets seg page op .adrpLdrStr (ldrStrOffset op.2)) := by
  have hadrp : ¬op.2 &&& 0x9F000000 = 0x90000000 := mask_ne h (by decide)
  have hadd : ¬op.2 &&& 0xFF800000 = 0x91000000 := mask_ne h (by decide)
  have hadr : ¬op.2 &&& 0x9F000000 = 0x10000000 := mask_ne h (by decide)
  rw [scanWord, if_neg hadrp, if_neg (mt isAddImm64_iff.mp hadd), if_neg hadr]
  exact if_pos h

theorem scanWord_of_other (hadrp : ¬IsAdrp op.2) (hadr : ¬IsAdr op.2)
    (huse : pageUse op.2 = none) : scanWord targets seg page op = (page, []) := by
  rw [pageUse] at huse
  split_ifs at huse with hadd hldr
  rw [scanWord, if_neg (show ¬op.2 &&& 0x9F000000 = 0x90000000 from hadrp),
    if_neg (mt isAddImm64_iff.mp hadd), if_neg (show ¬op.2 &&& 0x9F000000 = 0x10000000 from hadr),
    if_neg (show ¬op.2 &&& 0x3B000000 = 0x39000000 from hldr)]

/-- The classes that read a page are none of those that set one. -/
theorem pageUse_of_adrp (h : IsAdrp op.2) : pageUse op.2 = none := by
  have hadd : ¬op.2 &&& 0xFF800000 = 0x91000000 := mask_ne h (by decide)
  have hldr : ¬op.2 &&& 0x3B000000 = 0x39000000 := mask_ne h (by decide)
  rw [pageUse, if_neg hadd]
  exact if_neg hldr

theorem pageUse_of_adr (h : IsAdr op.2) : pageUse op.2 = none := by
  have hadd : ¬op.2 &&& 0xFF800000 = 0x91000000 := mask_ne h (by decide)
  have hldr : ¬op.2 &&& 0x3B000000 = 0x39000000 := mask_ne h (by decide)
  rw [pageUse, if_neg hadd]
  exact if_neg hldr

theorem scanWord_of_use {kind : Kind} {offset : ℕ} (h : pageUse op.2 = some (kind, offset)) :
    scanWord targets seg page op = (page, pageHit targets seg page op kind offset) := by
  rw [pageUse] at h
  split_ifs at h with hadd hldr
  · cases h
    exact scanWord_of_add hadd
  · cases h
    exact scanWord_of_ldrStr hldr

theorem isCell_page (targets : List ℤ) (seg : Seg) (r : BitVec 5) :
    IsCell (fun p op => (scanWord targets seg p op).1) (fun p => p r) (pageWrite r) := by
  intro page op
  dsimp only
  rw [pageWrite]
  by_cases hadrp : IsAdrp op.2
  · rw [scanWord_of_adrp hadrp, if_pos hadrp]
    dsimp only
    by_cases hr : rdOf op.2 = r
    · rw [if_pos hr, ← hr, Function.update_self, Option.getD_some]
    · rw [if_neg hr, Function.update_of_ne (Ne.symm hr), Option.getD_none]
  · rw [if_neg hadrp]
    by_cases hadr : IsAdr op.2
    · rw [scanWord_of_adr hadr, if_pos hadr]
      dsimp only
      by_cases hr : rdOf op.2 = r
      · rw [if_pos hr, ← hr, Function.update_self, Option.getD_some]
      · rw [if_neg hr, Function.update_of_ne (Ne.symm hr), Option.getD_none]
    · rw [if_neg hadr, ite_self, Option.getD_none]
      cases huse : pageUse op.2 with
      | none => rw [scanWord_of_other hadrp hadr huse]
      | some use => rw [scanWord_of_use huse]

theorem mem_pageHit {kind : Kind} {offset : ℕ} {h : Hit} :
    h ∈ pageHit targets seg page op kind offset ↔
      ∃ p, page (rnOf op.2) = some p ∧ p + offset ∈ targets ∧ h = ⟨op.1, kind, p + offset, seg⟩ := by
  rw [pageHit]
  cases page (rnOf op.2) with
  | none => simp
  | some p => by_cases hp : p + offset ∈ targets <;> simp [hp]

theorem mem_scanWord {h : Hit} : h ∈ (scanWord targets seg page op).2 ↔
    (∃ kind offset p, pageUse op.2 = some (kind, offset) ∧ page (rnOf op.2) = some p ∧
      p + offset ∈ targets ∧ h = ⟨op.1, kind, p + offset, seg⟩) ∨
    (IsAdr op.2 ∧ op.1 + splitImm op.2 ∈ targets ∧
      h = ⟨op.1, .adr, op.1 + splitImm op.2, seg⟩) := by
  by_cases hadrp : IsAdrp op.2
  · have hadr : ¬IsAdr op.2 := mask_ne hadrp (by decide)
    simp [scanWord_of_adrp hadrp, pageUse_of_adrp hadrp, hadr]
  · by_cases hadr : IsAdr op.2
    · rw [scanWord_of_adr hadr, pageUse_of_adr hadr]
      by_cases hin : op.1 + splitImm op.2 ∈ targets <;> simp [hadr, hin]
    · cases huse : pageUse op.2 with
      | none => simp [scanWord_of_other hadrp hadr huse, hadr]
      | some use =>
        obtain ⟨kind, offset⟩ := use
        rw [scanWord_of_use huse, mem_pageHit]
        simp only [Option.some.injEq, Prod.mk.injEq, hadr, false_and, or_false]
        constructor
        · rintro ⟨p, hp, hin, rfl⟩
          exact ⟨kind, offset, p, ⟨rfl, rfl⟩, hp, hin, rfl⟩
        · rintro ⟨_, _, p, ⟨rfl, rfl⟩, hp, hin, rfl⟩
          exact ⟨p, hp, hin, rfl⟩

end Word

/-! ## What the processor computes -/

theorem splitImm_eq (w : BitVec 32) : splitImm w = (adrDistance w).toInt := by
  have hhi : ((w >>> 5) &&& 0x7ffff).toNat = (w.extractLsb' 5 19).toNat :=
    and_toNat_mask w 5 19 (by decide)
  have hlo : ((w >>> 29) &&& 3).toNat = (w.extractLsb' 29 2).toNat :=
    and_toNat_mask w 29 2 (by decide)
  rw [splitImm, hhi, hlo, adrDistance]
  generalize w.extractLsb' 5 19 = hi
  generalize w.extractLsb' 29 2 = lo
  have hi_lt := hi.isLt
  have lo_lt := lo.isLt
  have hor : hi.toNat <<< 2 ||| lo.toNat = hi.toNat * 4 + lo.toNat := by
    rw [← Nat.shiftLeft_add_eq_or_of_lt lo_lt, Nat.shiftLeft_eq]
  have hcat : (hi ++ lo).toNat = hi.toNat * 4 + lo.toNat := by
    rw [BitVec.toNat_append, hor]
  have hbit : (hi.toNat * 4 + lo.toNat) &&& 1 <<< 20 ≠ 0 ↔ 2 ^ 20 ≤ hi.toNat * 4 + lo.toNat :=
    and_bit_ne_zero_iff (by omega)
  rw [hor, sxt, if_congr hbit rfl rfl, BitVec.toInt_eq_toNat_cond, hcat, Nat.one_shiftLeft]
  split_ifs <;> omega

theorem toInt_append_zeros (d : BitVec 21) : (d ++ 0#12).toInt = d.toInt * 4096 := by
  have hlt := d.isLt
  have hcat : (d ++ 0#12).toNat = d.toNat * 4096 := by
    rw [BitVec.toNat_append, BitVec.toNat_ofNat, Nat.zero_mod, Nat.or_zero, Nat.shiftLeft_eq]
  rw [BitVec.toInt_eq_toNat_cond, BitVec.toInt_eq_toNat_cond, hcat]
  split_ifs <;> omega

/-- The address ADRP forms, before it wraps. -/
def pageAddress (op : Op) : ℤ := (op.1 / 0x1000 * 0x1000 : ℕ) + (adrDistance op.2).toInt * 0x1000

theorem adrpPage_eq (op : Op) : adrpPage op = pageAddress op := by
  have hpage : clearPageOff op.1 = op.1 / 0x1000 * 0x1000 := by
    rw [clearPageOff]
    omega
  rw [adrpPage, pageAddress, hpage, splitImm_eq, Int.shiftLeft_eq]
  rfl

theorem ofInt_pageAddress (op : Op) :
    BitVec.ofInt 64 (pageAddress op) = adrpValue (BitVec.ofNat 64 op.1) op.2 := by
  have hpage : op.1 / 0x1000 * 0x1000 = op.1 - op.1 % 0x1000 := by omega
  have hdistance : (adrDistance op.2).toInt * 0x1000 = (adrDistance op.2 ++ 0#12).toInt :=
    (toInt_append_zeros _).symm
  rw [pageAddress, hpage, hdistance, BitVec.ofInt_add, BitVec.ofInt_natCast, adrpValue,
    pageOf_ofNat, BitVec.signExtend]

theorem ofInt_adr (op : Op) : BitVec.ofInt 64 (op.1 + (adrDistance op.2).toInt) =
    adrValue (BitVec.ofNat 64 op.1) op.2 := by
  rw [BitVec.ofInt_add, BitVec.ofInt_natCast, adrValue, BitVec.signExtend]

theorem imm12_eq (w : BitVec 32) : imm12 w = immediate w := and_toNat_mask w 10 12 (by decide)

theorem shift_bit_iff (w : BitVec 32) : (w >>> 22) &&& 1 ≠ 0 ↔ w.getLsbD 22 = true := by
  have hone : (1 : BitVec 32) = BitVec.twoPow 32 0 := by decide
  rw [hone, BitVec.and_twoPow, BitVec.getLsbD_ushiftRight]
  cases w.getLsbD 22 <;> decide

theorem addOffset_eq (w : BitVec 32) :
    addOffset w = immediate w * if w.getLsbD 22 then 0x1000 else 1 := by
  rw [addOffset, imm12_eq]
  simp only [shift_bit_iff]
  split_ifs
  · exact Nat.shiftLeft_eq _ _
  · exact (Nat.mul_one _).symm

theorem ldrStrOffset_eq (w : BitVec 32) : ldrStrOffset w = immediate w * 2 ^ sizeField w := by
  have hsize : ((w >>> 30) &&& 3).toNat = sizeField w := and_toNat_mask w 30 2 (by decide)
  rw [ldrStrOffset, imm12_eq, hsize, Nat.shiftLeft_eq]

/-- What ADD (immediate) adds. -/
theorem ofNat_addImmediate (w : BitVec 32) :
    BitVec.ofNat 64 (immediate w * if w.getLsbD 22 then 0x1000 else 1) =
      if w.getLsbD 22 then (w.extractLsb' 10 12).setWidth 64 <<< 12
      else (w.extractLsb' 10 12).setWidth 64 := by
  have hlt := (w.extractLsb' 10 12).isLt
  rw [immediate]
  split_ifs
  · apply BitVec.eq_of_toNat_eq
    rw [BitVec.toNat_ofNat, BitVec.toNat_shiftLeft, BitVec.toNat_setWidth, Nat.shiftLeft_eq]
    omega
  · rw [Nat.mul_one, BitVec.ofNat_toNat]

/-! ## Uses of a page -/

/-- A word that goes on from a base: the 64-bit ADD (immediate), and a load or store with an
unsigned offset, taken to be scaled by its size field. -/
inductive Uses (w : BitVec 32) : Kind → ℕ → Prop
  | add (h : w &&& 0xFF800000 = 0x91000000) :
      Uses w .adrpAdd (immediate w * if w.getLsbD 22 then 0x1000 else 1)
  | access (h : IsUnsignedOffset w) : Uses w .adrpLdrStr (immediate w * 2 ^ sizeField w)

theorem pageUse_iff {w : BitVec 32} {kind : Kind} {offset : ℕ} :
    pageUse w = some (kind, offset) ↔ Uses w kind offset := by
  rw [pageUse, addOffset_eq, ldrStrOffset_eq]
  constructor
  · intro h
    by_cases hadd : w &&& 0xFF800000 = 0x91000000
    · rw [if_pos hadd] at h
      cases h
      exact .add hadd
    · rw [if_neg hadd] at h
      by_cases hldr : IsUnsignedOffset w
      · rw [if_pos hldr] at h
        cases h
        exact .access hldr
      · rw [if_neg hldr] at h
        cases h
  · intro h
    cases h with
    | add hadd => rw [if_pos hadd]
    | access hldr => rw [if_neg (mask_ne hldr (by decide)), if_pos hldr]

theorem pageWrite_eq_none_iff {r : BitVec 5} {op : Op} : pageWrite r op = none ↔
    ¬(IsAdrp op.2 ∧ rdOf op.2 = r) ∧ ¬(IsAdr op.2 ∧ rdOf op.2 = r) := by
  rw [pageWrite]
  split_ifs with hr hadrp hadr
  · simp [hr, hadrp]
  · simp [hr, hadr]
  · simp [hadrp, hadr]
  · simp [hr]

end SecureWorld.Md0
