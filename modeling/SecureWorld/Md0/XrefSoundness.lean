import SecureWorld.Md0.XrefFast

/-! # Which cross references are real

A hit in straight-line code is real when the code, run from the ADRP on, forms the reported address.
-/
namespace SecureWorld.Md0
open Foundations Armv8 Patcher
set_option autoImplicit false

/-! ## Straight-line uses of a page -/

/-- `a` is the last ADRP to the register that `o` names. -/
structure FormsBase (a : Op) (mid : List Op) (o : Op) : Prop where
  adrp : IsAdrp a.2
  reg : rdOf a.2 = rnOf o.2
  last : ∀ m ∈ mid, ¬(IsAdrp m.2 ∧ rdOf m.2 = rnOf o.2)

/-- No ADR sets the register. -/
def NoAdr (mid : List Op) (r : BitVec 5) : Prop := ∀ m ∈ mid, ¬(IsAdr m.2 ∧ rdOf m.2 = r)

/-- No branch between, and none that lands after `a`. -/
def Straight (landing : Set ℕ) (mid : List Op) (o : Op) : Prop :=
  (∀ m ∈ mid, ¬IsControlTransfer m.2 ∧ m.1 ∉ landing) ∧ o.1 ∉ landing

/-- What the size field alone falls short of: an access of 128 bits scales its immediate by 16
more. -/
def scaleError (w : BitVec 32) : BitVec 64 :=
  if IsQuadAccess w then -BitVec.ofNat 64 (15 * (immediate w * 2 ^ sizeField w)) else 0#64

theorem FormsBase.unique {pre pre' mid mid' : List Op} {a a' o : Op} (h : FormsBase a mid o)
    (heq : pre ++ a :: mid = pre' ++ a' :: mid') (h' : FormsBase a' mid' o) :
    pre = pre' ∧ a = a' ∧ mid = mid' :=
  split_last_unique heq (P := fun m => IsAdrp m.2 ∧ rdOf m.2 = rnOf o.2) ⟨h.adrp, h.reg⟩
    ⟨h'.adrp, h'.reg⟩ h.last h'.last

section Real
variable (arch : Implementation)

/-- The instruction at `o` has the value as its result, or as its address. The zero register takes
no result. -/
def Computes (s : arch.State) (o : Op) : Kind → BitVec 64 → Prop
  | .adrpAdd, v => ∃ s', arch.step (BitVec.ofNat 64 o.1) o.2 s = some s' ∧ arch.x s' (rdOf o.2) = v
  | .adr, v => ∃ s', arch.step (BitVec.ofNat 64 o.1) o.2 s = some s' ∧
      (rdOf o.2 = 31 ∨ arch.x s' (rdOf o.2) = v)
  | .adrpLdrStr, v => effectiveAddress (arch.x s) o.2 = v

/-- The code from `a` on, run from any state, comes to `o` with a state in which it computes the
value. -/
def RunComputes (a : Op) (mid : List Op) (o : Op) (kind : Kind) (v : BitVec 64) : Prop :=
  ∀ s s₁ s', arch.step (BitVec.ofNat 64 a.1) a.2 s = some s₁ → arch.run mid s₁ = some s' →
    Computes arch s' o kind v

/-- A hit of ADR needs no other instruction, the others need the ADRP. -/
def HitIsReal (landing : Set ℕ) (data : Bytes) (h : Hit) : Prop :=
  ∀ pre o post, codeWords data h.seg = pre ++ o :: post → o.1 = h.pc →
    if h.kind = .adr then ∀ s, Computes arch s o .adr (BitVec.ofInt 64 h.tv)
    else ∀ pre' a mid, pre = pre' ++ a :: mid → FormsBase a mid o → Straight landing mid o →
      RunComputes arch a mid o h.kind (BitVec.ofInt 64 h.tv)

/-- The code between leaves the base as ADRP left it. What ADRP gives to the zero register is lost,
and register 31 is the stack pointer in the other instruction. -/
def LeavesBase (a : Op) (mid : List Op) (o : Op) : Prop :=
  ∀ s s₁ s', arch.step (BitVec.ofNat 64 a.1) a.2 s = some s₁ → arch.run mid s₁ = some s' →
    arch.x s' (rnOf o.2) =
      (if rnOf o.2 = 31 then adrpValue (BitVec.ofNat 64 a.1) a.2 else arch.x s₁ (rnOf o.2)) +
        scaleError o.2

/-- So it is for every straight-line use of a page that forms a target. -/
def BasesKept (landing : Set ℕ) (targets : List ℤ) (code : List Op) : Prop :=
  ∀ pre a mid o post kind offset, code = pre ++ a :: mid ++ o :: post → FormsBase a mid o →
    NoAdr mid (rnOf o.2) → Straight landing mid o → Uses o.2 kind offset →
    pageAddress a + (offset : ℕ) ∈ targets → LeavesBase arch a mid o

end Real

/-! ## The scale -/

theorem accessOffset_add_scaleError {w : BitVec 32} (h : IsUnsignedOffset w) :
    accessOffset w + scaleError w = BitVec.ofNat 64 (immediate w * 2 ^ sizeField w) := by
  rw [accessOffset_eq, accessScale, scaleError]
  generalize immediate w = imm
  by_cases hquad : w.getLsbD 26 ∧ w.getLsbD 23
  · have hsixteen : imm * 2 ^ (sizeField w + 4) =
        imm * 2 ^ sizeField w + 15 * (imm * 2 ^ sizeField w) := by
      rw [Nat.pow_add, ← Nat.mul_assoc]
      omega
    rw [if_pos hquad, if_pos ⟨h, hquad⟩, hsixteen, BitVec.ofNat_add, ← BitVec.sub_eq_add_neg,
      BitVec.add_sub_cancel]
  · rw [if_neg hquad, if_neg fun h => hquad h.2, Nat.add_zero, BitVec.add_zero]

theorem scaleError_eq_zero (w : BitVec 32) :
    scaleError w = 0#64 ↔ ¬IsQuadAccess w ∨ immediate w = 0 := by
  rw [scaleError]
  split_ifs with hquad
  · have himm : immediate w < 2 ^ 12 := (w.extractLsb' 10 12).isLt
    have hsize : sizeField w < 4 := (w.extractLsb' 30 2).isLt
    have hscale : 2 ^ sizeField w ≤ 2 ^ 3 := Nat.pow_le_pow_right (by decide) (by omega)
    have hpos : 0 < 2 ^ sizeField w := Nat.two_pow_pos _
    have hle : immediate w * 2 ^ sizeField w ≤ 2 ^ 12 * 2 ^ 3 :=
      Nat.mul_le_mul himm.le hscale
    rw [BitVec.neg_eq_zero_iff, or_iff_right (not_not_intro hquad), ← BitVec.toNat_inj,
      BitVec.toNat_ofNat, Nat.mod_eq_of_lt (by omega)]
    constructor
    · intro hzero
      rcases Nat.mul_eq_zero.mp (show immediate w * 2 ^ sizeField w = 0 by simpa using hzero) with
        himm | hpow
      · exact himm
      · omega
    · intro hzero
      rw [hzero, Nat.zero_mul]
      rfl
  · exact iff_of_true rfl (.inl hquad)

/-! ## Hits and uses -/

theorem run_page {targets : List ℤ} {seg : Seg} {page : Pages} {pre : List Op} {r : BitVec 5} :
    run (fun p op => (scanWord targets seg p op).1) page pre r =
      (lastWrite (pageWrite r) pre).getD (page r) :=
  (isCell_page targets seg r).run pre page

/-- A register holds a page exactly after an ADRP to it. -/
theorem lastWrite_page_iff {pre : List Op} {r : BitVec 5} {p : ℤ} :
    lastWrite (pageWrite r) pre = some (some p) ↔ ∃ pre' a mid, pre = pre' ++ a :: mid ∧
      IsAdrp a.2 ∧ rdOf a.2 = r ∧ p = pageAddress a ∧
        (∀ m ∈ mid, ¬(IsAdrp m.2 ∧ rdOf m.2 = r)) ∧ NoAdr mid r := by
  have hnone (mid : List Op) : (∀ m ∈ mid, pageWrite r m = none) ↔
      (∀ m ∈ mid, ¬(IsAdrp m.2 ∧ rdOf m.2 = r)) ∧ NoAdr mid r := by
    simp only [NoAdr, pageWrite_eq_none_iff]
    exact ⟨fun h => ⟨fun m hm => (h m hm).1, fun m hm => (h m hm).2⟩,
      fun h m hm => ⟨h.1 m hm, h.2 m hm⟩⟩
  rw [lastWrite_eq_some_iff]
  constructor
  · rintro ⟨pre', a, mid, rfl, ha, hmid⟩
    rw [pageWrite] at ha
    split_ifs at ha with hr hadrp hadr
    · have hpage := (Option.some.inj (Option.some.inj ha)).symm.trans (adrpPage_eq a)
      exact ⟨pre', a, mid, rfl, hadrp, hr, hpage, (hnone mid).mp hmid⟩
    · cases Option.some.inj ha
  · rintro ⟨pre', a, mid, rfl, hadrp, hr, rfl, hmid⟩
    refine ⟨pre', a, mid, rfl, ?_, (hnone mid).mpr hmid⟩
    rw [pageWrite, if_pos hr, if_pos hadrp, adrpPage_eq]

/-- The hits: uses of a page that no ADR has made the scanner forget, and ADR. -/
theorem mem_scanCode_iff {targets : List ℤ} {seg : Seg} {code : List Op} {h : Hit} :
    h ∈ scanCode targets seg (fun _ => none) code ↔
      (∃ pre a mid o post kind offset, code = pre ++ a :: mid ++ o :: post ∧ FormsBase a mid o ∧
        NoAdr mid (rnOf o.2) ∧ Uses o.2 kind offset ∧ pageAddress a + (offset : ℕ) ∈ targets ∧
        h = ⟨o.1, kind, pageAddress a + (offset : ℕ), seg⟩) ∨
      (∃ pre o post, code = pre ++ o :: post ∧ IsAdr o.2 ∧
        o.1 + (adrDistance o.2).toInt ∈ targets ∧
        h = ⟨o.1, .adr, o.1 + (adrDistance o.2).toInt, seg⟩) := by
  rw [mem_scanCode]
  constructor
  · rintro ⟨pre, o, post, rfl, hmem⟩
    rcases mem_scanWord.mp hmem with ⟨kind, offset, p, huse, hp, hin, rfl⟩ | hadr
    · rw [run_page, Option.getD_eq_iff] at hp
      rcases hp with hp | ⟨-, hp⟩
      · obtain ⟨pre', a, mid, rfl, hadrp, hr, rfl, hmid, hnone⟩ := lastWrite_page_iff.mp hp
        exact .inl ⟨pre', a, mid, o, post, kind, offset, rfl, ⟨hadrp, hr, hmid⟩, hnone,
          pageUse_iff.mp huse, hin, rfl⟩
      · cases hp
    · rw [splitImm_eq] at hadr
      exact .inr ⟨pre, o, post, rfl, hadr⟩
  · rintro (⟨pre, a, mid, o, post, kind, offset, rfl, hbase, hnone, huse, hin, rfl⟩ | hadr)
    · refine ⟨pre ++ a :: mid, o, post, rfl, mem_scanWord.mpr (.inl ⟨kind, offset, _,
        pageUse_iff.mpr huse, ?_, hin, rfl⟩)⟩
      rw [run_page, lastWrite_page_iff.mpr ⟨pre, a, mid, rfl, hbase.adrp, hbase.reg, rfl,
        hbase.last, hnone⟩, Option.getD_some]
    · obtain ⟨pre, o, post, rfl, hadr⟩ := hadr
      rw [← splitImm_eq] at hadr
      exact ⟨pre, o, post, rfl, mem_scanWord.mpr (.inr hadr)⟩

/-- An address is at one place of the code. -/
theorem codeWords_split {data : Bytes} {seg : Seg} {pre pre' : List Op} {o o' : Op}
    {post post' : List Op} (h : codeWords data seg = pre ++ o :: post)
    (h' : codeWords data seg = pre' ++ o' :: post') (hpc : o.1 = o'.1) : pre = pre' ∧ o = o' := by
  have hat (pre : List Op) (o : Op) (post : List Op)
      (h : codeWords data seg = pre ++ o :: post) : o.1 = seg.vmaddr + pre.length * 4 := by
    have hget : (codeWords data seg)[pre.length]? = some o := by
      rw [h, List.getElem?_append_right (le_refl _), Nat.sub_self]
      rfl
    rw [codeWords, List.getElem?_map, Option.map_eq_some_iff] at hget
    obtain ⟨i, hi, rfl⟩ := hget
    obtain ⟨-, rfl⟩ := List.getElem?_eq_some_iff.mp hi
    simp
  have hlen : pre.length = pre'.length := by
    have ho := hat pre o post h
    have ho' := hat pre' o' post' h'
    omega
  obtain ⟨hpre, hrest⟩ := List.append_inj (h.symm.trans h') hlen
  exact ⟨hpre, (List.cons.inj hrest).1⟩

/-! ## When the hits are real -/

section Soundness
variable {arch : Implementation}

/-- A use computes what the scanner says when its base is the page, but for the scale. -/
theorem computes_use_iff {s : arch.State} {o : Op} {kind : Kind} {offset : ℕ} {p : ℤ}
    (huse : Uses o.2 kind offset) :
    Computes arch s o kind (BitVec.ofInt 64 (p + offset)) ↔
      arch.x s (rnOf o.2) = BitVec.ofInt 64 p + scaleError o.2 := by
  rw [BitVec.ofInt_add, BitVec.ofInt_natCast]
  cases huse with
  | add hadd =>
    have hnot : ¬IsQuadAccess o.2 := fun h => mask_ne hadd (by decide) h.1
    have hdecode : decode o.2 = some (.addImm (rdOf o.2) (rnOf o.2) (o.2.extractLsb' 10 12)
        (o.2.getLsbD 22)) := by
      rw [decode, if_neg (mask_ne hadd (by decide)), if_pos hadd]
    obtain ⟨s', hstep, hx⟩ := arch.step_of_decode (BitVec.ofNat 64 o.1) o.2 _ s hdecode
    have hresult : arch.x s' (rdOf o.2) = arch.x s (rnOf o.2) +
        BitVec.ofNat 64 (immediate o.2 * if o.2.getLsbD 22 then 0x1000 else 1) := by
      rw [hx, ofNat_addImmediate]
      exact Function.update_self _ _ _
    rw [scaleError, if_neg hnot, BitVec.add_zero]
    constructor
    · rintro ⟨s'', hstep', hv⟩
      obtain rfl := Option.some.inj (hstep.symm.trans hstep')
      exact (BitVec.add_left_inj _).mp (hresult.symm.trans hv)
    · intro hbase
      exact ⟨s', hstep, by rw [hresult, hbase]⟩
  | access hldr =>
    rw [← accessOffset_add_scaleError hldr]
    show arch.x s (rnOf o.2) + accessOffset o.2 = _ ↔ _
    rw [BitVec.add_comm (accessOffset o.2), ← BitVec.add_assoc, BitVec.add_left_inj]

/-- What ADRP leaves in the register. -/
theorem page_of_step {s s₁ : arch.State} {a : Op} (ha : IsAdrp a.2) (hreg : rdOf a.2 ≠ 31)
    (hstep : arch.step (BitVec.ofNat 64 a.1) a.2 s = some s₁) :
    arch.x s₁ (rdOf a.2) = adrpValue (BitVec.ofNat 64 a.1) a.2 := by
  obtain ⟨s', hstep', hx⟩ := arch.step_of_decode (BitVec.ofNat 64 a.1) a.2 _ s (decode_adrp ha)
  obtain rfl := Option.some.inj (hstep.symm.trans hstep')
  rw [hx, exec]
  dsimp only
  rw [if_neg hreg, Function.update_self]
  rfl

theorem runComputes_iff {a o : Op} {mid : List Op} {kind : Kind} {offset : ℕ}
    (hbase : FormsBase a mid o) (huse : Uses o.2 kind offset) :
    RunComputes arch a mid o kind (BitVec.ofInt 64 (pageAddress a + offset)) ↔
      LeavesBase arch a mid o := by
  refine forall₃_congr fun s s₁ s' => imp_congr_right fun hstep => imp_congr_right fun _ => ?_
  rw [computes_use_iff huse, ofInt_pageAddress]
  split_ifs with hsp
  · rfl
  · rw [← hbase.reg] at hsp ⊢
    rw [page_of_step hbase.adrp hsp hstep]

theorem computes_adr (s : arch.State) {o : Op} (h : IsAdr o.2) :
    Computes arch s o .adr (BitVec.ofInt 64 (o.1 + (adrDistance o.2).toInt)) := by
  obtain ⟨s', hstep, hx⟩ := arch.step_adr (BitVec.ofNat 64 o.1) o.2 s h
  refine ⟨s', hstep, ?_⟩
  by_cases hzr : rdOf o.2 = 31
  · exact .inl hzr
  · rw [hx, if_neg hzr, ofInt_adr]
    exact .inr (Function.update_self _ _ _)

theorem Uses.kind_ne_adr {w : BitVec 32} {kind : Kind} {offset : ℕ} (h : Uses w kind offset) :
    kind ≠ .adr := by
  cases h <;> decide

/-- A segment with a word in it is not empty. -/
theorem filesize_pos {data : Bytes} {seg : Seg} {o : Op} (h : o ∈ codeWords data seg) :
    0 < seg.filesize := by
  by_contra hzero
  have hnil : codeWords data seg = [] := by
    have hlen : (slice data seg.fileoff (seg.fileoff + seg.filesize)).length = 0 := by
      rw [slice_length]
      omega
    rw [codeWords, hlen]
    rfl
  rw [hnil] at h
  exact absurd h List.not_mem_nil

/-- Every straight-line hit is real exactly when every straight-line use of a page that forms a
target has its base as ADRP left it, up to the scale of the 128-bit accesses. -/
theorem xrefs_real_iff (arch : Implementation) (landing : Set ℕ) (data : Bytes) (segs : List Seg)
    (targets : List ℤ) :
    ((∀ h ∈ findXrefs data segs targets, HitIsReal arch landing data h) ↔
      ∀ seg ∈ segs, seg.initprot &&& 0x4 ≠ 0 →
        BasesKept arch landing targets (codeWords data seg)) ∧
    ∀ w, scaleError w = 0#64 ↔ ¬IsQuadAccess w ∨ immediate w = 0 := by
  refine ⟨⟨?_, ?_⟩, scaleError_eq_zero⟩
  · intro hall seg hseg hprot pre a mid o post kind offset hcode hbase hnone hstraight huse hin
    have hword : o ∈ codeWords data seg := by
      rw [hcode]
      simp
    have hexec : seg ∈ execSegs segs :=
      List.mem_filter.mpr ⟨hseg, decide_eq_true ⟨hprot, filesize_pos hword⟩⟩
    have hhit : (⟨o.1, kind, pageAddress a + offset, seg⟩ : Hit) ∈ findXrefs data segs targets :=
      List.mem_flatMap.mpr ⟨seg, hexec, mem_scanCode_iff.mpr
        (.inl ⟨pre, a, mid, o, post, kind, offset, hcode, hbase, hnone, huse, hin, rfl⟩)⟩
    have hreal := hall _ hhit (pre ++ a :: mid) o post hcode rfl
    rw [if_neg huse.kind_ne_adr] at hreal
    exact (runComputes_iff hbase huse).mp (hreal pre a mid rfl hbase hstraight)
  · intro hkept h hh pre o post hsplit hpc
    obtain ⟨seg, hexec, hmem⟩ := List.mem_flatMap.mp hh
    obtain ⟨hseg, hprot⟩ := List.mem_filter.mp hexec
    rcases mem_scanCode_iff.mp hmem with
      ⟨pre₀, a₀, mid₀, o₀, post₀, kind, offset, hcode, hbase₀, hnone₀, huse, hin, rfl⟩ |
      ⟨pre₀, o₀, post₀, hcode, hadr, -, rfl⟩
    · obtain ⟨rfl, rfl⟩ := codeWords_split hsplit hcode hpc
      rw [if_neg huse.kind_ne_adr]
      intro pre' a mid hpre hbase hstraight
      -- the last ADRP before the hit is the one the scanner took the page from
      obtain ⟨rfl, rfl, rfl⟩ := hbase₀.unique hpre hbase
      exact (runComputes_iff hbase huse).mpr (hkept seg hseg (of_decide_eq_true hprot).1 _ _ _ o
        post kind offset hsplit hbase hnone₀ hstraight huse hin)
    · obtain ⟨rfl, rfl⟩ := codeWords_split hsplit hcode hpc
      rw [if_pos rfl]
      exact fun s => computes_adr s hadr

end Soundness

/-- `adrp x0, 0x4000; add x0, x0, #0x10; add x1, x0, #0x20` -/
def overwrittenBase : Bytes := [0, 0, 0, 0x90, 0, 0x40, 0, 0x91, 1, 0x80, 0, 0x91]

/-- The second ADD is reported for 0x4020 and computes 0x4030. -/
theorem overwritten_base_reported : ¬∀ (arch : Implementation) (landing : Set ℕ) (data : Bytes)
    (segs : List Seg) (targets : List ℤ), ∀ h ∈ findXrefs data segs targets,
      HitIsReal arch landing data h := by
  intro hall
  have hreal := hall addressFragment ∅ overwrittenBase [⟨0x4000, 0, 12, 5⟩] [0x4020]
    ⟨0x4008, .adrpAdd, 0x4020, ⟨0x4000, 0, 12, 5⟩⟩ (by decide +kernel)
    [(0x4000, 0x90000000), (0x4004, 0x91004000)] (0x4008, 0x91008001) [] (by decide +kernel) rfl
  have hstraight : Straight ∅ [(0x4004, 0x91004000)] (0x4008, 0x91008001) :=
    ⟨by simp only [List.forall_mem_singleton]; exact ⟨by decide, fun h => h⟩, fun h => h⟩
  obtain ⟨s'', hstep, hx⟩ := hreal [] (0x4000, 0x90000000) [(0x4004, 0x91004000)] rfl
    ⟨by decide, by decide, by decide⟩ hstraight (fun _ => 0) _ _ rfl rfl
  cases hstep
  revert hx
  decide

end SecureWorld.Md0
