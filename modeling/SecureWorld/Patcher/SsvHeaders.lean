import SecureWorld.Patcher.SsvPatches

/-! # What the anchors depend on

To find its strings the script reads load commands and the segments the strings are in. Images that
agree below a bound have the same anchors when all of that lies below the bound.
-/
namespace SecureWorld.Patcher
open Foundations
set_option autoImplicit false

/-- Two images of one length with the same bytes below `bound`. -/
structure AgreeBelow (bound : ℕ) (data out : Bytes) : Prop where
  length_eq : out.length = data.length
  byte : ∀ i < bound, out[i]? = data[i]?

section Reads
variable {bound : ℕ} {data out : Bytes} (h : AgreeBelow bound data out)
include h

theorem AgreeBelow.unpackI (off : ℕ) (hoff : off + 4 ≤ bound) :
    unpackI out off = unpackI data off := by
  rw [Patcher.unpackI, Patcher.unpackI, h.length_eq,
    wordAt_congr fun k hk => h.byte (off + k) (by omega)]

theorem AgreeBelow.unpackQ (off : ℕ) (hoff : off + 8 ≤ bound) :
    unpackQ out off = unpackQ data off := by
  rw [Patcher.unpackQ, Patcher.unpackQ, h.length_eq,
    field_congr fun k hk => h.byte (off + k) (by omega)]

theorem AgreeBelow.slice {a b : ℕ} (hb : b ≤ bound) : slice out a b = slice data a b := by
  refine List.ext_getElem? fun i => ?_
  simp only [Patcher.slice, List.getElem?_drop, List.getElem?_take]
  exact if_ctx_congr Iff.rfl (fun hi => h.byte _ (hi.trans_le hb)) fun _ => rfl

theorem AgreeBelow.drop (k : ℕ) : AgreeBelow (bound - k) (data.drop k) (out.drop k) where
  length_eq := by rw [List.length_drop, List.length_drop, h.length_eq]
  byte i hi := by
    rw [List.getElem?_drop, List.getElem?_drop]
    exact h.byte (k + i) (by omega)

end Reads

/-! ## Load commands -/

/-- The offsets that a loop over the load commands passes. -/
def commandOffsets (data : Bytes) : ℕ → ℕ → List ℕ
  | 0, _ => []
  | n + 1, off => off ::
      match unpackI data (off + 4) with
      | .ok cmdsize => commandOffsets data n (off + cmdsize.toNat)
      | .error _ => []

/-- The command and the fields of a segment command at `off` lie below `bound`. -/
def CommandBelow (bound : ℕ) (data : Bytes) (off : ℕ) : Prop :=
  off + 56 ≤ bound ∧ off + (wordAt data (off + 4)).toNat ≤ bound

/-- So does the segment, if it is one that is searched for strings. -/
def TextBelow (bound : ℕ) (data : Bytes) (off : ℕ) : Prop :=
  untilNul (slice data (off + 8) (off + 24)) ∈ [asciiBytes "__TEXT", asciiBytes "__PRELINK_TEXT"] →
    field data (off + 40) 8 + field data (off + 48) 8 ≤ bound

instance (bound : ℕ) (data : Bytes) (off : ℕ) : Decidable (CommandBelow bound data off) :=
  inferInstanceAs (Decidable (_ ∧ _))

instance (bound : ℕ) (data : Bytes) (off : ℕ) : Decidable (TextBelow bound data off) :=
  inferInstanceAs (Decidable (_ → _))

theorem commandOffsets_rest {data : Bytes} {n off : ℕ} {cmdsize : BitVec 32} {P : ℕ → Prop}
    (hsize : unpackI data (off + 4) = .ok cmdsize)
    (hall : ∀ o ∈ commandOffsets data (n + 1) off, P o) :
    ∀ o ∈ commandOffsets data n (off + cmdsize.toNat), P o := fun o ho =>
  hall o (by rw [commandOffsets, hsize]; exact List.mem_cons_of_mem _ ho)

theorem wordAt_of_unpackI {data : Bytes} {off : ℕ} {w : BitVec 32} (h : unpackI data off = .ok w) :
    wordAt data off = w := by
  rw [unpackI] at h
  split_ifs at h
  exact Except.ok.inj h

theorem field_of_unpackQ {data : Bytes} {off v : ℕ} (h : unpackQ data off = .ok v) :
    field data off 8 = v := by
  rw [unpackQ] at h
  split_ifs at h
  exact Except.ok.inj h

section Loops
variable {bound : ℕ} {data out : Bytes} (h : AgreeBelow bound data out)
include h

theorem filesetEntryFrom_congr (name : String) (n off : ℕ)
    (hall : ∀ o ∈ commandOffsets data n off, CommandBelow bound data o) :
    filesetEntryFrom out name n off = filesetEntryFrom data name n off := by
  induction n generalizing off with
  | zero => rfl
  | succ n ih =>
    obtain ⟨hoff, hend⟩ := hall off List.mem_cons_self
    rw [filesetEntryFrom, filesetEntryFrom, h.length_eq, h.unpackI off (by omega),
      h.unpackI (off + 4) (by omega)]
    refine if_congr Iff.rfl rfl ?_
    cases unpackI data off with
    | error => rfl
    | ok cmd =>
      cases hsize : unpackI data (off + 4) with
      | error => rfl
      | ok cmdsize =>
        rw [wordAt_of_unpackI hsize] at hend
        rw [ok_bind, ok_bind, ok_bind, ok_bind, h.unpackQ (off + 8) (by omega),
          h.unpackQ (off + 16) (by omega), h.unpackI (off + 24) (by omega),
          ih _ (commandOffsets_rest hsize hall)]
        simp only [h.slice hend]

theorem kextSegmentsFrom_congr (n off : ℕ) (segs : Segments)
    (hall : ∀ o ∈ commandOffsets data n off, CommandBelow bound data o) :
    kextSegmentsFrom out n off segs = kextSegmentsFrom data n off segs := by
  induction n generalizing off segs with
  | zero => rfl
  | succ n ih =>
    obtain ⟨hoff, -⟩ := hall off List.mem_cons_self
    rw [kextSegmentsFrom, kextSegmentsFrom, h.length_eq, h.unpackI off (by omega),
      h.unpackI (off + 4) (by omega)]
    refine if_congr Iff.rfl rfl ?_
    cases unpackI data off with
    | error => rfl
    | ok cmd =>
      cases hsize : unpackI data (off + 4) with
      | error => rfl
      | ok cmdsize =>
        have hrest := fun segs => ih (off + cmdsize.toNat) segs (commandOffsets_rest hsize hall)
        rw [ok_bind, ok_bind, ok_bind, ok_bind, h.slice (show off + 24 ≤ bound by omega),
          h.unpackQ (off + 24) (by omega), h.unpackQ (off + 32) (by omega),
          h.unpackQ (off + 40) (by omega), h.unpackQ (off + 48) (by omega)]
        simp only [hrest]

theorem segContainingStrFrom_congr (needle : Bytes) (n off : ℕ)
    (hall : ∀ o ∈ commandOffsets data n off, CommandBelow bound data o ∧ TextBelow bound data o) :
    segContainingStrFrom out needle n off = segContainingStrFrom data needle n off := by
  induction n generalizing off with
  | zero => rfl
  | succ n ih =>
    obtain ⟨⟨hoff, -⟩, htext⟩ := hall off List.mem_cons_self
    rw [segContainingStrFrom, segContainingStrFrom, h.unpackI off (by omega),
      h.unpackI (off + 4) (by omega)]
    cases unpackI data off with
    | error => rfl
    | ok cmd =>
      cases hsize : unpackI data (off + 4) with
      | error => rfl
      | ok cmdsize =>
        rw [ok_bind, ok_bind, ok_bind, ok_bind, h.slice (show off + 24 ≤ bound by omega),
          h.unpackQ (off + 24) (by omega), h.unpackQ (off + 32) (by omega),
          h.unpackQ (off + 40) (by omega), h.unpackQ (off + 48) (by omega),
          ih _ (commandOffsets_rest hsize hall)]
        cases hfileoff : unpackQ data (off + 40) with
        | error => rfl
        | ok fileoff =>
          cases hfilesize : unpackQ data (off + 48) with
          | error => rfl
          | ok filesize =>
            by_cases hname : untilNul (slice data (off + 8) (off + 24)) ∈
                [asciiBytes "__TEXT", asciiBytes "__PRELINK_TEXT"]
            · have hb := htext hname
              rw [field_of_unpackQ hfileoff, field_of_unpackQ hfilesize] at hb
              simp only [ok_bind, h.slice hb]
            · simp only [ok_bind, if_neg hname]

theorem kernelExecFrom_congr (n off : ℕ)
    (hall : ∀ o ∈ commandOffsets data n off, CommandBelow bound data o) :
    kernelExecFrom out n off = kernelExecFrom data n off := by
  induction n generalizing off with
  | zero => rfl
  | succ n ih =>
    obtain ⟨hoff, -⟩ := hall off List.mem_cons_self
    rw [kernelExecFrom, kernelExecFrom, h.unpackI off (by omega),
      h.unpackI (off + 4) (by omega)]
    cases unpackI data off with
    | error => rfl
    | ok cmd =>
      cases hsize : unpackI data (off + 4) with
      | error => rfl
      | ok cmdsize =>
        rw [ok_bind, ok_bind, ok_bind, ok_bind, h.slice (show off + 24 ≤ bound by omega),
          h.unpackQ (off + 24) (by omega), h.unpackQ (off + 40) (by omega),
          h.unpackQ (off + 48) (by omega), ih _ (commandOffsets_rest hsize hall)]

end Loops

/-! ## Anchors -/

/-- The commands of the kext at `kextFileoff` and its text lie below `bound`. -/
structure KextBelow (bound : ℕ) (data : Bytes) (kextFileoff : ℕ) : Prop where
  header : 20 ≤ bound - kextFileoff
  commands : ∀ o ∈ commandOffsets (data.drop kextFileoff)
      (wordAt (data.drop kextFileoff) 16).toNat 32,
    CommandBelow (bound - kextFileoff) (data.drop kextFileoff) o
  text : ∀ segs ∈ (parseKextSegments data kextFileoff).toOption,
    ∀ text ∈ segs.get "__TEXT", text.fileoff + text.filesize ≤ bound

/-- All that the script reads to find its strings lies below `bound`. -/
structure HeadersBelow (bound : ℕ) (data : Bytes) : Prop where
  header : 20 ≤ bound
  commands : ∀ o ∈ commandOffsets data (wordAt data 16).toNat 32,
    CommandBelow bound data o ∧ TextBelow bound data o
  kexts : ∀ kext ∈ [apfsKext, image4Kext],
    ∀ entry ∈ (parseFilesetEntry data kext).toOption.join, KextBelow bound data entry.1

section Anchors
variable {bound : ℕ} {data out : Bytes} (hb : HeadersBelow bound data)
  (h : AgreeBelow bound data out)
include hb h

theorem parseFilesetEntry_congr (name : String) :
    parseFilesetEntry out name = parseFilesetEntry data name := by
  have hlow := hb.header
  rw [parseFilesetEntry, parseFilesetEntry, h.unpackI 0 (by omega),
    h.unpackI 12 (by omega), h.unpackI 16 (by omega)]
  cases hncmds : unpackI data 16 with
  | error => rfl
  | ok ncmds =>
    have hall := hb.commands
    rw [wordAt_of_unpackI hncmds] at hall
    rw [ok_bind, ok_bind, filesetEntryFrom_congr h name _ _ fun o ho => (hall o ho).1]

theorem kernelAnchor_congr : kernelAnchor out = kernelAnchor data := by
  have hlow := hb.header
  rw [kernelAnchor, kernelAnchor, segContainingStr, segContainingStr,
    h.unpackI 16 (by omega)]
  cases hncmds : unpackI data 16 with
  | error => rfl
  | ok ncmds =>
    have hall := hb.commands
    rw [wordAt_of_unpackI hncmds] at hall
    simp only [ok_bind, segContainingStrFrom_congr h _ _ _ hall,
      kernelExecFrom_congr h _ _ fun o ho => (hall o ho).1]

omit hb in
theorem parseKextSegments_congr {kextFileoff : ℕ} (hk : KextBelow bound data kextFileoff) :
    parseKextSegments out kextFileoff = parseKextSegments data kextFileoff := by
  have hlow := hk.header
  have hdrop := h.drop kextFileoff
  rw [parseKextSegments, parseKextSegments, hdrop.unpackI 0 (by omega), hdrop.unpackI 16 (by omega)]
  cases hncmds : unpackI (data.drop kextFileoff) 16 with
  | error => rfl
  | ok ncmds =>
    have hall := hk.commands
    rw [wordAt_of_unpackI hncmds] at hall
    rw [ok_bind, ok_bind, kextSegmentsFrom_congr hdrop _ _ _ hall]

theorem kextAnchor_congr {kext : String} (hkext : kext ∈ [apfsKext, image4Kext])
    (needle : String) : kextAnchor out kext needle = kextAnchor data kext needle := by
  rw [kextAnchor, kextAnchor, parseFilesetEntry_congr hb h]
  cases hentry : parseFilesetEntry data kext with
  | error => rfl
  | ok entry =>
    cases entry with
    | none => rfl
    | some entry =>
      have hk := hb.kexts kext hkext entry (by rw [hentry]; rfl)
      rw [ok_bind, ok_bind]
      dsimp only
      rw [parseKextSegments_congr h hk]
      cases hsegs : parseKextSegments data entry.1 with
      | error => rfl
      | ok segs =>
        have htext := hk.text segs (by rw [hsegs]; rfl)
        rw [ok_bind, ok_bind]
        cases ht : segs.get "__TEXT" with
        | none => rfl
        | some text =>
          dsimp only
          rw [findStringInSection, h.slice (htext text ht), findStringInSection]

end Anchors

end SecureWorld.Patcher
