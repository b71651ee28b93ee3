import SecureWorld.DeviceTree.Decoding

/-! # What the decoder accepts

A frame is data read field by field, the flag of the length field included. A slice beyond the end of
the data is cut off silently: the header and the length field notice missing bytes, a value does not,
so the decoder also accepts a frame that ends inside the value it reads last.
-/
namespace SecureWorld.DeviceTree
open Foundations
set_option autoImplicit false

/-! ## Frames: data read field by field -/

/-- A property as it stands in the data, with what is there of its value. -/
@[ext] structure RawEntry where
  name : Bytes
  /-- the length field, flag included -/
  len : ℕ
  value : Bytes
  name_length : name.length = 32
  len_lt : len < 256 ^ 4

/-- The bytes the decoder takes for the value. -/
def RawEntry.room (p : RawEntry) : ℕ := roundUpToMultipleOf4 (clearFlag p.len)

def RawEntry.bytes (p : RawEntry) : Bytes := p.name ++ leBytes 4 p.len ++ p.value

def RawEntry.Complete (p : RawEntry) : Prop := p.value.length = p.room

def RawEntry.Cut (p : RawEntry) : Prop := p.value.length < p.room

/-- The decoder reads `p` as the entry `kv`. -/
structure RawEntry.ReadAs (p : RawEntry) (kv : Text × PropVal) : Prop where
  key : decodeNullTerminatedString p.name = .ok kv.1
  value : decodeProp kv.1 p.value = .ok kv.2

abbrev Frame := Rose (List RawEntry)

def entriesBytes (ps : List RawEntry) : Bytes := ps.flatMap RawEntry.bytes

/-- What the decoder counts for the properties. -/
def entriesSize (ps : List RawEntry) : ℕ := (ps.map fun p => 36 + p.room).sum

mutual

def frameBytes : Frame → Bytes
  | .node ps cs =>
      leBytes 4 ps.length ++ leBytes 4 cs.length ++ entriesBytes ps ++ framesBytes cs

def framesBytes : List Frame → Bytes
  | [] => []
  | c :: cs => frameBytes c ++ framesBytes cs

end

mutual

def frameSize : Frame → ℕ
  | .node ps cs => 8 + entriesSize ps + framesSize cs

def framesSize : List Frame → ℕ
  | [] => 0
  | c :: cs => frameSize c + framesSize cs

end

def ReadEntriesAs (ps : List RawEntry) (props : Props) : Prop :=
  ∃ kvs, List.Forall₂ RawEntry.ReadAs ps kvs ∧ props = insertAll kvs []

def Whole (R : Frame) : Prop := Rose.Everywhere (fun t => ∀ p ∈ t.label, p.Complete) R

/-- All but the last are complete, and the last is cut. -/
def CutAtEnd {α : Type} (complete cut : α → Prop) (xs : List α) : Prop :=
  ∃ init x, xs = init ++ [x] ∧ (∀ y ∈ init, complete y) ∧ cut x

/-- Only the value that is read last is cut. -/
inductive CutLast : Frame → Prop
  | entries {ps : List RawEntry} :
      CutAtEnd RawEntry.Complete RawEntry.Cut ps → CutLast (.node ps [])
  | children {ps : List RawEntry} {init : List Frame} {c : Frame} :
      (∀ p ∈ ps, p.Complete) → (∀ d ∈ init, Whole d) → CutLast c → CutLast (.node ps (init ++ [c]))

/-- `dt` is `body` and `rest`, where a cut body leaves no rest. -/
def Splits (complete cut : Prop) (body dt rest : Bytes) : Prop :=
  (complete ∧ dt = body ++ rest) ∨ (cut ∧ dt = body ∧ rest = [])

theorem Splits.eq {complete cut : Prop} {body dt rest : Bytes}
    (h : Splits complete cut body dt rest) : dt = body ++ rest := by
  obtain ⟨-, rfl⟩ | ⟨-, rfl, rfl⟩ := h
  · rfl
  · exact (List.append_nil _).symm

theorem Splits.rest_le {complete cut : Prop} {body dt rest : Bytes}
    (h : Splits complete cut body dt rest) : rest.length ≤ dt.length := by
  rw [h.eq, List.length_append]
  exact Nat.le_add_left _ _

theorem cutAtEnd_cons {α : Type} {complete cut : α → Prop} {x : α} {xs : List α} :
    CutAtEnd complete cut (x :: xs) ↔
      (xs = [] ∧ cut x) ∨ (complete x ∧ CutAtEnd complete cut xs) := by
  constructor
  · rintro ⟨init, y, hxs, hinit, hy⟩
    cases init with
    | nil =>
      obtain ⟨rfl, rfl⟩ := List.cons.inj hxs
      exact .inl ⟨rfl, hy⟩
    | cons z init =>
      obtain ⟨rfl, rfl⟩ := List.cons.inj hxs
      rw [List.forall_mem_cons] at hinit
      exact .inr ⟨hinit.1, init, y, rfl, hinit.2, hy⟩
  · rintro (⟨rfl, hx⟩ | ⟨hx, init, y, rfl, hinit, hy⟩)
    · exact ⟨[], x, rfl, List.forall_mem_nil _, hx⟩
    · exact ⟨x :: init, y, rfl, List.forall_mem_cons.mpr ⟨hx, hinit⟩, hy⟩

theorem cutAtEnd_nil {α : Type} {complete cut : α → Prop} :
    ¬ CutAtEnd complete cut ([] : List α) := by
  rintro ⟨init, x, h, -⟩
  simp at h

theorem cutLast_node_iff {ps : List RawEntry} {cs : List Frame} :
    CutLast (.node ps cs) ↔ (cs = [] ∧ CutAtEnd RawEntry.Complete RawEntry.Cut ps) ∨
      ((∀ p ∈ ps, p.Complete) ∧ CutAtEnd Whole CutLast cs) := by
  constructor
  · intro h
    cases h with
    | entries hps => exact .inl ⟨rfl, hps⟩
    | children hps hinit hc => exact .inr ⟨hps, _, _, rfl, hinit, hc⟩
  · rintro (⟨rfl, hps⟩ | ⟨hps, init, c, rfl, hinit, hc⟩)
    · exact .entries hps
    · exact .children hps hinit hc

/-! ## One property -/

theorem RawEntry.bytes_length (p : RawEntry) : p.bytes.length = 36 + p.value.length := by
  rw [RawEntry.bytes, List.length_append, List.length_append, p.name_length, leBytes_length]

theorem entry_slices (p : RawEntry) (s : Bytes) :
    (p.bytes ++ s).take 32 = p.name ∧ ((p.bytes ++ s).take 36).drop 32 = leBytes 4 p.len ∧
      (p.bytes ++ s).drop 36 = p.value ++ s := by
  have hhead : (p.name ++ leBytes 4 p.len).length = 36 := by
    rw [List.length_append, p.name_length, leBytes_length]
  refine ⟨?_, ?_, ?_⟩
  · rw [RawEntry.bytes, List.append_assoc, List.append_assoc, List.take_left' p.name_length]
  · rw [RawEntry.bytes, List.append_assoc, List.take_left' hhead, List.drop_left' p.name_length]
  · rw [RawEntry.bytes, List.append_assoc, List.drop_left' hhead]

theorem entry_value {p : RawEntry} {dt s : Bytes} (h : Splits p.Complete p.Cut p.bytes dt s) :
    (dt.take (36 + p.room)).drop 36 = p.value ∧ dt.drop (36 + p.room) = s := by
  have hlength := p.bytes_length
  have hdrop := fun s => (entry_slices p s).2.2
  rw [List.drop_take, Nat.add_sub_cancel_left]
  obtain ⟨hp, rfl⟩ | ⟨hp, rfl, rfl⟩ := h
  · rw [RawEntry.Complete] at hp
    rw [← List.drop_drop, hdrop, ← hp]
    exact ⟨List.take_left, List.drop_left⟩
  · rw [RawEntry.Cut] at hp
    have hself := hdrop []
    rw [List.append_nil, List.append_nil] at hself
    rw [← List.drop_drop, hself]
    exact ⟨List.take_of_length_le hp.le, List.drop_of_length_le hp.le⟩

/-- On data that starts with a name and a length the decoder takes what is there of the value. -/
theorem decodeEntry_of_splits {p : RawEntry} {dt s : Bytes}
    (h : Splits p.Complete p.Cut p.bytes dt s) {x : Text × PropVal × ℕ} :
    decodeEntry dt = .ok x ↔ p.ReadAs (x.1, x.2.1) ∧ x.2.2 = 36 + p.room := by
  have hslices : dt.take 32 = p.name ∧ (dt.take 36).drop 32 = leBytes 4 p.len := by
    obtain ⟨hname, hlen, -⟩ := entry_slices p s
    obtain ⟨-, rfl⟩ | ⟨-, rfl, rfl⟩ := h
    · exact ⟨hname, hlen⟩
    · rw [List.append_nil] at hname hlen
      exact ⟨hname, hlen⟩
  have hunpack : unpackU32 (leBytes 4 p.len) = .ok p.len := by
    rw [unpackU32, if_pos (leBytes_length 4 _), leNat_leBytes, Nat.mod_eq_of_lt p.len_lt]
  have hroom : roundUpToMultipleOf4 (clearFlag p.len) = p.room := rfl
  unfold decodeEntry
  simp only [bind_eq_ok_iff, hslices.1, hslices.2, hunpack, Except.ok.injEq, exists_eq_left', hroom,
    (entry_value h).1]
  constructor
  · rintro ⟨key, hkey, value, hval, rfl⟩
    exact ⟨⟨hkey, hval⟩, rfl⟩
  · rintro ⟨⟨hkey, hval⟩, hsize⟩
    exact ⟨x.1, hkey, x.2.1, hval, by rw [← hsize]⟩

/-- Whatever the decoder reads as a property starts with a name and a length. -/
theorem exists_entry_of_decodeEntry {dt : Bytes} {x : Text × PropVal × ℕ}
    (h : decodeEntry dt = .ok x) :
    ∃ p : RawEntry, ∃ s, Splits p.Complete p.Cut p.bytes dt s := by
  unfold decodeEntry at h
  simp only [bind_eq_ok_iff] at h
  obtain ⟨-, -, rawLen, hraw, -⟩ := h
  unfold unpackU32 at hraw
  split_ifs at hraw with hfour
  obtain rfl := Except.ok.inj hraw
  have hlong : 36 ≤ dt.length := by
    rw [List.length_drop, List.length_take] at hfour
    omega
  have hdt : dt = dt.take 32 ++ (dt.take 36).drop 32 ++ dt.drop 36 := by
    rw [List.drop_take, ← List.take_add, List.take_append_drop]
  have hlt : leNat ((dt.take 36).drop 32) < 256 ^ 4 := by
    have hbound := leNat_lt ((dt.take 36).drop 32)
    rwa [hfour] at hbound
  let room := roundUpToMultipleOf4 (clearFlag (leNat ((dt.take 36).drop 32)))
  let p : RawEntry :=
    { name := dt.take 32, len := leNat ((dt.take 36).drop 32), value := (dt.drop 36).take room
      name_length := by rw [List.length_take]; omega
      len_lt := hlt }
  have hvalue : p.value = (dt.drop 36).take p.room := rfl
  have hbytes : dt = p.bytes ++ (dt.drop 36).drop room := by
    have hle : leBytes 4 p.len = (dt.take 36).drop 32 := by
      rw [← hfour]
      exact leBytes_leNat _
    rw [RawEntry.bytes, hle, List.append_assoc, List.append_assoc]
    conv_lhs => rw [hdt, List.append_assoc]
    rw [show p.value = (dt.drop 36).take room from rfl, List.take_append_drop]
  refine ⟨p, (dt.drop 36).drop room, ?_⟩
  by_cases hcut : (dt.drop 36).length < p.room
  · right
    have hnone : (dt.drop 36).drop room = [] := List.drop_of_length_le hcut.le
    rw [hnone, List.append_nil] at hbytes
    refine ⟨?_, hbytes, hnone⟩
    rw [RawEntry.Cut, hvalue, List.take_of_length_le hcut.le]
    exact hcut
  · left
    refine ⟨?_, hbytes⟩
    rw [RawEntry.Complete, hvalue, List.length_take]
    omega

/-- A property is read exactly if the data starts with it, or is it and ends in its value. -/
theorem decodeEntry_reads_iff {dt : Bytes} {x : Text × PropVal × ℕ} :
    decodeEntry dt = .ok x ↔ ∃ p : RawEntry, ∃ s, Splits p.Complete p.Cut p.bytes dt s ∧
      p.ReadAs (x.1, x.2.1) ∧ x.2.2 = 36 + p.room := by
  constructor
  · intro h
    obtain ⟨p, s, hsplit⟩ := exists_entry_of_decodeEntry h
    exact ⟨p, s, hsplit, (decodeEntry_of_splits hsplit).mp h⟩
  · rintro ⟨p, s, hsplit, h⟩
    exact (decodeEntry_of_splits hsplit).mpr h

/-! ## The two loops -/

/-- One part after another: only the last part that has bytes can be cut. -/
theorem splits_append {c₁ k₁ c₂ k₂ empty : Prop} {b₁ b₂ dt rest : Bytes} (hempty : empty ↔ b₂ = [])
    (hc : empty → c₂) :
    Splits (c₁ ∧ c₂) ((empty ∧ k₁) ∨ (c₁ ∧ k₂)) (b₁ ++ b₂) dt rest ↔
      ∃ mid, Splits c₁ k₁ b₁ dt mid ∧ Splits c₂ k₂ b₂ mid rest := by
  constructor
  · rintro (⟨⟨h₁, h₂⟩, rfl⟩ | ⟨⟨he, hk⟩ | ⟨h₁, hk⟩, rfl, rfl⟩)
    · exact ⟨b₂ ++ rest, .inl ⟨h₁, List.append_assoc _ _ _⟩, .inl ⟨h₂, rfl⟩⟩
    · have hb := hempty.mp he
      exact ⟨[], .inr ⟨hk, by rw [hb, List.append_nil], rfl⟩, .inl ⟨hc he, by rw [hb]; rfl⟩⟩
    · exact ⟨b₂, .inl ⟨h₁, rfl⟩, .inr ⟨hk, rfl, rfl⟩⟩
  · rintro ⟨mid, ⟨h₁, rfl⟩ | ⟨hk, rfl, rfl⟩, hrest⟩
    · obtain ⟨h₂, rfl⟩ | ⟨hk, rfl, rfl⟩ := hrest
      · exact .inl ⟨⟨h₁, h₂⟩, (List.append_assoc _ _ _).symm⟩
      · exact .inr ⟨.inr ⟨h₁, hk⟩, rfl, rfl⟩
    · -- nothing is left, so the second part is empty
      obtain ⟨-, hnil⟩ | ⟨-, hnil, rfl⟩ := hrest
      · obtain ⟨hb, rfl⟩ := List.append_eq_nil_iff.mp hnil.symm
        exact .inr ⟨.inl ⟨hempty.mpr hb, hk⟩, by rw [hb, List.append_nil], rfl⟩
      · exact .inr ⟨.inl ⟨hempty.mpr hnil.symm, hk⟩, by rw [← hnil, List.append_nil], rfl⟩

theorem entriesBytes_cons (p : RawEntry) (ps : List RawEntry) :
    entriesBytes (p :: ps) = p.bytes ++ entriesBytes ps := List.flatMap_cons

theorem entriesBytes_eq_nil {ps : List RawEntry} : ps = [] ↔ entriesBytes ps = [] := by
  constructor
  · rintro rfl
    rfl
  · intro h
    cases ps with
    | nil => rfl
    | cons p ps =>
      have hlength := p.bytes_length
      rw [entriesBytes_cons, List.append_eq_nil_iff] at h
      rw [h.1, List.length_nil] at hlength
      omega

theorem splits_entries_cons {p : RawEntry} {ps : List RawEntry} {dt rest : Bytes} :
    Splits (∀ q ∈ p :: ps, q.Complete) (CutAtEnd RawEntry.Complete RawEntry.Cut (p :: ps))
        (entriesBytes (p :: ps)) dt rest ↔
      ∃ mid, Splits p.Complete p.Cut p.bytes dt mid ∧
        Splits (∀ q ∈ ps, q.Complete) (CutAtEnd RawEntry.Complete RawEntry.Cut ps)
          (entriesBytes ps) mid rest := by
  rw [List.forall_mem_cons, cutAtEnd_cons, entriesBytes_cons]
  exact splits_append entriesBytes_eq_nil (by rintro rfl; exact List.forall_mem_nil _)

theorem decodeProps_reads_iff {n : ℕ} : ∀ {dt : Bytes} {props : Props} {size : ℕ}
    {x : Props × Bytes × ℕ},
    decodeProps n dt props size = .ok x ↔ ∃ ps kvs, ps.length = n ∧
      Splits (∀ p ∈ ps, p.Complete) (CutAtEnd RawEntry.Complete RawEntry.Cut ps)
        (entriesBytes ps) dt x.2.1 ∧
      List.Forall₂ RawEntry.ReadAs ps kvs ∧ x.1 = insertAll kvs props ∧
      x.2.2 = size + entriesSize ps := by
  induction n with
  | zero =>
    intro dt props size x
    rw [decodeProps]
    constructor
    · intro h
      obtain rfl := Except.ok.inj h
      exact ⟨[], [], rfl, .inl ⟨List.forall_mem_nil _, rfl⟩, .nil, rfl, rfl⟩
    · rintro ⟨ps, kvs, hlen, hsplit, hread, hprops, hsize⟩
      obtain rfl := List.length_eq_zero_iff.mp hlen
      cases hread
      obtain ⟨-, hdt⟩ | ⟨hcut, -⟩ := hsplit
      · rw [hdt]
        exact congrArg Except.ok (Prod.ext hprops.symm (Prod.ext rfl hsize.symm))
      · exact absurd hcut cutAtEnd_nil
  | succ n ih =>
    intro dt props size x
    rw [decodeProps, bind_eq_ok_iff]
    simp only [decodeEntry_reads_iff]
    have hsize (p : RawEntry) (ps : List RawEntry) :
        size + (36 + p.room) + entriesSize ps = size + entriesSize (p :: ps) := by
      rw [entriesSize, entriesSize, List.map_cons, List.sum_cons, Nat.add_assoc]
    constructor
    · rintro ⟨⟨key, value, taken⟩, ⟨p, s, hsplit, hread, rfl⟩, h⟩
      dsimp only at h
      rw [(entry_value hsplit).2, ih] at h
      obtain ⟨ps, kvs, rfl, hsplits, hreads, hprops, htotal⟩ := h
      refine ⟨p :: ps, (key, value) :: kvs, rfl, ?_, .cons hread hreads, hprops, ?_⟩
      · exact splits_entries_cons.mpr ⟨s, hsplit, hsplits⟩
      · rw [htotal, hsize]
    · rintro ⟨ps, kvs, hlen, hsplits, hreads, hprops, htotal⟩
      cases hreads with
      | nil => cases hlen
      | @cons p kv ps kvs hread hreads =>
        obtain ⟨s, hsplit, hsplits⟩ := splits_entries_cons.mp hsplits
        refine ⟨(kv.1, kv.2, 36 + p.room), ⟨p, s, hsplit, hread, rfl⟩, ?_⟩
        dsimp only
        rw [(entry_value hsplit).2, ih]
        exact ⟨ps, kvs, Nat.succ.inj hlen, hsplits, hreads, hprops, by rw [htotal, hsize]⟩

/-! ## Sizes -/

theorem framesBytes_eq (cs : List Frame) : framesBytes cs = cs.flatMap frameBytes := by
  induction cs with
  | nil => rfl
  | cons c cs ih => rw [framesBytes, List.flatMap_cons, ih]

theorem framesSize_eq (cs : List Frame) : framesSize cs = (cs.map frameSize).sum := by
  induction cs with
  | nil => rfl
  | cons c cs ih => rw [framesSize, List.map_cons, List.sum_cons, ih]

theorem parts_length {α : Type} {complete cut : α → Prop} {body : α → Bytes} {size : α → ℕ} :
    ∀ {xs : List α}, (∀ x ∈ xs, (complete x → (body x).length = size x) ∧
        (cut x → (body x).length < size x)) →
      ((∀ x ∈ xs, complete x) → (xs.flatMap body).length = (xs.map size).sum) ∧
        (CutAtEnd complete cut xs → (xs.flatMap body).length < (xs.map size).sum)
  | [], _ => ⟨fun _ => rfl, fun h => absurd h cutAtEnd_nil⟩
  | x :: xs, h => by
      obtain ⟨hx, hxs⟩ := List.forall_mem_cons.mp h
      obtain ⟨hwhole, hcut⟩ := parts_length hxs
      rw [List.flatMap_cons, List.length_append, List.map_cons, List.sum_cons, List.forall_mem_cons,
        cutAtEnd_cons]
      constructor
      · rintro ⟨hcx, hcxs⟩
        rw [hx.1 hcx, hwhole hcxs]
      · rintro (⟨rfl, hkx⟩ | ⟨hcx, hkxs⟩)
        · exact Nat.add_lt_add_right (hx.2 hkx) _
        · rw [hx.1 hcx]
          exact Nat.add_lt_add_left (hcut hkxs) _

theorem entries_length (ps : List RawEntry) :
    ((∀ p ∈ ps, p.Complete) → (entriesBytes ps).length = entriesSize ps) ∧
      (CutAtEnd RawEntry.Complete RawEntry.Cut ps → (entriesBytes ps).length < entriesSize ps) := by
  apply parts_length
  intro p _
  have hlength := p.bytes_length
  unfold RawEntry.Complete RawEntry.Cut
  constructor
  · intro h
    rw [hlength, h]
  · intro h
    omega

theorem whole_node_iff {ps : List RawEntry} {cs : List Frame} :
    Whole (.node ps cs) ↔ (∀ p ∈ ps, p.Complete) ∧ ∀ c ∈ cs, Whole c := Rose.everywhere_node_iff

theorem frame_length (R : Frame) :
    (Whole R → (frameBytes R).length = frameSize R) ∧
      (CutLast R → (frameBytes R).length < frameSize R) := by
  induction R using Rose.induct with
  | h ps cs ih =>
    obtain ⟨hps, hpsCut⟩ := entries_length ps
    have hparts : ((∀ c ∈ cs, Whole c) → (framesBytes cs).length = framesSize cs) ∧
        (CutAtEnd Whole CutLast cs → (framesBytes cs).length < framesSize cs) := by
      rw [framesBytes_eq, framesSize_eq]
      exact parts_length ih
    obtain ⟨hcs, hcsCut⟩ := hparts
    have hlength : (frameBytes (.node ps cs)).length =
        8 + (entriesBytes ps).length + (framesBytes cs).length := by
      simp only [frameBytes, List.length_append, leBytes_length]
    rw [hlength, frameSize, whole_node_iff, cutLast_node_iff]
    constructor
    · rintro ⟨hp, hc⟩
      rw [hps hp, hcs hc]
    · rintro (⟨rfl, hp⟩ | ⟨hp, hc⟩)
      · exact Nat.add_lt_add_right (Nat.add_lt_add_left (hpsCut hp) 8) _
      · rw [hps hp]
        exact Nat.add_lt_add_left (hcsCut hc) _

/-! ## Whole nodes -/

/-- The data starts with the frame, or is it and ends in the value read last. -/
def FrameAt (R : Frame) (dt rest : Bytes) : Prop :=
  Rose.Everywhere CountsFit R ∧ Splits (Whole R) (CutLast R) (frameBytes R) dt rest

theorem FrameAt.drop {R : Frame} {dt rest : Bytes} (h : FrameAt R dt rest) :
    dt.drop (frameSize R) = rest := by
  obtain ⟨hwhole, hcut⟩ := frame_length R
  obtain ⟨hR, rfl⟩ | ⟨hR, rfl, rfl⟩ := h.2
  · rw [← hwhole hR, List.drop_left]
  · exact List.drop_of_length_le (hcut hR).le

/-- `decodeChild` reads the frames of data shorter than `fuel`. -/
def ReadsFrames (decodeChild : Bytes → Except DtError (ADTNode × ℕ)) (fuel : ℕ) : Prop :=
  ∀ dt x, dt.length < fuel → (decodeChild dt = .ok x ↔ ∃ R rest, FrameAt R dt rest ∧
    Rose.Rel ReadEntriesAs R x.1 ∧ x.2 = frameSize R)

theorem frameBytes_ne_nil (R : Frame) : frameBytes R ≠ [] := by
  obtain ⟨ps, cs⟩ := R
  intro h
  have hlength := congrArg List.length h
  simp only [frameBytes, List.length_append, leBytes_length, List.length_nil] at hlength
  omega

theorem framesBytes_eq_nil {cs : List Frame} : cs = [] ↔ framesBytes cs = [] := by
  constructor
  · rintro rfl
    rfl
  · intro h
    cases cs with
    | nil => rfl
    | cons c cs =>
      rw [framesBytes, List.append_eq_nil_iff] at h
      exact absurd h.1 (frameBytes_ne_nil c)

theorem splits_frames_cons {c : Frame} {cs : List Frame} {dt rest : Bytes} :
    Splits (∀ d ∈ c :: cs, Whole d) (CutAtEnd Whole CutLast (c :: cs)) (framesBytes (c :: cs))
        dt rest ↔
      ∃ mid, Splits (Whole c) (CutLast c) (frameBytes c) dt mid ∧
        Splits (∀ d ∈ cs, Whole d) (CutAtEnd Whole CutLast cs) (framesBytes cs) mid rest := by
  rw [List.forall_mem_cons, cutAtEnd_cons, framesBytes]
  exact splits_append framesBytes_eq_nil (by rintro rfl; exact List.forall_mem_nil _)

theorem decodeChildren_reads_iff {decodeChild : Bytes → Except DtError (ADTNode × ℕ)} {fuel : ℕ}
    (hchild : ReadsFrames decodeChild fuel) {n : ℕ} :
    ∀ {dt : Bytes} {children : List ADTNode} {size : ℕ} {x : List ADTNode × ℕ},
      dt.length < fuel →
      (decodeChildren decodeChild n dt children size = .ok x ↔ ∃ cs ts rest, cs.length = n ∧
        (∀ c ∈ cs, Rose.Everywhere CountsFit c) ∧
        Splits (∀ c ∈ cs, Whole c) (CutAtEnd Whole CutLast cs) (framesBytes cs) dt rest ∧
        List.Forall₂ (Rose.Rel ReadEntriesAs) cs ts ∧ x = (children ++ ts, size + framesSize cs)) := by
  induction n with
  | zero =>
    intro dt children size x _
    rw [decodeChildren]
    constructor
    · intro h
      obtain rfl := Except.ok.inj h
      exact ⟨[], [], dt, rfl, List.forall_mem_nil _, .inl ⟨List.forall_mem_nil _, rfl⟩, .nil,
        by rw [List.append_nil]; rfl⟩
    · rintro ⟨cs, ts, rest, hlen, -, -, hreads, rfl⟩
      obtain rfl := List.length_eq_zero_iff.mp hlen
      cases hreads
      rw [List.append_nil]
      rfl
  | succ n ih =>
    intro dt children size x hfuel
    rw [decodeChildren, bind_eq_ok_iff]
    simp only [hchild dt _ hfuel]
    constructor
    · rintro ⟨⟨T, childSize⟩, ⟨R, rest, hR, hT, rfl⟩, h⟩
      dsimp only at h
      rw [hR.drop, ih (hR.2.rest_le.trans_lt hfuel)] at h
      obtain ⟨cs, ts, rest', rfl, hfits, hsplits, hreads, rfl⟩ := h
      refine ⟨R :: cs, T :: ts, rest', rfl, List.forall_mem_cons.mpr ⟨hR.1, hfits⟩,
        splits_frames_cons.mpr ⟨rest, hR.2, hsplits⟩, .cons hT hreads, ?_⟩
      rw [List.append_assoc, List.singleton_append, framesSize, Nat.add_assoc]
    · rintro ⟨cs, ts, rest', hlen, hfits, hsplits, hreads, rfl⟩
      cases hreads with
      | nil => cases hlen
      | @cons R T cs ts hT hreads =>
        rw [List.forall_mem_cons] at hfits
        obtain ⟨rest, hsplit, hsplits⟩ := splits_frames_cons.mp hsplits
        have hR : FrameAt R dt rest := ⟨hfits.1, hsplit⟩
        refine ⟨(T, frameSize R), ⟨R, rest, hR, hT, rfl⟩, ?_⟩
        dsimp only
        rw [hR.drop, ih (hR.2.rest_le.trans_lt hfuel)]
        refine ⟨cs, ts, rest', Nat.succ.inj hlen, hfits.2, hsplits, hreads, ?_⟩
        rw [List.append_assoc, List.singleton_append, framesSize, Nat.add_assoc]

theorem exists_header {dt : Bytes} (h : 8 ≤ dt.length) : ∃ m n s, m < 256 ^ 4 ∧ n < 256 ^ 4 ∧
    dt = leBytes 4 m ++ leBytes 4 n ++ s := by
  have hfirst : (dt.take 4).length = 4 := by
    rw [List.length_take]
    omega
  have hsecond : ((dt.drop 4).take 4).length = 4 := by
    rw [List.length_take, List.length_drop]
    omega
  have hm := leBytes_leNat (dt.take 4)
  have hn := leBytes_leNat ((dt.drop 4).take 4)
  have hmlt := leNat_lt (dt.take 4)
  have hnlt := leNat_lt ((dt.drop 4).take 4)
  rw [hfirst] at hm hmlt
  rw [hsecond] at hn hnlt
  refine ⟨_, _, (dt.drop 4).drop 4, hmlt, hnlt, ?_⟩
  rw [hm, hn, List.append_assoc, List.take_append_drop, List.take_append_drop]

theorem decodeNodeWithin_header {m n : ℕ} (hm : m < 256 ^ 4) (hn : n < 256 ^ 4) (fuel : ℕ)
    (s : Bytes) :
    decodeNodeWithin (fuel + 1) (leBytes 4 m ++ leBytes 4 n ++ s) = (do
      let (props, rest, ourSize) ← decodeProps m s [] 8
      let (children, ourSize) ← decodeChildren (decodeNodeWithin fuel) n rest [] ourSize
      .ok (.node props children, ourSize)) := by
  have hheader : (leBytes 4 m ++ leBytes 4 n).length = 8 := by
    rw [List.length_append, leBytes_length, leBytes_length]
  have hlong : ¬ (leBytes 4 m ++ leBytes 4 n ++ s).length < 8 := by
    rw [List.length_append, hheader]
    omega
  have hnProps : leNat (leBytes 4 m) = m := by
    rw [leNat_leBytes, Nat.mod_eq_of_lt hm]
  have hnChildren : leNat (leBytes 4 n) = n := by
    rw [leNat_leBytes, Nat.mod_eq_of_lt hn]
  rw [decodeNodeWithin, if_neg hlong, List.take_left' hheader, List.drop_left' hheader,
    List.append_assoc, List.take_left' (leBytes_length 4 _), List.drop_left' (leBytes_length 4 _)]
  dsimp only
  rw [hnProps, hnChildren]

theorem splits_node {ps : List RawEntry} {cs : List Frame} {s rest : Bytes} :
    Splits (Whole (.node ps cs)) (CutLast (.node ps cs)) (frameBytes (.node ps cs))
        (leBytes 4 ps.length ++ leBytes 4 cs.length ++ s) rest ↔
      ∃ mid, Splits (∀ p ∈ ps, p.Complete) (CutAtEnd RawEntry.Complete RawEntry.Cut ps)
          (entriesBytes ps) s mid ∧
        Splits (∀ c ∈ cs, Whole c) (CutAtEnd Whole CutLast cs) (framesBytes cs) mid rest := by
  have hparts : Splits ((∀ p ∈ ps, p.Complete) ∧ ∀ c ∈ cs, Whole c)
        ((cs = [] ∧ CutAtEnd RawEntry.Complete RawEntry.Cut ps) ∨
          ((∀ p ∈ ps, p.Complete) ∧ CutAtEnd Whole CutLast cs))
        (entriesBytes ps ++ framesBytes cs) s rest ↔ _ :=
    splits_append framesBytes_eq_nil (by rintro rfl; exact List.forall_mem_nil _)
  rw [← hparts, whole_node_iff, cutLast_node_iff]
  simp only [Splits, frameBytes, List.append_assoc, List.append_cancel_left_eq]

theorem decodeNodeWithin_reads (fuel : ℕ) : ReadsFrames (decodeNodeWithin fuel) fuel := by
  induction fuel with
  | zero => exact fun dt x hfuel => absurd hfuel (Nat.not_lt_zero _)
  | succ fuel ih =>
    intro dt x hfuel
    by_cases hshort : dt.length < 8
    · rw [decodeNodeWithin, if_pos hshort]
      constructor
      · intro h
        cases h
      · rintro ⟨⟨ps, cs⟩, rest, ⟨-, hsplit⟩, -⟩
        have hbody := congrArg List.length hsplit.eq
        simp only [frameBytes, List.length_append, leBytes_length] at hbody
        omega
    · obtain ⟨m, n, s, hm, hn, rfl⟩ := exists_header (not_lt.mp hshort)
      have hs : s.length < fuel := by
        simp only [List.length_append, leBytes_length] at hfuel
        omega
      rw [decodeNodeWithin_header hm hn, bind_eq_ok_iff]
      simp only [decodeProps_reads_iff, bind_eq_ok_iff]
      constructor
      · rintro ⟨⟨props, mid, size⟩, ⟨ps, kvs, rfl, hsplits, hreads, hprops, hsize⟩, _, hrest, hx⟩
        have hmid : mid.length < fuel := hsplits.rest_le.trans_lt hs
        rw [decodeChildren_reads_iff ih hmid] at hrest
        obtain ⟨cs, ts, rest, rfl, hfits, hcsplits, hcreads, rfl⟩ := hrest
        obtain rfl := Except.ok.inj hx
        dsimp only at hprops hsize hsplits hcsplits ⊢
        refine ⟨.node ps cs, rest, ⟨.node ⟨hm, hn⟩ hfits, ?_⟩, .node ⟨kvs, hreads, hprops⟩ hcreads,
          ?_⟩
        · exact splits_node.mpr ⟨mid, hsplits, hcsplits⟩
        · rw [hsize]
          rfl
      · rintro ⟨⟨ps, cs⟩, rest, ⟨hfit, hsplit⟩, hT, hsize⟩
        obtain ⟨⟨hps, hcs⟩, hfits⟩ := Rose.everywhere_node_iff.mp hfit
        obtain ⟨rfl, rfl⟩ : m = ps.length ∧ n = cs.length := by
          have hbytes := hsplit.eq
          simp only [frameBytes, List.append_assoc] at hbytes
          obtain ⟨hm', hbytes⟩ := leBytes_append_inj hm hps hbytes
          exact ⟨hm', (leBytes_append_inj hn hcs hbytes).1⟩
        obtain ⟨mid, hsplits, hcsplits⟩ := splits_node.mp hsplit
        obtain ⟨props, ts, hnode, ⟨kvs, hreads, hprops⟩, hcreads⟩ := Rose.rel_node_iff.mp hT
        refine ⟨(props, mid, 8 + entriesSize ps), ⟨ps, kvs, rfl, hsplits, hreads, hprops, rfl⟩,
          (ts, 8 + entriesSize ps + framesSize cs), ?_, ?_⟩
        · rw [decodeChildren_reads_iff ih (hsplits.rest_le.trans_lt hs)]
          exact ⟨cs, ts, rest, rfl, hfits, hcsplits, hcreads, rfl⟩
        · exact congrArg Except.ok (Prod.ext hnode.symm hsize.symm)

/-- The decoder accepts exactly the data that starts with a frame it can read, or is one and ends in
the value read last. -/
theorem decodeNode_reads_iff {dt : Bytes} {x : ADTNode × ℕ} :
    decodeNode dt = .ok x ↔ ∃ R rest, FrameAt R dt rest ∧ Rose.Rel ReadEntriesAs R x.1 ∧
      x.2 = frameSize R :=
  decodeNodeWithin_reads _ dt x (Nat.lt_succ_self _)

end SecureWorld.DeviceTree
