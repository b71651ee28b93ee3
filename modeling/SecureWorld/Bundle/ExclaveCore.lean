import SecureWorld.Foundations.FileSystem
import SecureWorld.Foundations.LastWrite
import SecureWorld.Patcher.PyBytes
import Mathlib.Data.List.Nodup

/-! # The components of an exclave bundle (`parse_exclavecore.py`)

A `DNUB` container is a table of tags, offsets and sizes with the components after it. The tag is the
name of the file that a component is written to, and the component is a slice of the bundle.
-/
namespace SecureWorld.Bundle
open Foundations Patcher
set_option autoImplicit false

inductive Raised
  /-- `sys.exit` -/
  | exit
  /-- `struct.error` -/
  | struct
  /-- `OSError`, or `ValueError` for a NUL in a path -/
  | path
deriving DecidableEq

structure Component where
  tag : List Char
  offset : ℕ
  size : ℕ

/-- `bytes.decode('latin1')` -/
def latin1 (bs : Bytes) : List Char := bs.map fun b => Char.ofNat b.toNat

def magic : Bytes := [0x44, 0x4e, 0x55, 0x42]

/-- first TOC entry -/
def toc : ℕ := 0x284

def entryAt (d : Bytes) (off : ℕ) : Component :=
  ⟨latin1 (slice d off (off + 4)), field d (off + 4) 8, field d (off + 12) 8⟩

def tocEntry (d : Bytes) (i : ℕ) : Except Raised Component :=
  let off := toc + i * 24
  if off + 24 ≤ d.length then .ok (entryAt d off) else .error .struct

/-- The entries with a size that is not zero. -/
def comps (d : Bytes) : Except Raised (List Component) :=
  if 0x18 ≤ d.length then
    ((List.range (field d 0x14 4)).mapM (tocEntry d)).map (·.filter fun c => c.size ≠ 0)
  else .error .struct

def orRaise {α : Type} : Option α → Except Raised α
  | some a => .ok a
  | none => .error .path

def writeComponent (cwd : Location) (dir : List Char) (d : Bytes) (s : Disk Bytes)
    (c : Component) : Except Raised (Disk Bytes) :=
  orRaise (s.openWrite cwd (joinPath dir c.tag) (slice d c.offset (c.offset + c.size)))

/-- `main` on the bytes of the bundle, with the directory of `-x`. -/
def main (cwd : Location) (d : Bytes) (extract : Option (List Char)) (s : Disk Bytes) :
    Except Raised (Disk Bytes) :=
  if slice d 8 12 = magic then
    (comps d).bind fun cs =>
      match extract with
      | none | some [] => .ok s
      | some dir =>
          (orRaise (s.makedirs cwd dir)).bind fun s => cs.foldlM (writeComponent cwd dir d) s
  else .error .exit

/-! ## What a bundle lists -/

def nonzeroEntries (d : Bytes) : List Component :=
  ((List.range (field d 0x14 4)).map fun i => entryAt d (toc + i * 24)).filter fun c => c.size ≠ 0

theorem tocEntry_eq_ok {d : Bytes} {i : ℕ} {c : Component} (h : tocEntry d i = .ok c) :
    entryAt d (toc + i * 24) = c := by
  rw [tocEntry] at h
  split_ifs at h
  exact Except.ok.inj h

theorem comps_eq_ok {d : Bytes} {cs : List Component} (h : comps d = .ok cs) :
    cs = nonzeroEntries d := by
  rw [comps] at h
  split_ifs at h
  obtain ⟨all, hall, rfl⟩ := map_eq_ok_iff.mp h
  have hentries : List.Forall₂ (· = ·)
      ((List.range (field d 0x14 4)).map fun i => entryAt d (toc + i * 24)) all :=
    List.forall₂_map_left_iff.mpr ((forall₂_of_mapM_ok hall).imp fun _ _ => tocEntry_eq_ok)
  rw [List.forall₂_eq_eq_eq] at hentries
  rw [nonzeroEntries, hentries]

theorem size_ne_zero {d : Bytes} {c : Component} (h : c ∈ nonzeroEntries d) : c.size ≠ 0 := by
  simpa using (List.mem_filter.mp h).2

/-! ## The files that are written -/

section Extraction
variable {cwd : Location} {dir : List Char} {d : Bytes}

def placeIn (cwd : Location) (dir : List Char) (c : Component) : Location :=
  placeOf cwd (joinPath dir c.tag)

def blob (d : Bytes) (c : Component) : Bytes := slice d c.offset (c.offset + c.size)

theorem writeComponent_eq_ok {s s' : Disk Bytes} {c : Component}
    (h : writeComponent cwd dir d s c = .ok s') :
    s'.opened = s.opened ++ [placeIn cwd dir c] ∧
      s'.node = Function.update s.node (placeIn cwd dir c) (some (.file (blob d c))) := by
  rw [writeComponent] at h
  cases hopen : s.openWrite cwd (joinPath dir c.tag) (slice d c.offset (c.offset + c.size)) with
  | none =>
    rw [hopen] at h
    cases h
  | some s'' =>
    rw [hopen] at h
    cases h
    exact Disk.openWrite_eq_some hopen

theorem write_run {cs : List Component} {s s' : Disk Bytes}
    (h : cs.foldlM (writeComponent cwd dir d) s = .ok s') :
    s'.opened = s.opened ++ cs.map (placeIn cwd dir) ∧
      s'.node = run (fun node c =>
        Function.update node (placeIn cwd dir c) (some (.file (blob d c)))) s.node cs := by
  induction cs generalizing s with
  | nil =>
    cases h
    exact ⟨(List.append_nil _).symm, rfl⟩
  | cons c cs ih =>
    rw [List.foldlM_cons] at h
    obtain ⟨next, hnext, hrest⟩ := bind_eq_ok_iff.mp h
    obtain ⟨hopened, hnode⟩ := writeComponent_eq_ok hnext
    obtain ⟨hopened', hnode'⟩ := ih hrest
    rw [hopened', hnode', hopened, hnode, List.append_assoc, List.singleton_append, List.map_cons,
      run_cons]
    exact ⟨rfl, rfl⟩

theorem main_eq_ok {s s' : Disk Bytes} (hdir : dir ≠ [])
    (h : main cwd d (some dir) s = .ok s') :
    s'.opened = s.opened ++ (nonzeroEntries d).map (placeIn cwd dir) ∧
      ∃ node, (∀ loc bytes, node loc = some (.file bytes) ↔ s.node loc = some (.file bytes)) ∧
        s'.node = run (fun node c =>
          Function.update node (placeIn cwd dir c) (some (.file (blob d c)))) node
            (nonzeroEntries d) := by
  obtain ⟨a, as, rfl⟩ := List.exists_cons_of_ne_nil hdir
  rw [main] at h
  split_ifs at h
  obtain ⟨cs, hcs, h⟩ := bind_eq_ok_iff.mp h
  obtain ⟨made, hmade, h⟩ := bind_eq_ok_iff.mp h
  obtain rfl := comps_eq_ok hcs
  obtain ⟨hopened, hnode⟩ := write_run h
  cases hmk : s.makedirs cwd (a :: as) with
  | none =>
    rw [hmk] at hmade
    cases hmade
  | some made' =>
    rw [hmk] at hmade
    cases hmade
    obtain ⟨hopened', hfiles⟩ := Disk.makedirs_eq_some hmk
    rw [hopened, hopened']
    exact ⟨rfl, _, hfiles, hnode⟩

/-- The files that are not opened are those that were there. -/
theorem main_frame {s s' : Disk Bytes} (hdir : dir ≠ []) (h : main cwd d (some dir) s = .ok s')
    {loc : Location} (hloc : loc ∉ (nonzeroEntries d).map (placeIn cwd dir)) (bytes : Bytes) :
    s'.node loc = some (.file bytes) ↔ s.node loc = some (.file bytes) := by
  obtain ⟨-, node, hfiles, hnode⟩ := main_eq_ok hdir h
  have hnone : lastWrite (fun c => if placeIn cwd dir c = loc then some (some (Node.file (blob d c)))
      else none) (nonzeroEntries d) = none := by
    refine lastWrite_eq_none_iff.mpr fun c hc => if_neg ?_
    rintro rfl
    exact hloc (List.mem_map_of_mem hc)
  rw [hnode, (isCell_update (placeIn cwd dir) (fun c => some (Node.file (blob d c))) loc).run, hnone,
    Option.getD_none, hfiles]

/-! ## Nothing is lost -/

/-- Strictly below the directory. -/
def Inside (out place : Location) : Prop := out <+: place ∧ place ≠ out

instance (out place : Location) : Decidable (Inside out place) := by
  unfold Inside
  infer_instance

/-- The file holds the bytes of the component from its offset, and as many as its size. -/
def Holds (d : Bytes) (s : Disk Bytes) (c : Component) (place : Location) : Prop :=
  ∃ bytes, s.node place = some (.file bytes) ∧ bytes.length = c.size ∧
    ∀ k < c.size, bytes[k]? = d[c.offset + k]?

/-- The files opened between `s` and `s'` are one for each component, inside the directory, no two
the same, and each holds its component. -/
def LosesNothing (out : Location) (d : Bytes) (s s' : Disk Bytes) : Prop :=
  ∃ places, s'.opened = s.opened ++ places ∧ places.Nodup ∧ (∀ p ∈ places, Inside out p) ∧
    List.Forall₂ (Holds d s') (nonzeroEntries d) places

/-- The components lie in the bundle, and their tags name places inside the directory, no two the
same. -/
structure Separate (cwd : Location) (dir : List Char) (d : Bytes) : Prop where
  whole : ∀ c ∈ nonzeroEntries d, c.offset + c.size ≤ d.length
  inside : ∀ c ∈ nonzeroEntries d, Inside (placeOf cwd dir) (placeIn cwd dir c)
  apart : ((nonzeroEntries d).map (placeIn cwd dir)).Nodup

/-- Plain tags name places in the directory. -/
theorem separate_of_plain (hdir : dir ≠ [])
    (hwhole : ∀ c ∈ nonzeroEntries d, c.offset + c.size ≤ d.length)
    (hplain : ∀ c ∈ nonzeroEntries d, '/' ∉ c.tag ∧ IsFileName c.tag)
    (htags : ((nonzeroEntries d).map Component.tag).Nodup) : Separate cwd dir d := by
  have hplace : ∀ c ∈ nonzeroEntries d, placeIn cwd dir c = placeOf cwd dir ++ [c.tag] :=
    fun c hc => placeOf_joinPath (hplain c hc).1 (hplain c hc).2 hdir
  refine ⟨hwhole, fun c hc => ?_, ?_⟩
  · rw [hplace c hc]
    exact ⟨List.prefix_append _ _, by simp⟩
  · rw [List.map_congr_left hplace]
    have hmap : (nonzeroEntries d).map (fun c => placeOf cwd dir ++ [c.tag]) =
        ((nonzeroEntries d).map Component.tag).map (fun tag => placeOf cwd dir ++ [tag]) := by
      rw [List.map_map]
      rfl
    rw [hmap]
    refine (List.nodup_map_iff fun a b hab => ?_).mpr htags
    exact List.singleton_inj.mp (List.append_cancel_left hab)

theorem blob_holds {c : Component} (hsize : c.size ≠ 0) :
    ((blob d c).length = c.size ∧ ∀ k < c.size, (blob d c)[k]? = d[c.offset + k]?) ↔
      c.offset + c.size ≤ d.length := by
  rw [blob, slice_length]
  constructor
  · rintro ⟨hlen, -⟩
    omega
  · intro hle
    refine ⟨by omega, fun k hk => ?_⟩
    rw [slice, List.getElem?_drop, List.getElem?_take, if_pos (by omega)]

theorem losesNothing_iff {s s' : Disk Bytes} (hdir : dir ≠ [])
    (h : main cwd d (some dir) s = .ok s') :
    LosesNothing (placeOf cwd dir) d s s' ↔ Separate cwd dir d := by
  obtain ⟨hopened, node, -, hnode⟩ := main_eq_ok hdir h
  have hstays (hnodup : ((nonzeroEntries d).map (placeIn cwd dir)).Nodup) {c : Component}
      (hc : c ∈ nonzeroEntries d) :
      s'.node (placeIn cwd dir c) = some (.file (blob d c)) := by
    rw [hnode]
    exact run_update_of_nodup (fun c => some (.file (blob d c))) hnodup hc node
  constructor
  · rintro ⟨places, hplaces, hnodup, hinside, hholds⟩
    obtain rfl := List.append_cancel_left (hopened.symm.trans hplaces)
    refine ⟨fun c hc => ?_, fun c hc => hinside _ (List.mem_map_of_mem hc), hnodup⟩
    obtain ⟨bytes, hbytes, hheld⟩ := List.forall₂_same.mp (List.forall₂_map_right_iff.mp hholds) c hc
    cases (hstays hnodup hc).symm.trans hbytes
    exact (blob_holds (size_ne_zero hc)).mp hheld
  · rintro ⟨hwhole, hinside, hapart⟩
    refine ⟨_, hopened, hapart, List.forall_mem_map.mpr hinside, ?_⟩
    rw [List.forall₂_map_right_iff, List.forall₂_same]
    intro c hc
    exact ⟨_, hstays hapart hc, (blob_holds (size_ne_zero hc)).mpr (hwhole c hc)⟩

end Extraction

/-- A bundle with two components of two bytes. -/
def twoComponents (tag tag' : Bytes) : Bytes :=
  List.replicate 8 0 ++ magic ++ List.replicate 8 0 ++ [2, 0, 0, 0] ++
    List.replicate (toc - 0x18) 0 ++
    (tag ++ leBytes 8 (toc + 48) ++ leBytes 8 2 ++ [0, 0, 0, 0]) ++
    (tag' ++ leBytes 8 (toc + 50) ++ leBytes 8 2 ++ [0, 0, 0, 0]) ++ [1, 2, 3, 4]

def emptyDisk : Disk Bytes := ⟨fun _ => none, []⟩

theorem exists_of_isSome {s : Except Raised (Disk Bytes)} (h : s.toOption.isSome) :
    ∃ s', s = .ok s' := by
  cases s with
  | error e => cases h
  | ok s' => exact ⟨s', rfl⟩

/-- `knl0` and `txt0` -/
theorem kernel_and_text_losesNothing :
    ∃ s', main [] (twoComponents [0x6b, 0x6e, 0x6c, 0x30] [0x74, 0x78, 0x74, 0x30])
        (some "out".toList) emptyDisk = .ok s' ∧
      LosesNothing ["out".toList]
        (twoComponents [0x6b, 0x6e, 0x6c, 0x30] [0x74, 0x78, 0x74, 0x30]) emptyDisk s' := by
  obtain ⟨s', hs'⟩ := exists_of_isSome (s := main []
    (twoComponents [0x6b, 0x6e, 0x6c, 0x30] [0x74, 0x78, 0x74, 0x30]) (some "out".toList) emptyDisk)
    (by decide +kernel)
  refine ⟨s', hs', ?_⟩
  refine (losesNothing_iff (by decide) hs').mpr ⟨?_, ?_, ?_⟩
  all_goals decide +kernel

/-- Two components with the tag `tad0`. -/
theorem repeated_tag_overwritten : ¬∀ (cwd : Location) (dir : List Char) (d : Bytes)
    (s s' : Disk Bytes), dir ≠ [] → main cwd d (some dir) s = .ok s' →
      LosesNothing (placeOf cwd dir) d s s' := by
  intro hall
  obtain ⟨s', hs'⟩ := exists_of_isSome (s := main []
    (twoComponents [0x74, 0x61, 0x64, 0x30] [0x74, 0x61, 0x64, 0x30]) (some "out".toList) emptyDisk)
    (by decide +kernel)
  obtain ⟨places, hplaces, hnodup, -⟩ := hall _ _ _ _ _ (by decide) hs'
  obtain ⟨hopened, -⟩ := main_eq_ok (by decide) hs'
  obtain rfl := List.append_cancel_left (hopened.symm.trans hplaces)
  revert hnodup
  decide +kernel

end SecureWorld.Bundle
