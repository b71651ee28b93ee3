import SecureWorld.Foundations.Run
import Mathlib.Data.List.Infix
import Mathlib.Logic.Function.Basic

/-! # Directories, files and paths

A file system of directories and regular files, without links. A path is resolved one name at a
time, and every name but the last must lead to a directory. Where resolution succeeds it comes to
the place that the names alone give.
-/
namespace SecureWorld.Foundations
set_option autoImplicit false

/-- The names from the root down. -/
abbrev Location := List (List Char)

inductive Node (β : Type)
  | dir
  | file (bytes : β)

structure Disk (β : Type) where
  node : Location → Option (Node β)
  /-- Where files were opened for writing, in order. -/
  opened : List Location

variable {β : Type}

/-! ## Paths -/

def pathNames (path : List Char) : List (List Char) := path.splitOn '/'

def pathOrigin (cwd : Location) (path : List Char) : Location :=
  if path.head? = some '/' then [] else cwd

/-- `os.path.join` -/
def joinPath (a b : List Char) : List Char :=
  if b.head? = some '/' then b
  else if a = [] ∨ a.getLast? = some '/' then a ++ b
  else a ++ '/' :: b

/-- Where a name leads from `loc`, if there is such a directory. -/
def follows (loc : Location) (name : List Char) : Location :=
  if name = [] ∨ name = ['.'] then loc
  else if name = ['.', '.'] then loc.dropLast
  else loc ++ [name]

/-- The place a path names, from the names alone. -/
def placeOf (cwd : Location) (path : List Char) : Location :=
  (pathNames path).foldl follows (pathOrigin cwd path)

/-- What a file can be called. -/
def IsFileName (name : List Char) : Prop := name ≠ [] ∧ name ≠ ['.'] ∧ name ≠ ['.', '.']

instance (name : List Char) : Decidable (IsFileName name) := by unfold IsFileName; infer_instance

theorem follows_of_isFileName {loc : Location} {name : List Char} (h : IsFileName name) :
    follows loc name = loc ++ [name] := by
  rw [follows, if_neg (by simp [h.1, h.2.1]), if_neg h.2.2]

/-- A name without a separator names a place in the directory itself. -/
theorem placeOf_joinPath {cwd : Location} {dir name : List Char} (hplain : '/' ∉ name)
    (hname : IsFileName name) (hdir : dir ≠ []) :
    placeOf cwd (joinPath dir name) = placeOf cwd dir ++ [name] := by
  have hhead : name.head? ≠ some '/' := fun h => hplain (List.mem_of_mem_head? h)
  rw [joinPath, if_neg hhead]
  obtain ⟨c, cs, rfl⟩ := List.exists_cons_of_ne_nil hdir
  by_cases hslash : (c :: cs).getLast? = some '/'
  · -- the separator is already there
    rw [if_pos (.inr hslash)]
    obtain ⟨init, hinit⟩ := List.getLast?_eq_some_iff.mp hslash
    have horigin : pathOrigin cwd (c :: cs ++ name) = pathOrigin cwd (c :: cs) := rfl
    have hnames : pathNames (c :: cs ++ name) = pathNames init ++ [name] := by
      rw [hinit, List.append_assoc, pathNames, List.singleton_append,
        List.splitOn_append_cons_self, List.splitOn_eq_singleton hplain, pathNames]
    have hdirNames : pathNames (c :: cs) = pathNames init ++ [[]] := by
      rw [hinit, pathNames, List.splitOn_append_cons_self, List.splitOn_nil, pathNames]
    rw [placeOf, placeOf, horigin, hnames, hdirNames, List.foldl_append, List.foldl_append,
      List.foldl_cons, List.foldl_cons, List.foldl_nil, List.foldl_nil, follows_of_isFileName hname]
    rfl
  · rw [if_neg (by simp [hslash])]
    have horigin : pathOrigin cwd (c :: cs ++ '/' :: name) = pathOrigin cwd (c :: cs) := rfl
    rw [placeOf, placeOf, horigin, pathNames, List.splitOn_append_cons_self,
      List.splitOn_eq_singleton hplain, List.foldl_append, List.foldl_cons, List.foldl_nil,
      follows_of_isFileName hname, pathNames]

/-! ## Resolution -/

namespace Disk

/-- A step into a directory. -/
def enter (s : Disk β) (loc : Location) (name : List Char) : Option Location :=
  if IsFileName name then
    match s.node (loc ++ [name]) with
    | some .dir => some (loc ++ [name])
    | _ => none
  else some (follows loc name)

/-- The file that a path names: all of its names but the last lead to directories. -/
def locate (s : Disk β) (cwd : Location) (path : List Char) : Option Location :=
  let names := pathNames path
  (names.dropLast.foldlM s.enter (pathOrigin cwd path)).bind fun loc =>
    (names.getLast?).bind fun name => if IsFileName name then some (loc ++ [name]) else none

/-- `open(path, 'wb').write(bytes)`, `none` where `open` raises. -/
def openWrite (s : Disk β) (cwd : Location) (path : List Char)
    (bytes : β) : Option (Disk β) :=
  if '\x00' ∈ path then none
  else
    (s.locate cwd path).bind fun loc =>
      match s.node loc with
      | some .dir => none
      | _ => some ⟨Function.update s.node loc (some (.file bytes)), s.opened ++ [loc]⟩

/-- A step into a directory that is made where there is none. -/
def enterMaking (s : Disk β × Location) (name : List Char) : Option (Disk β × Location) :=
  if IsFileName name then
    match s.1.node (s.2 ++ [name]) with
    | some .dir => some (s.1, s.2 ++ [name])
    | some (.file _) => none
    | none =>
        some (⟨Function.update s.1.node (s.2 ++ [name]) (some .dir), s.1.opened⟩, s.2 ++ [name])
  else some (s.1, follows s.2 name)

/-- `os.makedirs(path, exist_ok=True)` -/
def makedirs (s : Disk β) (cwd : Location) (path : List Char) : Option (Disk β) :=
  if '\x00' ∈ path then none
  else ((pathNames path).foldlM enterMaking (s, pathOrigin cwd path)).map Prod.fst

theorem enter_eq_some {s : Disk β} {loc loc' : Location} {name : List Char}
    (h : s.enter loc name = some loc') : loc' = follows loc name := by
  rw [enter] at h
  split_ifs at h with hname
  · split at h
    · rw [follows_of_isFileName hname]
      exact (Option.some.inj h).symm
    · cases h
  · exact (Option.some.inj h).symm

theorem foldlM_enter_eq_some {s : Disk β} {names : List (List Char)} {loc loc' : Location}
    (h : names.foldlM s.enter loc = some loc') : loc' = names.foldl follows loc := by
  induction names generalizing loc with
  | nil => exact (Option.some.inj h).symm
  | cons name names ih =>
    rw [List.foldlM_cons, Option.bind_eq_bind, Option.bind_eq_some_iff] at h
    obtain ⟨next, hnext, hrest⟩ := h
    rw [List.foldl_cons, ← enter_eq_some hnext]
    exact ih hrest

theorem locate_eq_some {s : Disk β} {cwd loc : Location} {path : List Char}
    (h : s.locate cwd path = some loc) : loc = placeOf cwd path := by
  obtain ⟨dir, hdir, h⟩ := Option.bind_eq_some_iff.mp h
  obtain ⟨name, hname, h⟩ := Option.bind_eq_some_iff.mp h
  split_ifs at h with hfile
  rw [placeOf, ← List.dropLast_append_getLast? name hname, List.foldl_append,
    ← foldlM_enter_eq_some hdir, List.foldl_cons, List.foldl_nil, follows_of_isFileName hfile]
  exact (Option.some.inj h).symm

/-- A write opens the file at the place that the path names and changes nothing else. -/
theorem openWrite_eq_some {s s' : Disk β} {cwd : Location} {path : List Char} {bytes : β}
    (h : s.openWrite cwd path bytes = some s') :
    s'.opened = s.opened ++ [placeOf cwd path] ∧
      s'.node = Function.update s.node (placeOf cwd path) (some (.file bytes)) := by
  rw [openWrite] at h
  split_ifs at h
  obtain ⟨loc, hloc, h⟩ := Option.bind_eq_some_iff.mp h
  obtain rfl := locate_eq_some hloc
  split at h
  · cases h
  · cases h
    exact ⟨rfl, rfl⟩

theorem enterMaking_eq_some {s s' : Disk β × Location} {name : List Char}
    (h : enterMaking s name = some s') : s'.1.opened = s.1.opened ∧ s'.2 = follows s.2 name ∧
      ∀ loc bytes, s'.1.node loc = some (.file bytes) ↔ s.1.node loc = some (.file bytes) := by
  rw [enterMaking] at h
  split_ifs at h with hname
  · rw [follows_of_isFileName hname]
    split at h
    · cases h
      exact ⟨rfl, rfl, fun _ _ => Iff.rfl⟩
    · cases h
    · rename_i hnone
      cases h
      refine ⟨rfl, rfl, fun loc bytes => ?_⟩
      by_cases hloc : loc = s.2 ++ [name]
      · subst hloc
        simp [hnone]
      · dsimp only
        rw [Function.update_of_ne hloc]
  · cases h
    exact ⟨rfl, rfl, fun _ _ => Iff.rfl⟩

/-- Making directories opens no file and changes none. -/
theorem makedirs_eq_some {s s' : Disk β} {cwd : Location} {path : List Char}
    (h : s.makedirs cwd path = some s') : s'.opened = s.opened ∧
      ∀ loc bytes, s'.node loc = some (.file bytes) ↔ s.node loc = some (.file bytes) := by
  rw [makedirs] at h
  split_ifs at h
  obtain ⟨last, hlast, rfl⟩ := Option.map_eq_some_iff.mp h
  refine foldlM_preserves (fun t => t.1.opened = s.opened ∧ ∀ loc bytes,
    t.1.node loc = some (.file bytes) ↔ s.node loc = some (.file bytes)) ?_ _ _ _ hlast
    ⟨rfl, fun _ _ => Iff.rfl⟩
  rintro t name t' ht ⟨hopened, hfiles⟩
  obtain ⟨hopened', -, hfiles'⟩ := enterMaking_eq_some ht
  exact ⟨hopened'.trans hopened, fun loc bytes => (hfiles' loc bytes).trans (hfiles loc bytes)⟩

end Disk

end SecureWorld.Foundations
