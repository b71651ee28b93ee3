import SecureWorld.DeviceTree.AdtNode
import Mathlib.Data.List.Infix

/-! # Trees of node objects

`dt_fixup.py` edits a tree in place. A node is an object here: its properties with an identity that
no function reads, so that a node can be followed through the edits.
-/
namespace SecureWorld.DeviceTree
open Foundations
set_option autoImplicit false

structure DtObject (ι : Type) where
  id : ι
  props : Props

abbrev DtTree (ι : Type) := Rose (DtObject ι)

inductive FixupError where
  /-- `KeyError` of a dictionary -/
  | missingKey (key : Text)
  /-- `ValueError`: key … not present in node … -/
  | keyNotPresent (key : Text) (node : PropVal)
  /-- `ValueError`: child … not found in … -/
  | childNotFound (child : Text) (node : PropVal)
  /-- `ValueError`: aic doesn't have a 'compatible' field -/
  | aicNotCompatible
  /-- `UnicodeDecodeError` -/
  | unicode
  /-- `IndexError` -/
  | index
  /-- `ValueError` of `int` -/
  | badInt
  /-- `AttributeError` -/
  | attribute
  /-- `TypeError` -/
  | type
deriving DecidableEq

/-- How Python treats values that are neither text nor bytes. -/
structure Foreign where
  /-- `str(v)` -/
  str : PropVal → Text
  /-- `bool(v)` -/
  truth : PropVal → Bool
  /-- `x in v` -/
  contains : PropVal → Bytes → Except FixupError Bool
  /-- `len(v)` -/
  len : PropVal → Except FixupError ℕ

/-! ## Dictionaries -/

/-- `props.get(key)` -/
def Props.get? (key : Text) (d : Props) : Option PropVal :=
  (d.find? fun kv => kv.1 = key).map Prod.snd

/-- `props.pop(key, None)` -/
def Props.del (key : Text) (d : Props) : Props := d.filter fun kv => kv.1 ≠ key

theorem Props.get?_cons (key k : Text) (v : PropVal) (d : Props) :
    Props.get? key ((k, v) :: d) = if k = key then some v else Props.get? key d := by
  unfold Props.get?
  by_cases h : k = key
  · rw [if_pos h, List.find?_cons_of_pos (by simpa using h)]
    rfl
  · rw [if_neg h, List.find?_cons_of_neg (by simpa using h)]

theorem Props.get?_set (key k : Text) (v : PropVal) (d : Props) :
    Props.get? key (Props.set k v d) = if k = key then some v else Props.get? key d := by
  induction d with
  | nil => exact Props.get?_cons key k v []
  | cons kv d ih =>
    obtain ⟨k', v'⟩ := kv
    rw [Props.set]
    split_ifs with hk hkey hkey
    · rw [Props.get?_cons, if_pos (hk.trans hkey)]
    · rw [Props.get?_cons, Props.get?_cons, hk, if_neg hkey, if_neg hkey]
    · rw [Props.get?_cons, ih, if_pos hkey, if_neg fun hk' => hk (hk'.trans hkey.symm)]
    · rw [Props.get?_cons, ih, Props.get?_cons, if_neg hkey]

theorem Props.get?_del (key k : Text) (d : Props) :
    Props.get? key (Props.del k d) = if k = key then none else Props.get? key d := by
  induction d with
  | nil => exact (ite_self _).symm
  | cons kv d ih =>
    obtain ⟨k', v'⟩ := kv
    by_cases hk : k' = k
    · rw [Props.del, List.filter_cons_of_neg (by simpa using hk), ← Props.del, ih, Props.get?_cons, hk]
      split_ifs <;> rfl
    · rw [Props.del, List.filter_cons_of_pos (by simpa using hk), ← Props.del, Props.get?_cons, ih,
        Props.get?_cons]
      split_ifs with hkey hkey'
      · exact absurd (hkey.trans hkey'.symm) hk
      all_goals rfl

theorem Props.del_del (k : Text) (d : Props) : Props.del k (Props.del k d) = Props.del k d := by
  simp [Props.del]

/-! ## Names and compatible strings -/

def compatibleKey : Text := "compatible".toList

def stripNul (t : Text) : Text := (t.dropWhile (· = nul)).rdropWhile (· = nul)

/-- `_node_name` -/
def nodeName {ι : Type} (py : Foreign) (n : DtObject ι) : Text :=
  match n.props.get? nameKey with
  | none => "None".toList
  | some (.str t) => t
  | some (.bytes b) => stripNul (decodeUtf8Replace b)
  | some nm => py.str nm

/-- The bytes of a compatible value that is a string or a string list. -/
def compatBytes : PropVal → Option Bytes
  | .str t => some (encodeUtf8 t)
  | .bytes b => some b
  | _ => none

/-- `x in compat`, a text encoded first -/
def inCompat (py : Foreign) (compat : PropVal) (x : Bytes) : Except FixupError Bool :=
  match compatBytes compat with
  | some b => .ok (decide (x <:+: b))
  | none => py.contains compat x

end SecureWorld.DeviceTree
