import SecureWorld.DeviceTree.PyInt
import SecureWorld.Foundations.LittleEndian
import SecureWorld.Foundations.RoseTree
import SecureWorld.Foundations.Utf8

/-! # Decoding and encoding Apple device trees

A node of a blob is its two counts, its properties (a 32-byte name, a length, a value padded to
four bytes) and its children. `decodeNode` guesses a type for every value; `encodeNode` writes the
guess back. Slices are cut off at the end of the data, as in the source. The interpreter's limit on
nested calls is left out.
-/
namespace SecureWorld.DeviceTree
open Foundations
set_option autoImplicit false

abbrev Bytes := List UInt8

/-- What a property holds: the two types the decoder produces and those the encoder refuses. -/
inductive PropVal where
  | str (text : Text)
  | bytes (data : Bytes)
  | int (n : ℤ)
  | dict
  | other
deriving DecidableEq

/-- A dictionary in the order of insertion. -/
abbrev Props := List (Text × PropVal)

/-- `d[key] = value`: an old key keeps its place. -/
def Props.set (key : Text) (value : PropVal) : Props → Props
  | [] => [(key, value)]
  | (k, v) :: d => if k = key then (k, value) :: d else (k, v) :: Props.set key value d

abbrev ADTNode := Rose Props

inductive DtError where
  /-- `ValueError`: dtree is too small -/
  | tooSmall
  /-- `UnicodeDecodeError` -/
  | unicode
  /-- `struct.error` -/
  | struct
  /-- `ValueError` of `int` -/
  | badInt
  /-- `TypeError`: int type not specified -/
  | intType
  /-- `TypeError`: dicts aren't allowed as properties -/
  | dictType
  /-- `ValueError`: not a str -/
  | notStr
  /-- `ValueError`: Property … isn't NULL terminated -/
  | valueNotTerminated (value : Bytes)
  /-- `ValueError`: property name … is too long -/
  | nameTooLong (key : Text)
  /-- `ValueError`: Property name … isn't NULL terminated -/
  | nameNotTerminated (name : Bytes)
  /-- `ValueError`: Property …'s value isn't a multiple of 4 bytes long -/
  | valueMisaligned (key : Text) (value : Bytes)
  /-- `ValueError`: Binary stream misaligned at property … -/
  | streamMisaligned (key : Text)
  /-- the recursion bound of the model -/
  | outOfFuel
deriving DecidableEq

/-! ## Helpers of both directions -/

def nul : Char := Char.ofNat 0

/-- `4 * math.ceil(i / 4)` -/
def roundUpToMultipleOf4 (i : ℕ) : ℕ := 4 * ((i + 3) / 4)

/-- `s.ljust(width, b'\x00')` -/
def ljust (s : Bytes) (width : ℕ) : Bytes := s ++ List.replicate (width - s.length) 0

/-- `struct.unpack("<I", s)` -/
def unpackU32 (s : Bytes) : Except DtError ℕ :=
  if s.length = 4 then .ok (leNat s) else .error .struct

/-- `struct.pack("<I", n)` and `struct.pack("<Q", n)` at 4 and 8 bytes. -/
def packUnsigned (width : ℕ) (n : ℤ) : Except DtError Bytes :=
  if 0 ≤ n ∧ n < 256 ^ width then .ok (leBytes width n.toNat) else .error .struct

def u32Marker : Text := ['u', '3', '2', ':']
def u64Marker : Text := ['u', '6', '4', ':']
def nullMarker : Text := ['<', 'N', 'U', 'L', 'L', '>']
def nameKey : Text := ['n', 'a', 'm', 'e']

/-! ## Decoding -/

/-- The whole of `s` has to be UTF-8, also what follows the NUL. -/
def decodeNullTerminatedString (s : Bytes) : Except DtError Text :=
  match decodeUtf8 s with
  | some text => .ok (text.takeWhile (· ≠ nul))
  | none => .error .unicode

/-- `str.isprintable` on the ASCII characters. -/
def isPrintable (b : UInt8) : Bool := 0x20 ≤ b && b ≤ 0x7e

/-- Only NULs after the first NUL, ASCII, and at least three printable characters before it. -/
def isProbablyAString (s : Bytes) : Bool :=
  !s.isEmpty && (s.dropWhile (· ≠ 0)).all (· = 0) && s.all (· < 128) &&
    3 ≤ (s.takeWhile (· ≠ 0)).length && (s.takeWhile (· ≠ 0)).all isPrintable

def decodeProp (name : Text) (prop : Bytes) : Except DtError PropVal :=
  if name = nameKey ∨ isProbablyAString prop = true then
    (decodeNullTerminatedString prop).map .str
  else if prop.length = 0 then .ok (.str nullMarker)
  else if prop.length = 4 then .ok (.str (u32Marker ++ hex (leNat prop)))
  else if prop.length = 8 then .ok (.str (u64Marker ++ hex (leNat prop)))
  else .ok (.bytes prop)

/-- `prop_len &= ~0x80000000` -/
def clearFlag (propLen : ℕ) : ℕ := (BitVec.ofNat 32 propLen &&& ~~~0x80000000#32).toNat

/-- One turn of the property loop: the name, the value and the size taken from `dt`. -/
def decodeEntry (dt : Bytes) : Except DtError (Text × PropVal × ℕ) := do
  let propName ← decodeNullTerminatedString (dt.take 32)
  let rawLen ← unpackU32 ((dt.take 36).drop 32)
  let propLen := roundUpToMultipleOf4 (clearFlag rawLen)
  let prop := (dt.take (36 + propLen)).drop 36
  let value ← decodeProp propName prop
  .ok (propName, value, 36 + propLen)

def decodeProps : ℕ → Bytes → Props → ℕ → Except DtError (Props × Bytes × ℕ)
  | 0, dt, props, ourSize => .ok (props, dt, ourSize)
  | n + 1, dt, props, ourSize => do
      let (key, value, size) ← decodeEntry dt
      decodeProps n (dt.drop size) (Props.set key value props) (ourSize + size)

def decodeChildren (decodeChild : Bytes → Except DtError (ADTNode × ℕ)) :
    ℕ → Bytes → List ADTNode → ℕ → Except DtError (List ADTNode × ℕ)
  | 0, _, children, ourSize => .ok (children, ourSize)
  | n + 1, dt, children, ourSize => do
      let (child, childSize) ← decodeChild dt
      decodeChildren decodeChild n (dt.drop childSize) (children ++ [child]) (ourSize + childSize)

def decodeNodeWithin : ℕ → Bytes → Except DtError (ADTNode × ℕ)
  | 0, _ => .error .outOfFuel
  | fuel + 1, dt =>
      if dt.length < 8 then .error .tooSmall
      else do
        let nProps := leNat (dt.take 4)
        let nChildren := leNat ((dt.take 8).drop 4)
        let (props, rest, ourSize) ← decodeProps nProps (dt.drop 8) [] 8
        let (children, ourSize) ←
          decodeChildren (decodeNodeWithin fuel) nChildren rest [] ourSize
        .ok (.node props children, ourSize)

/-- Every nested call has eight bytes less, so this fuel is never used up. -/
def decodeNode (dt : Bytes) : Except DtError (ADTNode × ℕ) := decodeNodeWithin (dt.length + 1) dt

/-! ## Encoding -/

def packMarked (width : ℕ) (digits : Text) : Except DtError (ℕ × Bytes) :=
  match pyInt digits with
  | some n => (packUnsigned width n).map (width, ·)
  | none => .error .badInt

/-- The declared length and the padded value. -/
def parsePropEntry : PropVal → Except DtError (ℕ × Bytes)
  | .bytes v => .ok (v.length, ljust v (roundUpToMultipleOf4 v.length))
  | .int _ => .error .intType
  | .dict => .error .dictType
  | .other => .error .notStr
  | .str v =>
      if u32Marker.isPrefixOf v then packMarked 4 (v.drop 4)
      else if u64Marker.isPrefixOf v then packMarked 8 (v.drop 4)
      else if v = nullMarker then .ok (0, [])
      else
        -- counted in characters, not in bytes
        let strlen := v.length + 1
        let rv2 := ljust (encodeUtf8 v) (roundUpToMultipleOf4 strlen)
        if rv2.getLast? ≠ some 0 then .error (.valueNotTerminated rv2) else .ok (strlen, rv2)

def encodeProps : Props → Bytes → Except DtError Bytes
  | [], outv => .ok outv
  | (k, v) :: props, outv =>
      if 32 ≤ k.length then .error (.nameTooLong k)
      else
        let propName := ljust (encodeUtf8 k) 32
        if propName.getLast? ≠ some 0 then .error (.nameNotTerminated propName)
        else do
          let (propLen, propVal) ← parsePropEntry v
          if propVal.length % 4 ≠ 0 then .error (.valueMisaligned k propVal)
          else do
            let len ← packUnsigned 4 propLen
            let out := outv ++ propName ++ len ++ propVal
            if out.length % 4 ≠ 0 then .error (.streamMisaligned k) else encodeProps props out

def packCounts (nProps nChildren : ℕ) : Except DtError Bytes := do
  let a ← packUnsigned 4 nProps
  let b ← packUnsigned 4 nChildren
  .ok (a ++ b)

mutual

def encodeNode : ADTNode → Except DtError Bytes
  | .node props children => do
      let header ← packCounts props.length children.length
      let outv ← encodeProps props header
      encodeChildren children outv

def encodeChildren : List ADTNode → Bytes → Except DtError Bytes
  | [], outv => .ok outv
  | c :: cs, outv => do
      let child ← encodeNode c
      encodeChildren cs (outv ++ child)

end

end SecureWorld.DeviceTree
