import SecureWorld.DeviceTree.Format
import SecureWorld.Foundations.Loops
import Mathlib.Data.Nat.Bitwise

/-! # What the decoder does with a blob

On the bytes of a raw node the decoder succeeds exactly when it reads every property, and takes
exactly these bytes. It never runs out of fuel, on any bytes.
-/
namespace SecureWorld.DeviceTree
open Foundations
set_option autoImplicit false

/-- The property `p` is read as the entry `kv`. -/
structure DecodesEntry (p : RawProp) (kv : Text × PropVal) : Prop where
  key : decodeNullTerminatedString p.name = .ok kv.1
  value : decodeProp kv.1 p.value = .ok kv.2

def FlagClear (p : RawProp) : Prop := p.len < 2 ^ 31

def insertAll (kvs props : Props) : Props :=
  kvs.foldl (fun props kv => Props.set kv.1 kv.2 props) props

def DecodesProps (ps : List RawProp) (props : Props) : Prop :=
  ∃ kvs, List.Forall₂ DecodesEntry ps kvs ∧ props = insertAll kvs []

theorem set_of_notMem {key : Text} {value : PropVal} : ∀ {props : Props},
    key ∉ props.map Prod.fst → Props.set key value props = props ++ [(key, value)]
  | [], _ => rfl
  | (k, v) :: props, h => by
      rw [List.map_cons, List.mem_cons, not_or] at h
      rw [Props.set, if_neg (Ne.symm h.1), set_of_notMem h.2, List.cons_append]

/-- Entries with keys of their own are kept in the order of insertion. -/
theorem insertAll_of_nodup : ∀ {kvs props : Props}, ((props ++ kvs).map Prod.fst).Nodup →
    insertAll kvs props = props ++ kvs
  | [], props, _ => (List.append_nil _).symm
  | kv :: kvs, props, h => by
      have hnew : kv.1 ∉ props.map Prod.fst := by
        rw [List.map_append, List.map_cons, List.nodup_append] at h
        exact fun hmem => h.2.2 _ hmem _ List.mem_cons_self rfl
      have happend : props ++ kv :: kvs = (props ++ [kv]) ++ kvs := by
        rw [List.append_assoc, List.singleton_append]
      rw [happend] at h ⊢
      rw [← insertAll_of_nodup h, ← set_of_notMem hnew]
      rfl

theorem insertAll_nil {kvs : Props} (h : (kvs.map Prod.fst).Nodup) : insertAll kvs [] = kvs :=
  insertAll_of_nodup (by rwa [List.nil_append])

/-! ## One property -/

theorem clearFlag_of_lt {n : ℕ} (h : n < 2 ^ 31) : clearFlag n = n := by
  have hmask : ~~~0x80000000#32 = BitVec.ofNat 32 (2 ^ 31 - 1) := by decide
  rw [clearFlag, hmask, BitVec.toNat_and, BitVec.toNat_ofNat, BitVec.toNat_ofNat,
    Nat.mod_eq_of_lt (show n < 2 ^ 32 by omega), Nat.mod_eq_of_lt (by decide),
    Nat.and_two_pow_sub_one_eq_mod, Nat.mod_eq_of_lt h]

theorem bytes_slices (p : RawProp) (s : Bytes) :
    (p.bytes ++ s).take 32 = p.name ∧ ((p.bytes ++ s).take 36).drop 32 = leBytes 4 p.len ∧
      ((p.bytes ++ s).take (36 + p.value.length)).drop 36 = p.value := by
  have hhead : (p.name ++ leBytes 4 p.len).length = 36 := by
    rw [List.length_append, p.name_length, leBytes_length]
  refine ⟨?_, ?_, ?_⟩
  · rw [RawProp.bytes, List.append_assoc, List.append_assoc, List.take_left' p.name_length]
  · rw [RawProp.bytes, List.append_assoc, List.take_left' hhead, List.drop_left' p.name_length]
  · rw [List.take_left' p.bytes_length, RawProp.bytes, List.drop_left' hhead]

theorem decodeEntry_eq_ok_iff {p : RawProp} (hflag : FlagClear p) {s : Bytes}
    {x : Text × PropVal × ℕ} :
    decodeEntry (p.bytes ++ s) = .ok x ↔
      ∃ kv, DecodesEntry p kv ∧ x = (kv.1, kv.2, p.bytes.length) := by
  obtain ⟨hname, hlen, hvalue⟩ := bytes_slices p s
  have hunpack : unpackU32 (leBytes 4 p.len) = .ok p.len := by
    rw [unpackU32, if_pos (leBytes_length 4 _), leNat_leBytes, Nat.mod_eq_of_lt p.len_lt]
  unfold decodeEntry
  simp only [bind_eq_ok_iff, hname, hlen, hunpack, Except.ok.injEq, exists_eq_left']
  constructor
  · rintro ⟨key, hkey, value, hval, rfl⟩
    rw [clearFlag_of_lt hflag, ← p.value_length] at hval ⊢
    rw [hvalue] at hval
    exact ⟨(key, value), ⟨hkey, hval⟩, by rw [p.bytes_length]⟩
  · rintro ⟨⟨key, value⟩, ⟨hkey, hval⟩, rfl⟩
    refine ⟨key, hkey, value, ?_, ?_⟩
    · rw [clearFlag_of_lt hflag, ← p.value_length, hvalue]
      exact hval
    · rw [clearFlag_of_lt hflag, ← p.value_length, p.bytes_length]

/-! ## The two loops -/

theorem decodeProps_eq_ok_iff : ∀ {ps : List RawProp} {s : Bytes} {props : Props} {size : ℕ}
    {x : Props × Bytes × ℕ}, (∀ p ∈ ps, FlagClear p) →
    (decodeProps ps.length (propsBytes ps ++ s) props size = .ok x ↔
      ∃ kvs, List.Forall₂ DecodesEntry ps kvs ∧
        x = (insertAll kvs props, s, size + (propsBytes ps).length))
  | [], s, props, size, x, _ => by
      constructor
      · intro h
        obtain rfl := Except.ok.inj h
        exact ⟨[], .nil, rfl⟩
      · rintro ⟨kvs, hkvs, rfl⟩
        cases hkvs
        rfl
  | p :: ps, s, props, size, x, hflag => by
      rw [List.forall_mem_cons] at hflag
      have hbytes : propsBytes (p :: ps) = p.bytes ++ propsBytes ps := List.flatMap_cons
      have hsize (k : ℕ) : k + p.bytes.length + (propsBytes ps).length =
          k + (propsBytes (p :: ps)).length := by
        rw [hbytes, List.length_append, Nat.add_assoc]
      rw [List.length_cons, decodeProps, bind_eq_ok_iff, hbytes, List.append_assoc]
      simp only [decodeEntry_eq_ok_iff hflag.1]
      constructor
      · rintro ⟨_, ⟨kv, hkv, rfl⟩, h⟩
        dsimp only at h
        rw [List.drop_left, decodeProps_eq_ok_iff hflag.2] at h
        obtain ⟨kvs, hkvs, rfl⟩ := h
        exact ⟨kv :: kvs, .cons hkv hkvs, by rw [hsize, hbytes]; rfl⟩
      · rintro ⟨_, hkvs, rfl⟩
        cases hkvs with
        | @cons _ kv _ kvs hkv hkvs =>
          refine ⟨_, ⟨kv, hkv, rfl⟩, ?_⟩
          dsimp only
          rw [List.drop_left, decodeProps_eq_ok_iff hflag.2]
          exact ⟨kvs, hkvs, by rw [hsize, hbytes]; rfl⟩

/-- `decodeChild` reads the node `c` in data shorter than `fuel`. -/
def ReadsChild (decodeChild : Bytes → Except DtError (ADTNode × ℕ)) (fuel : ℕ) (c : RawNode) :
    Prop :=
  ∀ s x, (serialize c ++ s).length < fuel →
    (decodeChild (serialize c ++ s) = .ok x ↔
      ∃ T, Rose.Rel DecodesProps c T ∧ x = (T, (serialize c).length))

theorem decodeChildren_eq_ok_iff {decodeChild : Bytes → Except DtError (ADTNode × ℕ)} {fuel : ℕ} :
    ∀ {cs : List RawNode} {s : Bytes} {children : List ADTNode} {size : ℕ}
      {x : List ADTNode × ℕ}, (∀ c ∈ cs, ReadsChild decodeChild fuel c) →
      (serializeAll cs ++ s).length < fuel →
      (decodeChildren decodeChild cs.length (serializeAll cs ++ s) children size = .ok x ↔
        ∃ ts, List.Forall₂ (Rose.Rel DecodesProps) cs ts ∧
          x = (children ++ ts, size + (serializeAll cs).length))
  | [], s, children, size, x, _, _ => by
      constructor
      · intro h
        obtain rfl := Except.ok.inj h
        exact ⟨[], .nil, by rw [List.append_nil]; rfl⟩
      · rintro ⟨ts, hts, rfl⟩
        cases hts
        rw [List.append_nil]
        rfl
  | c :: cs, s, children, size, x, hread, hfuel => by
      rw [List.forall_mem_cons] at hread
      rw [serializeAll, List.append_assoc] at hfuel
      have hrest : (serializeAll cs ++ s).length < fuel := by
        rw [List.length_append] at hfuel
        omega
      rw [List.length_cons, decodeChildren, bind_eq_ok_iff, serializeAll, List.append_assoc]
      simp only [hread.1 _ _ hfuel]
      constructor
      · rintro ⟨_, ⟨T, hT, rfl⟩, h⟩
        dsimp only at h
        rw [List.drop_left, decodeChildren_eq_ok_iff hread.2 hrest] at h
        obtain ⟨ts, hts, rfl⟩ := h
        refine ⟨T :: ts, .cons hT hts, ?_⟩
        rw [List.append_assoc, List.singleton_append, List.length_append, Nat.add_assoc]
      · rintro ⟨_, hts, rfl⟩
        cases hts with
        | @cons _ T _ ts hT hts =>
          refine ⟨_, ⟨T, hT, rfl⟩, ?_⟩
          dsimp only
          rw [List.drop_left, decodeChildren_eq_ok_iff hread.2 hrest]
          refine ⟨ts, hts, ?_⟩
          rw [List.append_assoc, List.singleton_append, List.length_append, Nat.add_assoc]

/-! ## Whole nodes -/

/-- What the decoder needs of a node: counts that fit and clear flag bits. -/
def Readable (t : RawNode) : Prop := CountsFit t ∧ ∀ p ∈ t.label, FlagClear p

theorem serialize_length (ps : List RawProp) (cs : List RawNode) :
    (serialize (.node ps cs)).length = 8 + (propsBytes ps).length + (serializeAll cs).length := by
  simp only [serialize, List.length_append, leBytes_length]

/-- The header of a node is read as its two counts. -/
theorem decodeNodeWithin_serialize {ps : List RawProp} {cs : List RawNode}
    (hfit : CountsFit (.node ps cs)) (fuel : ℕ) (s : Bytes) :
    decodeNodeWithin (fuel + 1) (serialize (.node ps cs) ++ s) = (do
      let (props, rest, ourSize) ←
        decodeProps ps.length (propsBytes ps ++ (serializeAll cs ++ s)) [] 8
      let (children, ourSize) ←
        decodeChildren (decodeNodeWithin fuel) cs.length rest [] ourSize
      .ok (.node props children, ourSize)) := by
  have hps : ps.length < 256 ^ 4 := hfit.1
  have hcs : cs.length < 256 ^ 4 := hfit.2
  have hheader : (leBytes 4 ps.length ++ leBytes 4 cs.length).length = 8 := by
    rw [List.length_append, leBytes_length, leBytes_length]
  have hlong : ¬ (serialize (.node ps cs) ++ s).length < 8 := by
    rw [List.length_append, serialize_length]
    omega
  have hbytes : serialize (.node ps cs) ++ s =
      leBytes 4 ps.length ++ leBytes 4 cs.length ++ (propsBytes ps ++ (serializeAll cs ++ s)) := by
    simp only [serialize, List.append_assoc]
  have hnProps : leNat (leBytes 4 ps.length) = ps.length := by
    rw [leNat_leBytes, Nat.mod_eq_of_lt hps]
  have hnChildren : leNat (leBytes 4 cs.length) = cs.length := by
    rw [leNat_leBytes, Nat.mod_eq_of_lt hcs]
  rw [decodeNodeWithin, if_neg hlong, hbytes, List.take_left' hheader, List.drop_left' hheader,
    List.append_assoc, List.take_left' (leBytes_length 4 _), List.drop_left' (leBytes_length 4 _)]
  dsimp only
  rw [hnProps, hnChildren]

theorem decodeNodeWithin_eq_ok_iff (R : RawNode) : ∀ {fuel : ℕ}, Rose.Everywhere Readable R →
    ReadsChild (decodeNodeWithin fuel) fuel R := by
  induction R using Rose.induct with
  | h ps cs ih =>
    intro fuel hR s x hfuel
    obtain ⟨⟨hfit, hflag⟩, hchildren⟩ := Rose.everywhere_node_iff.mp hR
    have hclear : ∀ p ∈ ps, FlagClear p := hflag
    have hlength := serialize_length ps cs
    cases fuel with
    | zero => exact absurd hfuel (Nat.not_lt_zero _)
    | succ fuel =>
      -- the header is gone, so the children's data is shorter than the fuel that is left
      have hrest : (serializeAll cs ++ s).length < fuel := by
        rw [List.length_append, hlength] at hfuel
        rw [List.length_append]
        omega
      have hread : ∀ c ∈ cs, ReadsChild (decodeNodeWithin fuel) fuel c := fun c hc =>
        ih c hc (hchildren c hc)
      rw [decodeNodeWithin_serialize hfit, bind_eq_ok_iff]
      simp only [decodeProps_eq_ok_iff hclear, bind_eq_ok_iff]
      constructor
      · rintro ⟨_, ⟨kvs, hkvs, rfl⟩, _, hdecoded, hx⟩
        rw [decodeChildren_eq_ok_iff hread hrest] at hdecoded
        obtain ⟨ts, hts, rfl⟩ := hdecoded
        obtain rfl := Except.ok.inj hx
        exact ⟨.node (insertAll kvs []) ts, .node ⟨kvs, hkvs, rfl⟩ hts, by rw [hlength]; rfl⟩
      · rintro ⟨T, hT, rfl⟩
        obtain ⟨props, ts, rfl, ⟨kvs, hkvs, rfl⟩, hts⟩ := Rose.rel_node_iff.mp hT
        refine ⟨_, ⟨kvs, hkvs, rfl⟩, _, (decodeChildren_eq_ok_iff hread hrest).mpr ⟨ts, hts, rfl⟩, ?_⟩
        rw [hlength]
        rfl

/-- The decoder reads a node, whatever follows it, as the trees related to it. -/
theorem decodeNode_eq_ok_iff {R : RawNode} (hR : Rose.Everywhere Readable R) {s : Bytes}
    {x : ADTNode × ℕ} :
    decodeNode (serialize R ++ s) = .ok x ↔
      ∃ T, Rose.Rel DecodesProps R T ∧ x = (T, (serialize R).length) :=
  decodeNodeWithin_eq_ok_iff R hR s x (Nat.lt_succ_self _)

/-! ## Fuel -/

/-- The computation does not end at the recursion bound. -/
def Fuelled {α : Type} (x : Except DtError α) : Prop := x ≠ .error .outOfFuel

theorem Fuelled.ok {α : Type} (a : α) : Fuelled (.ok a) := nofun

theorem Fuelled.bind {α β : Type} {x : Except DtError α} {f : α → Except DtError β}
    (hx : Fuelled x) (hf : ∀ a, x = .ok a → Fuelled (f a)) : Fuelled (x >>= f) := by
  cases x with
  | error e => exact fun h => hx (congrArg _ (Except.error.inj h))
  | ok a => exact hf a rfl

theorem decodeNullTerminatedString_fuelled (s : Bytes) :
    Fuelled (decodeNullTerminatedString s) := by
  unfold decodeNullTerminatedString
  split
  · exact .ok _
  · exact nofun

theorem decodeProp_fuelled (name : Text) (prop : Bytes) : Fuelled (decodeProp name prop) := by
  unfold decodeProp
  split_ifs
  · have htext := decodeNullTerminatedString_fuelled prop
    cases hdecoded : decodeNullTerminatedString prop with
    | error e => exact fun h => htext (by rw [hdecoded, Except.error.inj h])
    | ok t => exact .ok _
  all_goals exact .ok _

theorem decodeEntry_fuelled (dt : Bytes) : Fuelled (decodeEntry dt) := by
  have hunpack (s : Bytes) : Fuelled (unpackU32 s) := by
    unfold unpackU32
    split
    · exact .ok _
    · exact nofun
  exact (decodeNullTerminatedString_fuelled _).bind fun _ _ =>
    (hunpack _).bind fun _ _ => (decodeProp_fuelled _ _).bind fun _ _ => .ok _

theorem decodeProps_fuelled : ∀ (n : ℕ) (dt : Bytes) (props : Props) (size : ℕ),
    Fuelled (decodeProps n dt props size)
  | 0, _, _, _ => .ok _
  | n + 1, dt, _, _ =>
      (decodeEntry_fuelled dt).bind fun _ _ => decodeProps_fuelled n _ _ _

theorem decodeProps_rest_le : ∀ {n : ℕ} {dt : Bytes} {props : Props} {size : ℕ}
    {x : Props × Bytes × ℕ}, decodeProps n dt props size = .ok x → x.2.1.length ≤ dt.length
  | 0, _, _, _, _, h => by
      obtain rfl := Except.ok.inj h
      exact le_rfl
  | n + 1, dt, _, _, x, h => by
      rw [decodeProps, bind_eq_ok_iff] at h
      obtain ⟨⟨key, value, taken⟩, -, h⟩ := h
      refine (decodeProps_rest_le h).trans ?_
      rw [List.length_drop]
      omega

theorem decodeChildren_fuelled {decodeChild : Bytes → Except DtError (ADTNode × ℕ)} {fuel : ℕ}
    (hchild : ∀ dt, dt.length < fuel → Fuelled (decodeChild dt)) :
    ∀ (n : ℕ) (dt : Bytes) (children : List ADTNode) (size : ℕ), dt.length < fuel →
      Fuelled (decodeChildren decodeChild n dt children size)
  | 0, _, _, _, _ => .ok _
  | n + 1, dt, children, size, hlen => by
      refine (hchild dt hlen).bind fun x _ => decodeChildren_fuelled hchild n _ _ _ ?_
      rw [List.length_drop]
      omega

theorem decodeNodeWithin_fuelled : ∀ (fuel : ℕ) (dt : Bytes), dt.length < fuel →
    Fuelled (decodeNodeWithin fuel dt)
  | 0, _, h => absurd h (Nat.not_lt_zero _)
  | fuel + 1, dt, h => by
      rw [decodeNodeWithin]
      split
      · exact nofun
      · case isFalse hlong =>
        refine (decodeProps_fuelled _ _ _ _).bind fun x hx => ?_
        have hrest := decodeProps_rest_le hx
        rw [List.length_drop] at hrest
        have hshort : x.2.1.length < fuel := by omega
        exact (decodeChildren_fuelled (decodeNodeWithin_fuelled fuel) _ _ _ _ hshort).bind
          fun _ _ => .ok _

/-- On every byte string the decoder returns or raises one of the source's exceptions. -/
theorem decodeNode_fuelled (dt : Bytes) : Fuelled (decodeNode dt) :=
  decodeNodeWithin_fuelled _ dt (Nat.lt_succ_self _)

end SecureWorld.DeviceTree
