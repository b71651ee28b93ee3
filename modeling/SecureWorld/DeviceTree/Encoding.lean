import SecureWorld.DeviceTree.Format
import SecureWorld.Foundations.Loops

/-! # What the encoder writes

On trees whose texts contain no NUL the encoder writes the bytes of a raw node, one raw property
for each entry, or it raises.
-/
namespace SecureWorld.DeviceTree
open Foundations
set_option autoImplicit false

/-- The entry `kv` is written as the property `p`. -/
structure EncodesEntry (kv : Text × PropVal) (p : RawProp) : Prop where
  short : kv.1.length < 32
  name : p.name = ljust (encodeUtf8 kv.1) 32
  terminated : p.name.getLast? = some 0
  value : parsePropEntry kv.2 = .ok (p.len, p.value)

def EncodesProps (props : Props) (ps : List RawProp) : Prop := List.Forall₂ EncodesEntry props ps

def PropVal.NulFree (v : PropVal) : Prop := ∀ text, v = .str text → nul ∉ text

def NulFree (t : ADTNode) : Prop := ∀ kv ∈ t.label, nul ∉ kv.1 ∧ kv.2.NulFree

/-! ## Padding -/

theorem ljust_length (s : Bytes) (n : ℕ) : (ljust s n).length = max s.length n := by
  rw [ljust, List.length_append, List.length_replicate]
  omega

theorem ljust_of_le {s : Bytes} {n : ℕ} (h : n ≤ s.length) : ljust s n = s := by
  rw [ljust, Nat.sub_eq_zero_of_le h, List.replicate_zero, List.append_nil]

/-- Bytes without zero are followed by one exactly when they are shorter than the field. -/
theorem ljust_terminated_iff {s : Bytes} {n : ℕ} (hs : 0 ∉ s) :
    (ljust s n).getLast? = some 0 ↔ s.length < n := by
  constructor
  · intro h
    by_contra hle
    rw [ljust_of_le (by omega)] at h
    exact hs (List.mem_of_getLast? h)
  · intro hlt
    obtain ⟨k, hk⟩ := Nat.exists_eq_succ_of_ne_zero (show n - s.length ≠ 0 by omega)
    rw [ljust, hk, List.replicate_succ', ← List.append_assoc, List.getLast?_concat]

/-! ## One property -/

theorem packUnsigned_eq_ok_iff {width : ℕ} {n : ℤ} {b : Bytes} :
    packUnsigned width n = .ok b ↔ (0 ≤ n ∧ n < 256 ^ width) ∧ leBytes width n.toNat = b := by
  unfold packUnsigned
  split
  · case isTrue h => exact ⟨fun hb => ⟨h, Except.ok.inj hb⟩, fun hb => congrArg _ hb.2⟩
  · case isFalse h => exact ⟨nofun, fun hb => absurd hb.1 h⟩

theorem packUnsigned_natCast {width n : ℕ} {b : Bytes} :
    packUnsigned width n = .ok b ↔ n < 256 ^ width ∧ leBytes width n = b := by
  rw [packUnsigned_eq_ok_iff, Int.toNat_natCast]
  exact and_congr_left' ⟨fun h => by exact_mod_cast h.2, fun h => ⟨by omega, by exact_mod_cast h⟩⟩

theorem packMarked_eq_ok_iff {width : ℕ} {digits : Text} {x : ℕ × Bytes} :
    packMarked width digits = .ok x ↔
      ∃ n, pyInt digits = some n ∧ (0 ≤ n ∧ n < 256 ^ width) ∧
        x = (width, leBytes width n.toNat) := by
  unfold packMarked
  cases pyInt digits with
  | none => exact ⟨nofun, fun ⟨_, h, _⟩ => nomatch h⟩
  | some n =>
    simp only [map_eq_ok_iff, packUnsigned_eq_ok_iff, Option.some.injEq, exists_eq_left']
    constructor
    · rintro ⟨b, ⟨hn, rfl⟩, rfl⟩
      exact ⟨hn, rfl⟩
    · rintro ⟨hn, rfl⟩
      exact ⟨_, ⟨hn, rfl⟩, rfl⟩

/-- What the encoder makes of a value fills its declared length to a multiple of four. -/
theorem parsePropEntry_padded {v : PropVal} (hv : v.NulFree) {len : ℕ} {value : Bytes}
    (h : parsePropEntry v = .ok (len, value)) : value.length = roundUpToMultipleOf4 len := by
  cases v with
  | int n => exact nomatch h
  | dict => exact nomatch h
  | other => exact nomatch h
  | bytes data =>
    obtain ⟨rfl, rfl⟩ := Prod.mk.inj (Except.ok.inj h)
    rw [ljust_length, Nat.max_eq_right (le_roundUp _)]
  | str text =>
    unfold parsePropEntry at h
    dsimp only at h
    split_ifs at h with hu32 hu64 hnull hlast
    · obtain ⟨n, -, -, heq⟩ := packMarked_eq_ok_iff.mp h
      obtain ⟨rfl, rfl⟩ := Prod.mk.inj heq
      exact leBytes_length 4 _
    · obtain ⟨n, -, -, heq⟩ := packMarked_eq_ok_iff.mp h
      obtain ⟨rfl, rfl⟩ := Prod.mk.inj heq
      exact leBytes_length 8 _
    · obtain ⟨rfl, rfl⟩ := Prod.mk.inj (Except.ok.inj h)
      rfl
    · obtain ⟨rfl, rfl⟩ := Prod.mk.inj (Except.ok.inj h)
      have hzero : 0 ∉ encodeUtf8 text := fun hmem =>
        hv text rfl (zero_mem_encodeUtf8.mp hmem)
      have hlt := (ljust_terminated_iff hzero).mp (not_not.mp hlast)
      rw [ljust_length, Nat.max_eq_right hlt.le]

/-! ## Properties, children, nodes -/

/-- One turn of the property loop appends the bytes of one raw property. -/
theorem encodeProps_cons_eq_ok_iff {k : Text} {v : PropVal} {props : Props} {outv b : Bytes}
    (hk : nul ∉ k) (hv : v.NulFree) (hout : outv.length % 4 = 0) :
    encodeProps ((k, v) :: props) outv = .ok b ↔
      ∃ p, EncodesEntry (k, v) p ∧ encodeProps props (outv ++ p.bytes) = .ok b := by
  have hzero : 0 ∉ encodeUtf8 k := fun hmem => hk (zero_mem_encodeUtf8.mp hmem)
  have hbytes (p : RawProp) :
      outv ++ p.name ++ leBytes 4 p.len ++ p.value = outv ++ p.bytes := by
    simp only [RawProp.bytes, List.append_assoc]
  rw [encodeProps]
  dsimp only
  constructor
  · intro h
    split_ifs at h with hlong hlast
    obtain ⟨⟨len, value⟩, hvalue, h⟩ := bind_eq_ok_iff.mp h
    dsimp only at h
    split_ifs at h with hmod
    obtain ⟨lenBytes, hlen, h⟩ := bind_eq_ok_iff.mp h
    obtain ⟨hlt, rfl⟩ := packUnsigned_natCast.mp hlen
    split_ifs at h with hstream
    have hname := (ljust_terminated_iff hzero).mp (not_not.mp hlast)
    let p : RawProp :=
      { name := ljust (encodeUtf8 k) 32, len, value
        name_length := by rw [ljust_length, Nat.max_eq_right hname.le]
        len_lt := hlt
        value_length := parsePropEntry_padded hv hvalue }
    exact ⟨p, ⟨not_le.mp hlong, rfl, not_not.mp hlast, hvalue⟩, hbytes p ▸ h⟩
  · rintro ⟨p, ⟨hshort, hname, hlast, hvalue⟩, h⟩
    have hmod : p.value.length % 4 = 0 := by rw [p.value_length, roundUp_mod]
    have hstream := p.append_bytes_mod hout
    rw [← hbytes] at hstream h
    rw [if_neg (not_le.mpr hshort), ← hname, if_neg (not_not.mpr hlast), bind_eq_ok_iff]
    refine ⟨_, hvalue, ?_⟩
    dsimp only
    rw [if_neg (not_not.mpr hmod), bind_eq_ok_iff]
    refine ⟨_, packUnsigned_natCast.mpr ⟨p.len_lt, rfl⟩, ?_⟩
    rw [if_neg (not_not.mpr hstream), h]

theorem encodeProps_eq_ok_iff : ∀ {props : Props} {outv b : Bytes},
    (∀ kv ∈ props, nul ∉ kv.1 ∧ kv.2.NulFree) → outv.length % 4 = 0 →
    (encodeProps props outv = .ok b ↔
      ∃ ps, EncodesProps props ps ∧ b = outv ++ propsBytes ps)
  | [], outv, b, _, _ => by
      constructor
      · intro h
        obtain rfl := Except.ok.inj h
        exact ⟨[], .nil, (List.append_nil _).symm⟩
      · rintro ⟨ps, hps, rfl⟩
        cases hps
        exact congrArg _ (List.append_nil _).symm
  | (k, v) :: props, outv, b, hnul, hout => by
      obtain ⟨⟨hk, hv⟩, hnul⟩ := List.forall_mem_cons.mp hnul
      have hcons (p : RawProp) (ps : List RawProp) :
          outv ++ p.bytes ++ propsBytes ps = outv ++ propsBytes (p :: ps) := by
        rw [List.append_assoc]
        rfl
      rw [encodeProps_cons_eq_ok_iff hk hv hout]
      simp only [encodeProps_eq_ok_iff hnul (RawProp.append_bytes_mod hout _), hcons]
      constructor
      · rintro ⟨p, hp, ps, hps, rfl⟩
        exact ⟨p :: ps, .cons hp hps, rfl⟩
      · rintro ⟨_, hps, rfl⟩
        cases hps with
        | cons hp hps => exact ⟨_, hp, _, hps, rfl⟩

theorem packCounts_eq_ok_iff {m n : ℕ} {b : Bytes} :
    packCounts m n = .ok b ↔ (m < 256 ^ 4 ∧ n < 256 ^ 4) ∧ b = leBytes 4 m ++ leBytes 4 n := by
  unfold packCounts
  simp only [bind_eq_ok_iff, packUnsigned_natCast, Except.ok.injEq]
  constructor
  · rintro ⟨_, ⟨hm, rfl⟩, _, ⟨hn, rfl⟩, rfl⟩
    exact ⟨⟨hm, hn⟩, rfl⟩
  · rintro ⟨⟨hm, hn⟩, rfl⟩
    exact ⟨_, ⟨hm, rfl⟩, _, ⟨hn, rfl⟩, rfl⟩

/-- The encoder writes the child `c` as a raw node. -/
def WritesChild (c : ADTNode) : Prop :=
  ∀ b, encodeNode c = .ok b ↔
    Rose.Everywhere CountsFit c ∧ ∃ R, Rose.Rel EncodesProps c R ∧ b = serialize R

theorem encodeChildren_eq_ok_iff : ∀ {cs : List ADTNode} {outv b : Bytes},
    (∀ c ∈ cs, WritesChild c) →
    (encodeChildren cs outv = .ok b ↔
      (∀ c ∈ cs, Rose.Everywhere CountsFit c) ∧
        ∃ ds, List.Forall₂ (Rose.Rel EncodesProps) cs ds ∧ b = outv ++ serializeAll ds)
  | [], outv, b, _ => by
      constructor
      · intro h
        obtain rfl := Except.ok.inj h
        exact ⟨List.forall_mem_nil _, [], .nil, (List.append_nil _).symm⟩
      · rintro ⟨-, ds, hds, rfl⟩
        cases hds
        exact congrArg _ (List.append_nil _).symm
  | c :: cs, outv, b, hwrite => by
      rw [List.forall_mem_cons] at hwrite
      rw [encodeChildren, bind_eq_ok_iff, List.forall_mem_cons]
      simp only [hwrite.1 _, encodeChildren_eq_ok_iff hwrite.2]
      constructor
      · rintro ⟨_, ⟨hfit, R, hR, rfl⟩, hfits, ds, hds, rfl⟩
        exact ⟨⟨hfit, hfits⟩, R :: ds, .cons hR hds, by rw [serializeAll, List.append_assoc]⟩
      · rintro ⟨⟨hfit, hfits⟩, _, hds, rfl⟩
        cases hds with
        | @cons _ R _ ds hR hds =>
          exact ⟨_, ⟨hfit, R, hR, rfl⟩, hfits, ds, hds, by rw [serializeAll, List.append_assoc]⟩

/-- The encoder succeeds exactly on the trees it can write property by property. -/
theorem encodeNode_eq_ok_iff {T : ADTNode} : Rose.Everywhere NulFree T → WritesChild T := by
  induction T using Rose.induct with
  | h props cs ih =>
    intro hT b
    obtain ⟨hlabel, hchildren⟩ := Rose.everywhere_node_iff.mp hT
    have hnul : ∀ kv ∈ props, nul ∉ kv.1 ∧ kv.2.NulFree := hlabel
    have hwrite : ∀ c ∈ cs, WritesChild c := fun c hc => ih c hc (hchildren c hc)
    have hheader : (leBytes 4 props.length ++ leBytes 4 cs.length).length % 4 = 0 := by
      rw [List.length_append, leBytes_length, leBytes_length]
    rw [encodeNode, bind_eq_ok_iff, Rose.everywhere_node_iff]
    simp only [packCounts_eq_ok_iff, bind_eq_ok_iff]
    constructor
    · rintro ⟨_, ⟨hfit, rfl⟩, _, hprops, hcs⟩
      obtain ⟨ps, hps, rfl⟩ := (encodeProps_eq_ok_iff hnul hheader).mp hprops
      obtain ⟨hfits, ds, hds, rfl⟩ := (encodeChildren_eq_ok_iff hwrite).mp hcs
      refine ⟨⟨hfit, hfits⟩, .node ps ds, .node hps hds, ?_⟩
      rw [serialize, hps.length_eq, hds.length_eq]
    · rintro ⟨⟨hfit, hfits⟩, R, hR, rfl⟩
      obtain ⟨ps, ds, rfl, hps, hds⟩ := Rose.rel_node_iff.mp hR
      refine ⟨_, ⟨hfit, rfl⟩, _, (encodeProps_eq_ok_iff hnul hheader).mpr ⟨ps, hps, rfl⟩, ?_⟩
      rw [encodeChildren_eq_ok_iff hwrite]
      refine ⟨hfits, ds, hds, ?_⟩
      rw [serialize, hps.length_eq, hds.length_eq]

end SecureWorld.DeviceTree
