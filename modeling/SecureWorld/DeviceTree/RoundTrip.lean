import SecureWorld.DeviceTree.Values
import Mathlib.Data.List.Nodup

/-! # Decoding undoes encoding

On canonical trees every encoder branch is inverted by the class the decoder guesses. A value of
2^31 bytes or more would set the flag bit of its declared length, so such values are left out.
-/
namespace SecureWorld.DeviceTree
open Foundations
set_option autoImplicit false

/-! ## Canonical trees -/

structure CanonicalKey (k : Text) : Prop where
  ascii : ∀ c ∈ k, c.toNat < 128
  nulFree : nul ∉ k
  short : k.length < 32

/-- The values of the property `name`. -/
inductive CanonicalName : PropVal → Prop
  | intro {t : Text} : (∀ c ∈ t, c.toNat < 128) → nul ∉ t → MarkerFree t → CanonicalName (.str t)

/-- The values of the other properties. -/
inductive CanonicalValue : PropVal → Prop
  | null : CanonicalValue (.str nullMarker)
  | u32 {n : ℕ} : n < 256 ^ 4 → isProbablyAString (leBytes 4 n) = false →
      CanonicalValue (.str (u32Marker ++ hex n))
  | u64 {n : ℕ} : n < 256 ^ 8 → isProbablyAString (leBytes 8 n) = false →
      CanonicalValue (.str (u64Marker ++ hex n))
  | text {t : Text} : (∀ c ∈ t, 0x20 ≤ c.toNat ∧ c.toNat ≤ 0x7e) → 3 ≤ t.length → MarkerFree t →
      CanonicalValue (.str t)
  | raw {b : Bytes} : b.length % 4 = 0 → b.length ≠ 0 → b.length ≠ 4 → b.length ≠ 8 →
      isProbablyAString b = false → CanonicalValue (.bytes b)

structure CanonicalEntry (kv : Text × PropVal) : Prop where
  key : CanonicalKey kv.1
  name : kv.1 = nameKey → CanonicalName kv.2
  value : kv.1 ≠ nameKey → CanonicalValue kv.2

structure CanonicalNode (t : ADTNode) : Prop where
  distinct : (t.label.map Prod.fst).Nodup
  entry : ∀ kv ∈ t.label, CanonicalEntry kv

def Canonical (T : ADTNode) : Prop := Rose.Everywhere CanonicalNode T

/-- The counts and the declared lengths fit their fields, the flag bit left clear. -/
structure Representable (t : ADTNode) : Prop where
  counts : CountsFit t
  lengths : ∀ kv ∈ t.label, ∀ x, parsePropEntry kv.2 = .ok x → x.1 < 2 ^ 31

/-! ## Each branch of the encoder is inverted -/

/-- The encoder's bytes for `v` are decoded, under the key `k`, to `v`. -/
def Inverted (k : Text) (v : PropVal) : Prop :=
  nul ∉ k ∧ v.NulFree ∧ ∃ len value, parsePropEntry v = .ok (len, value) ∧ decodeProp k value = .ok v

theorem encodeUtf8_length_ascii {t : Text} (ht : ∀ c ∈ t, c.toNat < 128) :
    (encodeUtf8 t).length = t.length := by
  rw [encodeUtf8_ascii ht, List.length_map]

theorem terminated_ascii {t : Text} (ht : ∀ c ∈ t, c.toNat < 128) : Terminated t := by
  rw [Terminated, encodeUtf8_length_ascii ht]
  exact le_roundUp _

/-- Printable texts of three characters or more look like strings. -/
theorem isProbablyAString_text {t : Text} (ht : ∀ c ∈ t, 0x20 ≤ c.toNat ∧ c.toNat ≤ 0x7e)
    (hlen : 3 ≤ t.length) (n : ℕ) : isProbablyAString (ljust (encodeUtf8 t) n) = true := by
  have hascii : ∀ c ∈ t, c.toNat < 128 := fun c hc => by
    have := ht c hc
    omega
  have hbyte : ∀ b ∈ encodeUtf8 t, 0x20 ≤ b.toNat ∧ b.toNat ≤ 0x7e := by
    rw [encodeUtf8_ascii hascii, List.forall_mem_map]
    intro c hc
    have hc' := ht c hc
    rw [ofNat_toNat_mod, Nat.mod_eq_of_lt (by omega)]
    exact hc'
  have hzero : 0 ∉ encodeUtf8 t := fun h => absurd (hbyte 0 h).1 (by decide)
  have hbefore := beforeNul_ljust hzero n
  have hpadded := nulPadded_ljust hzero n
  have hne : ljust (encodeUtf8 t) n ≠ [] := by
    rw [← List.length_pos_iff, ljust_length, encodeUtf8_length_ascii hascii]
    omega
  rw [beforeNul] at hbefore
  simp only [isProbablyAString, hbefore, Bool.and_eq_true, List.all_eq_true, decide_eq_true_eq,
    Bool.not_eq_true', List.isEmpty_eq_false_iff]
  refine ⟨⟨⟨⟨hne, hpadded⟩, fun b hb => ?_⟩, ?_⟩, fun b hb => ?_⟩
  · rcases List.mem_append.mp hb with htext | hpad
    · have := hbyte b htext
      exact UInt8.lt_iff_toNat_lt.mpr (show b.toNat < 128 by omega)
    · rw [List.eq_of_mem_replicate hpad]
      decide
  · rw [encodeUtf8_length_ascii hascii]
    exact hlen
  · have := hbyte b hb
    rw [isPrintable, Bool.and_eq_true, decide_eq_true_eq, decide_eq_true_eq]
    exact ⟨UInt8.le_iff_toNat_le.mpr this.1, UInt8.le_iff_toNat_le.mpr this.2⟩

theorem text_inverted {k t : Text} (hk : nul ∉ k) (hascii : ∀ c ∈ t, c.toNat < 128)
    (hnul : nul ∉ t) (hmarker : MarkerFree t)
    (hclass : k = nameKey ∨ ∀ n, isProbablyAString (ljust (encodeUtf8 t) n) = true) :
    Inverted k (.str t) := by
  refine ⟨hk, fun _ h => PropVal.str.inj h ▸ hnul, _, _,
    (parsePropEntry_text hnul hmarker).mpr ⟨terminated_ascii hascii, rfl⟩, ?_⟩
  rw [decodeProp, if_pos (hclass.imp_right fun h => h _), decode_ljust hnul]
  rfl

theorem value_inverted {k : Text} {v : PropVal} (hk : nul ∉ k) (hname : k ≠ nameKey)
    (hv : CanonicalValue v) : Inverted k v := by
  have hguess {s : Bytes} (hs : isProbablyAString s = false) :
      ¬ (k = nameKey ∨ isProbablyAString s = true) := by
    rw [hs]
    exact fun h => h.elim hname Bool.false_ne_true
  cases hv with
  | null =>
    refine ⟨hk, fun _ h => PropVal.str.inj h ▸ by decide, 0, [], rfl, ?_⟩
    rw [decodeProp, if_neg (hguess rfl)]
    rfl
  | @u32 n hn hs =>
    refine ⟨hk, marked_nulFree (by decide) n, _, _, packMarked_hex hn, ?_⟩
    rw [decodeProp, if_neg (hguess hs), leBytes_length, if_neg (by decide), if_pos rfl,
      leNat_leBytes, Nat.mod_eq_of_lt hn]
  | @u64 n hn hs =>
    refine ⟨hk, marked_nulFree (by decide) n, _, _, packMarked_hex hn, ?_⟩
    rw [decodeProp, if_neg (hguess hs), leBytes_length, if_neg (by decide), if_neg (by decide),
      if_pos rfl, leNat_leBytes, Nat.mod_eq_of_lt hn]
  | @text t ht hlen hmarker =>
    have hnul : nul ∉ t := fun h => absurd (ht nul h).1 (by decide)
    refine text_inverted hk (fun c hc => ?_) hnul hmarker
      (.inr fun n => isProbablyAString_text ht hlen n)
    have := ht c hc
    omega
  | @raw b hmod h0 h4 h8 hs =>
    refine ⟨hk, bytes_nulFree b, _, _, rfl, ?_⟩
    rw [roundUp_of_mod hmod, ljust_of_le le_rfl, decodeProp, if_neg (hguess hs), if_neg h0,
      if_neg h4, if_neg h8]

theorem entry_inverted : ∀ {kv : Text × PropVal}, CanonicalEntry kv → Inverted kv.1 kv.2
  | (k, v), h => by
      by_cases hname : k = nameKey
      · cases h.name hname with
        | intro hascii hnul hmarker =>
          exact text_inverted h.key.nulFree hascii hnul hmarker (.inl hname)
      · exact value_inverted h.key.nulFree hname (h.value hname)

/-! ## From entries to trees -/

theorem entry_roundTrip {kv : Text × PropVal} (h : CanonicalEntry kv)
    (hlen : ∀ x, parsePropEntry kv.2 = .ok x → x.1 < 2 ^ 31) :
    ∃ p kv', (EncodesEntry kv p ∧ FlagClear p) ∧ DecodesEntry p kv' ∧ kv = kv' := by
  obtain ⟨hnul, hfree, len, value, hparse, hdecode⟩ := entry_inverted h
  have hshort : (encodeUtf8 kv.1).length < 32 := by
    rw [encodeUtf8_length_ascii h.key.ascii]
    exact h.key.short
  have hzero : 0 ∉ encodeUtf8 kv.1 := fun hmem => hnul (zero_mem_encodeUtf8.mp hmem)
  have hflag : len < 2 ^ 31 := hlen _ hparse
  let p : RawProp :=
    { name := ljust (encodeUtf8 kv.1) 32, len, value
      name_length := by rw [ljust_length, Nat.max_eq_right hshort.le]
      len_lt := hflag.trans (by decide)
      value_length := parsePropEntry_padded hfree hparse }
  exact ⟨p, kv, ⟨⟨h.key.short, rfl, (ljust_terminated_iff hzero).mpr hshort, hparse⟩, hflag⟩,
    ⟨decode_ljust hnul 32, hdecode⟩, rfl⟩

theorem props_roundTrip {t : ADTNode} (h : CanonicalNode t) (hfit : Representable t) :
    ∃ ps props, (EncodesProps t.label ps ∧ ∀ p ∈ ps, FlagClear p) ∧ DecodesProps ps props ∧
      t.label = props := by
  obtain ⟨ps, kvs, henc, hdec, heq⟩ := forall₂_triangle_iff.mpr fun kv hkv =>
    entry_roundTrip (h.entry kv hkv) (hfit.lengths kv hkv)
  rw [List.forall₂_eq_eq_eq] at heq
  subst heq
  refine ⟨ps, t.label, ⟨henc.imp fun _ _ h => h.1, fun p hp => ?_⟩, ⟨_, hdec, ?_⟩, rfl⟩
  · obtain ⟨kv, -, -, hflag⟩ := forall₂_mem_right henc p hp
    exact hflag
  · exact (insertAll_nil h.distinct).symm

/-- The tree is encoded, and the decoder rebuilds it from these bytes, whatever follows them, and
returns their number. -/
def Rebuilt (T : ADTNode) : Prop :=
  ∃ bytes, encodeNode T = .ok bytes ∧ ∀ s, decodeNode (bytes ++ s) = .ok (T, bytes.length)

theorem decode_undoes_encode {T : ADTNode} (hcanon : Canonical T)
    (hfit : Rose.Everywhere Representable T) : Rebuilt T := by
  have hlabels : Rose.Everywhere (fun t => ∃ ps props,
      (EncodesProps t.label ps ∧ ∀ p ∈ ps, FlagClear p) ∧ DecodesProps ps props ∧
        t.label = props) T :=
    (Rose.Everywhere.and hcanon hfit).imp fun t ht => props_roundTrip ht.1 ht.2
  obtain ⟨R, T', hR, hT', heq⟩ := (Rose.rel_triangle_iff
    (r := fun props ps => EncodesProps props ps ∧ ∀ p ∈ ps, FlagClear p)).mpr hlabels
  obtain rfl := Rose.eq_of_rel_eq heq
  have hnul : Rose.Everywhere NulFree T := hcanon.imp fun t ht kv hkv =>
    have hinv := entry_inverted (ht.entry kv hkv)
    ⟨hinv.1, hinv.2.1⟩
  have hcounts : Rose.Everywhere CountsFit T := hfit.imp fun _ ht => ht.counts
  have hreadable : Rose.Everywhere Readable R := by
    refine hR.everywhere (fun props ps cs ds hps hlen hcount => ?_) hcounts
    refine ⟨⟨?_, ?_⟩, hps.2⟩
    · exact hps.1.length_eq ▸ hcount.1
    · exact hlen ▸ hcount.2
  refine ⟨serialize R, (encodeNode_eq_ok_iff hnul _).mpr
    ⟨hcounts, R, hR.imp fun _ _ h => h.1, rfl⟩, fun s => ?_⟩
  exact (decodeNode_eq_ok_iff hreadable).mpr ⟨T, hT', rfl⟩

def cpuTree : ADTNode :=
  .node [(nameKey, .str ['c', 'p', 'u', 's']), (['r', 'e', 'g'], .str (u32Marker ++ hex 16))]
    [.node [(nameKey, .str ['c', 'p', 'u', '0']), (['o', 'n'], .str nullMarker)] []]

theorem ascii_of_all {t : Text} (h : t.all (fun c => c.toNat < 128) = true) :
    ∀ c ∈ t, c.toNat < 128 := fun c hc => of_decide_eq_true (List.all_eq_true.mp h c hc)

theorem cpuTree_rebuilt : Rebuilt cpuTree := by
  have hkey {k : Text} (hall : k.all (fun c => c.toNat < 128) = true)
      (h : nul ∉ k ∧ k.length < 32) : CanonicalKey k := ⟨ascii_of_all hall, h.1, h.2⟩
  have hmarker {t : Text} (hu32 : u32Marker.isPrefixOf t = false)
      (hu64 : u64Marker.isPrefixOf t = false) (hnull : t ≠ nullMarker) : MarkerFree t := by
    rw [MarkerFree, ← List.isPrefixOf_iff_prefix, ← List.isPrefixOf_iff_prefix, hu32, hu64]
    exact ⟨nofun, nofun, hnull⟩
  have hnameKey : CanonicalKey nameKey := hkey rfl (by decide)
  have hname {t : Text} (hall : t.all (fun c => c.toNat < 128) = true) (ht : nul ∉ t)
      (hm : MarkerFree t) : CanonicalEntry (nameKey, .str t) :=
    ⟨hnameKey, fun _ => .intro (ascii_of_all hall) ht hm, fun h => absurd rfl h⟩
  have hvalue {k : Text} {v : PropVal} (hk : CanonicalKey k) (hne : k ≠ nameKey)
      (hv : CanonicalValue v) : CanonicalEntry (k, v) := ⟨hk, fun h => absurd h hne, fun _ => hv⟩
  have hcpus : MarkerFree ['c', 'p', 'u', 's'] := hmarker rfl rfl (by decide)
  have hcpu0 : MarkerFree ['c', 'p', 'u', '0'] := hmarker rfl rfl (by decide)
  refine decode_undoes_encode (.node ⟨by decide, ?_⟩ ?_) (.node ⟨⟨by decide, by decide⟩, ?_⟩ ?_)
  · refine List.forall_mem_cons.mpr ⟨hname rfl (by decide) hcpus, List.forall_mem_singleton.mpr ?_⟩
    exact hvalue (hkey rfl (by decide)) (by decide) (.u32 (by decide) (by decide))
  · refine List.forall_mem_singleton.mpr (.node ⟨by decide, ?_⟩ (List.forall_mem_nil _))
    refine List.forall_mem_cons.mpr ⟨hname rfl (by decide) hcpu0, List.forall_mem_singleton.mpr ?_⟩
    exact hvalue (hkey rfl (by decide)) (by decide) .null
  · refine List.forall_mem_cons.mpr ⟨fun x h => ?_, List.forall_mem_singleton.mpr fun x h => ?_⟩
    · rw [((parsePropEntry_text (by decide) hcpus).mp h).2]
      decide
    · rw [parsePropEntry_u32, packMarked_hex (by decide)] at h
      obtain rfl := Except.ok.inj h
      decide
  · refine List.forall_mem_singleton.mpr (.node ⟨⟨by decide, by decide⟩, ?_⟩ (List.forall_mem_nil _))
    refine List.forall_mem_cons.mpr ⟨fun x h => ?_, List.forall_mem_singleton.mpr fun x h => ?_⟩
    · rw [((parsePropEntry_text (by decide) hcpu0).mp h).2]
      decide
    · obtain rfl := Except.ok.inj h
      decide

/-! ## Trees outside these bounds -/

/-- The declared length 2^31 is read as zero. -/
theorem flagged_entry {p : RawProp} (hlen : p.len = 2 ^ 31) {key : Text}
    (hkey : decodeNullTerminatedString p.name = .ok key) (hname : key ≠ nameKey) (s : Bytes) :
    decodeEntry (p.bytes ++ s) = .ok (key, .str nullMarker, 36) := by
  obtain ⟨hnameBytes, hlenBytes, -⟩ := bytes_slices p s
  have hunpack : unpackU32 (leBytes 4 p.len) = .ok (2 ^ 31) := by
    rw [unpackU32, if_pos (leBytes_length 4 _), leNat_leBytes, Nat.mod_eq_of_lt p.len_lt, hlen]
  have hmasked : roundUpToMultipleOf4 (clearFlag (2 ^ 31)) = 0 := by decide
  have hempty : ((p.bytes ++ s).take (36 + 0)).drop 36 = [] :=
    List.drop_eq_nil_of_le (List.length_take_le _ _)
  unfold decodeEntry
  rw [hnameBytes, hlenBytes, hunpack, hkey]
  refine bind_eq_ok_iff.mpr ⟨_, rfl, bind_eq_ok_iff.mpr ⟨_, rfl, ?_⟩⟩
  dsimp only
  rw [hmasked, hempty]
  refine bind_eq_ok_iff.mpr ⟨.str nullMarker, ?_, rfl⟩
  rw [decodeProp, if_neg (fun h => h.elim hname Bool.false_ne_true)]
  rfl

def singleValue (b : Bytes) : ADTNode := .node [(['a'], .bytes b)] []

theorem flagged_value_lost {b : Bytes} (hb : b.length = 2 ^ 31) : ¬ Rebuilt (singleValue b) := by
  rintro ⟨bytes, henc, hdec⟩
  have hkeyNul : nul ∉ ['a'] := by decide
  have hnul : Rose.Everywhere NulFree (singleValue b) :=
    .node (List.forall_mem_singleton.mpr ⟨hkeyNul, bytes_nulFree b⟩) (List.forall_mem_nil _)
  obtain ⟨-, R, hR, rfl⟩ := (encodeNode_eq_ok_iff hnul _).mp henc
  obtain ⟨ps, ds, rfl, hps, hds⟩ := Rose.rel_node_iff.mp hR
  cases hds
  cases hps with
  | @cons _ p _ _ hp hnil =>
    cases hnil
    have hlen : p.len = 2 ^ 31 := by
      rw [← hb]
      exact (Prod.mk.inj (Except.ok.inj hp.value)).1.symm
    have hkey : decodeNullTerminatedString p.name = .ok ['a'] := by
      rw [hp.name]
      exact decode_ljust hkeyNul 32
    have hprops (s : Bytes) : decodeProps 1 (propsBytes [p] ++ s) [] 8 =
        .ok ([(['a'], .str nullMarker)], (p.bytes ++ s).drop 36, 44) := by
      have hbytes : propsBytes [p] = p.bytes := List.append_nil _
      rw [hbytes, decodeProps]
      exact bind_eq_ok_iff.mpr ⟨_, flagged_entry hlen hkey (by decide) s, rfl⟩
    have hfit : CountsFit (.node [p] []) :=
      ⟨show 1 < 256 ^ 4 by decide, show 0 < 256 ^ 4 by decide⟩
    have hread := hdec []
    rw [decodeNode, decodeNodeWithin_serialize hfit, bind_eq_ok_iff] at hread
    obtain ⟨x, hx, hread⟩ := hread
    obtain rfl := Except.ok.inj ((hprops _).symm.trans hx)
    rw [bind_eq_ok_iff] at hread
    obtain ⟨y, -, hread⟩ := hread
    have htree := (Prod.mk.inj (Except.ok.inj hread)).1
    have hlabel := (Rose.node.inj htree).1
    have hvalue := (Prod.mk.inj (List.cons.inj hlabel).1).2
    cases hvalue

theorem crowded_node_lost {children : List ADTNode} (hlen : children.length = 2 ^ 32) :
    ¬ Rebuilt (.node [] children) := by
  rintro ⟨bytes, henc, -⟩
  rw [encodeNode, bind_eq_ok_iff] at henc
  obtain ⟨_, hcounts, -⟩ := henc
  have hfits := (packCounts_eq_ok_iff.mp hcounts).1.2
  rw [hlen] at hfits
  exact absurd hfits (by decide)

/-- Canonical trees with 2^31 zero bytes under one key, or with 2^32 children, are not rebuilt. -/
theorem oversized_trees_lost :
    (Canonical (singleValue (List.replicate (2 ^ 31) 0)) ∧
      ¬ Rebuilt (singleValue (List.replicate (2 ^ 31) 0))) ∧
    (Canonical (.node [] (List.replicate (2 ^ 32) (.node [] []))) ∧
      ¬ Rebuilt (.node [] (List.replicate (2 ^ 32) (.node [] [])))) := by
  have hzeros (n : ℕ) : isProbablyAString (List.replicate n 0) = false := by
    simp [isProbablyAString]
  have hraw {n : ℕ} (hn : n = 2 ^ 31) : CanonicalValue (.bytes (List.replicate n 0)) := by
    refine .raw ?_ ?_ ?_ ?_ (hzeros n) <;> rw [List.length_replicate, hn] <;> decide
  have hentry : CanonicalEntry (['a'], .bytes (List.replicate (2 ^ 31) 0)) :=
    ⟨⟨ascii_of_all rfl, by decide, by decide⟩, fun h => absurd h (by decide), fun _ => hraw rfl⟩
  have hempty (children : List ADTNode) : CanonicalNode (.node [] children) :=
    ⟨List.nodup_nil, List.forall_mem_nil _⟩
  refine ⟨⟨.node ⟨List.nodup_singleton _, List.forall_mem_singleton.mpr hentry⟩
    (List.forall_mem_nil _), flagged_value_lost List.length_replicate⟩,
    .node (hempty _) fun c hc => ?_, crowded_node_lost List.length_replicate⟩
  rw [List.eq_of_mem_replicate hc]
  exact .node (hempty _) (List.forall_mem_nil _)

end SecureWorld.DeviceTree
