import SecureWorld.DeviceTree.Values
import Mathlib.Data.List.Nodup

/-! # Re-encoding a decoded blob

The decoder guesses strings by their bytes and keeps neither the padding nor the length it found.
A well-formed blob comes back with the same properties exactly when every value taken for a string
is a terminated text with no more padding than its length asks for.
-/
namespace SecureWorld.DeviceTree
open Foundations
set_option autoImplicit false

/-! ## Well-formed blobs -/

structure RawProp.WellFormed (p : RawProp) : Prop where
  name : NulPadded p.name
  flag : FlagClear p
  padding : ∀ b ∈ p.value.drop p.len, b = 0

structure WellFormedNode (t : RawNode) : Prop where
  counts : CountsFit t
  distinct : (t.label.map RawProp.name).Nodup
  entry : ∀ p ∈ t.label, p.WellFormed

def WellFormed (R : RawNode) : Prop := Rose.Everywhere WellFormedNode R

/-! ## What is preserved, and when -/

/-- Same name, same declared length up to rounding, same padded value. -/
structure SameProp (p p' : RawProp) : Prop where
  name : p'.name = p.name
  len : roundUpToMultipleOf4 p'.len = roundUpToMultipleOf4 p.len
  value : p'.value = p.value

/-- The blob of `R` is decoded, the tree is encoded, and the new blob has the nodes of `R` with
the same properties. -/
def Preserved (R : RawNode) : Prop :=
  ∃ T size R', decodeNode (serialize R) = .ok (T, size) ∧ encodeNode T = .ok (serialize R') ∧
    Rose.Everywhere CountsFit R' ∧ Rose.Rel (List.Forall₂ SameProp) R R'

/-- The value is a text that is no marker, terminated and padded as the encoder pads. -/
def TextKept (s : Bytes) : Prop :=
  ∃ t, nul ∉ t ∧ MarkerFree t ∧ Terminated t ∧
    s = ljust (encodeUtf8 t) (roundUpToMultipleOf4 (t.length + 1))

structure Kept (p : RawProp) : Prop where
  name : (decodeUtf8 (beforeNul p.name)).isSome
  short : (beforeNul p.name).length < 32
  text : beforeNul p.name = encodeUtf8 nameKey ∨ isProbablyAString p.value = true →
    TextKept p.value

/-! ## One value -/

/-- A value taken for a string is written back exactly when it is padded as a text. -/
theorem textKept_iff {s : Bytes} : TextKept s ↔
    ∃ t len, decodeNullTerminatedString s = .ok t ∧ parsePropEntry (.str t) = .ok (len, s) := by
  constructor
  · rintro ⟨t, hnul, hmarker, hterm, rfl⟩
    exact ⟨t, _, decode_ljust hnul _, (parsePropEntry_text hnul hmarker).mpr ⟨hterm, rfl⟩⟩
  · rintro ⟨t, len, hdecode, hparse⟩
    obtain ⟨hnul, hbytes⟩ := decodedText hdecode
    -- a marker would be written as an integer or as nothing, never as the bytes it was read from
    have hmarker : MarkerFree t := by
      refine ⟨?_, ?_, ?_⟩
      · rintro ⟨digits, rfl⟩
        exact u32_text_lost hbytes hparse
      · rintro ⟨digits, rfl⟩
        exact u64_text_lost hbytes hparse
      · rintro rfl
        obtain ⟨-, rfl⟩ := Prod.mk.inj (Except.ok.inj hparse)
        exact nomatch hdecode
    obtain ⟨hterm, heq⟩ := (parsePropEntry_text hnul hmarker).mp hparse
    exact ⟨t, hnul, hmarker, hterm, (Prod.mk.inj heq).2⟩

/-- The values that are not taken for strings are all written back. -/
theorem nonText_kept {k : Text} {s : Bytes} (hs : s.length % 4 = 0)
    (hguess : ¬ (k = nameKey ∨ isProbablyAString s = true)) :
    ∃ v, decodeProp k s = .ok v ∧ parsePropEntry v = .ok (s.length, s) := by
  have hlt := leNat_lt s
  have hback := leBytes_leNat s
  unfold decodeProp
  rw [if_neg hguess]
  split_ifs with h0 h4 h8
  · rw [List.eq_nil_of_length_eq_zero h0]
    exact ⟨_, rfl, rfl⟩
  · rw [h4] at hlt hback
    exact ⟨_, rfl, by rw [parsePropEntry_u32, packMarked_hex hlt, hback, h4]⟩
  · rw [h8] at hlt hback
    exact ⟨_, rfl, by rw [parsePropEntry_u64, packMarked_hex hlt, hback, h8]⟩
  · exact ⟨_, rfl, by rw [parsePropEntry, roundUp_of_mod hs, ljust_of_le le_rfl]⟩

theorem value_kept_iff {k : Text} {s : Bytes} (hs : s.length % 4 = 0) :
    (∃ v len, decodeProp k s = .ok v ∧ parsePropEntry v = .ok (len, s)) ↔
      (k = nameKey ∨ isProbablyAString s = true → TextKept s) := by
  by_cases hguess : k = nameKey ∨ isProbablyAString s = true
  · simp only [decodeProp_text hguess]
    constructor
    · rintro ⟨_, len, ⟨t, ht, rfl⟩, hparse⟩ -
      exact textKept_iff.mpr ⟨t, len, ht, hparse⟩
    · intro h
      obtain ⟨t, len, ht, hparse⟩ := textKept_iff.mp (h hguess)
      exact ⟨_, len, ⟨t, ht, rfl⟩, hparse⟩
  · obtain ⟨v, hdecode, hparse⟩ := nonText_kept hs hguess
    exact ⟨fun _ h => absurd h hguess, fun _ => ⟨v, _, hdecode, hparse⟩⟩

/-! ## One property -/

theorem key_eq_name_iff {p : RawProp} {k : Text} (hk : encodeUtf8 k = beforeNul p.name) :
    k = nameKey ↔ beforeNul p.name = encodeUtf8 nameKey := by
  rw [← hk]
  exact ⟨congrArg _, encodeUtf8_inj⟩

theorem kept_of_roundTrip {p p' : RawProp} {kv : Text × PropVal} (hdec : DecodesEntry p kv)
    (henc : EncodesEntry kv p') (hsame : SameProp p p') : Kept p := by
  have hmod : p.value.length % 4 = 0 := by rw [p.value_length, roundUp_mod]
  obtain ⟨hnul, hbytes⟩ := decodedText hdec.key
  have hzero : 0 ∉ encodeUtf8 kv.1 := fun hmem => hnul (zero_mem_encodeUtf8.mp hmem)
  have hparse := henc.value
  rw [hsame.value] at hparse
  refine ⟨?_, ?_, fun htext => ?_⟩
  · rw [decodeUtf8_eq_some_iff.mpr hbytes]
    rfl
  · rw [← hbytes, ← ljust_terminated_iff hzero, ← henc.name]
    exact henc.terminated
  · exact (value_kept_iff hmod).mp ⟨kv.2, _, hdec.value, hparse⟩
      (htext.imp_left (key_eq_name_iff hbytes).mpr)

theorem roundTrip_of_kept {p : RawProp} (hp : p.WellFormed) (h : Kept p) :
    ∃ kv p', DecodesEntry p kv ∧ EncodesEntry kv p' ∧ SameProp p p' := by
  have hmod : p.value.length % 4 = 0 := by rw [p.value_length, roundUp_mod]
  obtain ⟨k, hk⟩ := Option.isSome_iff_exists.mp h.name
  have hbytes := decodeUtf8_eq_some_iff.mp hk
  have hname := (decode_nulPadded_iff hp.name).mpr hk
  have hzero : 0 ∉ encodeUtf8 k := hbytes ▸ zero_notMem_beforeNul p.name
  have hshort := h.short
  have hcharacters := length_le_encodeUtf8 k
  rw [← hbytes] at hshort
  have hfill : ljust (encodeUtf8 k) 32 = p.name := by
    rw [hbytes, ← p.name_length]
    exact (nulPadded_eq_ljust hp.name).symm
  have hterminated : p.name.getLast? = some 0 := by
    rw [← hfill, ljust_terminated_iff hzero]
    exact hshort
  obtain ⟨v, len, hvalue, hparse⟩ := (value_kept_iff hmod).mpr fun htext =>
    h.text (htext.imp_left (key_eq_name_iff hbytes).mp)
  have hpadded := parsePropEntry_padded (decodeProp_nulFree hvalue) hparse
  -- the new length may have the flag bit set, but it fits its field
  have hlen : len < 256 ^ 4 := by
    have hle := le_roundUp len
    have hclear : p.len < 2 ^ 31 := hp.flag
    rw [← hpadded, p.value_length, roundUpToMultipleOf4] at hle
    omega
  let p' : RawProp :=
    { name := p.name, len, value := p.value, name_length := p.name_length, len_lt := hlen
      value_length := hpadded }
  exact ⟨(k, v), p', ⟨hname, hvalue⟩,
    ⟨lt_of_le_of_lt hcharacters hshort, hfill.symm, hterminated, hparse⟩,
    ⟨rfl, by rw [← p.value_length, ← hpadded], rfl⟩⟩

theorem entry_kept_iff {p : RawProp} (hp : p.WellFormed) :
    (∃ kv p', DecodesEntry p kv ∧ EncodesEntry kv p' ∧ SameProp p p') ↔ Kept p :=
  ⟨fun ⟨_, _, hdec, henc, hsame⟩ => kept_of_roundTrip hdec henc hsame, roundTrip_of_kept hp⟩

/-! ## One node -/

/-- Under distinct names no entry replaces another. -/
theorem decodesProps_iff {ps : List RawProp} (hwf : ∀ p ∈ ps, p.WellFormed)
    (hdistinct : (ps.map RawProp.name).Nodup) {props : Props} :
    DecodesProps ps props ↔ List.Forall₂ DecodesEntry ps props := by
  have hnodup {kvs : Props} (h : List.Forall₂ DecodesEntry ps kvs) :
      (kvs.map Prod.fst).Nodup := by
    have hnames : (kvs.map Prod.fst).map (fun k => ljust (encodeUtf8 k) 32) =
        ps.map RawProp.name := by
      clear hdistinct
      induction h with
      | nil => rfl
      | @cons p kv ps kvs hp _ ih =>
        rw [List.forall_mem_cons] at hwf
        rw [List.map_cons, List.map_cons, List.map_cons, ih hwf.2, (decodedText hp.key).2,
          ← p.name_length, ← nulPadded_eq_ljust hwf.1.name]
    exact List.Nodup.of_map _ (hnames ▸ hdistinct)
  constructor
  · rintro ⟨kvs, hkvs, rfl⟩
    rw [insertAll_nil (hnodup hkvs)]
    exact hkvs
  · exact fun h => ⟨props, h, (insertAll_nil (hnodup h)).symm⟩

theorem node_kept_iff {t : RawNode} (ht : WellFormedNode t) :
    (∃ props ps', DecodesProps t.label props ∧ EncodesProps props ps' ∧
      List.Forall₂ SameProp t.label ps') ↔ ∀ p ∈ t.label, Kept p := by
  simp only [decodesProps_iff ht.entry ht.distinct]
  exact forall₂_triangle_iff.trans
    (forall₂_congr fun p hp => entry_kept_iff (ht.entry p hp))

/-! ## Whole blobs -/

theorem preserved_iff_relations {R : RawNode} (hR : WellFormed R) :
    Preserved R ↔ ∃ T R', Rose.Rel DecodesProps R T ∧ Rose.Rel EncodesProps T R' ∧
      Rose.Rel (List.Forall₂ SameProp) R R' := by
  have hreadable : Rose.Everywhere Readable R :=
    hR.imp fun t ht => ⟨ht.counts, fun p hp => (ht.entry p hp).flag⟩
  have hcounts : Rose.Everywhere CountsFit R := hR.imp fun t ht => ht.counts
  have hdecode {x : ADTNode × ℕ} : decodeNode (serialize R) = .ok x ↔
      ∃ T, Rose.Rel DecodesProps R T ∧ x = (T, (serialize R).length) := by
    have h := decodeNode_eq_ok_iff hreadable (s := []) (x := x)
    rwa [List.append_nil] at h
  have hentries {T : ADTNode} (hT : Rose.Rel DecodesProps R T) :
      Rose.Everywhere (fun t => NulFree t ∧ CountsFit t) T := by
    refine hT.everywhere (P := WellFormedNode) (fun ps props cs ds hprops hlen hwf => ?_) hR
    have hforall := (decodesProps_iff hwf.entry hwf.distinct).mp hprops
    refine ⟨fun kv hkv => ?_, hforall.length_eq ▸ hwf.counts.1, hlen ▸ hwf.counts.2⟩
    obtain ⟨p, -, hp⟩ := forall₂_mem_right hforall kv hkv
    exact ⟨(decodedText hp.key).1, decodeProp_nulFree hp.value⟩
  constructor
  · rintro ⟨T, size, R', hdec, henc, hfit, hsame⟩
    obtain ⟨T, hT, heq⟩ := hdecode.mp hdec
    obtain ⟨rfl, -⟩ := Prod.mk.inj heq
    have hnul := (hentries hT).imp fun _ h => h.1
    have hfitT := (hentries hT).imp fun _ h => h.2
    -- the encoder's own raw node is the given one, since both serialize to the same bytes
    obtain ⟨-, R'', hR'', hbytes⟩ := (encodeNode_eq_ok_iff hnul _).mp henc
    have hfit'' : Rose.Everywhere CountsFit R'' := hR''.everywhere
      (fun props ps cs ds hps hlen h => ⟨hps.length_eq ▸ h.1, hlen ▸ h.2⟩) hfitT
    obtain ⟨rfl, -⟩ := serialize_inj R' hfit R'' hfit'' [] [] (congrArg (· ++ []) hbytes)
    exact ⟨T, R', hT, hR'', hsame⟩
  · rintro ⟨T, R', hT, hR', hsame⟩
    have hnul := (hentries hT).imp fun _ h => h.1
    have hfitT := (hentries hT).imp fun _ h => h.2
    refine ⟨T, _, R', hdecode.mpr ⟨T, hT, rfl⟩,
      (encodeNode_eq_ok_iff hnul _).mpr ⟨hfitT, R', hR', rfl⟩, ?_, hsame⟩
    exact hsame.everywhere
      (fun ps qs cs ds hps hlen h => ⟨hps.length_eq ▸ h.1, hlen ▸ h.2⟩) hcounts

/-- A well-formed blob comes back with the same properties exactly when each of them is kept. -/
theorem reencoding_preserves_iff {R : RawNode} (hR : WellFormed R) :
    Preserved R ↔ Rose.Everywhere (fun t => ∀ p ∈ t.label, Kept p) R := by
  rw [preserved_iff_relations hR, Rose.rel_triangle_iff]
  exact Rose.Everywhere.congr (fun t ht => node_kept_iff ht) hR

/-! ## Two blobs -/

/-- A property `reg` of four bytes. -/
def regProp (value : Bytes) (h : value.length = 4) : RawProp where
  name := ljust [0x72, 0x65, 0x67] 32
  len := 4
  value := value
  name_length := by decide
  len_lt := by decide
  value_length := h

def regBlob (value : Bytes) (h : value.length = 4) : RawNode := .node [regProp value h] []

theorem regBlob_wellFormed {value : Bytes} (h : value.length = 4) :
    WellFormed (regBlob value h) := by
  have hpadding : value.drop 4 = [] := List.drop_eq_nil_of_le h.le
  refine .node ⟨⟨show 1 < 256 ^ 4 by decide, show 0 < 256 ^ 4 by decide⟩,
    List.nodup_singleton _, List.forall_mem_singleton.mpr ⟨?_, show 4 < 2 ^ 31 by decide, ?_⟩⟩
    (List.forall_mem_nil _)
  · exact nulPadded_ljust (by decide) 32
  · rw [show (regProp value h).value.drop (regProp value h).len = [] from hpadding]
    exact List.forall_mem_nil _

theorem reg_one_preserved : Preserved (regBlob [1, 0, 0, 0] rfl) := by
  refine (reencoding_preserves_iff (regBlob_wellFormed rfl)).mpr
    (.node (List.forall_mem_singleton.mpr ⟨by decide, by decide, ?_⟩) (List.forall_mem_nil _))
  exact fun h => absurd h (by decide)

/-- The integer 0x64636261 is taken for the string `abcd` and gains a terminator. -/
theorem printable_integer_lost :
    WellFormed (regBlob [0x61, 0x62, 0x63, 0x64] rfl) ∧
      ¬ Preserved (regBlob [0x61, 0x62, 0x63, 0x64] rfl) := by
  have hwf : WellFormed (regBlob [0x61, 0x62, 0x63, 0x64] rfl) := regBlob_wellFormed rfl
  refine ⟨hwf, fun h => ?_⟩
  have hlabels := Rose.rel_triangle_iff.mp ((preserved_iff_relations hwf).mp h)
  have hkept := (node_kept_iff (Rose.everywhere_node_iff.mp hwf).1).mp
    (Rose.everywhere_node_iff.mp hlabels).1
  obtain ⟨t, hnul, -, hterm, heq⟩ :=
    (List.forall_mem_singleton.mp hkept).text (.inr (by decide))
  have hzero : 0 ∉ encodeUtf8 t := fun hmem => hnul (zero_mem_encodeUtf8.mp hmem)
  have hlast := (ljust_terminated_iff hzero).mpr hterm
  rw [← heq] at hlast
  exact absurd hlast (by decide)

end SecureWorld.DeviceTree
