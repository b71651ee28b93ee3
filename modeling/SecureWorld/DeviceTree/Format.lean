import SecureWorld.DeviceTree.AdtNode

/-! # The blob format

A `RawNode` is a blob read field by field, with no value interpreted. `serialize` lays it out; two
blobs with the same bytes are the same node, also when other bytes follow.
-/
namespace SecureWorld.DeviceTree
open Foundations
set_option autoImplicit false

@[ext] structure RawProp where
  name : Bytes
  /-- the declared length -/
  len : ℕ
  value : Bytes
  name_length : name.length = 32
  len_lt : len < 256 ^ 4
  value_length : value.length = roundUpToMultipleOf4 len

abbrev RawNode := Rose (List RawProp)

def RawProp.bytes (p : RawProp) : Bytes := p.name ++ leBytes 4 p.len ++ p.value

def propsBytes (ps : List RawProp) : Bytes := ps.flatMap RawProp.bytes

mutual

def serialize : RawNode → Bytes
  | .node ps cs =>
      leBytes 4 ps.length ++ leBytes 4 cs.length ++ propsBytes ps ++ serializeAll cs

def serializeAll : List RawNode → Bytes
  | [] => []
  | c :: cs => serialize c ++ serializeAll cs

end

/-- The counts of a node fit their fields. -/
def CountsFit {α : Type} (t : Rose (List α)) : Prop :=
  t.label.length < 256 ^ 4 ∧ t.children.length < 256 ^ 4

/-! ## Lengths -/

theorem roundUp_mod (i : ℕ) : roundUpToMultipleOf4 i % 4 = 0 := Nat.mul_mod_right 4 _

theorem le_roundUp (i : ℕ) : i ≤ roundUpToMultipleOf4 i := by
  rw [roundUpToMultipleOf4]
  omega

theorem roundUp_of_mod {i : ℕ} (h : i % 4 = 0) : roundUpToMultipleOf4 i = i := by
  rw [roundUpToMultipleOf4]
  omega

theorem RawProp.bytes_length (p : RawProp) : p.bytes.length = 36 + p.value.length := by
  rw [RawProp.bytes, List.length_append, List.length_append, p.name_length, leBytes_length]

theorem RawProp.bytes_length_mod (p : RawProp) : p.bytes.length % 4 = 0 := by
  have hvalue := roundUp_mod p.len
  rw [p.bytes_length, p.value_length]
  omega

theorem RawProp.append_bytes_mod {outv : Bytes} (hout : outv.length % 4 = 0) (p : RawProp) :
    (outv ++ p.bytes).length % 4 = 0 := by
  have hp := p.bytes_length_mod
  rw [List.length_append]
  omega

/-! ## The bytes determine the node -/

theorem leBytes_append_inj {k a b : ℕ} (ha : a < 256 ^ k) (hb : b < 256 ^ k) {s t : Bytes}
    (h : leBytes k a ++ s = leBytes k b ++ t) : a = b ∧ s = t := by
  obtain ⟨hhead, htail⟩ :=
    List.append_inj h (by rw [leBytes_length, leBytes_length])
  exact ⟨leBytes_inj ha hb hhead, htail⟩

theorem RawProp.bytes_inj {p q : RawProp} {s t : Bytes} (h : p.bytes ++ s = q.bytes ++ t) :
    p = q ∧ s = t := by
  simp only [RawProp.bytes, List.append_assoc] at h
  obtain ⟨hname, h⟩ := List.append_inj h (by rw [p.name_length, q.name_length])
  obtain ⟨hlen, h⟩ := leBytes_append_inj p.len_lt q.len_lt h
  obtain ⟨hvalue, h⟩ := List.append_inj h (by rw [p.value_length, q.value_length, hlen])
  exact ⟨RawProp.ext hname hlen hvalue, h⟩

theorem propsBytes_inj : ∀ {ps qs : List RawProp} {s t : Bytes}, ps.length = qs.length →
    propsBytes ps ++ s = propsBytes qs ++ t → ps = qs ∧ s = t
  | [], [], _, _, _, h => ⟨rfl, h⟩
  | p :: ps, q :: qs, s, t, hlen, h => by
      simp only [propsBytes, List.flatMap_cons, List.append_assoc] at h
      obtain ⟨rfl, hrest⟩ := RawProp.bytes_inj h
      obtain ⟨rfl, htail⟩ := propsBytes_inj (Nat.succ.inj hlen) hrest
      exact ⟨rfl, htail⟩

/-- Nodes that start a common byte string are equal. -/
def Determined (c : RawNode) : Prop :=
  Rose.Everywhere CountsFit c → ∀ d, Rose.Everywhere CountsFit d → ∀ s t,
    serialize c ++ s = serialize d ++ t → c = d ∧ s = t

theorem serializeAll_inj : ∀ {cs ds : List RawNode} {s t : Bytes}, (∀ c ∈ cs, Determined c) →
    (∀ c ∈ cs, Rose.Everywhere CountsFit c) → (∀ d ∈ ds, Rose.Everywhere CountsFit d) →
    cs.length = ds.length → serializeAll cs ++ s = serializeAll ds ++ t → cs = ds ∧ s = t
  | [], [], _, _, _, _, _, _, h => ⟨rfl, h⟩
  | c :: cs, d :: ds, s, t, hdet, hcs, hds, hlen, h => by
      rw [List.forall_mem_cons] at hdet hcs hds
      rw [serializeAll, serializeAll, List.append_assoc, List.append_assoc] at h
      obtain ⟨rfl, hrest⟩ := hdet.1 hcs.1 d hds.1 _ _ h
      obtain ⟨rfl, htail⟩ := serializeAll_inj hdet.2 hcs.2 hds.2 (Nat.succ.inj hlen) hrest
      exact ⟨rfl, htail⟩

theorem serialize_inj (R : RawNode) : Determined R := by
  induction R using Rose.induct with
  | h ps cs ih =>
    rintro hR ⟨qs, ds⟩ hd s t h
    obtain ⟨⟨hps, hcs⟩, hcs'⟩ := Rose.everywhere_node_iff.mp hR
    obtain ⟨⟨hqs, hds⟩, hds'⟩ := Rose.everywhere_node_iff.mp hd
    simp only [serialize, List.append_assoc] at h
    obtain ⟨hplen, hcounts⟩ := leBytes_append_inj hps hqs h
    obtain ⟨hclen, hbody⟩ := leBytes_append_inj hcs hds hcounts
    obtain ⟨rfl, hchildren⟩ := propsBytes_inj hplen hbody
    obtain ⟨rfl, hrest⟩ := serializeAll_inj ih hcs' hds' hclen hchildren
    exact ⟨rfl, hrest⟩

end SecureWorld.DeviceTree
