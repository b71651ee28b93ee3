import SecureWorld.DeviceTree.Frames
import SecureWorld.DeviceTree.RoundTrip

/-! # Truncated device trees

Which prefixes of an encoded tree the decoder rejects, and when the size it returns lies beyond the
data.
-/
namespace SecureWorld.DeviceTree
open Foundations
set_option autoImplicit false

/-! ## Data that ends too early -/

/-- The decoder finds a meaning for every property of the frame. -/
def Legible (R : Frame) : Prop :=
  Rose.Everywhere CountsFit R ∧ ∃ T, Rose.Rel ReadEntriesAs R T

/-- The data starts with a frame that is there in full. -/
def StartsWhole (dt : Bytes) : Prop := ∃ R, Legible R ∧ Whole R ∧ frameBytes R <+: dt

/-- The data is a frame that ends inside the value read last. -/
def EndsInValue (dt : Bytes) : Prop := ∃ R, Legible R ∧ CutLast R ∧ frameBytes R = dt

theorem decodeNode_returns_iff {dt : Bytes} :
    (∃ x, decodeNode dt = .ok x) ↔ StartsWhole dt ∨ EndsInValue dt := by
  constructor
  · rintro ⟨x, h⟩
    obtain ⟨R, rest, ⟨hfit, hsplit⟩, hT, -⟩ := decodeNode_reads_iff.mp h
    obtain ⟨hwhole, rfl⟩ | ⟨hcut, rfl, -⟩ := hsplit
    · exact .inl ⟨R, ⟨hfit, _, hT⟩, hwhole, List.prefix_append _ _⟩
    · exact .inr ⟨R, ⟨hfit, _, hT⟩, hcut, rfl⟩
  · rintro (⟨R, ⟨hfit, T, hT⟩, hwhole, rest, rfl⟩ | ⟨R, ⟨hfit, T, hT⟩, hcut, rfl⟩)
    · exact ⟨(T, frameSize R), decodeNode_reads_iff.mpr
        ⟨R, rest, ⟨hfit, .inl ⟨hwhole, rfl⟩⟩, hT, rfl⟩⟩
    · exact ⟨(T, frameSize R), decodeNode_reads_iff.mpr
        ⟨R, [], ⟨hfit, .inr ⟨hcut, rfl, rfl⟩⟩, hT, rfl⟩⟩

theorem decodeNode_raises_iff {dt : Bytes} :
    (∃ e, decodeNode dt = .error e) ↔ ¬ StartsWhole dt ∧ ¬ EndsInValue dt := by
  rw [← not_or, ← decodeNode_returns_iff]
  cases decodeNode dt with
  | error e => exact ⟨fun _ => nofun, fun _ => ⟨e, rfl⟩⟩
  | ok x => exact ⟨nofun, fun h => absurd ⟨x, rfl⟩ h⟩

theorem decodeNode_size_le_iff {dt : Bytes} :
    (∀ T size, decodeNode dt = .ok (T, size) → size ≤ dt.length) ↔ ¬ EndsInValue dt := by
  constructor
  · rintro h ⟨R, ⟨hfit, T, hT⟩, hcut, rfl⟩
    have hsize := h T (frameSize R) (decodeNode_reads_iff.mpr
      ⟨R, [], ⟨hfit, .inr ⟨hcut, rfl, rfl⟩⟩, hT, rfl⟩)
    exact absurd hsize (not_le.mpr ((frame_length R).2 hcut))
  · intro h T size hdec
    obtain ⟨R, rest, ⟨hfit, hsplit⟩, hT, hsize⟩ := decodeNode_reads_iff.mp hdec
    obtain ⟨hwhole, rfl⟩ | ⟨hcut, rfl, -⟩ := hsplit
    · rw [show size = frameSize R from hsize, ← (frame_length R).1 hwhole, List.length_append]
      exact Nat.le_add_right _ _
    · exact absurd ⟨R, ⟨hfit, _, hT⟩, hcut, rfl⟩ h

/-- On texts without NUL and lengths below the flag bit, no proper prefix of an encoded tree starts
with a whole tree. -/
theorem encoded_prefix_not_whole {T : ADTNode} (hnul : Rose.Everywhere NulFree T)
    (hfit : Rose.Everywhere Representable T) {bytes : Bytes} (henc : encodeNode T = .ok bytes)
    {n : ℕ} (hn : n < bytes.length) : ¬ StartsWhole (bytes.take n) := by
  rintro ⟨R, ⟨hcounts, T', hT'⟩, hwhole, hprefix⟩
  obtain ⟨-, R₀, hR₀, rfl⟩ := (encodeNode_eq_ok_iff hnul bytes).mp henc
  have hreadable : Rose.Everywhere Readable R₀ := by
    refine hR₀.everywhere (fun props ps cs ds hps hlen hrep => ⟨⟨?_, ?_⟩, ?_⟩) hfit
    · exact hps.length_eq ▸ hrep.counts.1
    · exact hlen ▸ hrep.counts.2
    · intro p hp
      obtain ⟨kv, hkv, henc⟩ := forall₂_mem_right hps p hp
      exact hrep.lengths kv hkv _ henc.value
  obtain ⟨rest, hrest⟩ := hprefix.trans (List.take_prefix n _)
  -- the decoder would stop after the shorter tree and after the whole encoding
  have hshort : decodeNode (serialize R₀) = .ok (T', frameSize R) :=
    decodeNode_reads_iff.mpr ⟨R, rest, ⟨hcounts, .inl ⟨hwhole, hrest.symm⟩⟩, hT', rfl⟩
  rw [← List.append_nil (serialize R₀), decodeNode_eq_ok_iff hreadable] at hshort
  obtain ⟨T'', -, heq⟩ := hshort
  have hsize : frameSize R = (serialize R₀).length := (Prod.mk.inj heq).2
  have hle := hprefix.length_le
  rw [List.length_take, (frame_length R).1 hwhole] at hle
  omega

/-- When missing data is noticed: the decoder raises exactly if the data neither starts with a tree
nor ends inside the value read last, and the size it returns is within the data exactly if the data
does not end there. A proper prefix of an encoded tree starts with no tree, unless it is of a tree
the format cannot represent. -/
theorem truncation_noticed_iff (dt : Bytes) :
    ((∃ e, decodeNode dt = .error e) ↔ ¬ StartsWhole dt ∧ ¬ EndsInValue dt) ∧
    ((∀ T size, decodeNode dt = .ok (T, size) → size ≤ dt.length) ↔ ¬ EndsInValue dt) ∧
    ∀ T bytes n, Rose.Everywhere NulFree T → Rose.Everywhere Representable T →
      encodeNode T = .ok bytes → n < bytes.length → dt = bytes.take n → ¬ StartsWhole dt := by
  refine ⟨decodeNode_raises_iff, decodeNode_size_le_iff, ?_⟩
  rintro T bytes n hnul hfit henc hn rfl
  exact encoded_prefix_not_whole hnul hfit henc hn

/-- The last byte of the only value is missing: the decoder returns, with a size beyond the data. -/
theorem cut_value_accepted :
    ∃ bytes, encodeNode (singleValue [1, 2, 3, 4]) = .ok bytes ∧ bytes.length = 48 ∧
      decodeNode (bytes.take 47) = .ok (singleValue [1, 2, 3], 48) :=
  ⟨_, rfl, rfl, rfl⟩

end SecureWorld.DeviceTree
