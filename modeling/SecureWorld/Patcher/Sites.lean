import SecureWorld.Patcher.Stubs

/-! # Needle, cross reference, function

Where a needle leads on an image: the first matching pair in the code and the entry found from it.
Two functions found this way on one image never overlap: the later one starts behind the pair that
led to the earlier one.
-/
namespace SecureWorld.Patcher
open Foundations Armv8
set_option autoImplicit false

def firstMatch (data : Bytes) (exec : Segment) (strVa : ℕ) : Option ℕ :=
  (rangeUp (codeLength data exec.fileoff exec.filesize - 8) 4).findSome? fun i =>
    if MatchAt data exec.vmaddr exec.fileoff strVa i then some (exec.fileoff + i) else none

def nearestEntry (data : Bytes) (xref : ℕ) : Option ℕ :=
  (walkWindow xref).findSome? (stopAt data)

def anchorXref (data : Bytes) (text exec : Segment) (needle : Bytes) : Option ℕ :=
  (findStringInSection data text.fileoff text.filesize needle).bind fun strFoff =>
    firstMatch data exec (text.vmaddr + (strFoff - text.fileoff))

def anchorFunc (data : Bytes) (text exec : Segment) (needle : Bytes) : Option ℕ :=
  (anchorXref data text exec needle).bind (nearestEntry data)

/-! ## Words that cannot be confused -/

/-- Bits 24 to 30 of a prologue word: PACIBSP, STP or SUB. -/
theorem prologue_opcode {w : BitVec 32} (h : isPrologueStart w) :
    w &&& 0x7F000000 ∈ ([0x55000000, 0x29000000, 0x28000000, 0x51000000] : List (BitVec 32)) := by
  rw [isPrologueStart] at h
  simp only [List.mem_cons, List.not_mem_nil, or_false]
  split_ifs at h with hpac hstp
  · exact .inl (by rw [hpac]; decide)
  · simp only [List.mem_cons, List.not_mem_nil, or_false] at hstp
    rcases hstp.1 with hw | hw | hw
    · exact .inr (.inl (and_mask_mono hw (by decide)))
    · exact .inr (.inl (and_mask_mono hw (by decide)))
    · exact .inr (.inr (.inl (and_mask_mono hw (by decide))))
  · exact .inr (.inr (.inr (and_mask_mono (of_decide_eq_true h) (by decide))))

theorem not_prologue_of_adrp {w : BitVec 32} (h : w &&& 0x9F000000 = 0x90000000) :
    isPrologueStart w = false := by
  by_contra hpro
  have hop : w &&& 0x1F000000 = 0x10000000 := and_mask_mono h (by decide)
  have hclass := prologue_opcode (Bool.not_eq_false _ ▸ hpro)
  simp only [List.mem_cons, List.not_mem_nil, or_false] at hclass
  rcases hclass with hw | hw | hw | hw <;>
    exact absurd (hop.symm.trans (and_mask_mono hw (by decide))) (by decide)

theorem not_prologue_of_add {w : BitVec 32} (h : w &&& 0xFFC00000 = 0x91000000) :
    isPrologueStart w = false := by
  by_contra hpro
  have hop : w &&& 0x7F000000 = 0x11000000 := and_mask_mono h (by decide)
  have hclass := prologue_opcode (Bool.not_eq_false _ ▸ hpro)
  simp only [List.mem_cons, List.not_mem_nil, or_false] at hclass
  rcases hclass with hw | hw | hw | hw <;> exact absurd (hop.symm.trans hw) (by decide)

/-! ## Pairs and functions on an image -/

/-- The pair at `x` in the code of `exec`. -/
structure PairAt (data : Bytes) (exec : Segment) (x : ℕ) : Prop where
  adrp : wordAt data x &&& 0x9F000000 = 0x90000000
  add : wordAt data (x + 4) &&& 0xFFC00000 = 0x91000000
  fits : x + 8 ≤ data.length
  aligned : x % 4 = exec.fileoff % 4

theorem pairAt_of_firstMatch {data : Bytes} {exec : Segment} {strVa x : ℕ}
    (h : firstMatch data exec strVa = some x) : PairAt data exec x := by
  obtain ⟨i, hi, hsome⟩ := List.exists_of_findSome?_eq_some h
  obtain ⟨hlt, k, rfl⟩ := (mem_rangeUp (by decide)).mp hi
  have hlen := codeLength_le data exec.fileoff exec.filesize
  split_ifs at hsome with hm
  obtain rfl := Option.some.inj hsome
  exact ⟨hm.adrp, hm.add, by omega, by omega⟩

theorem pairAt_of_anchorXref {data : Bytes} {text exec : Segment} {needle : Bytes} {x : ℕ}
    (h : anchorXref data text exec needle = some x) : PairAt data exec x := by
  obtain ⟨strFoff, -, hmatch⟩ := Option.bind_eq_some_iff.mp h
  exact pairAt_of_firstMatch hmatch

/-- The walk from the pair at `x` ends at the entry `f`. -/
structure Site (data : Bytes) (exec : Segment) (x f : ℕ) : Prop extends PairAt data exec x where
  entry : nearestEntry data x = some f

section Site
variable {data : Bytes} {exec : Segment} {x f : ℕ}

theorem Site.nearest (h : Site data exec x f) : ∃ off ∈ walkWindow x, stopAt data off = some f ∧
    ∀ off' ∈ walkWindow x, off < off' → stopAt data off' = none :=
  (findSome?_rangeDown (by decide) _ _).mp h.entry

theorem Site.prologue (h : Site data exec x f) : isPrologueStart (wordAt data f) := by
  obtain ⟨off, -, hstop, -⟩ := h.nearest
  rcases stopAt_eq_some hstop with ⟨hpac, rfl⟩ | ⟨-, hpro, rfl⟩
  · rw [hpac]
    exact isPrologueStart_pacibsp
  · exact hpro

theorem Site.func_aligned (h : Site data exec x f) : f % 4 = x % 4 := by
  obtain ⟨off, hoff, hstop, -⟩ := h.nearest
  obtain ⟨-, k, hk⟩ := mem_walkWindow.mp hoff
  rcases stopAt_eq_some hstop with ⟨-, rfl⟩ | ⟨-, -, rfl⟩ <;> omega

theorem PairAt.prologue_ne {p : ℕ} (h : PairAt data exec x) (hp : isPrologueStart (wordAt data p)) :
    p ≠ x ∧ p ≠ x + 4 := by
  constructor
  · rintro rfl
    rw [not_prologue_of_adrp h.adrp] at hp
    exact Bool.false_ne_true hp
  · rintro rfl
    rw [not_prologue_of_add h.add] at hp
    exact Bool.false_ne_true hp

/-- The entry lies at least a word below the pair. -/
theorem Site.func_lt (h : Site data exec x f) : f + 4 ≤ x := by
  obtain ⟨off, hoff, hstop, -⟩ := h.nearest
  obtain ⟨-, k, hk⟩ := mem_walkWindow.mp hoff
  obtain ⟨hx, hx4⟩ := h.prologue_ne h.prologue
  rcases stopAt_eq_some hstop with ⟨-, rfl⟩ | ⟨-, -, rfl⟩ <;> omega

theorem Site.stub_le (h : Site data exec x f) : f + stubSize data f ≤ x + 8 := by
  have hlt := h.func_lt
  rcases stubSize_cases data f with ⟨-, hs⟩ | ⟨-, hs⟩ <;> omega

/-- Between the entry and the pair there is no stop. -/
theorem Site.no_stop (h : Site data exec x f) {p : ℕ} (hlo : f < p) (hhi : p ≤ x)
    (hp : p % 4 = x % 4) : stopAt data p = none := by
  obtain ⟨off, hoff, hstop, hfirst⟩ := h.nearest
  obtain ⟨hwin, k, hk⟩ := mem_walkWindow.mp hoff
  have hle : off ≤ f := by rcases stopAt_eq_some hstop with ⟨-, rfl⟩ | ⟨-, -, rfl⟩ <;> omega
  exact hfirst p (mem_walkWindow.mpr ⟨by omega, (x - p) / 4, by omega⟩) (by omega)

end Site

/-- Functions found on one image do not overlap. -/
theorem Site.separate {data : Bytes} {exec : Segment} {x₁ f₁ x₂ f₂ : ℕ} (h₁ : Site data exec x₁ f₁)
    (h₂ : Site data exec x₂ f₂) (hlt : f₁ < f₂) : x₁ + 8 ≤ f₂ := by
  have ha₁ := h₁.func_aligned
  have ha₂ := h₂.func_aligned
  have hx₁ := h₁.aligned
  have hx₂ := h₂.aligned
  by_contra hclose
  obtain ⟨hne, hne4⟩ := h₁.prologue_ne h₂.prologue
  -- the stop that leads to `f₂` would be a stop between `f₁` and its pair
  obtain ⟨off, -, hstop, -⟩ := h₂.nearest
  rcases stopAt_eq_some hstop with ⟨-, rfl⟩ | ⟨hret, -, rfl⟩
  · have hnone := h₁.no_stop hlt (by omega) (by omega)
    exact absurd (hnone.symm.trans hstop) (by simp)
  · rcases Nat.lt_or_ge f₁ off with hoff | hoff
    · have hnone := h₁.no_stop hoff (by omega) (by omega)
      exact absurd (hnone.symm.trans hstop) (by simp)
    · obtain rfl : off = f₁ := by omega
      have hpro := h₁.prologue
      rw [not_isPrologueStart_of_isReturn hret] at hpro
      exact Bool.false_ne_true hpro

end SecureWorld.Patcher
