import SecureWorld.Foundations.Memory

/-! # Writes into a page and lists in memory

Byte lists written one after another at offsets from a base, and linked lists whose nodes begin with
the address of the next. Writes that do not overlap are all there afterwards; a walk along a list
visits its nodes and ends.
-/
namespace SecureWorld.Foundations.Memory
set_option autoImplicit false

/-! ## Offsets -/

/-- One write: an offset and the bytes. -/
abbrev PageWrite := ℕ × List UInt8

def writesAt (mem : Memory) (base : BitVec 64) (ws : List PageWrite) : Memory :=
  ws.foldl (fun m w => m.write (base + BitVec.ofNat 64 w.1) w.2) mem

def WritesApart (w v : PageWrite) : Prop :=
  w.1 + w.2.length ≤ v.1 ∨ v.1 + v.2.length ≤ w.1

instance : DecidableRel WritesApart := fun _ _ => inferInstanceAs (Decidable (_ ∨ _))

theorem covers_offset {base b : BitVec 64} {off n : ℕ} (h : off + n ≤ 2 ^ 64) :
    Covers (base + BitVec.ofNat 64 off) n b ↔
      off ≤ (b - base).toNat ∧ (b - base).toNat < off + n := by
  have hb := (b - base).isLt
  rw [Covers, ← BitVec.sub_sub, BitVec.toNat_sub, BitVec.toNat_ofNat]
  by_cases hoff : off < 2 ^ 64
  · rw [Nat.mod_eq_of_lt hoff]
    omega
  · omega

theorem writesAt_of_not_covers {base b : BitVec 64} : ∀ {ws : List PageWrite} (mem : Memory),
    (∀ w ∈ ws, ¬Covers (base + BitVec.ofNat 64 w.1) w.2.length b) →
      mem.writesAt base ws b = mem b
  | [], _, _ => rfl
  | w :: ws, mem, h => by
      obtain ⟨hw, hws⟩ := List.forall_mem_cons.mp h
      exact (writesAt_of_not_covers (mem.write _ w.2) hws).trans (write_of_not_covers mem hw)

/-- Writes that end in the address space and do not overlap are all there. -/
theorem holds_writesAt {base : BitVec 64} : ∀ {ws : List PageWrite} (mem : Memory),
    (∀ w ∈ ws, w.1 + w.2.length < 2 ^ 64) → ws.Pairwise WritesApart →
      ∀ w ∈ ws, (mem.writesAt base ws).Holds (base + BitVec.ofNat 64 w.1) w.2
  | [], _, _, _ => fun _ hw => absurd hw List.not_mem_nil
  | w :: ws, mem, hfit, hapart => by
      obtain ⟨hfitw, hfitws⟩ := List.forall_mem_cons.mp hfit
      obtain ⟨hapartw, hapartws⟩ := List.pairwise_cons.mp hapart
      refine List.forall_mem_cons.mpr ⟨?_, holds_writesAt (mem.write _ w.2) hfitws hapartws⟩
      have hfirst : (mem.write (base + BitVec.ofNat 64 w.1) w.2).Holds _ w.2 :=
        holds_write mem _ (by omega)
      refine hfirst.congr (fun b hb => ?_) (by omega)
      rw [covers_offset (by omega)] at hb
      have hlater : ∀ v ∈ ws, ¬Covers (base + BitVec.ofNat 64 v.1) v.2.length b := by
        intro v hv hcov
        have hfitv := hfitws v hv
        rw [covers_offset (by omega)] at hcov
        rcases hapartw v hv with hbelow | habove <;> omega
      exact writesAt_of_not_covers (mem.write (base + BitVec.ofNat 64 w.1) w.2) hlater

/-! ## Linked lists -/

/-- The nodes of the list at `a`, in order; address 0 ends it. -/
def ListAt (mem : Memory) : BitVec 64 → List (BitVec 64) → Prop
  | a, [] => a = 0
  | a, n :: ns => a = n ∧ a ≠ 0 ∧ ListAt mem (BitVec.ofNat 64 (mem.load a 8)) ns

/-- The nodes passed from `a` on, at most `fuel` of them. -/
def walkList (mem : Memory) : ℕ → BitVec 64 → List (BitVec 64)
  | 0, _ => []
  | fuel + 1, a => if a = 0 then [] else a :: walkList mem fuel (BitVec.ofNat 64 (mem.load a 8))

/-- A walk stops at the end of the list by itself. -/
theorem walkList_of_listAt {mem : Memory} : ∀ {ns : List (BitVec 64)} {a : BitVec 64} {fuel : ℕ},
    ListAt mem a ns → ns.length < fuel → walkList mem fuel a = ns
  | [], a, fuel + 1, h, _ => if_pos h
  | n :: ns, a, fuel + 1, h, hfuel => by
      obtain ⟨rfl, hne, hrest⟩ := h
      rw [List.length_cons] at hfuel
      rw [walkList, if_neg hne, walkList_of_listAt hrest (by omega)]

theorem ListAt.congr {mem mem' : Memory} : ∀ {ns : List (BitVec 64)} {a : BitVec 64},
    ListAt mem a ns → (∀ n ∈ ns, mem'.load n 8 = mem.load n 8) → ListAt mem' a ns
  | [], _, h, _ => h
  | n :: ns, a, h, hsame => by
      obtain ⟨rfl, hne, hrest⟩ := h
      obtain ⟨hfirst, hsames⟩ := List.forall_mem_cons.mp hsame
      exact ⟨rfl, hne, hfirst.symm ▸ hrest.congr hsames⟩

end SecureWorld.Foundations.Memory
