import SecureWorld.Patcher.PatchedWords

/-! # When an earlier stub misleads a later search

A search runs over code that already holds stubs. `ClearOf` says when the stub at `f` cannot change
where the search from the pair at `x` ends; under it every search on the patched image ends where
it ends on the original.
-/
namespace SecureWorld.Patcher
open Foundations
set_option autoImplicit false

/-- The stub at `f` does not disturb the walk from `x`, which ends at `entry` on the original: if
it ends at `f` itself, `f` starts with PACIBSP, the pair lies behind the stub and no
prologue-looking word follows the stub's return; if it ends nowhere, it does not meet such a
return. -/
def ClearOf (data : Bytes) (f x : ℕ) (entry : Option ℕ) : Prop :=
  (entry = some f → wordAt data f = pacibsp ∧ f + stubSize data f ≤ x ∧
      ¬ isPrologueStart (wordAt data (f + stubSize data f))) ∧
    (entry = none → f + stubSize data f - 4 ∈ walkWindow x →
      ¬ isPrologueStart (wordAt data (f + stubSize data f)))

instance (data : Bytes) (f x : ℕ) (entry : Option ℕ) : Decidable (ClearOf data f x entry) :=
  inferInstanceAs (Decidable (_ ∧ _))

variable {data out : Bytes} {exec : Segment} {funcs : List ℕ} {x g : ℕ}

theorem stub_apart {xf f : ℕ} (hf : Site data exec xf f) (hg : Site data exec x g) (hne : f ≠ g) :
    f + stubSize data f ≤ g ∨ x + 8 ≤ f := by
  have hstub := hf.stub_le
  rcases Nat.lt_or_gt_of_ne hne with hlt | hgt
  · have hsep := hf.separate hg hlt
    omega
  · exact .inr (hg.separate hf hgt)

section Patched
variable (hp : PatchedExactly data out funcs) (hf : FoundOn data exec funcs)
include hp hf

omit hp in
/-- The pair of a site is not overwritten. -/
theorem pair_clear_of_site (hg : Site data exec x g)
    (hclear : ∀ f ∈ funcs, ClearOf data f x (some g)) :
    ∀ f ∈ funcs, x + 8 ≤ f ∨ f + stubSize data f ≤ x := fun f hfm => by
  obtain ⟨xf, hfs⟩ := hf f hfm
  have hlt := hg.func_lt
  rcases eq_or_ne f g with rfl | hne
  · exact .inr ((hclear f hfm).1 rfl).2.1
  · rcases stub_apart hfs hg hne with h | h
    · exact .inr (by omega)
    · exact .inl h

omit hp in
/-- A pair from which no entry is found is not overwritten: its function would have been found. -/
theorem pair_clear_of_none (hpair : PairAt data exec x) (hnone : nearestEntry data x = none) :
    ∀ f ∈ funcs, x + 8 ≤ f ∨ f + stubSize data f ≤ x := fun f hfm => by
  obtain ⟨xf, hfs⟩ := hf f hfm
  have hfa := hfs.func_aligned.trans hfs.aligned
  have hxa := hpair.aligned
  obtain ⟨hne, hne4⟩ := hpair.prologue_ne hfs.prologue
  by_contra hover
  obtain ⟨off, hoff, hstop, -⟩ := hfs.nearest
  obtain ⟨hwin, k, hk⟩ := mem_walkWindow.mp hoff
  have hnear : off ≤ f ∧ f ≤ off + 4 ∧ off % 4 = f % 4 := by
    rcases stopAt_eq_some hstop with ⟨-, rfl⟩ | ⟨-, -, rfl⟩ <;> omega
  have hsize : stubSize data f ≤ 12 := by
    rcases stubSize_cases data f with ⟨-, hs⟩ | ⟨-, hs⟩ <;> omega
  have hpos : 0 < off := Nat.lt_of_le_of_lt (Nat.zero_le _) hwin
  have hlow : x - 4096 < off := by
    clear hwin hk
    omega
  have hstep : x = off + (x - off) / 4 * 4 := by omega
  have hvisit : off ∈ walkWindow x := mem_walkWindow.mpr ⟨hlow, _, hstep⟩
  have hclear := List.findSome?_eq_none_iff.mp hnone off hvisit
  exact absurd (hclear.symm.trans hstop) (by simp)

/-- The walk ends nowhere on the patched image either. -/
theorem nearestEntry_none (hpair : PairAt data exec x) (hnone : nearestEntry data x = none)
    (hclear : ∀ f ∈ funcs, ClearOf data f x none) : nearestEntry out x = none := by
  refine List.findSome?_eq_none_iff.mpr fun p hpw => ?_
  obtain ⟨-, k, hk⟩ := mem_walkWindow.mp hpw
  have hxa := hpair.aligned
  by_contra hne
  rcases stop_of_patched hp hf (by omega) hne with hold | ⟨f, hfm, hend, hpro⟩
  · exact hold (List.findSome?_eq_none_iff.mp hnone p hpw)
  · refine (hclear f hfm).2 rfl ?_ (hend ▸ hpro)
    rwa [← hend, Nat.add_sub_cancel]

/-- No stop of the patched image lies between the stop that leads to `g` and the pair. -/
theorem no_new_stop (hg : Site data exec x g) (hclear : ∀ f ∈ funcs, ClearOf data f x (some g))
    {off : ℕ} (hlo : g ≤ off + 4)
    (hfirst : ∀ off' ∈ walkWindow x, off < off' → stopAt data off' = none) :
    ∀ p ∈ walkWindow x, off < p → stopAt out p = none := fun p hpw hlt => by
  obtain ⟨-, k, hk⟩ := mem_walkWindow.mp hpw
  have hxa := hg.aligned
  by_contra hne
  rcases stop_of_patched hp hf (by omega) hne with hold | ⟨f, hfm, hend, hpro⟩
  · exact hold (hfirst p hpw hlt)
  · obtain ⟨xf, hfs⟩ := hf f hfm
    have hsize : 8 ≤ stubSize data f := by
      rcases stubSize_cases data f with ⟨-, hs⟩ | ⟨-, hs⟩ <;> omega
    rcases eq_or_ne f g with rfl | hfg
    · exact ((hclear f hfm).1 rfl).2.2 (hend ▸ hpro)
    · rcases stub_apart hfs hg hfg with h | h <;> omega

theorem entry_word_of_new (hg : Site data exec x g) (hnew : g ∉ funcs) :
    wordAt out g = wordAt data g := by
  refine word_outside hp hf (hg.func_aligned.trans hg.aligned) fun f hfm hin => ?_
  obtain ⟨xf, hfs⟩ := hf f hfm
  have hlt := hg.func_lt
  unfold InStub at hin
  rcases stub_apart hfs hg (fun h => hnew (h ▸ hfm)) with h | h <;> omega

/-- The entry word is the original one: either untouched, or PACIBSP over PACIBSP. -/
theorem entry_word_patched (hg : Site data exec x g)
    (hclear : ∀ f ∈ funcs, ClearOf data f x (some g)) : wordAt out g = wordAt data g := by
  by_cases hmem : g ∈ funcs
  · have hpac := ((hclear g hmem).1 rfl).1
    have hlays := (hp.stub g hmem).word 0
    rw [stubWords, if_pos hpac] at hlays
    exact (hlays (by decide)).trans hpac.symm
  · exact entry_word_of_new hp hf hg hmem

/-- The walk ends at the same entry on the patched image. -/
theorem nearestEntry_some (hg : Site data exec x g)
    (hclear : ∀ f ∈ funcs, ClearOf data f x (some g)) : nearestEntry out x = some g := by
  obtain ⟨off, hoff, hstop, hfirst⟩ := hg.nearest
  have hentry := entry_word_patched hp hf hg hclear
  have hga := hg.func_aligned.trans hg.aligned
  refine (findSome?_rangeDown (by decide) _ _).mpr ⟨off, hoff, ?_, ?_⟩
  · rcases stopAt_eq_some hstop with ⟨hpac, rfl⟩ | ⟨hret, hpro, rfl⟩
    · rw [stopAt, if_pos (hentry.trans hpac)]
    · -- the return before the entry is no stub's: a stub ends below the pair that led to it
      have hword : wordAt out off = wordAt data off := by
        refine word_outside hp hf (by omega) fun f hfm hin => ?_
        obtain ⟨xf, hfs⟩ := hf f hfm
        have hstub := hfs.stub_le
        unfold InStub at hin
        have hlt : f < off + 4 := by omega
        have hsep := hfs.separate hg hlt
        have hadd : off = xf + 4 := by
          have hfa := hfs.aligned
          omega
        have hpro' : isPrologueStart (wordAt data off) = false :=
          not_isPrologueStart_of_isReturn hret
        have hmask := hfs.add
        rw [← hadd] at hmask
        simp only [isReturn, List.mem_cons, List.not_mem_nil, or_false, decide_eq_true_eq] at hret
        rcases hret with hret | hret <;> exact absurd (hret ▸ hmask) (by decide)
      have hnpac : wordAt data off ≠ pacibsp := fun h => by
        rw [h] at hret
        exact absurd hret (by decide)
      rw [stopAt, hword, hentry, if_neg hnpac, if_pos ⟨hret, hpro⟩]
  · refine no_new_stop hp hf hg hclear ?_ hfirst
    rcases stopAt_eq_some hstop with ⟨-, rfl⟩ | ⟨-, -, rfl⟩ <;> omega

/-- Stubbing one more function that was found on the original image. -/
theorem stub_found (hg : Site data exec x g) (hentry : wordAt out g = wordAt data g) :
    ∃ out', stubFunction out g = .ok (out', true) ∧ PatchedExactly data out' (funcs ++ [g]) := by
  have hsize : stubSize out g = stubSize data g := by rw [stubSize, stubSize, hentry]
  have hfits : g + stubSize out g ≤ out.length := by
    have hstub := hg.stub_le
    have hx := hg.fits
    have hlen := hp.length_eq
    omega
  obtain ⟨out', hrun, hlen, hlays, hframe⟩ :=
    stubFunction_spec (by rw [hentry]; exact hg.prologue) hfits
  have hin : ∀ i, InStub out g i ↔ InStub data g i := fun i => by rw [InStub, InStub, hsize]
  refine ⟨out', hrun, hlen.trans hp.length_eq, fun f hfm => ?_, fun i hi => ?_⟩
  · by_cases hfg : f = g
    · rw [hfg, ← hentry]
      exact hlays
    · have hfm' : f ∈ funcs := by
        rcases List.mem_append.mp hfm with h | h
        · exact h
        · exact absurd (List.mem_singleton.mp h) hfg
      obtain ⟨xf, hfs⟩ := hf f hfm'
      have hstub := hp.stub f hfm'
      have happart := stub_apart hfs hg hfg
      have hg8 := hg.stub_le
      refine ⟨hlen ▸ hstub.fits, fun k hk => ?_⟩
      rw [← hstub.word k hk]
      refine wordAt_congr fun j hj => hframe _ fun hin' => ?_
      rw [hin, InStub] at hin'
      have hsz : stubSize data f = 4 * (stubWords (wordAt data f)).length := rfl
      omega
  · rw [hframe i (fun h => hi g (List.mem_append_right _ List.mem_cons_self) ((hin i).mp h))]
    exact hp.frame i fun f hfm => hi f (List.mem_append_left _ hfm)

theorem stub_next (hg : Site data exec x g) (hclear : ∀ f ∈ funcs, ClearOf data f x (some g)) :
    ∃ out', stubFunction out g = .ok (out', true) ∧ PatchedExactly data out' (funcs ++ [g]) :=
  stub_found hp hf hg (entry_word_patched hp hf hg hclear)

end Patched
end SecureWorld.Patcher
