import SecureWorld.Kernelcache.ChainScript

/-! # Which pointers of the kernelcache lead to an address (`chained.py`)

The script reads the starts of the fixup chains and walks every chain to its end. What it prints is
taken as a proof that nothing else points to the address, so it must see every slot: it does, or it
raises because a chain leaves the file.
-/
namespace SecureWorld.Kernelcache
open Foundations Patcher
set_option autoImplicit false

/-! ## Chains -/

/-- Bytes from the slot at `off` to the next one on its chain. -/
def strideAt (D : Bytes) (off : ℕ) : ℕ := 4 * nextOf (rawAt D off)

/-- A pass that stays in the file says where the next slot is. -/
theorem chainSlots_succ {D : Bytes} {cur : ℕ} (h : cur + 8 ≤ D.length) (n : ℕ) :
    chainSlots D (n + 1) cur =
      if strideAt D cur = 0 then .ok [cur]
      else (chainSlots D n (cur + strideAt D cur)).map (cur :: ·) := by
  have hzero : nextOf (field D cur 8) = 0 ↔ strideAt D cur = 0 := by
    rw [strideAt, rawAt]
    omega
  rw [chainSlots, readField_ok h]
  simp only [bind, Except.bind, pure, Except.pure]
  by_cases hnxt : nextOf (field D cur 8) = 0
  · rw [if_pos hnxt, if_pos (hzero.mp hnxt)]
  · rw [if_neg hnxt, if_neg fun hstride => hnxt (hzero.mpr hstride), strideAt, rawAt,
      Nat.mul_comm]
    cases chainSlots D n (cur + nextOf (field D cur 8) * 4) <;> rfl

theorem chainSlots_outside {D : Bytes} {cur : ℕ} (h : D.length < cur + 8) (n : ℕ) :
    chainSlots D n cur = .error .struct := by
  cases n with
  | zero => rfl
  | succ n =>
    rw [chainSlots, readField, if_neg (Nat.not_le.mpr h)]
    rfl

/-- With a pass for each byte behind `cur` the walk returns the chain, if it stays in the file. -/
theorem chainSlots_ok_iff {D : Bytes} (n cur : ℕ) (offs : List ℕ) (hn : D.length - cur < n) :
    chainSlots D n cur = .ok offs ↔
      Chain (strideAt D) cur offs ∧ ∀ o ∈ offs, o + 8 ≤ D.length := by
  induction n generalizing cur offs with
  | zero => exact absurd hn (Nat.not_lt_zero _)
  | succ n ih =>
    by_cases hfits : cur + 8 ≤ D.length
    · rw [chainSlots_succ hfits]
      by_cases hstride : strideAt D cur = 0
      · rw [if_pos hstride]
        constructor
        · intro h
          obtain rfl := Except.ok.inj h
          exact ⟨.last hstride, List.forall_mem_singleton.mpr hfits⟩
        · rintro ⟨hchain, -⟩
          cases hchain with
          | last _ => rfl
          | link hne _ => exact absurd hstride hne
      · rw [if_neg hstride, map_eq_ok_iff]
        constructor
        · rintro ⟨rest, hrest, rfl⟩
          obtain ⟨hchain, hall⟩ := (ih _ rest (by omega)).mp hrest
          exact ⟨.link hstride hchain, List.forall_mem_cons.mpr ⟨hfits, hall⟩⟩
        · rintro ⟨hchain, hall⟩
          cases hchain with
          | last hzero => exact absurd hzero hstride
          | @link _ rest _ hchain =>
            exact ⟨rest, (ih _ rest (by omega)).mpr
              ⟨hchain, fun o ho => hall o (List.mem_cons_of_mem cur ho)⟩, rfl⟩
    · rw [chainSlots_outside (Nat.not_le.mp hfits)]
      refine iff_of_false (fun h => by cases h) fun ⟨hchain, hall⟩ => hfits (hall cur ?_)
      exact (hchain.mem_iff cur).mpr .start

theorem chainSlots_cases (D : Bytes) (n cur : ℕ) :
    (∃ offs, chainSlots D n cur = .ok offs) ∨ chainSlots D n cur = .error .struct := by
  induction n generalizing cur with
  | zero => exact .inr rfl
  | succ n ih =>
    by_cases hfits : cur + 8 ≤ D.length
    · rw [chainSlots_succ hfits]
      split_ifs
      · exact .inl ⟨[cur], rfl⟩
      · rcases ih (cur + strideAt D cur) with ⟨rest, hrest⟩ | herr
        · exact .inl ⟨cur :: rest, by rw [hrest]; rfl⟩
        · exact .inr (by rw [herr]; rfl)
    · exact .inr (chainSlots_outside (Nat.not_le.mp hfits) _)

/-- The chain ends or leaves the file. -/
theorem chainSlots_of_inside {D : Bytes} {start : ℕ}
    (h : ∀ o, OnChain (strideAt D) start o → o + 8 ≤ D.length) :
    ∃ offs, chainSlots D (D.length + 1) start = .ok offs ∧ Chain (strideAt D) start offs := by
  have hwide : ∀ o, strideAt D o ≠ 0 → 4 ≤ strideAt D o := fun o ho => by
    rw [strideAt] at ho ⊢
    omega
  obtain ⟨offs, hchain⟩ := Chain.exists_of_bounded hwide (by decide) D.length
    (D.length - start) start le_rfl fun o ho => by have hle := h o ho; omega
  exact ⟨offs, (chainSlots_ok_iff _ start offs (by omega)).mpr
    ⟨hchain, fun o ho => h o ((hchain.mem_iff o).mp ho)⟩, hchain⟩

theorem onDyldChain_iff_onChain {D : Bytes} {start off : ℕ} :
    OnDyldChain (Link D) 4 start off ↔ OnChain (strideAt D) start off :=
  onDyldChain_iff (fun o => nextOf (rawAt D o)) (by decide) fun _ _ => link_iff

/-! ## The report -/

/-- A slot of one of the chains. -/
def IsSlot (D : Bytes) (t : FixupTables) (fo : ℕ) : Prop :=
  ∃ start ∈ t.starts, OnDyldChain (Link D) 4 start fo

/-- The pointer in the slot at `fo` leads to `target`. -/
def LeadsTo (D : Bytes) (t : FixupTables) (target : ℤ) (fo : ℕ) : Prop :=
  ∃ o, PointsTo D fo o ∧ (t.imgBase + o : ℤ) = target

theorem leadsTo_iff {D : Bytes} {t : FixupTables} {target : ℤ} {fo : ℕ} :
    LeadsTo D t target fo ↔ (targetOf t (rawAt D fo) : ℤ) = target := by
  constructor
  · rintro ⟨o, hpoints, rfl⟩
    obtain rfl := (pointsTo_rawAt D fo).unique hpoints
    rw [targetOf, Int.natCast_add]
  · intro h
    refine ⟨_, pointsTo_rawAt D fo, ?_⟩
    rw [← h, targetOf, Int.natCast_add]

instance (D : Bytes) (t : FixupTables) (target : ℤ) : DecidablePred (LeadsTo D t target) :=
  fun _ => decidable_of_iff _ leadsTo_iff.symm

/-- The lines are those of the slots that lead to `target`, chain by chain. -/
structure Reported (D : Bytes) (t : FixupTables) (target : ℤ) (total : ℕ)
    (lines : List FixupLine) : Prop where
  chains : ∃ chains, List.Forall₂ (DyldChain (Link D) 4) t.starts chains ∧
    total = chains.flatten.length ∧
    lines.map (·.fo) = chains.flatten.filter fun fo => LeadsTo D t target fo
  complete : ∀ fo, (∃ l ∈ lines, l.fo = fo) ↔ IsSlot D t fo ∧ LeadsTo D t target fo
  line : ∀ l ∈ lines, fixupLine D t.segs l.fo = .ok l
  fields : ∀ l ∈ lines, HoldsField D l.fo 8 l.raw ∧ IsSigned D l.fo l.isauth
  back : SegmentsApart t.segs → ∀ l ∈ lines, v2f t.segs l.v = some l.fo

theorem isSlot_iff {D : Bytes} {t : FixupTables} {fo : ℕ} :
    IsSlot D t fo ↔ ∃ start ∈ t.starts, OnChain (strideAt D) start fo :=
  exists_congr fun _ => and_congr_right fun _ => onDyldChain_iff_onChain

theorem mapM_error {ε α β : Type} {f : α → Except ε β} {e : ε}
    (hf : ∀ a, (∃ b, f a = .ok b) ∨ f a = .error e) :
    ∀ {l : List α} {a : α}, a ∈ l → f a = .error e → l.mapM f = .error e
  | [], _, ha, _ => absurd ha List.not_mem_nil
  | b :: l, a, ha, herr => by
      rw [List.mapM_cons]
      rcases hf b with ⟨c, hc⟩ | hb
      · rcases List.mem_cons.mp ha with rfl | hmem
        · rw [herr] at hc
          cases hc
        · rw [hc, mapM_error hf hmem herr]
          rfl
      · rw [hb]
        rfl

theorem exists_mapM_ok {ε α β : Type} {f : α → Except ε β} :
    ∀ {l : List α}, (∀ a ∈ l, ∃ b, f a = .ok b) → ∃ bs, l.mapM f = .ok bs
  | [], _ => ⟨[], rfl⟩
  | a :: l, h => by
      obtain ⟨⟨b, hb⟩, hl⟩ := List.forall_mem_cons.mp h
      obtain ⟨bs, hbs⟩ := exists_mapM_ok hl
      exact ⟨b :: bs, by rw [List.mapM_cons, hb, hbs]; rfl⟩

theorem fixupLine_ok {D : Bytes} {segs : List KcSegment} {cur : ℕ} {l : FixupLine}
    (h : fixupLine D segs cur = .ok l) : f2v segs cur = some l.v ∧ l.fo = cur ∧
      l.raw = rawAt D cur ∧ l.isauth = (rawAt D cur >>> 63) &&& 1 := by
  unfold fixupLine at h
  cases hv : f2v segs cur with
  | none =>
    rw [hv] at h
    cases h
  | some v =>
    rw [hv] at h
    obtain rfl := Except.ok.inj h
    exact ⟨rfl, rfl, rfl, rfl⟩

theorem mem_flatten_chains {stride : ℕ → ℕ} {starts : List ℕ} {chains : List (List ℕ)}
    (h : List.Forall₂ (Chain stride) starts chains) (fo : ℕ) :
    fo ∈ chains.flatten ↔ ∃ start ∈ starts, OnChain stride start fo := by
  induction h with
  | nil => simp
  | cons hchain _ ih =>
    rw [List.flatten_cons, List.mem_append, ih, hchain.mem_iff, List.exists_mem_cons_iff]

section Lines
variable {D : Bytes} {t : FixupTables} {target : ℤ} {chains : List (List ℕ)}
  (hchains : List.Forall₂ (Chain (strideAt D)) t.starts chains)
include hchains

theorem mem_leading (fo : ℕ) : fo ∈ chains.flatten.filter (fun fo => LeadsTo D t target fo) ↔
    IsSlot D t fo ∧ LeadsTo D t target fo := by
  rw [List.mem_filter, mem_flatten_chains hchains, decide_eq_true_eq, isSlot_iff]

theorem reported_of_lines (hinside : ∀ fo, IsSlot D t fo → fo + 8 ≤ D.length)
    {lines : List FixupLine} (hrun : (chains.flatten.filter fun fo =>
      LeadsTo D t target fo).mapM (fixupLine D t.segs) = .ok lines) :
    Reported D t target chains.flatten.length lines := by
  have hpairs := forall₂_of_mapM_ok hrun
  have hoffs : lines.map (·.fo) = chains.flatten.filter fun fo => LeadsTo D t target fo := by
    refine (List.forall₂_eq_eq_eq ▸ List.forall₂_map_left_iff.mpr ?_ :)
    exact hpairs.flip.imp fun l fo hl => (fixupLine_ok hl).2.1
  have hline : ∀ l ∈ lines, fixupLine D t.segs l.fo = .ok l := fun l hl => by
    obtain ⟨fo, -, hfo⟩ := forall₂_mem_right hpairs l hl
    rwa [(fixupLine_ok hfo).2.1]
  refine ⟨⟨chains, ?_, rfl, hoffs⟩, fun fo => ?_, hline, fun l hl => ?_, fun hapart l hl => ?_⟩
  · exact hchains.imp fun _ _ => dyldChain_of_chain (by decide) (link_nextOf D)
  · rw [← mem_leading hchains, ← hoffs, List.mem_map]
  · obtain ⟨-, -, hraw, hauth⟩ := fixupLine_ok (hline l hl)
    obtain ⟨hslot, -⟩ := (mem_leading hchains l.fo).mp (hoffs ▸ List.mem_map_of_mem hl)
    rw [hraw, hauth]
    exact ⟨(readField_eq_ok_iff (by decide)).mp (readField_ok (hinside l.fo hslot)),
      isSigned_rawAt D l.fo⟩
  · exact (v2f_eq_some_iff hapart l.v l.fo).mpr (fixupLine_ok (hline l hl)).1

end Lines

theorem fixupLine_cases (D : Bytes) (segs : List KcSegment) (fo : ℕ) :
    (∃ l, fixupLine D segs fo = .ok l) ∨ fixupLine D segs fo = .error .none := by
  unfold fixupLine
  cases f2v segs fo with
  | none => exact .inr rfl
  | some v => exact .inl ⟨_, rfl⟩

section Report
variable {D : Bytes} {t : FixupTables} (ht : readTables D = .ok t) (target : ℤ)
include ht

theorem chainedReport_eq : chainedReport D target =
    (t.starts.mapM fun start => chainSlots D (D.length + 1) start) >>= fun chains =>
      (chains.flatten.filter fun fo => LeadsTo D t target fo).mapM (fixupLine D t.segs) >>=
        fun lines => pure (chains.flatten.length, lines) := by
  have hfilter (offs : List ℕ) : (offs.filter fun fo => LeadsTo D t target fo) =
      offs.filter fun cur => (targetOf t (rawAt D cur) : ℤ) = target :=
    List.filter_congr fun fo _ => decide_eq_decide.mpr leadsTo_iff
  simp only [chainedReport, ht, hfilter]
  rfl

theorem chainedReport_outside {fo : ℕ} (hslot : IsSlot D t fo) (hout : D.length < fo + 8) :
    chainedReport D target = .error .struct := by
  obtain ⟨start, hstart, hon⟩ := isSlot_iff.mp hslot
  have hfail : chainSlots D (D.length + 1) start = .error .struct := by
    rcases chainSlots_cases D (D.length + 1) start with ⟨offs, hoffs⟩ | herr
    · obtain ⟨hchain, hall⟩ := (chainSlots_ok_iff _ start offs (by omega)).mp hoffs
      exact absurd (hall fo ((hchain.mem_iff fo).mpr hon)) (Nat.not_le.mpr hout)
    · exact herr
  rw [chainedReport_eq ht, mapM_error (chainSlots_cases D (D.length + 1)) hstart hfail]
  rfl

theorem chainedReport_inside (h : ∀ fo, IsSlot D t fo → fo + 8 ≤ D.length) :
    ∃ chains, List.Forall₂ (Chain (strideAt D)) t.starts chains ∧
      chainedReport D target =
        (chains.flatten.filter fun fo => LeadsTo D t target fo).mapM (fixupLine D t.segs) >>=
          fun lines => pure (chains.flatten.length, lines) := by
  have hwalks : ∀ start ∈ t.starts,
      ∃ offs, chainSlots D (D.length + 1) start = .ok offs := fun start hstart => by
    obtain ⟨offs, hoffs, -⟩ := chainSlots_of_inside fun o ho =>
      h o (isSlot_iff.mpr ⟨start, hstart, ho⟩)
    exact ⟨offs, hoffs⟩
  obtain ⟨chains, hchains⟩ := exists_mapM_ok hwalks
  refine ⟨chains, (forall₂_of_mapM_ok hchains).imp fun start offs hoffs => ?_, ?_⟩
  · exact ((chainSlots_ok_iff _ start offs (by omega)).mp hoffs).1
  · rw [chainedReport_eq ht, hchains]
    rfl

/-- The script ends on every file whose tables it can read, and reads them as they lie there. It
raises if a chain leaves the file, or if a pointer to the target lies in no segment; else it prints
the pointers to the target and nothing else. -/
theorem chainedReport_complete : TablesRead D t ∧
    ((∃ fo, IsSlot D t fo ∧ D.length < fo + 8) ∧ chainedReport D target = .error .struct ∨
      (∀ fo, IsSlot D t fo → fo + 8 ≤ D.length) ∧
        ((∃ fo, IsSlot D t fo ∧ LeadsTo D t target fo ∧ f2v t.segs fo = none) ∧
            chainedReport D target = .error .none ∨
          ∃ total lines, chainedReport D target = .ok (total, lines) ∧
            Reported D t target total lines)) := by
  refine ⟨readTables_reads ht, ?_⟩
  by_cases hout : ∃ fo, IsSlot D t fo ∧ D.length < fo + 8
  · obtain ⟨fo, hslot, hlt⟩ := hout
    exact .inl ⟨⟨fo, hslot, hlt⟩, chainedReport_outside ht target hslot hlt⟩
  have hinside : ∀ fo, IsSlot D t fo → fo + 8 ≤ D.length := fun fo hslot =>
    Nat.not_lt.mp fun hlt => hout ⟨fo, hslot, hlt⟩
  refine .inr ⟨hinside, ?_⟩
  obtain ⟨chains, hchains, hreport⟩ := chainedReport_inside ht target hinside
  by_cases hnone : ∃ fo, IsSlot D t fo ∧ LeadsTo D t target fo ∧ f2v t.segs fo = none
  · obtain ⟨fo, hslot, hleads, hv⟩ := hnone
    have herr : fixupLine D t.segs fo = .error .none := by rw [fixupLine, hv]
    refine .inl ⟨⟨fo, hslot, hleads, hv⟩, ?_⟩
    rw [hreport, mapM_error (fixupLine_cases D t.segs)
      ((mem_leading hchains fo).mpr ⟨hslot, hleads⟩) herr]
    rfl
  · have hall : ∀ fo ∈ chains.flatten.filter (fun fo => LeadsTo D t target fo),
        ∃ l, fixupLine D t.segs fo = .ok l := fun fo hfo => by
      obtain ⟨hslot, hleads⟩ := (mem_leading hchains fo).mp hfo
      cases hv : f2v t.segs fo with
      | none => exact absurd ⟨fo, hslot, hleads, hv⟩ hnone
      | some v => exact ⟨_, by rw [fixupLine, hv]⟩
    obtain ⟨lines, hrun⟩ := exists_mapM_ok hall
    exact .inr ⟨chains.flatten.length, lines, by rw [hreport, hrun]; rfl,
      reported_of_lines hchains hinside hrun⟩

end Report

/-- One segment of 208 bytes whose only chain starts at 184, goes on at 200 and ends there. -/
def fixupsImage : Bytes :=
  List.replicate 16 0 ++ leBytes 4 2 ++ List.replicate 12 0 ++
    (leBytes 4 0x19 ++ leBytes 4 72 ++ encodeUtf8 "__DATA".toList ++ List.replicate 10 0 ++
      leBytes 8 0x1000 ++ leBytes 8 0x1000 ++ leBytes 8 0 ++ leBytes 8 208 ++
      List.replicate 16 0) ++
    (leBytes 4 0x80000034 ++ leBytes 4 16 ++ leBytes 4 120 ++ leBytes 4 60) ++
    List.replicate 0x1c 0 ++ (leBytes 4 1 ++ leBytes 4 8) ++
    (leBytes 4 24 ++ leBytes 2 0x1000 ++ leBytes 2 8 ++ leBytes 8 184 ++ leBytes 4 0 ++
      leBytes 2 1 ++ leBytes 2 0) ++ List.replicate 4 0 ++ leBytes 8 (0x10 + 4 * 2 ^ 51) ++
    List.replicate 8 0 ++ leBytes 8 (0x10 + 2 ^ 63)

def fixupsTables : FixupTables := ⟨[⟨"__DATA".toList, 0x1000, 0x1000, 0, 208⟩], 0x1000, [184]⟩

theorem chainedReport_complete_two :
    (chainedReport fixupsImage 0x1010).map (fun r => (r.1, r.2.map (·.v))) =
        .ok (2, [0x10b8, 0x10c8]) ∧ TablesRead fixupsImage fixupsTables ∧
      ((∃ fo, IsSlot fixupsImage fixupsTables fo ∧ fixupsImage.length < fo + 8) ∧
          chainedReport fixupsImage 0x1010 = .error .struct ∨
        (∀ fo, IsSlot fixupsImage fixupsTables fo → fo + 8 ≤ fixupsImage.length) ∧
          ((∃ fo, IsSlot fixupsImage fixupsTables fo ∧ LeadsTo fixupsImage fixupsTables 0x1010 fo ∧
              f2v fixupsTables.segs fo = none) ∧
              chainedReport fixupsImage 0x1010 = .error .none ∨
            ∃ total lines, chainedReport fixupsImage 0x1010 = .ok (total, lines) ∧
              Reported fixupsImage fixupsTables 0x1010 total lines)) :=
  ⟨by decide +kernel, chainedReport_complete (t := fixupsTables) (by decide +kernel) 0x1010⟩

end SecureWorld.Kernelcache
