import SecureWorld.Patcher.Interference

/-! # Where a needle leads among stubs

`leads` says, from the untouched image alone, where a needle leads once the functions `funcs` are
stubbed: the end of a stub is a return, a stubbed entry without PACIBSP is no entry any more, and a
pair under a stub is gone. The searches on the patched image end there.
-/
namespace SecureWorld.Patcher
open Foundations
set_option autoImplicit false

/-- Byte `k` of the stub over the entry word `entry`. -/
def stubByte (entry : BitVec 32) (k : ℕ) : UInt8 :=
  ((stubWords entry).flatMap fun w => leBytes 4 w.toNat).getD k 0

instance (data : Bytes) (f i : ℕ) : Decidable (InStub data f i) :=
  inferInstanceAs (Decidable (_ ∧ _))

/-- The bytes of the image under the stubs of `funcs`. -/
def withStubs (data : Bytes) (funcs : List ℕ) : Bytes :=
  data.zipIdx.map fun (b, i) =>
    match funcs.find? fun f => InStub data f i with
    | some f => stubByte (wordAt data f) (i - f)
    | none => b

/-- A stub of `funcs` lies over the pair at `x`. -/
def Covered (data : Bytes) (funcs : List ℕ) (x : ℕ) : Prop :=
  ∃ f ∈ funcs, x < f + stubSize data f ∧ f < x + 8

instance (data : Bytes) (funcs : List ℕ) (x : ℕ) : Decidable (Covered data funcs x) :=
  inferInstanceAs (Decidable (∃ f ∈ funcs, _))

/-- The first matching pair that no stub lies over. -/
def pairLeft (data : Bytes) (exec : Segment) (funcs : List ℕ) (strVa : ℕ) : Option ℕ :=
  (rangeUp (codeLength data exec.fileoff exec.filesize - 8) 4).findSome? fun i =>
    if MatchAt data exec.vmaddr exec.fileoff strVa i ∧ ¬ Covered data funcs (exec.fileoff + i) then
      some (exec.fileoff + i)
    else none

/-- A return of the image, or the end of a stub. -/
def ReturnsAt (data : Bytes) (funcs : List ℕ) (off : ℕ) : Prop :=
  isReturn (wordAt data off) ∨ ∃ f ∈ funcs, off + 4 = f + stubSize data f

instance (data : Bytes) (funcs : List ℕ) (off : ℕ) : Decidable (ReturnsAt data funcs off) :=
  inferInstanceAs (Decidable (_ ∨ ∃ f ∈ funcs, _))

/-- A prologue-looking word that is no move of a stub. -/
def EntryLeft (data : Bytes) (funcs : List ℕ) (off : ℕ) : Prop :=
  isPrologueStart (wordAt data off) ∧ (off ∈ funcs → wordAt data off = pacibsp)

instance (data : Bytes) (funcs : List ℕ) (off : ℕ) : Decidable (EntryLeft data funcs off) :=
  inferInstanceAs (Decidable (_ ∧ _))

def stopLeft (data : Bytes) (funcs : List ℕ) (off : ℕ) : Option ℕ :=
  if wordAt data off = pacibsp then some off
  else if ReturnsAt data funcs off ∧ EntryLeft data funcs (off + 4) then some (off + 4)
  else none

def entryLeft (data : Bytes) (funcs : List ℕ) (xref : ℕ) : Option ℕ :=
  (walkWindow xref).findSome? (stopLeft data funcs)

/-- Where `needle` leads when `funcs` are stubbed. -/
def leads (data : Bytes) (text exec : Segment) (funcs : List ℕ) (needle : Bytes) : Option ℕ :=
  ((findStringInSection (withStubs data funcs) text.fileoff text.filesize needle).bind
    fun strFoff => pairLeft data exec funcs (text.vmaddr + (strFoff - text.fileoff))).bind
      (entryLeft data funcs)

/-! ## The bytes of the patched image -/

theorem Lays.bytes {out : Bytes} : ∀ {ws : List (BitVec 32)} {f : ℕ}, Lays out f ws →
    (out.drop f).take (4 * ws.length) = ws.flatMap fun w => leBytes 4 w.toNat
  | [], _, _ => rfl
  | w :: ws, f, h => by
      have hfits := h.fits
      rw [List.length_cons] at hfits
      have hword : wordAt out f = w := h.word 0 (by rw [List.length_cons]; omega)
      have htail : Lays out (f + 4) ws := ⟨by omega, fun k hk => by
        have hk' := h.word (k + 1) (by rw [List.length_cons]; omega)
        rwa [List.getElem_cons_succ, Nat.mul_succ, Nat.add_comm (4 * k), ← Nat.add_assoc] at hk'⟩
      rw [List.length_cons, Nat.mul_succ, Nat.add_comm, List.take_add, List.drop_drop, htail.bytes,
        List.flatMap_cons, ← leBytes_wordAt (by omega), hword]

theorem stubByte_eq {out : Bytes} {f k : ℕ} {entry : BitVec 32} (h : Lays out f (stubWords entry))
    (hk : k < 4 * (stubWords entry).length) : out[f + k]? = some (stubByte entry k) := by
  have hfits := h.fits
  have hlen : k < ((stubWords entry).flatMap fun w => leBytes 4 w.toNat).length := by
    rw [← h.bytes, List.length_take, List.length_drop]
    omega
  rw [stubByte, List.getD_eq_getElem?_getD, List.getElem?_eq_getElem hlen, Option.getD_some,
    ← List.getElem?_eq_getElem hlen, ← h.bytes, List.getElem?_take, if_pos hk, List.getElem?_drop]

theorem PatchedExactly.eq_withStubs {data out : Bytes} {funcs : List ℕ}
    (hp : PatchedExactly data out funcs) : out = withStubs data funcs := by
  refine List.ext_getElem? fun i => ?_
  rw [withStubs, List.getElem?_map, List.getElem?_zipIdx]
  cases hfind : funcs.find? fun f => InStub data f i with
  | none =>
    rw [hp.frame i fun f hf hin => by simpa [hin] using List.find?_eq_none.mp hfind f hf]
    cases data[i]? with
    | none => rfl
    | some b => simp [hfind]
  | some f =>
    obtain ⟨hle, hlt⟩ : InStub data f i := by simpa using List.find?_some hfind
    have hlays := hp.stub f (List.mem_of_find?_eq_some hfind)
    have hsz : stubSize data f = 4 * (stubWords (wordAt data f)).length := rfl
    have hbyte := stubByte_eq hlays (k := i - f) (by omega)
    rw [Nat.add_sub_cancel' hle] at hbyte
    have hfits := hlays.fits
    have hlen := hp.length_eq
    rw [hbyte, List.getElem?_eq_getElem (show i < data.length by omega)]
    simp [hfind]

/-! ## Stops among stubs -/

section Sites
variable {data : Bytes} {exec : Segment} {funcs : List ℕ} {x f p : ℕ}

/-- No PACIBSP lies inside a stub: the walk would have stopped there. -/
theorem Site.pacibsp_inside (h : Site data exec x f) (hpa : p % 4 = exec.fileoff % 4)
    (hin : InStub data f p) (hpac : wordAt data p = pacibsp) : p = f := by
  have hfa := h.func_aligned
  have hxa := h.aligned
  have hlt := h.func_lt
  have hstub := h.stub_le
  by_contra hne
  obtain ⟨hle, hin⟩ := hin
  rcases Nat.lt_or_ge x p with hbehind | hbefore
  · have hp : p = x + 4 := by omega
    have hpro : isPrologueStart (wordAt data p) := hpac ▸ isPrologueStart_pacibsp
    exact (h.prologue_ne hpro).2 hp
  · have hnone := h.no_stop (p := p) (by omega) hbefore (by omega)
    rw [stopAt, if_pos hpac] at hnone
    exact absurd hnone (by simp)

/-- Nor does an entry behind a return, be it a return of the image or of a stub. -/
theorem Site.entry_inside (hf : FoundOn data exec funcs) (h : Site data exec x f)
    (hpa : p % 4 = exec.fileoff % 4) (hret : ReturnsAt data funcs p)
    (hpro : isPrologueStart (wordAt data (p + 4))) (hin : InStub data f (p + 4)) : p + 4 = f := by
  have hfa := h.func_aligned
  have hxa := h.aligned
  have hlt := h.func_lt
  obtain ⟨hle, hin⟩ := hin
  by_contra hne
  rcases hret with hret | ⟨f', hfm', hend⟩
  · rcases eq_or_ne p f with rfl | hpf
    · have hentry := h.prologue
      rw [not_isPrologueStart_of_isReturn hret] at hentry
      exact Bool.false_ne_true hentry
    · have hsize : stubSize data f ≤ 12 := by
        rcases stubSize_cases data f with ⟨-, hs⟩ | ⟨-, hs⟩ <;> omega
      have hnone := h.no_stop (p := p) (by omega) (by omega) (by omega)
      rw [stopAt] at hnone
      split_ifs at hnone with hpac hstop
      exact hstop ⟨hret, hpro⟩
  · obtain ⟨xf, hfs⟩ := hf f' hfm'
    rcases eq_or_ne f' f with rfl | hne'
    · omega
    · have hstub := h.stub_le
      rcases stub_apart hfs h hne' with hap | hap <;> omega

end Sites

section Patched
variable {data out : Bytes} {exec : Segment} {funcs : List ℕ}
  (hp : PatchedExactly data out funcs) (hf : FoundOn data exec funcs)
include hp

theorem stub_entry_pac {f : ℕ} (hfm : f ∈ funcs) (hpac : wordAt data f = pacibsp) :
    wordAt out f = pacibsp := by
  have hlays := (hp.stub f hfm).word
  rw [stubWords, if_pos hpac] at hlays
  exact hlays 0 (by decide)

theorem stub_entry_plain {f : ℕ} (hfm : f ∈ funcs) (hpac : wordAt data f ≠ pacibsp) :
    wordAt out f = movX0Zero := by
  have hlays := (hp.stub f hfm).word
  rw [stubWords, if_neg hpac] at hlays
  exact hlays 0 (by decide)

/-- A stub ends in a return. -/
theorem stub_return {f : ℕ} (hfm : f ∈ funcs) :
    isReturn (wordAt out (f + stubSize data f - 4)) := by
  have hlays := (hp.stub f hfm).word
  rcases stubSize_cases data f with ⟨hpac, hs⟩ | ⟨hpac, hs⟩
  · rw [stubWords, if_pos hpac] at hlays
    have hword : wordAt out (f + 4 * 2) = retab := hlays 2 (by decide)
    rw [hs, show f + 12 - 4 = f + 4 * 2 by omega, hword]
    decide
  · rw [stubWords, if_neg hpac] at hlays
    have hword : wordAt out (f + 4 * 1) = ret := hlays 1 (by decide)
    rw [hs, show f + 8 - 4 = f + 4 * 1 by omega, hword]
    decide

include hf

theorem pacibsp_patched_iff {p : ℕ} (hpa : p % 4 = exec.fileoff % 4) :
    wordAt out p = pacibsp ↔ wordAt data p = pacibsp := by
  constructor
  · intro h
    rcases word_cases hp hf hpa with heq | hmov | ⟨f, -, -, hret⟩
    · exact heq.symm.trans h
    · exact absurd (hmov.symm.trans h) (by decide)
    · exact absurd (h ▸ hret) (by decide)
  · intro h
    by_cases hin : ∃ f ∈ funcs, InStub data f p
    · obtain ⟨f, hfm, hin⟩ := hin
      obtain ⟨x, hs⟩ := hf f hfm
      obtain rfl := hs.pacibsp_inside hpa hin h
      exact stub_entry_pac hp hfm h
    · exact (word_outside hp hf hpa fun f hfm hin' => hin ⟨f, hfm, hin'⟩).trans h

theorem entry_patched_iff {p : ℕ} (hpa : p % 4 = exec.fileoff % 4) :
    isReturn (wordAt out p) ∧ isPrologueStart (wordAt out (p + 4)) ↔
      ReturnsAt data funcs p ∧ EntryLeft data funcs (p + 4) := by
  have hpa4 : (p + 4) % 4 = exec.fileoff % 4 := by omega
  constructor
  · rintro ⟨hret, hpro⟩
    refine ⟨?_, prologue_of_patched hp hf hpa4 hpro, fun hfm => ?_⟩
    · rcases word_cases hp hf hpa with heq | hmov | ⟨f, hfm, hend, -⟩
      · exact .inl (heq ▸ hret)
      · rw [hmov] at hret
        exact absurd hret (by decide)
      · exact .inr ⟨f, hfm, hend⟩
    · by_contra hpac
      rw [stub_entry_plain hp hfm hpac] at hpro
      exact absurd hpro (by decide)
  · rintro ⟨hret, hpro, hentry⟩
    constructor
    · by_cases hin : ∃ f ∈ funcs, InStub data f p
      · -- the only word of a stub that can be met here is its last
        obtain ⟨f, hfm, hin⟩ := hin
        obtain ⟨x, hs⟩ := hf f hfm
        have hfa := hf.aligned hfm
        by_cases hlast : InStub data f (p + 4)
        · have hpf := hs.entry_inside hf hpa hret hpro hlast
          have hle := hin.1
          omega
        · have hend : p = f + stubSize data f - 4 := by
            unfold InStub at hin hlast
            rcases stubSize_cases data f with ⟨-, hsz⟩ | ⟨-, hsz⟩ <;> omega
          rw [hend]
          exact stub_return hp hfm
      · rw [word_outside hp hf hpa fun f hfm hin' => hin ⟨f, hfm, hin'⟩]
        refine hret.resolve_right ?_
        rintro ⟨f, hfm, hend⟩
        refine hin ⟨f, hfm, ?_⟩
        unfold InStub
        rcases stubSize_cases data f with ⟨-, hsz⟩ | ⟨-, hsz⟩ <;> omega
    · by_cases hin : ∃ f ∈ funcs, InStub data f (p + 4)
      · obtain ⟨f, hfm, hin⟩ := hin
        obtain ⟨x, hs⟩ := hf f hfm
        obtain rfl := hs.entry_inside hf hpa hret hpro hin
        rw [stub_entry_pac hp hfm (hentry hfm)]
        exact isPrologueStart_pacibsp
      · rwa [word_outside hp hf hpa4 fun f hfm hin' => hin ⟨f, hfm, hin'⟩]

theorem stopAt_patched {p : ℕ} (hpa : p % 4 = exec.fileoff % 4) :
    stopAt out p = stopLeft data funcs p := by
  rw [stopAt, stopLeft]
  exact if_congr (pacibsp_patched_iff hp hf hpa) rfl (if_congr (entry_patched_iff hp hf hpa) rfl rfl)

theorem nearestEntry_patched {x : ℕ} (hxa : x % 4 = exec.fileoff % 4) :
    nearestEntry out x = entryLeft data funcs x := by
  rw [nearestEntry, entryLeft, ← List.head?_filterMap, ← List.head?_filterMap]
  refine congrArg List.head? (List.filterMap_congr fun off hoff => ?_)
  obtain ⟨-, k, hk⟩ := mem_walkWindow.mp hoff
  exact stopAt_patched hp hf (by omega)

/-! ## Pairs among stubs -/

theorem word_of_stub {f p : ℕ} (hpa : p % 4 = exec.fileoff % 4) (hfm : f ∈ funcs)
    (hin : InStub data f p) : wordAt out p ∈ allStubWords := by
  have hfa := hf.aligned hfm
  obtain ⟨hle, hlt⟩ := hin
  have hsz : stubSize data f = 4 * (stubWords (wordAt data f)).length := rfl
  have hword := (hp.stub f hfm).word ((p - f) / 4) (by omega)
  rw [show f + 4 * ((p - f) / 4) = p by omega] at hword
  rw [hword]
  exact mem_allStubWords (List.getElem_mem _)

theorem matchAt_patched_iff {strVa i : ℕ} (hi : i % 4 = 0) :
    MatchAt out exec.vmaddr exec.fileoff strVa i ↔
      MatchAt data exec.vmaddr exec.fileoff strVa i ∧
        ¬ Covered data funcs (exec.fileoff + i) := by
  have hpa : (exec.fileoff + i) % 4 = exec.fileoff % 4 := by omega
  have hpa4 : (exec.fileoff + i + 4) % 4 = exec.fileoff % 4 := by omega
  constructor
  · refine fun h => ⟨matchAt_of_patched hp hf hi h, ?_⟩
    rintro ⟨f, hfm, hlo, hhi⟩
    have hfa := hf.aligned hfm
    have hadrp := h.adrp
    have hadd := h.add
    rcases Nat.lt_or_ge (exec.fileoff + i) f with hlt | hge
    · have hword := word_of_stub hp hf hpa4 hfm (by
        unfold InStub
        rcases stubSize_cases data f with ⟨-, hs⟩ | ⟨-, hs⟩ <;> omega)
      simp only [allStubWords, List.mem_cons, List.not_mem_nil, or_false] at hword
      rcases hword with hw | hw | hw | hw <;> exact absurd (hw ▸ hadd) (by decide)
    · have hword := word_of_stub hp hf hpa hfm ⟨hge, hlo⟩
      simp only [allStubWords, List.mem_cons, List.not_mem_nil, or_false] at hword
      rcases hword with hw | hw | hw | hw <;> exact absurd (hw ▸ hadrp) (by decide)
  · rintro ⟨h, hclear⟩
    have ha := word_outside hp hf hpa fun f hfm hin => hclear ⟨f, hfm, by
      unfold InStub at hin
      omega⟩
    have hb := word_outside hp hf hpa4 fun f hfm hin => hclear ⟨f, hfm, by
      unfold InStub at hin
      omega⟩
    rwa [MatchAt, ha, hb]

theorem firstMatch_patched (strVa : ℕ) :
    firstMatch out exec strVa = pairLeft data exec funcs strVa := by
  rw [firstMatch, pairLeft, codeLength_patched hp, ← List.head?_filterMap, ← List.head?_filterMap]
  refine congrArg List.head? (List.filterMap_congr fun i hi => ?_)
  obtain ⟨-, k, hk⟩ := (mem_rangeUp (by decide)).mp hi
  exact if_congr (matchAt_patched_iff hp hf (by omega)) rfl rfl

/-- The search on the patched image ends where the untouched image says. -/
theorem anchorFunc_patched (text : Segment) (needle : Bytes) :
    anchorFunc out text exec needle = leads data text exec funcs needle := by
  rw [anchorFunc, anchorXref, leads, ← hp.eq_withStubs]
  cases findStringInSection out text.fileoff text.filesize needle with
  | none => simp only [Option.bind_none]
  | some strFoff =>
    rw [Option.bind_some, Option.bind_some, ← firstMatch_patched hp hf]
    cases hx : firstMatch out exec (text.vmaddr + (strFoff - text.fileoff)) with
    | none => simp only [Option.bind_none]
    | some x =>
      rw [Option.bind_some, Option.bind_some]
      exact nearestEntry_patched hp hf (pairAt_of_firstMatch hx).aligned

end Patched
end SecureWorld.Patcher
