import SecureWorld.DeviceTree.FixupFrames

/-! # The ids of the DARTs

`fixup` numbers the nodes whose `compatible` holds `dart,` in preorder. The ids are still there, in
order and pairwise different, when `fixup` returns.
-/
namespace SecureWorld.DeviceTree
open Foundations
set_option autoImplicit false

section Darts
variable {ι : Type} (py : Foreign)

/-- The compatible value contains `dart,`. -/
def IsDart (n : DtObject ι) : Prop :=
  match n.props.get? compatibleKey with
  | none => False
  | some compat =>
      match compatBytes compat with
      | some b => dartMark <:+: b
      | none => py.truth compat = true ∧ py.contains compat dartMark = .ok true

instance (n : DtObject ι) : Decidable (IsDart py n) :=
  match h : n.props.get? compatibleKey with
  | none => isFalse (by simp [IsDart, h])
  | some compat =>
      match h' : compatBytes compat with
      | some b => decidable_of_iff (dartMark <:+: b) (by simp [IsDart, h, h'])
      | none =>
          decidable_of_iff (py.truth compat = true ∧ py.contains compat dartMark = .ok true)
            (by simp [IsDart, h, h'])

def dartCount (ns : List (DtObject ι)) : ℕ := ns.countP fun n => decide (IsDart py n)

/-- The rank of the `i`th node of the tree, in preorder, among the DARTs. -/
def dartRank (t : DtTree ι) (i : ℕ) : ℕ := dartCount py (t.preorder.take i)

variable {py}

theorem isDart_iff {n : DtObject ι} {dart : Bool} (h : isDart py n = .ok dart) :
    dart = true ↔ IsDart py n := by
  unfold isDart at h
  unfold IsDart
  cases hget : n.props.get? compatibleKey with
  | none =>
    rw [hget] at h
    obtain rfl := Except.ok.inj h
    exact ⟨nofun, False.elim⟩
  | some compat =>
    rw [hget] at h
    dsimp only at h ⊢
    cases hbytes : compatBytes compat with
    | none =>
      rw [hbytes] at h
      dsimp only at h ⊢
      split_ifs at h with htruth
      · rw [inCompat, hbytes] at h
        rw [show py.contains compat dartMark = .ok dart from h, htruth]
        exact ⟨fun hd => ⟨rfl, by rw [hd]⟩, fun hd => Except.ok.inj hd.2⟩
      · obtain rfl := Except.ok.inj h
        exact ⟨nofun, fun hd => absurd hd.1 htruth⟩
    | some b =>
      rw [hbytes] at h
      dsimp only at h ⊢
      split_ifs at h with htruth
      · rw [inCompat, hbytes] at h
        obtain rfl := Except.ok.inj h
        exact decide_eq_true_iff
      · obtain rfl := Except.ok.inj h
        have hempty : b = [] := by simpa using htruth
        refine ⟨nofun, fun hd => ?_⟩
        rw [hempty, List.infix_nil] at hd
        exact absurd hd (by decide +kernel)

/-! ## The numbering -/

variable (py)

/-- The ids of the nodes when the DARTs among them are numbered from `k` on. -/
def tagFrom : ℕ → List (DtObject ι) → List (ι × Option PropVal)
  | _, [] => []
  | k, n :: ns =>
      if IsDart py n then (n.id, some (u32Decimal k)) :: tagFrom (k + 1) ns
      else dartTag n :: tagFrom k ns

variable {py}

theorem tagFrom_append (a b : List (DtObject ι)) : ∀ k : ℕ,
    tagFrom py k (a ++ b) = tagFrom py k a ++ tagFrom py (k + dartCount py a) b := by
  induction a with
  | nil => exact fun k => rfl
  | cons n a ih =>
    intro k
    rw [List.cons_append, tagFrom, tagFrom, dartCount, List.countP_cons, ← dartCount]
    by_cases hn : IsDart py n
    · rw [if_pos hn, if_pos hn, ih, List.cons_append, if_pos (decide_eq_true hn), Nat.add_assoc,
        Nat.add_comm 1]
    · rw [if_neg hn, if_neg hn, ih, List.cons_append, if_neg (by simpa using hn), Nat.add_zero]

theorem tagFrom_congr : ∀ {a b : List (DtObject ι)}, SameView a b → ∀ k : ℕ,
    tagFrom py k a = tagFrom py k b
  | [], [], _, _ => rfl
  | [], _ :: _, h, _ => nomatch h
  | _ :: _, [], h, _ => nomatch h
  | m :: a, n :: b, h, k => by
      obtain ⟨hview, hrest⟩ := List.cons.inj h
      have hid : m.id = n.id := congrArg Prod.fst hview
      have hcompat : m.props.get? compatibleKey = n.props.get? compatibleKey :=
        congrArg (fun v => v.2.1) hview
      have htag : dartTag m = dartTag n := congrArg (fun v => (v.1, v.2.2)) hview
      have hdart : IsDart py m ↔ IsDart py n := by
        unfold IsDart
        rw [hcompat]
      have ih (k : ℕ) : tagFrom py k a = tagFrom py k b := tagFrom_congr hrest k
      rw [tagFrom, tagFrom, hid, htag, ih, ih]
      exact if_congr hdart rfl rfl

theorem tagFrom_getElem? (ns : List (DtObject ι)) : ∀ (k i : ℕ),
    (tagFrom py k ns)[i]? = ns[i]?.map fun n =>
      (n.id, if IsDart py n then some (u32Decimal (k + dartCount py (ns.take i)))
        else n.props.get? dartIdKey) := by
  induction ns with
  | nil => exact fun k i => rfl
  | cons n ns ih =>
    intro k i
    rw [tagFrom]
    cases i with
    | zero =>
      split_ifs with hn
      · simp [hn, dartCount]
      · simp [hn, dartTag]
    | succ i =>
      have hcount : dartCount py ((n :: ns).take (i + 1)) =
          dartCount py (ns.take i) + if IsDart py n then 1 else 0 := by
        rw [List.take_succ_cons, dartCount, List.countP_cons, ← dartCount]
        simp
      rw [hcount]
      split_ifs with hn
      · rw [List.getElem?_cons_succ, List.getElem?_cons_succ, ih, Nat.add_right_comm, Nat.add_assoc]
      · rw [List.getElem?_cons_succ, List.getElem?_cons_succ, ih, Nat.add_zero]

theorem tagFrom_map_fst (ns : List (DtObject ι)) : ∀ k : ℕ,
    (tagFrom py k ns).map Prod.fst = ns.map DtObject.id := by
  induction ns with
  | nil => exact fun k => rfl
  | cons n ns ih =>
    intro k
    rw [tagFrom]
    split_ifs
    · rw [List.map_cons, List.map_cons, ih]
    · rw [List.map_cons, List.map_cons, ih]
      rfl

theorem assignDartIds_tags (t : DtTree ι) : ∀ (k : ℕ) (x : DtTree ι × ℕ),
    assignDartIds py t k = .ok x →
      x.1.preorder.map dartTag = tagFrom py k t.preorder ∧ x.2 = k + dartCount py t.preorder := by
  induction t using Rose.induct with
  | h n cs ih =>
    have hall : ∀ (k : ℕ) (x : List (DtTree ι) × ℕ), assignDartIdsAll py cs k = .ok x →
        (Rose.preorderAll x.1).map dartTag = tagFrom py k (Rose.preorderAll cs) ∧
          x.2 = k + dartCount py (Rose.preorderAll cs) := by
      induction cs with
      | nil =>
        intro k x h
        rw [← Except.ok.inj h]
        exact ⟨rfl, rfl⟩
      | cons c cs ihs =>
        intro k x h
        rw [List.forall_mem_cons] at ih
        rw [assignDartIdsAll] at h
        obtain ⟨y, hc, h⟩ := bind_eq_ok_iff.mp h
        obtain ⟨z, hcs, h⟩ := bind_eq_ok_iff.mp h
        obtain ⟨htag, hnext⟩ := ih.1 _ _ hc
        obtain ⟨htags, hnexts⟩ := ihs ih.2 _ _ hcs
        rw [← Except.ok.inj h, Rose.preorderAll_cons, Rose.preorderAll_cons, List.map_append,
          tagFrom_append, htag, htags, hnext, hnexts, hnext, dartCount, dartCount, dartCount,
          List.countP_append, Nat.add_assoc]
        exact ⟨rfl, rfl⟩
    intro k x h
    rw [assignDartIds] at h
    obtain ⟨dart, hdart, h⟩ := bind_eq_ok_iff.mp h
    have hiff := isDart_iff hdart
    rw [Rose.preorder_node, tagFrom, dartCount, List.countP_cons, ← dartCount]
    by_cases hn : IsDart py n
    · rw [hiff.mpr hn] at h
      obtain ⟨y, hcs, h⟩ := bind_eq_ok_iff.mp h
      obtain ⟨htags, hnext⟩ := hall _ _ hcs
      have hset : Props.get? dartIdKey (n.props.set dartIdKey (u32Decimal k)) =
          some (u32Decimal k) := by
        rw [Props.get?_set, if_pos rfl]
      rw [← Except.ok.inj h, if_pos hn, if_pos (decide_eq_true hn), Rose.preorder_node,
        List.map_cons, htags, hnext]
      refine ⟨congrArg (· :: _) (Prod.ext rfl hset), ?_⟩
      omega
    · have hfalse : dart = false := Bool.eq_false_iff.mpr fun hd => hn (hiff.mp hd)
      rw [hfalse] at h
      obtain ⟨y, hcs, h⟩ := bind_eq_ok_iff.mp h
      obtain ⟨htags, hnext⟩ := hall _ _ hcs
      rw [← Except.ok.inj h, if_neg hn, if_neg (by simpa using hn), Rose.preorder_node,
        List.map_cons, htags, hnext]
      exact ⟨rfl, rfl⟩

/-! ## The surviving ids -/

theorem u32Decimal_inj {m n : ℕ} (h : u32Decimal m = u32Decimal n) : m = n := by
  have hdigits := List.append_cancel_left (PropVal.str.inj h)
  have hm := Nat.ofDigitChars_toDigits (b := 10) (n := m) (by decide) (by decide)
  have hn := Nat.ofDigitChars_toDigits (b := 10) (n := n) (by decide) (by decide)
  rw [← hm, hdigits, hn]

/-- The DARTs, picked out by their identities, carry consecutive numbers. -/
theorem tagFrom_darts {D : ι → Prop} [DecidablePred D] (ns : List (DtObject ι)) :
    (∀ n ∈ ns, D n.id ↔ IsDart py n) → ∀ k : ℕ,
      ((tagFrom py k ns).filter fun x => D x.1).map Prod.snd =
        (List.range' k (dartCount py ns)).map fun k => some (u32Decimal k) := by
  induction ns with
  | nil => exact fun _ k => rfl
  | cons n ns ih =>
    intro hD k
    rw [List.forall_mem_cons] at hD
    rw [tagFrom, dartCount, List.countP_cons, ← dartCount]
    by_cases hn : IsDart py n
    · have hid : D n.id := hD.1.mpr hn
      rw [if_pos hn, if_pos (decide_eq_true hn),
        List.filter_cons_of_pos (p := fun x : ι × Option PropVal => decide (D x.1))
          (decide_eq_true hid),
        List.map_cons, ih hD.2, List.range'_succ, List.map_cons]
    · have hid : ¬ D n.id := fun h => hn (hD.1.mp h)
      rw [if_neg hn, if_neg (by simpa using hn),
        List.filter_cons_of_neg (p := fun x : ι × Option PropVal => decide (D x.1))
          fun h => hid (of_decide_eq_true h),
        ih hD.2, Nat.add_zero]

theorem tag_of_id {ns : List (DtObject ι)} (hnodup : (ns.map DtObject.id).Nodup) {k i : ℕ}
    {x : ι × Option PropVal} {n : DtObject ι} (hx : x ∈ tagFrom py k ns) (hi : ns[i]? = some n)
    (hsame : x.1 = n.id) :
    x.2 = if IsDart py n then some (u32Decimal (k + dartCount py (ns.take i)))
      else n.props.get? dartIdKey := by
  obtain ⟨j, hj⟩ := List.mem_iff_getElem?.mp hx
  rw [tagFrom_getElem?] at hj
  obtain ⟨m, hm, rfl⟩ := Option.map_eq_some_iff.mp hj
  have hij : j = i := by
    have hlt : j < (ns.map DtObject.id).length := by
      rw [List.length_map]
      exact (List.getElem?_eq_some_iff.mp hm).1
    apply (List.getElem?_inj hlt hnodup).mp
    rw [List.getElem?_map, List.getElem?_map, hm, hi]
    exact congrArg some hsame
  subst hij
  obtain rfl := Option.some.inj (hm.symm.trans hi)
  rfl

theorem id_ne_created {rtcId : ι} {t : DtTree ι}
    (hid : (rtcId :: t.preorder.map DtObject.id).Nodup) {n : DtObject ι} (hn : n ∈ t.preorder) :
    n.id ≠ rtcId := by
  intro heq
  exact (List.nodup_cons.mp hid).1 (heq ▸ List.mem_map_of_mem hn)

variable [DecidableEq ι]

variable (py) in
/-- The ids of the nodes of `t'` that were DARTs in `t`, in preorder. -/
def survivingDarts (t t' : DtTree ι) : List (Option PropVal) :=
  (t'.preorder.filter fun n' => ∃ n ∈ t.preorder, n.id = n'.id ∧ IsDart py n).map fun n' =>
    n'.props.get? dartIdKey

variable (py) in
/-- What `fixup` makes of the `dart-id` properties of `t`; `rtcId` is the created node. -/
structure DartsNumbered (rtcId : ι) (t t' : DtTree ι) : Prop where
  order : List.Sublist ((t'.preorder.map DtObject.id).filter fun i => i ≠ rtcId)
    (t.preorder.map DtObject.id)
  ids : ∀ i n, t.preorder[i]? = some n → ∀ n' ∈ t'.preorder, n'.id = n.id →
    n'.props.get? dartIdKey =
      if IsDart py n then some (u32Decimal (dartRank py t i)) else n.props.get? dartIdKey
  created : ∀ n' ∈ t'.preorder, n'.id = rtcId → n'.props.get? dartIdKey = none
  increasing : ∃ ranks : List ℕ, ranks.Pairwise (· < ·) ∧
    survivingDarts py t t' = ranks.map fun k => some (u32Decimal k)
  distinct : (survivingDarts py t t').Nodup

section Tags
variable {rtcId : ι} {t t' : DtTree ι}

theorem survivingDarts_eq (hid : (rtcId :: t.preorder.map DtObject.id).Nodup) :
    survivingDarts py t t' =
      (((t'.preorder.map dartTag).filter fun x => x.1 ≠ rtcId).filter fun x =>
        ∃ n ∈ t.preorder, n.id = x.1 ∧ IsDart py n).map Prod.snd := by
  rw [List.filter_filter, List.filter_map, List.map_map, survivingDarts]
  have hfilter : (t'.preorder.filter fun n' => ∃ n ∈ t.preorder, n.id = n'.id ∧ IsDart py n) =
      t'.preorder.filter ((fun x : ι × Option PropVal => decide (∃ n ∈ t.preorder, n.id = x.1 ∧
        IsDart py n) && decide (x.1 ≠ rtcId)) ∘ dartTag) := by
    apply List.filter_congr
    intro n' _
    rw [Function.comp_apply, ← Bool.decide_and]
    refine decide_eq_decide.mpr ⟨fun h => ⟨h, ?_⟩, fun h => h.1⟩
    obtain ⟨n, hn, hnn', -⟩ := h
    show n'.id ≠ rtcId
    rw [← hnn']
    exact id_ne_created hid hn
  rw [hfilter]
  rfl

theorem survivingDarts_increasing (hid : (rtcId :: t.preorder.map DtObject.id).Nodup)
    (hkept : List.Sublist ((t'.preorder.map dartTag).filter fun x => x.1 ≠ rtcId)
      (tagFrom py 0 t.preorder)) :
    ∃ ranks : List ℕ, ranks.Pairwise (· < ·) ∧
      survivingDarts py t t' = ranks.map fun k => some (u32Decimal k) := by
  let D : ι → Prop := fun i => ∃ n ∈ t.preorder, n.id = i ∧ IsDart py n
  have hD : ∀ n ∈ t.preorder, D n.id ↔ IsDart py n := by
    intro n hn
    constructor
    · rintro ⟨m, hm, hmn, hdart⟩
      rw [← List.inj_on_of_nodup_map (List.nodup_cons.mp hid).2 hm hn hmn]
      exact hdart
    · intro hdart
      exact ⟨n, hn, rfl, hdart⟩
  have hsub := (hkept.filter fun x => decide (D x.1)).map Prod.snd
  rw [← survivingDarts_eq hid, tagFrom_darts _ hD, List.sublist_map_iff] at hsub
  obtain ⟨ranks, hranks, heq⟩ := hsub
  exact ⟨ranks, (List.pairwise_lt_range' 1 (by decide)).sublist hranks, heq⟩

theorem dartsNumbered_of_tags (hid : (rtcId :: t.preorder.map DtObject.id).Nodup)
    (hkept : List.Sublist ((t'.preorder.map dartTag).filter fun x => x.1 ≠ rtcId)
      (tagFrom py 0 t.preorder))
    (hcreated : ∀ x ∈ t'.preorder.map dartTag, x.1 = rtcId → x.2 = none) :
    DartsNumbered py rtcId t t' := by
  have hincreasing := survivingDarts_increasing hid hkept
  refine ⟨?_, ?_, ?_, hincreasing, ?_⟩
  · have hfst := hkept.map Prod.fst
    rw [tagFrom_map_fst, List.filter_map, List.map_map] at hfst
    rw [List.filter_map]
    exact hfst
  · intro i n hi n' hn' hsame
    have hne : n'.id ≠ rtcId := hsame ▸ id_ne_created hid (List.mem_of_getElem? hi)
    have hmem : dartTag n' ∈ tagFrom py 0 t.preorder := by
      apply hkept.subset
      rw [List.mem_filter]
      exact ⟨List.mem_map_of_mem hn', decide_eq_true hne⟩
    have hval := tag_of_id (List.nodup_cons.mp hid).2 hmem hi hsame
    rw [Nat.zero_add] at hval
    exact hval
  · intro n' hn' hrtc
    exact hcreated (dartTag n') (List.mem_map_of_mem hn') hrtc
  · obtain ⟨ranks, hpairwise, heq⟩ := hincreasing
    rw [heq]
    apply List.Nodup.map
    · intro a b hab
      exact u32Decimal_inj (Option.some.inj hab)
    · exact hpairwise.imp fun hlt => hlt.ne

end Tags

/-! ## The whole script -/

end Darts

def aicInput : FixupInput := ⟨fun _ => none, [], [encodeUtf8 "aic".toList], []⟩

def namedNode (id : ℕ) (nm : String) (props : List (String × String)) (cs : List (DtTree ℕ)) :
    DtTree ℕ :=
  .node ⟨id, (nameKey, text nm) :: props.map fun kv => (kv.1.toList, text kv.2)⟩ cs

/-- The nodes that `fixup` asks for, and two DARTs. -/
def twoDarts : DtTree ℕ :=
  namedNode 0 "device-tree" [("secure-root-prefix", "md")]
    [namedNode 1 "chosen" [("random-seed", "seed")]
      [namedNode 2 "memory-map" [] [],
        namedNode 3 "lock-regs" []
          [namedNode 4 "amcc" []
            [namedNode 5 "amcc-ctrr-a" [] [], namedNode 6 "amcc-ctrr-b" [] [],
              namedNode 7 "amcc-ctrr-c" [] [], namedNode 8 "amcc-ctrr-d" [] []]]],
      namedNode 9 "defaults" [] [],
      namedNode 10 "cpus" [] [namedNode 11 "cpu0" [] []],
      namedNode 12 "arm-io" [("compatible", "arm-io,t8140"), ("soc-generation", "H17")]
        [namedNode 13 "uart0" [("AAPL,phandle", "u32:1")] [],
          namedNode 14 "sep" [] [namedNode 15 "iop-sep-nub" [] []],
          namedNode 16 "dart-disp0" [("compatible", "dart,t8110")] [],
          namedNode 17 "dockchannel-uart" [] [],
          namedNode 18 "sgx" [] [],
          namedNode 19 "aic" [("compatible", "aic,3")] [],
          namedNode 20 "dart-usb" [("compatible", "dart,t8110")] []]]

end SecureWorld.DeviceTree
