import SecureWorld.DeviceTree.Fixup

/-! # What the edits of `fixup` leave alone

`SameView` holds when no node appeared, vanished or changed its `compatible` or its `dart-id`;
`DartsKept` allows nodes to vanish, a node to be created and `compatible` to go. Every statement of
`fixup` apart from the numbering keeps the first or the second.
-/
namespace SecureWorld.DeviceTree
open Foundations
set_option autoImplicit false

section Frames
variable {ι α : Type}

/-! ## Relations on the nodes in preorder -/

/-- A relation between lists of nodes that can be applied inside a tree. -/
class Local (Q : List (DtObject ι) → List (DtObject ι) → Prop) : Prop where
  refl : ∀ a, Q a a
  trans : ∀ a b c, Q a b → Q b c → Q a c
  context : ∀ l a b r, Q a b → Q (l ++ a ++ r) (l ++ b ++ r)

def OnPreorder (Q : List (DtObject ι) → List (DtObject ι) → Prop) (t t' : DtTree ι) : Prop :=
  Q t.preorder t'.preorder

instance {Q : List (DtObject ι) → List (DtObject ι) → Prop} [Local Q] :
    IsPreorder (DtTree ι) (OnPreorder Q) where
  refl _ := Local.refl _
  trans _ _ _ h h' := Local.trans _ _ _ h h'

section Rules
variable {Q : List (DtObject ι) → List (DtObject ι) → Prop} [Local Q]

theorem onChild_local {key : Text} {f : DtTree ι → Except FixupError α × List (DtTree ι)}
    {missing : Except FixupError α} (hf : ∀ c, Q c.preorder (Rose.preorderAll (f c).2)) :
    ∀ cs : List (DtTree ι),
      Q (Rose.preorderAll cs) (Rose.preorderAll (onChild key f missing cs).2)
  | [] => Local.refl _
  | c :: cs => by
      unfold onChild
      split
      · exact Local.refl _
      · split_ifs
        · have hc := Local.context [] _ _ (Rose.preorderAll cs) (hf c)
          simpa using hc
        · have ih : Q (Rose.preorderAll cs) (Rose.preorderAll (onChild key f missing cs).2) :=
            onChild_local hf cs
          have hcons := Local.context c.preorder _ _ [] ih
          simpa using hcons

theorem keeps_editChildren
    {f : Props → List (DtTree ι) → Except FixupError α × List (DtTree ι)}
    (hf : ∀ props cs, Q (Rose.preorderAll cs) (Rose.preorderAll (f props cs).2)) :
    Keeps (OnPreorder Q) (editChildren f) := by
  rintro ⟨n, cs⟩
  have hcs := Local.context [n] _ _ [] (hf n.props cs)
  simpa [OnPreorder, editChildren, Rose.label, Rose.children] using hcs

theorem keeps_editProps {f : Props → Except FixupError α × Props}
    (hf : ∀ n : DtObject ι, Q [n] [{ n with props := (f n.props).2 }]) :
    Keeps (OnPreorder Q) (editProps (ι := ι) f) := by
  rintro ⟨n, cs⟩
  have hn := Local.context [] _ _ (Rose.preorderAll cs) (hf n)
  simpa [OnPreorder, editProps, Rose.label, Rose.children] using hn

theorem keeps_inItem {key : String} {m : Fixup ι α} (hm : Keeps (OnPreorder Q) m) :
    Keeps (OnPreorder Q) (inItem key m) := by
  apply keeps_editChildren
  intro props cs
  apply onChild_local
  intro c
  have hc := hm c
  simpa [OnPreorder] using hc

theorem keeps_inItems {path : List String} {m : Fixup ι α} (hm : Keeps (OnPreorder Q) m) :
    Keeps (OnPreorder Q) (inItems path m) := by
  induction path with
  | nil => exact hm
  | cons key path ih => exact keeps_inItem ih

theorem keeps_hasItem (key : String) : Keeps (OnPreorder Q) (hasItem (ι := ι) key) := by
  apply keeps_editChildren
  intro props cs
  apply onChild_local
  intro c
  rw [Rose.preorderAll_cons, Rose.preorderAll_nil, List.append_nil]
  exact Local.refl _

theorem keeps_removeChild (hQ : ∀ a, Q a []) (childName : String) :
    Keeps (OnPreorder Q) (removeChild (ι := ι) childName) := by
  apply keeps_editChildren
  intro props cs
  apply onChild_local
  intro c
  rw [Rose.preorderAll_nil]
  exact hQ _

theorem keeps_getProp (key : String) : Keeps (OnPreorder Q) (getProp (ι := ι) key) := by
  apply keeps_editProps
  intro n
  split <;> exact Local.refl _

theorem keeps_hasProp (key : String) : Keeps (OnPreorder Q) (hasProp (ι := ι) key) := by
  apply keeps_editProps
  intro n
  exact Local.refl _

theorem keeps_attempt {m : Fixup ι PUnit} (hm : Keeps (OnPreorder Q) m) :
    Keeps (OnPreorder Q) (attempt m) := hm.tryCatch fun _ => .pure _

theorem keeps_runIf {c : Bool} {m : Fixup ι PUnit} (hm : Keeps (OnPreorder Q) m) :
    Keeps (OnPreorder Q) (runIf c m) := .ite (fun _ => hm) fun _ => .pure _

theorem keeps_liftExcept {β : Type} (x : Except FixupError β) :
    Keeps (OnPreorder Q) (liftExcept (ι := ι) x) := by
  cases x with
  | ok b => exact .pure b
  | error e => exact .throw e

theorem keeps_wholeTree {f : DtTree ι → Except FixupError (DtTree ι)}
    (hf : ∀ t t', f t = .ok t' → Q t.preorder t'.preorder) :
    Keeps (OnPreorder Q) (wholeTree f) := by
  intro t
  show Q t.preorder _
  unfold wholeTree
  rw [exec_ofExec]
  cases h : f t with
  | ok t' => exact hf t t' h
  | error e => exact Local.refl _

end Rules

/-! ## Nothing about the DARTs changes -/

/-- What the numbering reads and writes of a node. -/
def dartView (n : DtObject ι) : ι × Option PropVal × Option PropVal :=
  (n.id, n.props.get? compatibleKey, n.props.get? dartIdKey)

def SameView (a b : List (DtObject ι)) : Prop := a.map dartView = b.map dartView

instance : Local (SameView (ι := ι)) where
  refl _ := rfl
  trans _ _ _ h h' := Eq.trans h h'
  context l a b r h := by
    simp only [SameView, List.map_append] at h ⊢
    rw [h]

def OtherKey (key : String) : Prop := key.toList ≠ compatibleKey ∧ key.toList ≠ dartIdKey

@[simp] theorem otherKey_iff {key : String} :
    OtherKey key ↔ key ≠ "compatible" ∧ key ≠ "dart-id" :=
  and_congr (not_congr String.toList_inj) (not_congr String.toList_inj)

theorem keeps_setProp {key : String} (hkey : OtherKey key) (v : PropVal) :
    Keeps (OnPreorder (SameView (ι := ι))) (setProp key v) := by
  apply keeps_editProps
  intro n
  simp only [SameView, List.map_cons, List.map_nil, dartView, Props.get?_set, if_neg hkey.1,
    if_neg hkey.2]

theorem keeps_popProp {key : String} (hkey : OtherKey key) :
    Keeps (OnPreorder (SameView (ι := ι))) (popProp key) := by
  apply keeps_editProps
  intro n
  simp only [SameView, List.map_cons, List.map_nil, dartView, Props.get?_del, if_neg hkey.1,
    if_neg hkey.2]

theorem keeps_setProps {table : List (String × PropVal)} (h : ∀ entry ∈ table, OtherKey entry.1) :
    Keeps (OnPreorder (SameView (ι := ι))) (setProps table) :=
  .forM fun entry hentry => keeps_setProp (h entry hentry) entry.2

theorem keeps_popProps {keys : List String} (h : ∀ key ∈ keys, OtherKey key) :
    Keeps (OnPreorder (SameView (ι := ι))) (popProps keys) :=
  .forM fun key hkey => keeps_popProp (h key hkey)

/-! ## The passes before the numbering -/

variable (py : Foreign) (env : FixupInput)

theorem keeps_getPlatformName : Keeps (OnPreorder (SameView (ι := ι))) getPlatformName := by
  unfold getPlatformName
  refine (keeps_inItem (keeps_getProp _)).bind fun compat => ?_
  refine (keeps_liftExcept _).bind fun platform => ?_
  split
  · exact .throw _
  · exact .pure _

theorem keeps_getSocGen : Keeps (OnPreorder (SameView (ι := ι))) getSocGen := by
  unfold getSocGen
  refine (keeps_inItem (keeps_getProp _)).bind fun socGenName => ?_
  split
  · exact .throw _
  · refine .ite (fun _ => .pure _) fun _ => ?_
    split
    · exact .pure _
    · exact .throw _
  · exact .pure _

theorem keeps_pyLen (v : PropVal) : Keeps (OnPreorder (SameView (ι := ι))) (pyLen py v) := by
  unfold pyLen
  split
  · exact .pure _
  · exact .pure _
  · split
    · exact .pure _
    · exact .throw _

theorem keeps_fixupDram : Keeps (OnPreorder (SameView (ι := ι))) (fixupDram env) := by
  refine keeps_getSocGen.bind fun socGen => ?_
  refine (keeps_inItem (keeps_setProp (by simp) _)).bind fun _ => ?_
  exact keeps_inItem (keeps_setProp (by simp) _)

theorem keeps_fixupRandomSeed : Keeps (OnPreorder (SameView (ι := ι))) (fixupRandomSeed py) := by
  refine (keeps_inItem (keeps_getProp _)).bind fun seed => ?_
  refine (keeps_pyLen py seed).bind fun len => ?_
  exact keeps_inItem (keeps_setProp (by simp) _)

theorem keeps_setNvramSize {key : String} (hkey : OtherKey key) :
    Keeps (OnPreorder (SameView (ι := ι))) (setNvramSize py key) := by
  refine (keeps_inItem (keeps_getProp _)).bind fun data => ?_
  refine (keeps_pyLen py data).bind fun len => ?_
  exact keeps_inItem (keeps_setProp hkey _)

theorem keeps_fixupChosen : Keeps (OnPreorder (SameView (ι := ι))) (fixupChosen py env) := by
  refine keeps_getPlatformName.bind fun platformName => ?_
  refine (keeps_setProp (by simp) _).bind fun _ => ?_
  refine (keeps_fixupDram env).bind fun _ => ?_
  refine (keeps_inItem (keeps_setProp (by simp) _)).bind fun _ => ?_
  refine (keeps_inItem (keeps_setProp (by simp) _)).bind fun _ => ?_
  refine (keeps_inItems (keeps_setProp (by simp) _)).bind fun _ => ?_
  refine (keeps_fixupRandomSeed py).bind fun _ => ?_
  refine (keeps_inItem (keeps_setProp (by simp) _)).bind fun _ => ?_
  refine (keeps_inItems (keeps_getProp _)).bind fun phandle => ?_
  refine (keeps_inItem (keeps_setProp (by simp) _)).bind fun _ => ?_
  refine (keeps_inItems (keeps_setProps (by simp))).bind fun _ => ?_
  refine (keeps_inItem (keeps_setProps (by simp))).bind fun _ => ?_
  refine (keeps_setNvramSize py (by simp)).bind fun _ => ?_
  exact keeps_setNvramSize py (by simp)

theorem keeps_fixupPram : Keeps (OnPreorder (SameView (ι := ι))) (fixupPram env) := by
  refine keeps_runIf (keeps_attempt ?_)
  refine (keeps_inItem (keeps_setProp (by simp) _)).bind fun _ => ?_
  exact keeps_inItem (keeps_setProp (by simp) _)

theorem keeps_fixupHmac : Keeps (OnPreorder (SameView (ι := ι))) fixupHmac := by
  refine (keeps_inItems (keeps_hasItem _)).bind fun present => ?_
  exact keeps_runIf (keeps_inItems (keeps_setProps (by simp)))

theorem keeps_fixupBefore : Keeps (OnPreorder (SameView (ι := ι))) (fixupBefore py env) := by
  refine (keeps_fixupChosen py env).bind fun _ => ?_
  refine (keeps_fixupPram env).bind fun _ => ?_
  exact keeps_fixupHmac

/-! ## The edits of properties after it -/

theorem keeps_fixupDcpRegion : Keeps (OnPreorder (SameView (ι := ι))) (fixupDcpRegion env) :=
  keeps_runIf (keeps_attempt (keeps_inItems (keeps_setProps (by simp))))

theorem keeps_fixupDcpRoutes : Keeps (OnPreorder (SameView (ι := ι))) (fixupDcpRoutes env) := by
  refine keeps_runIf (keeps_attempt (keeps_inItems ?_))
  refine (keeps_popProp (by simp)).bind fun _ => ?_
  exact keeps_runIf (keeps_popProp (by simp))

theorem keeps_fixupExclaves : Keeps (OnPreorder (SameView (ι := ι))) (fixupExclaves env) := by
  have hkeys : ∀ key ∈ ["exclaves-enabled", "has-exclaves"], OtherKey key := by simp
  refine keeps_runIf (keeps_attempt (keeps_inItem (.forM fun key hkey => ?_)))
  refine (keeps_hasProp key).bind fun present => ?_
  exact keeps_runIf (keeps_setProp (hkeys key hkey) _)

theorem keeps_fixupDcpNormalize :
    Keeps (OnPreorder (SameView (ι := ι))) (fixupDcpNormalize env) := by
  refine keeps_runIf (keeps_attempt (keeps_inItems ?_))
  refine (keeps_popProps (by simp)).bind fun _ => ?_
  exact keeps_setProps (by simp)

theorem keeps_fixupDcpPowerMode :
    Keeps (OnPreorder (SameView (ι := ι))) (fixupDcpPowerMode env) := by
  refine keeps_runIf (keeps_attempt (keeps_inItems ?_))
  refine (keeps_popProps (by simp)).bind fun _ => ?_
  refine .ite (fun _ => keeps_setProp (by simp) _) fun _ => ?_
  exact .ite (fun _ => keeps_setProp (by simp) _) fun _ => .pure _

theorem keeps_fixupAmcc : Keeps (OnPreorder (SameView (ι := ι))) fixupAmcc := by
  refine keeps_inItems ?_
  refine (keeps_setProps (by simp)).bind fun _ => ?_
  refine (keeps_getProp _).bind fun apertureSize => ?_
  refine (keeps_setProps (by simp)).bind fun _ => ?_
  refine .forM fun ctrr _ => ?_
  exact keeps_inItem (keeps_setProps (by simp [ctrrProps]))

theorem keeps_fixupAic : Keeps (OnPreorder (SameView (ι := ι))) (fixupAic py) := by
  refine (keeps_hasProp _).bind fun present => ?_
  refine .ite (fun _ => ?_) fun _ => .throw _
  refine (keeps_getProp _).bind fun compat => ?_
  refine (keeps_liftExcept _).bind fun supported => ?_
  exact keeps_runIf (keeps_setProp (by simp) _)

theorem keeps_memoryMap : Keeps (OnPreorder (SameView (ι := ι)))
    (inItems ["chosen", "memory-map"] (do
      memoryMapKeys.forM fun key => setProp key (packQQ 0xffffffffffffffff 0xffffffffffffffff)
      setProp "slide" (packQQ 0 0))) := by
  have hkeys : ∀ key ∈ memoryMapKeys, OtherKey key := by simp [memoryMapKeys]
  refine keeps_inItems ?_
  refine Keeps.bind (.forM fun key hkey => keeps_setProp (hkeys key hkey) _) fun _ => ?_
  exact keeps_setProp (by simp) _

theorem keeps_delProp {key : String} (hkey : OtherKey key) :
    Keeps (OnPreorder (SameView (ι := ι))) (delProp key) :=
  (keeps_getProp key).bind fun _ => keeps_popProp hkey

/-! ## Nodes may vanish, and one may be created -/

def dartTag (n : DtObject ι) : ι × Option PropVal := (n.id, n.props.get? dartIdKey)

section Muting
variable {py : Foreign} {keepNodes : List Text} {supportedDrivers : List Bytes}

theorem muteCompat_dartId {path : Text} {props props' : Props}
    (h : muteCompat py keepNodes supportedDrivers path props = .ok props') :
    Props.get? dartIdKey props' = Props.get? dartIdKey props := by
  have hdel : Props.get? dartIdKey (props.del compatibleKey) = Props.get? dartIdKey props := by
    rw [Props.get?_del, if_neg (by decide +kernel)]
  unfold muteCompat at h
  split at h
  · rw [← Except.ok.inj h]
  · split_ifs at h
    · rw [← Except.ok.inj h]
    · obtain ⟨supported, -, h⟩ := bind_eq_ok_iff.mp h
      split_ifs at h
      · rw [← Except.ok.inj h]
      · rw [← Except.ok.inj h, hdel]

theorem delCompat_tags (t : DtTree ι) : ∀ (path : Text) (t' : DtTree ι),
    delCompat py keepNodes supportedDrivers path t = .ok t' →
      t'.preorder.map dartTag = t.preorder.map dartTag := by
  induction t using Rose.induct with
  | h n cs ih =>
    have hall : ∀ (path : Text) (cs' : List (DtTree ι)),
        delCompatAll py keepNodes supportedDrivers path cs = .ok cs' →
          (Rose.preorderAll cs').map dartTag = (Rose.preorderAll cs).map dartTag := by
      intro path
      induction cs with
      | nil =>
        intro cs' h
        rw [← Except.ok.inj h]
      | cons c cs ihs =>
        intro cs' h
        rw [List.forall_mem_cons] at ih
        rw [delCompatAll] at h
        obtain ⟨c', hc, h⟩ := bind_eq_ok_iff.mp h
        obtain ⟨ds, hcs, h⟩ := bind_eq_ok_iff.mp h
        rw [← Except.ok.inj h, Rose.preorderAll_cons, Rose.preorderAll_cons, List.map_append,
          List.map_append, ih.1 _ _ hc, ihs ih.2 _ hcs]
    intro path t' h
    rw [delCompat] at h
    obtain ⟨cs', hcs, h⟩ := bind_eq_ok_iff.mp h
    obtain ⟨props, hprops, h⟩ := bind_eq_ok_iff.mp h
    have hid := muteCompat_dartId hprops
    rw [← Except.ok.inj h, Rose.preorder_node, Rose.preorder_node, List.map_cons, List.map_cons,
      hall path cs' hcs]
    exact congrArg (· :: _) (Prod.ext rfl hid)

end Muting

variable [DecidableEq ι]

/-- The nodes that are left, but for the created one, have their place and their `dart-id`; a created
node has none. -/
structure DartsKept (rtcId : ι) (a b : List (DtObject ι)) : Prop where
  survivors : List.Sublist ((b.map dartTag).filter fun x => x.1 ≠ rtcId)
    ((a.map dartTag).filter fun x => x.1 ≠ rtcId)
  created : (∀ x ∈ a.map dartTag, x.1 = rtcId → x.2 = none) →
    ∀ x ∈ b.map dartTag, x.1 = rtcId → x.2 = none

instance (rtcId : ι) : Local (DartsKept rtcId) where
  refl _ := ⟨List.Sublist.refl _, fun h => h⟩
  trans _ _ _ h h' := ⟨h'.survivors.trans h.survivors, fun hx => h'.created (h.created hx)⟩
  context l a b r h := by
    constructor
    · simp only [List.map_append, List.filter_append]
      exact ((List.Sublist.refl _).append h.survivors).append (List.Sublist.refl _)
    · intro hnone x hx
      simp only [List.map_append, List.mem_append] at hnone hx
      obtain (hx | hx) | hx := hx
      · exact hnone x (.inl (.inl hx))
      · exact h.created (fun y hy => hnone y (.inl (.inr hy))) x hx
      · exact hnone x (.inr hx)

theorem DartsKept.of_tags {rtcId : ι} {a b : List (DtObject ι)}
    (h : b.map dartTag = a.map dartTag) : DartsKept rtcId a b := by
  constructor
  · rw [h]
  · rw [h]
    exact fun hx => hx

theorem SameView.dartsKept {rtcId : ι} {a b : List (DtObject ι)} (h : SameView a b) :
    DartsKept rtcId a b := by
  apply DartsKept.of_tags
  have hproj : (dartTag : DtObject ι → _) = (fun x => (x.1, x.2.2)) ∘ dartView := rfl
  rw [hproj, ← List.map_map, ← List.map_map, h]

theorem keeps_of_sameView {rtcId : ι} {m : Fixup ι α} (hm : Keeps (OnPreorder SameView) m) :
    Keeps (OnPreorder (DartsKept rtcId)) m := hm.imp fun _ _ h => h.dartsKept

theorem dartsKept_removed {rtcId : ι} (a : List (DtObject ι)) : DartsKept rtcId a [] :=
  ⟨List.nil_sublist _, fun _ _ hx => absurd hx List.not_mem_nil⟩

theorem keeps_appendRtc (rtcId : ι) :
    Keeps (OnPreorder (DartsKept rtcId)) (appendChild (rtcNode rtcId)) := by
  apply keeps_editChildren
  intro props cs
  have htag : (rtcNode rtcId).preorder.map dartTag = [(rtcId, none)] := by
    have hnone : Props.get? dartIdKey
        [("name".toList, text "rtc"), ("__placeholder_val".toList, text "<NULL>")] = none := by
      decide +kernel
    simp only [rtcNode, Rose.preorder_node, Rose.preorderAll_nil, List.map_cons, List.map_nil,
      dartTag, hnone]
  constructor
  · simp only [Rose.preorderAll_append, Rose.preorderAll_cons, Rose.preorderAll_nil,
      List.append_nil, List.map_append, htag, List.filter_append]
    simp
  · intro hnone x hx
    simp only [Rose.preorderAll_append, Rose.preorderAll_cons, Rose.preorderAll_nil,
      List.append_nil, List.map_append, htag, List.mem_append, List.mem_singleton] at hx
    obtain hx | rfl := hx
    · exact hnone x hx
    · exact fun _ => rfl

/-! ## The passes after the numbering -/

theorem keeps_fixupRtc (rtcId : ι) :
    Keeps (OnPreorder (DartsKept rtcId)) (fixupRtc rtcId) := by
  refine (keeps_inItem (keeps_removeChild dartsKept_removed _)).bind fun _ => ?_
  refine (keeps_of_sameView (keeps_setProp (by simp) _)).bind fun _ => ?_
  refine (keeps_appendRtc rtcId).bind fun _ => ?_
  exact keeps_of_sameView (keeps_inItem (keeps_setProp (by simp) _))

theorem keeps_muteDrivers (rtcId : ι) :
    Keeps (OnPreorder (DartsKept rtcId)) (muteDrivers py env) :=
  keeps_wholeTree fun t t' h => .of_tags (delCompat_tags t [] t' h)

theorem keeps_fixupSptm (rtcId : ι) : Keeps (OnPreorder (DartsKept rtcId)) fixupSptm := by
  refine (keeps_of_sameView keeps_memoryMap).bind fun _ => ?_
  exact keeps_inItem (keeps_removeChild dartsKept_removed _)

theorem keeps_fixupAfter (rtcId : ι) :
    Keeps (OnPreorder (DartsKept rtcId)) (fixupAfter py env rtcId) := by
  refine (keeps_of_sameView (keeps_fixupDcpRegion env)).bind fun _ => ?_
  refine (keeps_of_sameView (keeps_fixupDcpRoutes env)).bind fun _ => ?_
  refine (keeps_of_sameView (keeps_fixupExclaves env)).bind fun _ => ?_
  refine (keeps_of_sameView (keeps_fixupDcpNormalize env)).bind fun _ => ?_
  refine (keeps_of_sameView (keeps_fixupDcpPowerMode env)).bind fun _ => ?_
  refine (keeps_fixupRtc rtcId).bind fun _ => ?_
  refine (keeps_of_sameView keeps_fixupAmcc).bind fun _ => ?_
  refine (keeps_muteDrivers py env rtcId).bind fun _ => ?_
  refine (keeps_of_sameView (keeps_inItems (keeps_fixupAic py))).bind fun _ => ?_
  refine (keeps_fixupSptm rtcId).bind fun _ => ?_
  exact keeps_of_sameView (keeps_delProp (by simp))

end Frames
end SecureWorld.DeviceTree
