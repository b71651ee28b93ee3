import SecureWorld.DeviceTree.Objects
import SecureWorld.Foundations.Loops

/-! # Driver muting (`del_compat`)

A node keeps its `compatible` property if its path is kept or a supported driver occurs in the value.
The path starts at the first name that is not empty: to the function an empty path is the root's.
-/
namespace SecureWorld.DeviceTree
open Foundations
set_option autoImplicit false

/-! ## The function -/

/-- `f"{path}/{name}" if path else name` -/
def childPath (path name : Text) : Text := if path.isEmpty then name else path ++ '/' :: name

def keptPath (keepNodes : List Text) (path : Text) : Bool :=
  keepNodes.any fun k => decide (path = k) || ('/' :: k).isSuffixOf path

section Filter
variable {ι : Type} (py : Foreign) (keepNodes : List Text) (supportedDrivers : List Bytes)

/-- What happens to the node's own properties. -/
def muteCompat (path : Text) (props : Props) : Except FixupError Props :=
  match props.get? compatibleKey with
  | none => .ok props
  | some compat =>
      if keptPath keepNodes path then .ok props
      else do
        if ← supportedDrivers.anyM (inCompat py compat) then return props
        return props.del compatibleKey

mutual

def delCompat (path : Text) : DtTree ι → Except FixupError (DtTree ι)
  | .node d children => do
      let children ← delCompatAll path children
      let props ← muteCompat py keepNodes supportedDrivers path d.props
      return .node { d with props } children

def delCompatAll (path : Text) : List (DtTree ι) → Except FixupError (List (DtTree ι))
  | [] => return []
  | c :: cs => do
      let c' ← delCompat (childPath path (nodeName py c.label)) c
      let cs' ← delCompatAll path cs
      return c' :: cs'

end

/-! ## The filter it is -/

variable {py keepNodes supportedDrivers}

def HasCompatible (t : DtTree ι) : Prop := ∃ compat, t.label.props.get? compatibleKey = some compat

def KeptPath (keepNodes : List Text) (path : Text) : Prop :=
  ∃ k ∈ keepNodes, path = k ∨ '/' :: k <:+ path

/-- One of the drivers occurs in the compatible value. -/
def Supported (supportedDrivers : List Bytes) (t : DtTree ι) : Prop :=
  ∃ compat b, t.label.props.get? compatibleKey = some compat ∧ compatBytes compat = some b ∧
    ∃ x ∈ supportedDrivers, x <:+: b

/-- What becomes of the node `t` with the path `path`. -/
structure MutedAt (keepNodes : List Text) (supportedDrivers : List Bytes) (path : Text)
    (t t' : DtTree ι) : Prop where
  compatible : HasCompatible t' ↔
    HasCompatible t ∧ (KeptPath keepNodes path ∨ Supported supportedDrivers t)
  survivors : HasCompatible t' → t'.label.props = t.label.props
  others : t'.label.props.del compatibleKey = t.label.props.del compatibleKey
  id : t'.label.id = t.label.id
  children : t'.children.length = t.children.length

/-- A string or a string list, if there is one. -/
def CompatIsText (t : DtTree ι) : Prop :=
  ∀ compat, t.label.props.get? compatibleKey = some compat → (compatBytes compat).isSome

variable (py)

def namesTo (t : DtTree ι) (pos : List ℕ) : List Text := (t.labelsTo pos).map (nodeName py)

def slashJoin (names : List Text) : Text := ['/'].intercalate names

/-- The slash-joined path, without the empty names it starts with. -/
def pathTo (t : DtTree ι) (pos : List ℕ) : Text :=
  slashJoin ((namesTo py t pos).dropWhile List.isEmpty)

variable {py}

theorem keptPath_iff {path : Text} : keptPath keepNodes path = true ↔ KeptPath keepNodes path := by
  simp only [keptPath, KeptPath, List.any_eq_true, Bool.or_eq_true, decide_eq_true_iff,
    List.isSuffixOf_iff_suffix]

theorem foldl_childPath_cons : ∀ {names : List Text} {path : Text}, path ≠ [] →
    names.foldl childPath path = slashJoin (path :: names)
  | [], path, _ => List.intercalate_singleton.symm
  | name :: names, path, hpath => by
      have hchild : childPath path name = path ++ '/' :: name := by
        rw [childPath, if_neg (by simpa using hpath)]
      rw [List.foldl_cons, hchild, foldl_childPath_cons (by simp)]
      cases names with
      | nil => simp [slashJoin, List.intercalate_cons_cons]
      | cons name' names => simp [slashJoin, List.intercalate_cons_cons]

theorem foldl_childPath : ∀ names : List Text,
    names.foldl childPath [] = slashJoin (names.dropWhile List.isEmpty)
  | [] => rfl
  | name :: names => by
      have hchild : childPath [] name = name := rfl
      rw [List.foldl_cons, hchild]
      by_cases hname : name = []
      · subst hname
        rw [foldl_childPath names, List.dropWhile_cons_of_pos rfl]
      · rw [foldl_childPath_cons hname, List.dropWhile_cons_of_neg (by simpa using hname)]

/-! ## One node -/

theorem anyM_inCompat {compat : PropVal} {b : Bytes} (hcompat : compatBytes compat = some b) :
    supportedDrivers.anyM (inCompat py compat) =
      .ok (supportedDrivers.any fun x => decide (x <:+: b)) := by
  have hin : inCompat py compat = fun x => pure (decide (x <:+: b)) := by
    funext x
    rw [inCompat, hcompat]
    rfl
  rw [hin, List.anyM_pure]
  rfl

theorem get?_name_del (props : Props) :
    Props.get? nameKey (Props.del compatibleKey props) = Props.get? nameKey props := by
  rw [Props.get?_del, if_neg (by decide +kernel)]

theorem nodeName_del (n : DtObject ι) :
    nodeName py { n with props := n.props.del compatibleKey } = nodeName py n := by
  unfold nodeName
  rw [get?_name_del]

/-- A compatible value that is text survives on a kept path and if it is supported. -/
theorem muteCompat_eq (py : Foreign) (keepNodes : List Text)
    (supportedDrivers : List Bytes) (path : Text) {t : DtTree ι}
    (htext : CompatIsText t) :
    ∃ props, muteCompat py keepNodes supportedDrivers path t.label.props = .ok props ∧
      (props = t.label.props ∧ (HasCompatible t →
          KeptPath keepNodes path ∨ Supported supportedDrivers t) ∨
        props = t.label.props.del compatibleKey ∧ HasCompatible t ∧
          ¬ (KeptPath keepNodes path ∨ Supported supportedDrivers t)) := by
  unfold muteCompat
  cases hget : t.label.props.get? compatibleKey with
  | none =>
    refine ⟨_, rfl, .inl ⟨rfl, fun ⟨compat, hcompat⟩ => ?_⟩⟩
    exact nomatch hget.symm.trans hcompat
  | some compat =>
    obtain ⟨b, hb⟩ := Option.isSome_iff_exists.mp (htext compat hget)
    have hsupported : Supported supportedDrivers t ↔ ∃ x ∈ supportedDrivers, x <:+: b := by
      constructor
      · rintro ⟨compat', b', hget', hb', hx⟩
        obtain rfl := Option.some.inj (hget.symm.trans hget')
        obtain rfl := Option.some.inj (hb.symm.trans hb')
        exact hx
      · intro hx
        exact ⟨compat, b, hget, hb, hx⟩
    have hany : (supportedDrivers.any fun x => decide (x <:+: b)) = true ↔
        Supported supportedDrivers t := by
      rw [hsupported]
      simp
    dsimp only
    by_cases hkept : keptPath keepNodes path = true
    · rw [if_pos hkept]
      exact ⟨_, rfl, .inl ⟨rfl, fun _ => .inl (keptPath_iff.mp hkept)⟩⟩
    · rw [if_neg hkept, anyM_inCompat hb]
      by_cases hdriver : Supported supportedDrivers t
      · rw [hany.mpr hdriver]
        exact ⟨_, rfl, .inl ⟨rfl, fun _ => .inr hdriver⟩⟩
      · rw [Bool.eq_false_iff.mpr (mt hany.mp hdriver)]
        refine ⟨_, rfl, .inr ⟨rfl, ⟨compat, hget⟩, ?_⟩⟩
        rintro (hpath | hsupp)
        · exact hkept (keptPath_iff.mpr hpath)
        · exact hdriver hsupp

/-- The node with its new properties, over children that are as many as before. -/
theorem mutedAt_of_muteCompat (py : Foreign) (keepNodes : List Text)
    (supportedDrivers : List Bytes) (path : Text) {d : DtObject ι}
    {cs cs' : List (DtTree ι)} (htext : CompatIsText (.node d cs)) (hlen : cs'.length = cs.length) :
    ∃ props, muteCompat py keepNodes supportedDrivers path d.props = .ok props ∧
      muteCompat py keepNodes supportedDrivers path props = .ok props ∧
      nodeName py { d with props } = nodeName py d ∧
      MutedAt keepNodes supportedDrivers path (.node d cs) (.node { d with props } cs') := by
  obtain ⟨props, hmute, ⟨hprops, hkeep⟩ | ⟨hprops, hhas, hdrop⟩⟩ :=
    muteCompat_eq py keepNodes supportedDrivers path htext
  · have hprops' : props = d.props := hprops
    subst hprops'
    refine ⟨d.props, hmute, hmute, rfl, ?_⟩
    exact ⟨⟨fun h => ⟨h, hkeep h⟩, fun h => h.1⟩, fun _ => rfl, rfl, rfl, hlen⟩
  · have hprops' : props = d.props.del compatibleKey := hprops
    subst hprops'
    have hnone : Props.get? compatibleKey (d.props.del compatibleKey) = none := by
      rw [Props.get?_del, if_pos rfl]
    have hgone : ¬ HasCompatible (.node { d with props := d.props.del compatibleKey } cs') := by
      rintro ⟨compat, hcompat⟩
      exact nomatch hnone.symm.trans hcompat
    have hagain : muteCompat py keepNodes supportedDrivers path (d.props.del compatibleKey) =
        .ok (d.props.del compatibleKey) := by
      rw [muteCompat, hnone]
    refine ⟨_, hmute, hagain, nodeName_del d, ?_⟩
    refine ⟨⟨fun h => absurd h hgone, fun h => absurd h.2 hdrop⟩, fun h => absurd h hgone, ?_, rfl,
      hlen⟩
    exact Props.del_del _ _

/-! ## The whole tree -/

variable (py keepNodes supportedDrivers)

/-- `t` becomes `t'` under `path`, `t'` stays as it is, and every node is muted by its own path. -/
structure Filters (path : Text) (t t' : DtTree ι) : Prop where
  result : delCompat py keepNodes supportedDrivers path t = .ok t'
  again : delCompat py keepNodes supportedDrivers path t' = .ok t'
  name : nodeName py t'.label = nodeName py t.label
  nodes : ∀ pos, Option.Rel
    (MutedAt keepNodes supportedDrivers ((namesTo py t pos).foldl childPath path))
    (t.nodeAt pos) (t'.nodeAt pos)

variable {py keepNodes supportedDrivers}

theorem delCompatAll_filters {path : Text} {cs cs' : List (DtTree ι)}
    (h : List.Forall₂ (fun c c' => Filters py keepNodes supportedDrivers
      (childPath path (nodeName py c.label)) c c') cs cs') :
    delCompatAll py keepNodes supportedDrivers path cs = .ok cs' ∧
      delCompatAll py keepNodes supportedDrivers path cs' = .ok cs' := by
  induction h with
  | nil => exact ⟨rfl, rfl⟩
  | cons hc _ ih =>
    constructor
    · rw [delCompatAll, hc.result, ih.1]
      rfl
    · rw [delCompatAll, hc.name, hc.again, ih.2]
      rfl

theorem delCompat_filters_from (py : Foreign) (keepNodes : List Text)
    (supportedDrivers : List Bytes) (t : DtTree ι) : ∀ path : Text,
    Rose.Everywhere CompatIsText t →
      ∃ t', Filters py keepNodes supportedDrivers path t t' := by
  induction t using Rose.induct with
  | h d cs ih =>
    intro path htext
    obtain ⟨hnode, hchildren⟩ := Rose.everywhere_node_iff.mp htext
    obtain ⟨cs', hcs⟩ : ∃ cs', List.Forall₂ (fun c c' => Filters py keepNodes supportedDrivers
        (childPath path (nodeName py c.label)) c c') cs cs' :=
      exists_forall₂ fun c hc => ih c hc _ (hchildren c hc)
    obtain ⟨hall, hagain⟩ := delCompatAll_filters hcs
    obtain ⟨props, hmute, hmute', hname, hmuted⟩ :=
      mutedAt_of_muteCompat py keepNodes supportedDrivers path hnode hcs.length_eq.symm
    refine ⟨.node { d with props } cs', ?_, ?_, hname, ?_⟩
    · rw [delCompat, hall]
      show (muteCompat py keepNodes supportedDrivers path d.props >>= _) = _
      rw [hmute]
      rfl
    · rw [delCompat, hagain]
      show (muteCompat py keepNodes supportedDrivers path props >>= _) = _
      rw [hmute']
      rfl
    · intro pos
      cases pos with
      | nil => exact .some hmuted
      | cons i pos =>
        refine rel_bind (forall₂_getElem? hcs i) fun c c' hc hfilters => ?_
        rw [namesTo, Rose.labelsTo, hc]
        exact hfilters.nodes pos

/-- On a tree whose compatible values are strings or string lists, `del_compat` is the filter by path
and driver, and a second run changes nothing. -/
theorem delCompat_filters (py : Foreign) (keepNodes : List Text) (supportedDrivers : List Bytes)
    (t : DtTree ι) (htext : Rose.Everywhere CompatIsText t) :
    ∃ t', delCompat py keepNodes supportedDrivers [] t = .ok t' ∧
      (∀ pos, Option.Rel (MutedAt keepNodes supportedDrivers (pathTo py t pos))
        (t.nodeAt pos) (t'.nodeAt pos)) ∧
      delCompat py keepNodes supportedDrivers [] t' = .ok t' := by
  obtain ⟨t', hresult, hagain, -, hnodes⟩ :=
    delCompat_filters_from py keepNodes supportedDrivers t [] htext
  refine ⟨t', hresult, fun pos => ?_, hagain⟩
  have hpos := hnodes pos
  rw [foldl_childPath] at hpos
  exact hpos

end Filter

/-! ## A tree with an unnamed node -/

/-- No value is anything but text or bytes. -/
def plainPy : Foreign := ⟨fun _ => [], fun _ => true, fun _ _ => .error .type, fun _ => .error .type⟩

/-- A device below a node with an empty name. -/
def unnamedBus : DtTree ℕ :=
  .node ⟨0, [(nameKey, .str "device-tree".toList)]⟩
    [.node ⟨1, [(nameKey, .str [])]⟩
      [.node ⟨2, [(nameKey, .str "a".toList), (compatibleKey, .str "uart".toList)]⟩ []]]

theorem unnamedBus_text : Rose.Everywhere CompatIsText unnamedBus := by
  have hnone {k v : Text} (hk : k ≠ compatibleKey) (i : ℕ) (cs : List (DtTree ℕ)) :
      CompatIsText (.node ⟨i, [(k, .str v)]⟩ cs) := by
    intro compat hcompat
    rw [Rose.label, Props.get?_cons, if_neg hk] at hcompat
    nomatch hcompat
  have hname : nameKey ≠ compatibleKey := by decide +kernel
  refine .node (hnone hname 0 _) (List.forall_mem_singleton.mpr ?_)
  refine .node (hnone hname 1 _) (List.forall_mem_singleton.mpr ?_)
  refine .node ?_ (List.forall_mem_nil _)
  intro compat hcompat
  rw [Rose.label, Props.get?_cons, if_neg hname, Props.get?_cons, if_pos rfl] at hcompat
  rw [← Option.some.inj hcompat]
  rfl

theorem unnamedBus_filtered :
    ∃ t', delCompat plainPy ["a".toList] ["aic".toList.map fun c => UInt8.ofNat c.toNat] []
        unnamedBus = .ok t' ∧
      (∀ pos, Option.Rel (MutedAt ["a".toList]
        ["aic".toList.map fun c => UInt8.ofNat c.toNat] (pathTo plainPy unnamedBus pos))
        (unnamedBus.nodeAt pos) (t'.nodeAt pos)) ∧
      delCompat plainPy ["a".toList] ["aic".toList.map fun c => UInt8.ofNat c.toNat] [] t' =
        .ok t' :=
  delCompat_filters plainPy ["a".toList] _ unnamedBus unnamedBus_text

/-- The names of the device join to the kept path `/a`, and it is muted: its path is `a`. -/
theorem kept_join_muted :
    slashJoin (namesTo plainPy unnamedBus [0, 0]) = "/a".toList ∧
      ((unnamedBus.nodeAt [0, 0]).bind fun t => t.label.props.get? compatibleKey) =
        some (.str "uart".toList) ∧
      ((delCompat plainPy ["/a".toList] [] [] unnamedBus).toOption.bind fun t' =>
        (t'.nodeAt [0, 0]).map fun t => t.label.props.get? compatibleKey) = some none := by
  refine ⟨?_, ?_, ?_⟩
  · decide +kernel
  · decide +kernel
  · decide +kernel

end SecureWorld.DeviceTree
