import SecureWorld.Foundations.FileSystem
import SecureWorld.Foundations.LittleEndian
import SecureWorld.Foundations.RoseTree
import SecureWorld.Foundations.TextLines
import Mathlib.Data.Char
import Mathlib.Data.Finset.Sort
import Mathlib.Data.List.Lex

/-! # The list of code hashes (`scripts/darwinvm/darwinvm_gen_rootfs_trustcache.py`)

The script walks a mounted root file system, asks `codesign` for the code hash of every Mach-O file
and merges the hashes into a sorted list with one hash a line. What `codesign` prints and what
`str.lower` does outside ASCII are parameters.
-/
namespace SecureWorld.Bundle.TrustCache
open Foundations
set_option autoImplicit false

abbrev Text := List Char

/-! ## Mach-O files -/

def machoMagics : List ℕ :=
  [0xFEEDFACF, 0xCFFAEDFE, 0xFEEDFACE, 0xCEFAEDFE, 0xCAFEBABE, 0xBEBAFECA]

/-- The first four bytes, read in either order. -/
def isMacho (data : List UInt8) : Bool :=
  if data.length < 4 then false
  else
    decide (leNat (data.take 4).reverse ∈ machoMagics) || decide (leNat (data.take 4) ∈ machoMagics)

inductive Kind
  | directory
  | link
  | file (data : List UInt8)

structure Entry where
  name : Text
  kind : Kind

def skipDirs : List Text := ["com.apple.dyld".toList]

/-- What the walk makes of one name that is not a directory. -/
def machoPath (dirpath : Text) (e : Rose Entry) : Option Text :=
  match e.label.kind with
  | .file data =>
      if data.length < 4 then none
      else if isMacho data then some (joinPath dirpath e.label.name) else none
  | .directory | .link => none

def descends (e : Rose Entry) : Bool :=
  match e.label.kind with
  | .directory => decide (e.label.name ∉ skipDirs)
  | .file _ | .link => false

mutual

/-- `os.walk` from the top down, without following links. -/
def walkMachos (dirpath : Text) : Rose Entry → List Text
  | .node _ entries => entries.filterMap (machoPath dirpath) ++ walkDirs dirpath entries

def walkDirs (dirpath : Text) : List (Rose Entry) → List Text
  | [] => []
  | e :: es =>
      (if descends e then walkMachos (joinPath dirpath e.label.name) e else []) ++ walkDirs dirpath es

end

/-! ## Text -/

/-- `str.isspace` -/
def isSpace (c : Char) : Bool :=
  (9 ≤ c.toNat && c.toNat ≤ 13) || (28 ≤ c.toNat && c.toNat ≤ 32) ||
    (0x2000 ≤ c.toNat && c.toNat ≤ 0x200a) ||
    decide (c.toNat ∈ [0x85, 0xa0, 0x1680, 0x2028, 0x2029, 0x202f, 0x205f, 0x3000])

/-- Where `str.splitlines` ends a line. -/
def isLineBreak (c : Char) : Bool :=
  decide (c.toNat ∈ [0x0a, 0x0b, 0x0c, 0x0d, 0x1c, 0x1d, 0x1e, 0x85, 0x2028, 0x2029])

def isAscii (c : Char) : Bool := decide (c.toNat < 128)

/-- Files opened as text have their line ends translated. -/
def universalNewlines : Text → Text
  | '\r' :: '\n' :: cs => '\n' :: universalNewlines cs
  | '\r' :: cs => '\n' :: universalNewlines cs
  | c :: cs => c :: universalNewlines cs
  | [] => []

section Merge
variable (lowerOther : Text → Text) (codesign : Text → Option Text)

/-- `str.lower` -/
def lower (t : Text) : Text := if t.all isAscii then t.map Char.toLower else lowerOther t

def normalise (line : Text) : Text := lower lowerOther (stripEnds isSpace line)

def hexDigits : Text := "0123456789abcdef".toList

def hashOfLine (line : Text) : Option Text :=
  let line := stripEnds isSpace line
  if "CDHash=".toList.isPrefixOf line then
    -- what follows the first equals sign
    let h := normalise lowerOther (line.dropWhile (· ≠ '=')).tail
    if h.length = 40 ∧ h.all (hexDigits.contains ·) then some h else none
  else none

/-- An empty line more or less makes no difference to the search. -/
def cdhashOf (path : Text) : Option Text :=
  (codesign path).bind fun out =>
    ((universalNewlines out).splitOnP isLineBreak).findSome? (hashOfLine lowerOther)

/-- The hashes of a list; whatever is left of the last line is too short for one. -/
def readHashes (text : Text) : List Text :=
  ((universalNewlines text).splitOn '\n').filterMap fun line =>
    let h := normalise lowerOther line
    if h.length = 40 then some h else none

def found (rootfs : Text) (tree : Rose Entry) : List Text :=
  (walkMachos rootfs tree).filterMap (cdhashOf lowerOther codesign)

def merged (rootfs : Text) (tree : Rose Entry) (existing : Option Text) : List Text :=
  ((existing.elim [] (readHashes lowerOther)).toFinset ∪
    (found lowerOther codesign rootfs tree).toFinset).sort

/-- What `main` writes to the output list; `existing` is `none` where there is no such file. -/
def genTrustcache (rootfs : Text) (tree : Rose Entry) (existing : Option Text) : Text :=
  joinLines '\n' (merged lowerOther codesign rootfs tree existing)

end Merge

/-! ## What the walk finds -/

/-- `path` is the regular file with these bytes, below `dirpath` and in no skipped directory. -/
inductive OnDisk : Text → Rose Entry → Text → List UInt8 → Prop
  | here {dirpath : Text} {dir : Entry} {entries : List (Rose Entry)} {e : Rose Entry}
      {data : List UInt8} : e ∈ entries → e.label.kind = .file data →
      OnDisk dirpath (.node dir entries) (joinPath dirpath e.label.name) data
  | inside {dirpath path : Text} {dir : Entry} {entries : List (Rose Entry)} {e : Rose Entry}
      {data : List UInt8} : e ∈ entries → e.label.kind = .directory → e.label.name ∉ skipDirs →
      OnDisk (joinPath dirpath e.label.name) e path data → OnDisk dirpath (.node dir entries) path data

theorem isMacho_length {data : List UInt8} (h : isMacho data = true) : 4 ≤ data.length := by
  by_contra hshort
  rw [isMacho, if_pos (by omega)] at h
  exact absurd h (by decide)

theorem machoPath_eq_some {dirpath path : Text} {e : Rose Entry} :
    machoPath dirpath e = some path ↔ ∃ data, e.label.kind = .file data ∧ isMacho data = true ∧
      path = joinPath dirpath e.label.name := by
  rw [machoPath]
  cases hkind : e.label.kind with
  | file data =>
    dsimp only
    split_ifs with hshort hmacho
    · refine iff_of_false nofun ?_
      rintro ⟨data', hsame, hmacho, -⟩
      cases hsame
      have hlen := isMacho_length hmacho
      omega
    · rw [Option.some_inj]
      constructor
      · rintro rfl
        exact ⟨data, rfl, hmacho, rfl⟩
      · rintro ⟨-, -, -, rfl⟩
        rfl
    · refine iff_of_false nofun ?_
      rintro ⟨data', hsame, hmacho', -⟩
      cases hsame
      exact hmacho hmacho'
  | directory => exact iff_of_false nofun nofun
  | link => exact iff_of_false nofun nofun

theorem descends_iff {e : Rose Entry} :
    descends e = true ↔ e.label.kind = .directory ∧ e.label.name ∉ skipDirs := by
  rw [descends]
  cases e.label.kind with
  | directory => simp
  | file data => simp
  | link => simp

theorem walkDirs_eq (dirpath : Text) (es : List (Rose Entry)) : walkDirs dirpath es =
    es.flatMap fun e => if descends e then walkMachos (joinPath dirpath e.label.name) e else [] := by
  induction es with
  | nil => rw [walkDirs, List.flatMap_nil]
  | cons e es ih => rw [walkDirs, List.flatMap_cons, ih]

theorem mem_walkMachos {path : Text} {tree : Rose Entry} : ∀ {dirpath : Text},
    path ∈ walkMachos dirpath tree ↔ ∃ data, OnDisk dirpath tree path data ∧ isMacho data = true := by
  induction tree using Rose.induct with
  | h dir entries ih =>
    intro dirpath
    rw [walkMachos, List.mem_append, List.mem_filterMap, walkDirs_eq, List.mem_flatMap]
    constructor
    · rintro (⟨e, he, hpath⟩ | ⟨e, he, hpath⟩)
      · obtain ⟨data, hkind, hmacho, rfl⟩ := machoPath_eq_some.mp hpath
        exact ⟨data, .here he hkind, hmacho⟩
      · split_ifs at hpath with hdescends
        · obtain ⟨hkind, hname⟩ := descends_iff.mp hdescends
          obtain ⟨data, hdisk, hmacho⟩ := (ih e he).mp hpath
          exact ⟨data, .inside he hkind hname hdisk, hmacho⟩
        · exact absurd hpath List.not_mem_nil
    · rintro ⟨data, hdisk, hmacho⟩
      cases hdisk with
      | @here _ _ _ e _ he hkind => exact .inl ⟨e, he, machoPath_eq_some.mpr ⟨data, hkind, hmacho, rfl⟩⟩
      | @inside _ _ _ _ e _ he hkind hname hdisk =>
        refine .inr ⟨e, he, ?_⟩
        rw [if_pos (descends_iff.mpr ⟨hkind, hname⟩)]
        exact (ih e he).mpr ⟨data, hdisk, hmacho⟩

/-! ## Characters -/

theorem toLower_facts (c : Char) (h : isAscii c = true) : isAscii c.toLower = true ∧
    c.toLower.toLower = c.toLower ∧ isSpace c.toLower = isSpace c ∧
      (c.toLower = '\n' → c = '\n') ∧ (c.toLower = '\r' → c = '\r') := by
  have hall : ∀ n : Fin 128, isAscii (Char.ofNat n).toLower = true ∧
      (Char.ofNat n).toLower.toLower = (Char.ofNat n).toLower ∧
      isSpace (Char.ofNat n).toLower = isSpace (Char.ofNat n) ∧
      ((Char.ofNat n).toLower = '\n' → Char.ofNat n = '\n') ∧
      ((Char.ofNat n).toLower = '\r' → Char.ofNat n = '\r') := by
    decide +kernel
  have hc := hall ⟨c.toNat, of_decide_eq_true h⟩
  rwa [Char.ofNat_toNat] at hc

theorem hexDigits_facts : ∀ c ∈ hexDigits,
    isAscii c = true ∧ isSpace c = false ∧ c.toLower = c ∧ c ≠ '\n' ∧ c ≠ '\r' := by
  have hall : hexDigits.all fun c =>
      isAscii c = true ∧ isSpace c = false ∧ c.toLower = c ∧ c ≠ '\n' ∧ c ≠ '\r' := by
    decide +kernel
  intro c hc
  exact of_decide_eq_true (List.all_eq_true.mp hall c hc)

theorem not_mem_universalNewlines (text : Text) : '\r' ∉ universalNewlines text := by
  fun_induction universalNewlines text with
  | case1 cs ih => exact List.not_mem_cons_of_ne_of_not_mem (by decide) ih
  | case2 cs hcs ih => exact List.not_mem_cons_of_ne_of_not_mem (by decide) ih
  | case3 c cs hc hcs ih => exact List.not_mem_cons_of_ne_of_not_mem (Ne.symm hcs) ih
  | case4 => exact List.not_mem_nil

theorem universalNewlines_of_not_mem {text : Text} (h : '\r' ∉ text) :
    universalNewlines text = text := by
  fun_induction universalNewlines text with
  | case1 cs ih => exact absurd List.mem_cons_self h
  | case2 cs hcs ih => exact absurd List.mem_cons_self h
  | case3 c cs hc hcs ih => rw [ih fun hmem => h (List.mem_cons_of_mem _ hmem)]
  | case4 => rfl

theorem universalNewlines_ascii {text : Text} (h : ∀ c ∈ text, isAscii c = true) :
    ∀ c ∈ universalNewlines text, isAscii c = true := by
  fun_induction universalNewlines text with
  | case1 cs ih =>
    rw [List.forall_mem_cons, List.forall_mem_cons] at h
    exact List.forall_mem_cons.mpr ⟨h.2.1, ih h.2.2⟩
  | case2 cs hcs ih =>
    rw [List.forall_mem_cons] at h
    exact List.forall_mem_cons.mpr ⟨by decide, ih h.2⟩
  | case3 c cs hc hcs ih =>
    rw [List.forall_mem_cons] at h
    exact List.forall_mem_cons.mpr ⟨h.1, ih h.2⟩
  | case4 => exact h

/-! ## Hashes that are read back as they were written -/

section Hashes
variable {lowerOther : Text → Text} {codesign : Text → Option Text}

structure Listed (lowerOther : Text → Text) (h : Text) : Prop where
  length : h.length = 40
  normal : normalise lowerOther h = h
  noNewline : '\n' ∉ h
  noReturn : '\r' ∉ h

theorem lower_ascii {t : Text} (h : ∀ c ∈ t, isAscii c = true) :
    lower lowerOther t = t.map Char.toLower := if_pos (List.all_eq_true.mpr h)

theorem normalise_ascii {line : Text} (h : ∀ c ∈ line, isAscii c = true) :
    normalise lowerOther line = (stripEnds isSpace line).map Char.toLower :=
  lower_ascii fun c hc => h c ((stripEnds_sublist isSpace line).subset hc)

/-- A line is stripped and in lower case after it has been so once. -/
theorem normalise_idem {line : Text} (h : ∀ c ∈ line, isAscii c = true) :
    normalise lowerOther (normalise lowerOther line) = normalise lowerOther line := by
  have hstrip : ∀ c ∈ stripEnds isSpace line, isAscii c = true :=
    fun c hc => h c ((stripEnds_sublist isSpace line).subset hc)
  have hlower : ∀ c ∈ (stripEnds isSpace line).map Char.toLower, isAscii c = true := by
    intro c hc
    obtain ⟨d, hd, rfl⟩ := List.mem_map.mp hc
    exact (toLower_facts d (hstrip d hd)).1
  rw [normalise_ascii h, normalise_ascii hlower,
    stripEnds_map fun c hc => (toLower_facts c (hstrip c hc)).2.2.1, stripEnds_idem, List.map_map]
  exact List.map_congr_left fun c hc => (toLower_facts c (hstrip c hc)).2.1

theorem mem_readHashes {text h : Text} : h ∈ readHashes lowerOther text ↔
    ∃ line ∈ (universalNewlines text).splitOn '\n', normalise lowerOther line = h ∧
      h.length = 40 := by
  rw [readHashes, List.mem_filterMap]
  refine exists_congr fun line => and_congr_right fun _ => ?_
  dsimp only
  split_ifs with hlen
  · rw [Option.some_inj]
    constructor
    · rintro rfl
      exact ⟨rfl, hlen⟩
    · exact fun h => h.1
  · refine iff_of_false nofun ?_
    rintro ⟨rfl, hlen'⟩
    exact hlen hlen'

theorem listed_of_readHashes {text : Text} (hascii : ∀ c ∈ text, isAscii c = true) :
    ∀ h ∈ readHashes lowerOther text, Listed lowerOther h := by
  intro h hmem
  obtain ⟨line, hline, rfl, hlen⟩ := mem_readHashes.mp hmem
  have hsub := subset_of_mem_splitOn line hline
  have hlineAscii : ∀ c ∈ line, isAscii c = true :=
    fun c hc => universalNewlines_ascii hascii c (hsub hc)
  have hchar : ∀ c ∈ normalise lowerOther line, ∃ d ∈ line, isAscii d = true ∧ c = d.toLower := by
    rw [normalise_ascii hlineAscii]
    intro c hc
    obtain ⟨d, hd, rfl⟩ := List.mem_map.mp hc
    have hd' := (stripEnds_sublist isSpace line).subset hd
    exact ⟨d, hd', hlineAscii d hd', rfl⟩
  refine ⟨hlen, normalise_idem hlineAscii, fun hnl => ?_, fun hcr => ?_⟩
  · obtain ⟨d, hd, hdascii, heq⟩ := hchar _ hnl
    exact not_mem_of_mem_splitOn line hline ((toLower_facts d hdascii).2.2.2.1 heq.symm ▸ hd)
  · obtain ⟨d, hd, hdascii, heq⟩ := hchar _ hcr
    exact not_mem_universalNewlines text
      (hsub ((toLower_facts d hdascii).2.2.2.2 heq.symm ▸ hd))

theorem listed_of_hashOfLine {line h : Text} (hline : hashOfLine lowerOther line = some h) :
    Listed lowerOther h := by
  rw [hashOfLine] at hline
  dsimp only at hline
  split_ifs at hline with hprefix hhash
  obtain rfl := Option.some.inj hline
  obtain ⟨hlen, hdigits⟩ := hhash
  have hfacts := fun c hc => hexDigits_facts c
    (List.contains_iff_mem.mp (List.all_eq_true.mp hdigits c hc))
  refine ⟨hlen, ?_, fun hnl => (hfacts _ hnl).2.2.2.1 rfl, fun hcr => (hfacts _ hcr).2.2.2.2 rfl⟩
  rw [normalise_ascii fun c hc => (hfacts c hc).1, stripEnds_of_forall fun c hc => (hfacts c hc).2.1]
  exact (List.map_congr_left fun c hc => (hfacts c hc).2.2.1).trans (List.map_id _)

theorem readHashes_joinLines {hs : List Text} (h : ∀ t ∈ hs, Listed lowerOther t) :
    readHashes lowerOther (joinLines '\n' hs) = hs := by
  have hno : '\r' ∉ joinLines '\n' hs := by
    intro hmem
    rcases mem_joinLines hmem with hc | ⟨t, ht, hc⟩
    · exact absurd hc (by decide)
    · exact (h t ht).noReturn hc
  let hash (line : Text) : Option Text :=
    let h := normalise lowerOther line
    if h.length = 40 then some h else none
  have hempty : hash [] = none := by
    refine if_neg ?_
    rw [normalise_ascii (List.forall_mem_nil _)]
    decide
  have hkept : ∀ t ∈ hs, hash t = some t := by
    intro t ht
    dsimp only [hash]
    rw [(h t ht).normal, if_pos (h t ht).length]
  change ((universalNewlines (joinLines '\n' hs)).splitOn '\n').filterMap hash = hs
  rw [universalNewlines_of_not_mem hno, splitOn_joinLines fun t ht => (h t ht).noNewline,
    List.filterMap_append, List.filterMap_cons_none hempty, List.filterMap_nil, List.append_nil]
  split_ifs with hnil
  · rw [hnil, List.filterMap_cons_none hempty, List.filterMap_nil]
  · exact (List.filterMap_congr hkept).trans List.filterMap_some

theorem mem_found {rootfs : Text} {tree : Rose Entry} {h : Text} :
    h ∈ found lowerOther codesign rootfs tree ↔ ∃ path data, OnDisk rootfs tree path data ∧
      isMacho data = true ∧ cdhashOf lowerOther codesign path = some h := by
  rw [found, List.mem_filterMap]
  refine exists_congr fun path => ?_
  rw [mem_walkMachos]
  constructor
  · rintro ⟨⟨data, hdisk, hmacho⟩, hhash⟩
    exact ⟨data, hdisk, hmacho, hhash⟩
  · rintro ⟨data, hdisk, hmacho, hhash⟩
    exact ⟨⟨data, hdisk, hmacho⟩, hhash⟩

theorem listed_of_found {rootfs : Text} {tree : Rose Entry} :
    ∀ h ∈ found lowerOther codesign rootfs tree, Listed lowerOther h := by
  intro h hfound
  obtain ⟨path, data, -, -, hhash⟩ := mem_found.mp hfound
  obtain ⟨out, -, hline⟩ := Option.bind_eq_some_iff.mp hhash
  obtain ⟨line, -, hline⟩ := List.exists_of_findSome?_eq_some hline
  exact listed_of_hashOfLine hline

/-- The list that is written holds, in order and once each, the hashes of the old list and those of
all Mach-O files of the file system, and nothing else; on the same file system the script writes it
again unchanged. -/
theorem trustcache_merges_exactly (lowerOther : Text → Text) (codesign : Text → Option Text)
    (rootfs : Text) (tree : Rose Entry) (existing : Option Text)
    (hascii : ∀ text ∈ existing, ∀ c ∈ text, isAscii c = true) :
    let out := genTrustcache lowerOther codesign rootfs tree existing
    (∀ h, h ∈ readHashes lowerOther out ↔ (∃ text ∈ existing, h ∈ readHashes lowerOther text) ∨
        ∃ path data, OnDisk rootfs tree path data ∧ isMacho data = true ∧
          cdhashOf lowerOther codesign path = some h) ∧
      (readHashes lowerOther out).Pairwise (· < ·) ∧
      genTrustcache lowerOther codesign rootfs tree (some out) = out := by
  intro out
  have hmem (h : Text) : h ∈ merged lowerOther codesign rootfs tree existing ↔
      (∃ text ∈ existing, h ∈ readHashes lowerOther text) ∨
        h ∈ found lowerOther codesign rootfs tree := by
    rw [merged, Finset.mem_sort, Finset.mem_union, List.mem_toFinset, List.mem_toFinset]
    cases existing <;> simp
  have hlisted : ∀ h ∈ merged lowerOther codesign rootfs tree existing, Listed lowerOther h := by
    intro h hh
    rcases (hmem h).mp hh with ⟨text, htext, hread⟩ | hfound
    · exact listed_of_readHashes (hascii text htext) h hread
    · exact listed_of_found h hfound
  have hread : readHashes lowerOther out = merged lowerOther codesign rootfs tree existing :=
    readHashes_joinLines hlisted
  rw [hread]
  refine ⟨fun h => by rw [hmem, mem_found], (Finset.sortedLT_sort _).pairwise, ?_⟩
  refine congrArg (joinLines '\n') ?_
  -- everything found is in the list already
  rw [merged, Option.elim_some, hread, merged, Finset.sort_toFinset, Finset.union_assoc,
    Finset.union_self]

end Hashes

/-- A Mach-O file, a link, and a Mach-O file in the skipped directory. -/
def smallRootfs : Rose Entry :=
  .node ⟨"mnt".toList, .directory⟩
    [.node ⟨"launchd".toList, .file [0xcf, 0xfa, 0xed, 0xfe, 0x0c]⟩ [],
      .node ⟨"launchd.old".toList, .link⟩ [],
      .node ⟨"com.apple.dyld".toList, .directory⟩
        [.node ⟨"dyld_shared_cache".toList, .file [0xcf, 0xfa, 0xed, 0xfe]⟩ []]]

def launchdHash : Text := List.replicate 39 'a' ++ ['7']

def smallCodesign (path : Text) : Option Text :=
  if path = "/mnt/launchd".toList then
    some ("Format=Mach-O thin\nCDHash=".toList ++ launchdHash.map Char.toUpper ++ ['\n'])
  else none

def oldHash : Text := List.replicate 40 'b'

/-- The list of an earlier run, with one hash that is no longer on the disk. -/
def oldList : Text := oldHash ++ ['\n']

theorem trustcache_merges_exactly_launchd :
    let out := genTrustcache id smallCodesign "/mnt".toList smallRootfs (some oldList)
    oldHash ∈ readHashes id out ∧ launchdHash ∈ readHashes id out ∧
      (readHashes id out).Pairwise (· < ·) ∧
      genTrustcache id smallCodesign "/mnt".toList smallRootfs (some out) = out := by
  have hascii : oldList.all isAscii = true := by decide
  have hold : oldHash ∈ readHashes id oldList := by decide +kernel
  have h := trustcache_merges_exactly id smallCodesign "/mnt".toList smallRootfs (some oldList)
    fun text htext c hc => List.all_eq_true.mp hascii c (Option.some.inj htext ▸ hc)
  exact ⟨(h.1 oldHash).mpr (.inl ⟨oldList, rfl, hold⟩), (h.1 launchdHash).mpr
    (.inr ⟨_, _, .here List.mem_cons_self rfl, by decide, by decide +kernel⟩), h.2⟩

end SecureWorld.Bundle.TrustCache
