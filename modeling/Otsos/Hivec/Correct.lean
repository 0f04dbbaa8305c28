import Mathlib.Data.List.Find
import Mathlib.Data.List.Infix
import Otsos.Hivec.Output

/-! The kernel finds in a compiled pack what the sources declare: every key by its path, every value
by its name with its type and its data, and the access that the nearest annotation gives. This is so
as long as the names fit in the kernel's tables, which neither the compiler nor the loader
checks. -/
namespace Otsos.Hivec
open Related
open List Option

/-- The level that the first of some flags sets, from the inside out. -/
def nearest (shift : UInt32) : List UInt32 → UInt32
  | [] => hivefsAccessInherit
  | flags :: outer =>
    if (flags >>> shift) &&& hivefsAccessMask ≠ hivefsAccessInherit then (flags >>> shift) &&& hivefsAccessMask
    else nearest shift outer

/-- The access that the annotations around something give it. -/
def declaredAccess (enclosing : List UInt32) : UInt32 :=
  accessPack ⟨nearest hivefsAccessReadShift enclosing, nearest hivefsAccessAddShift enclosing,
    nearest hivefsAccessEditShift enclosing⟩

/-- The flags of the key that is declared with these parts. -/
def keyFlags (hive : Hive) (parts : List Text) : UInt32 :=
  ((hive.keys.find? fun key => Parser.splitDots key.path = parts).map (·.flags)).getD 0

/-- The flags around a key: its own, those of the keys above it, those of the hive, and the
default. -/
def enclosing (hive : Hive) (key : Key) : List UInt32 :=
  (Parser.splitDots key.path).inits.reverse.map (keyFlags hive) ++ [hive.flags, hivefsAccessDefault]

/-- The registry shows the keys and the values of a hive as they are declared. -/
structure Agrees (s : Hivefs) (hive : Hive) : Prop where
  key : ∀ key ∈ hive.keys, ∃ found, s.findKey (utf8 hive.name) (utf8 key.path) = .ok found
  keyAccess : ∀ key ∈ hive.keys, ∀ fuel, (Parser.splitDots key.path).length < fuel →
    s.accessInfo fuel (utf8 hive.name) (utf8 key.path) [] =
    some (.ok (declaredAccess (enclosing hive key)))
  value : ∀ key ∈ hive.keys, ∀ value ∈ key.values, ∃ found,
    s.valueInfo (utf8 hive.name) (utf8 key.path) (utf8 value.name) = .ok found ∧
      found.type = value.type.id ∧ found.data = value.data
  valueAccess : ∀ key ∈ hive.keys, ∀ value ∈ key.values, ∀ fuel,
    (Parser.splitDots key.path).length < fuel →
      s.accessInfo fuel (utf8 hive.name) (utf8 key.path) (utf8 value.name) =
      some (.ok (declaredAccess (value.flags :: enclosing hive key)))

/-- Every name fits in `HIVEFS_NAME_SIZE` bytes with its NUL. -/
structure Short (hive : Hive) : Prop where
  part : ∀ key ∈ hive.keys, ∀ part ∈ Parser.splitDots key.path, (utf8 part).length < hivefsNameSize
  value : ∀ key ∈ hive.keys, ∀ value ∈ key.values, (utf8 value.name).length < hivefsNameSize

variable {hive : Hive} {tree : HiveTree} {i j : Nat} {key : Key}

variable {k : Nat}

theorem findIdx?_unique {l : List α} (found : l[k]? = some a)
    (holds : p a = true) (only : ∀ (j : Nat) b, l[j]? = some b → p b = true → j = k) :
    l.findIdx? p = some k := by
  obtain ⟨inside, rfl⟩ := List.getElem?_eq_some_iff.mp found
  refine findIdx?_eq_some_iff_getElem.mpr ⟨inside, holds, fun j _ satisfied => ?_⟩
  have same := only j l[j] (List.getElem?_eq_getElem _) satisfied
  omega

theorem asInt_of_lt (small : k < 2 ^ 31) : HiveTree.asInt (some k) = some k := by
  rw [HiveTree.asInt, filter_some, if_pos (decide_eq_true small)]

/-- The tree that the kernel has made of the nodes of a hive. -/
structure TreeOf (hive : Hive) (nodes : List Node) (tree : HiveTree) : Prop where
  built : Built hive.keys hive.keys nodes
  root : ∃ node, nodes[0]? = some node ∧ node.path = []
  keys : List.Forall₂ (KeyOf nodes) nodes.zipIdx tree.nodes
  values : List.Forall₂ ValueOf (valueList nodes) tree.values
  flags : tree.flags = hive.flags
  fewNodes : tree.nodes.length < 2 ^ 31
  fewValues : tree.values.length < 2 ^ 31

namespace TreeOf

theorem lookupParts_append (front back : List (List UInt8)) (i : Nat) :
    tree.lookupParts (front ++ back) i = tree.lookupParts front i >>= tree.lookupParts back := by
  induction front generalizing i with
  | nil => rfl
  | cons part front ih =>
    rw [cons_append, HiveTree.lookupParts, HiveTree.lookupParts]
    split
    · rfl
    split
    · exact ih _
    · rfl

section
variable (of : TreeOf hive nodes tree)
include of

theorem key_at (found : nodes[i]? = some node) :
    ∃ h, tree.nodes[i]? = some h ∧ KeyOf nodes (node, i) h := by
  refine forall₂_getElem? of.keys ?_
  rw [getElem?_zipIdx, found, Nat.zero_add]
  rfl

theorem node_at (found : tree.nodes[i]? = some h) :
    ∃ node, nodes[i]? = some node ∧ KeyOf nodes (node, i) h := by
  obtain ⟨⟨node, j⟩, there, related⟩ := forall₂_getElem? of.keys.flip found
  rw [getElem?_zipIdx, map_eq_some_iff] at there
  obtain ⟨node', here, same⟩ := there
  rw [Nat.zero_add, Prod.mk.injEq] at same
  obtain ⟨rfl, rfl⟩ := same
  exact ⟨node', here, related⟩

theorem lt_of_found (found : nodes[i]? = some node) : i < 2 ^ 31 := by
  obtain ⟨h, there, _⟩ := of.key_at found
  exact Nat.lt_trans (List.getElem?_eq_some_iff.mp there).1 of.fewNodes

theorem eq_of_path (found : nodes[i]? = some node)
    (there : nodes[j]? = some other) (same : node.path = other.path) : i = j := by
  have left : (nodes.map (·.path))[i]? = some node.path := by rw [getElem?_map, found]; rfl
  have right : (nodes.map (·.path))[j]? = some other.path := by rw [getElem?_map, there]; rfl
  rw [← same, ← left] at right
  exact (List.getElem?_inj (List.getElem?_eq_some_iff.mp left).1 of.built.distinct).mp right.symm

theorem ne_zero (found : nodes[i]? = some node) (some_ : node.path ≠ []) : i ≠ 0 := by
  obtain ⟨_, rootFound, rootPath⟩ := of.root
  rintro rfl
  rw [found, some.injEq] at rootFound
  exact some_ (rootFound ▸ rootPath)

theorem parent_at (found : nodes[i]? = some node) (related : KeyOf nodes (node, i) h) :
    if node.path = [] then h.parent = hivefsNoIndex
    else ∃ above, nodes[h.parent]? = some above ∧ above.path = parentPath node.path := by
  obtain ⟨_, rootFound, rootPath⟩ := of.root
  have parent := related.parent
  rw [parentIndex] at parent
  split
  · next empty =>
    rw [if_pos (of.eq_of_path found rootFound (empty.trans rootPath.symm))] at parent
    exact (Except.ok.inj parent).symm
  next some_ =>
  rw [if_neg (of.ne_zero found some_)] at parent
  exact nodeIndex_ok parent

theorem nodes_ne_nil : tree.nodes ≠ [] := by
  obtain ⟨_, found, _⟩ := of.root
  obtain ⟨h, there, _⟩ := of.key_at found
  rintro empty
  rw [empty] at there
  cases there

theorem live (found : nodes[i]? = some node) : tree.live i = true := by
  obtain ⟨h, there, related⟩ := of.key_at found
  simp [HiveTree.live, there, related.alive]

variable (good : hive.Good u)
include good

theorem name_whole (short : Short hive) (member : node ∈ nodes) (some_ : node.path ≠ []) :
    (nameCopy (utf8 node.name)).bytes = utf8 node.name := by
  obtain ⟨key, inside, part⟩ := of.built.origin node member some_
  refine nameCopy_short (utf8_plain (u := u) fun c within => ?_)
    (short.part key inside node.name part)
  exact (good.keys key inside).path.chars c (splitDots_chars node.name part c within).1

theorem findChild (short : Short hive)
    (aboveFound : nodes[i]? = some above) (found : nodes[j]? = some node) (some_ : node.path ≠ [])
    (parent : parentPath node.path = above.path) : tree.findChild i (utf8 node.name) = some j := by
  obtain ⟨h, there, related⟩ := of.key_at found
  have hit : (HiveTree.isChild i h && h.name.bytes == utf8 node.name) = true := by
    have here := of.parent_at found related
    rw [if_neg some_] at here
    obtain ⟨_, aboveFound', same⟩ := here
    have number := of.eq_of_path aboveFound' aboveFound (same.trans parent)
    simp [HiveTree.isChild, related.alive, number, related.name, of.name_whole good short (mem_of_getElem? found) some_]
  rw [HiveTree.findChild, if_pos (of.live aboveFound), findIdx?_unique there hit ?_,
    asInt_of_lt (of.lt_of_found found)]
  -- another child with the same name would have the same path
  intro k _ there' hit'
  obtain ⟨node', found', related'⟩ := of.node_at there'
  simp only [HiveTree.isChild, Bool.and_eq_true, beq_iff_eq] at hit'
  obtain ⟨⟨_, parent'⟩, name'⟩ := hit'
  have up := of.parent_at found' related'
  have some' : node'.path ≠ [] := by
    intro empty
    rw [if_pos empty, parent'] at up
    have bound := of.lt_of_found aboveFound
    rw [up, hivefsNoIndex] at bound
    omega
  rw [if_neg some', parent', aboveFound] at up
  obtain ⟨_, same, path'⟩ := up
  cases same
  rw [related'.name, of.name_whole good short (mem_of_getElem? found') some'] at name'
  have linked := of.built.linked node (mem_of_getElem? found) some_
  have linked' := of.built.linked node' (mem_of_getElem? found') some'
  refine of.eq_of_path found' found ?_
  rw [linked.path, linked'.path, ← path', parent, utf8_injective name']

theorem lookupParts (short : Short hive) (member : path ∈ nodes.map (·.path)) :
    ∃ j node, nodes[j]? = some node ∧ node.path = path ∧
    tree.lookupParts ((partsOf path).map utf8) 0 = .ok j := by
  refine of.built.path_induction ?_ ?_ path member
  · obtain ⟨root, found, empty⟩ := of.root
    exact ⟨0, root, found, empty, rfl⟩
  · rintro path part _ part_ here ⟨i, above, aboveFound, abovePath, looked⟩
    obtain ⟨node, inside, same⟩ := mem_map.mp here
    obtain ⟨j, found⟩ := mem_iff_getElem?.mp inside
    have some_ : node.path ≠ [] := same ▸ extend_ne_nil part_
    have parent : parentPath node.path = above.path := by rw [same, parentPath_extend part_, abovePath]
    have name : node.name = part := by
      have linked := of.built.linked node inside some_
      exact (extend_injective linked.part part_ (linked.path.symm.trans same)).2
    refine ⟨j, node, found, same, ?_⟩
    have child := of.findChild good short aboveFound found some_ parent
    rw [name] at child
    rw [partsOf_extend part_, map_append, lookupParts_append, looked]
    show tree.lookupParts [utf8 part] i = .ok j
    rw [HiveTree.lookupParts, if_neg (utf8_ne_nil part_.some_), child]
    rfl

theorem components_path (member : key ∈ hive.keys) :
    components isKeySep (utf8 key.path) = (Parser.splitDots key.path).map utf8 := by
  have isId := (good.keys key member).path
  refine components_utf8 isId.chars fun part inside => ?_
  rw [← partsOf_of_ne isId.some_] at inside
  exact (of.built.parts (of.built.present key member) part inside).some_

theorem lookup (short : Short hive) (member : key ∈ hive.keys) :
    ∃ j node, nodes[j]? = some node ∧ node.path = key.path ∧
    tree.lookup (utf8 key.path) = .ok j := by
  obtain ⟨j, node, found, path, looked⟩ := of.lookupParts good short (of.built.present key member)
  refine ⟨j, node, found, path, ?_⟩
  rw [HiveTree.lookup, if_neg of.nodes_ne_nil, of.components_path good member,
    ← partsOf_of_ne (good.keys key member).path.some_]
  exact looked

theorem values_at (member : key ∈ hive.keys)
    (found : nodes[i]? = some node) (path : node.path = key.path) : node.values = key.values := by
  rw [of.built.values node (mem_of_getElem? found), path, keyAt_self good.paths member]
  rfl

theorem findValue (short : Short hive) (member : key ∈ hive.keys)
    (inside : value ∈ key.values) (found : nodes[i]? = some node) (path : node.path = key.path) :
    ∃ v, (tree.findValue i (utf8 value.name)).bind (tree.values[·]?) = some v ∧
    ValueOf (i, value) v := by
  have values := of.values_at good member found path
  have whole : ∀ other ∈ key.values, (nameCopy (utf8 other.name)).bytes = utf8 other.name := fun other within =>
    nameCopy_short (utf8_plain (u := u) ((good.keys key member).values other within).name.chars)
      (short.value key member other within)
  obtain ⟨v, there, related⟩ := forall₂_exists_left of.values.flip
    (mem_valueList.mpr ⟨node, found, values ▸ inside⟩ : (i, value) ∈ valueList nodes)
  have hit : (HiveTree.isValueOf i v && v.name.bytes == utf8 value.name) = true := by
    simp [HiveTree.isValueOf, related.alive, related.node, related.name, whole value inside]
  obtain ⟨k, first⟩ : ∃ k, tree.values.findIdx? (fun v => HiveTree.isValueOf i v &&
      v.name.bytes == utf8 value.name) = some k := by
    rw [← isSome_iff_exists, findIdx?_isSome, List.any_eq_true]
    exact ⟨v, there, hit⟩
  obtain ⟨within, hit', _⟩ := findIdx?_eq_some_iff_getElem.mp first
  refine ⟨tree.values[k], ?_, ?_⟩
  · rw [HiveTree.findValue, if_pos (of.live found), first, asInt_of_lt (Nat.lt_trans within of.fewValues)]
    exact List.getElem?_eq_getElem within
  -- what is found first has the name, and names are distinct
  · obtain ⟨⟨k', other⟩, listed, related'⟩ := forall₂_exists_left of.values (getElem_mem within)
    simp only [HiveTree.isValueOf, Bool.and_eq_true, beq_iff_eq] at hit'
    obtain ⟨⟨_, number⟩, name⟩ := hit'
    have same : k' = i := related'.node.symm.trans number
    subst same
    obtain ⟨node', found', among⟩ := mem_valueList.mp listed
    rw [show nodes[k']? = some node' from found', some.injEq] at found
    subst found
    rw [values] at among
    rw [related'.name, whole other among] at name
    have equal := inj_on_of_nodup_map (good.keys key member).names among inside (utf8_injective name)
    exact equal ▸ related'

theorem flags_at (member : node ∈ nodes) : node.flags = keyFlags hive (partsOf node.path) := by
  have same : keyAt hive.keys node.path =
      hive.keys.find? fun key => Parser.splitDots key.path = partsOf node.path := by
    refine find?_congr fun key inside => ?_
    rw [← partsOf_of_ne (good.keys key inside).path.some_]
    exact decide_eq_decide.mpr partsOf_injective.eq_iff.symm
  rw [of.built.flags node member, same]
  rfl

theorem accessWalk (member : path ∈ nodes.map (·.path)) :
    ∀ a fuel i node, nodes[i]? = some node → node.path = path → (partsOf path).length < fuel →
      tree.accessWalk fuel i a = some (.ok (((partsOf path).inits.reverse.map (keyFlags hive)).foldl
        (fun a flags => accessMerge flags a) a)) := by
  refine of.built.path_induction ?_ ?_ path member
  · intro a fuel i node found empty enough
    obtain ⟨root, rootFound, rootPath⟩ := of.root
    obtain ⟨h, there, related⟩ := of.key_at found
    obtain ⟨fuel, rfl⟩ := Loop.fuel_succ enough
    have number := of.eq_of_path found rootFound (empty.trans rootPath.symm)
    rw [HiveTree.accessWalk, there]
    simp only [related.alive, number]
    rw [related.flags, of.flags_at good (mem_of_getElem? found), empty]
    rfl
  · intro path part _ part_ _ ih a fuel i node found same enough
    obtain ⟨h, there, related⟩ := of.key_at found
    have some_ : node.path ≠ [] := same ▸ extend_ne_nil part_
    have up := of.parent_at found related
    rw [if_neg some_, same, parentPath_extend part_] at up
    obtain ⟨above, aboveFound, abovePath⟩ := up
    obtain ⟨fuel, rfl⟩ := Loop.fuel_succ enough
    have fewer : (partsOf path).length < fuel := by
      rw [partsOf_extend part_, length_append, length_singleton] at enough
      omega
    have prefixes : (partsOf path ++ [part]).inits.reverse =
        (partsOf path ++ [part]) :: (partsOf path).inits.reverse := by
      simp
    rw [HiveTree.accessWalk, there]
    simp only [related.alive, of.ne_zero found some_, Bool.false_eq_true, if_false]
    rw [ih _ fuel h.parent above aboveFound abovePath fewer, partsOf_extend part_, prefixes, map_cons,
      foldl_cons, related.flags, of.flags_at good (mem_of_getElem? found), same, partsOf_extend part_]

end

end TreeOf

theorem accessMergeOne_eq (flags shift level : UInt32) :
    accessMergeOne flags shift level = if level ≠ hivefsAccessInherit then level
      else (flags >>> shift) &&& hivefsAccessMask := by
  rw [accessMergeOne]
  split
  · rfl
  next inherited =>
  simp only
  split
  · rfl
  next none_ =>
  rw [Decidable.not_not.mp none_]
  exact Decidable.not_not.mp inherited

theorem foldl_accessMergeOne (shift level : UInt32) (enclosing : List UInt32) :
    enclosing.foldl (fun level flags => accessMergeOne flags shift level) level =
      if level ≠ hivefsAccessInherit then level else nearest shift enclosing := by
  induction enclosing generalizing level with
  | nil =>
    split
    · rfl
    · next inherited => exact Decidable.not_not.mp inherited
  | cons flags outer ih =>
    rw [foldl_cons, ih, accessMergeOne_eq, nearest]
    by_cases set : level ≠ hivefsAccessInherit
    · simp only [if_pos set]
    · simp only [if_neg set]

theorem foldl_accessMerge (enclosing : List UInt32) : enclosing.foldl (fun a flags => accessMerge flags a)
        ⟨hivefsAccessInherit, hivefsAccessInherit, hivefsAccessInherit⟩ =
      ⟨nearest hivefsAccessReadShift enclosing, nearest hivefsAccessAddShift enclosing,
        nearest hivefsAccessEditShift enclosing⟩ := by
  have fields : ∀ (l : List UInt32) (a : Access), l.foldl (fun a flags => accessMerge flags a) a =
      ⟨l.foldl (fun level flags => accessMergeOne flags hivefsAccessReadShift level) a.read,
        l.foldl (fun level flags => accessMergeOne flags hivefsAccessAddShift level) a.add,
        l.foldl (fun level flags => accessMergeOne flags hivefsAccessEditShift level) a.edit⟩ := by
    intro l
    induction l with
    | nil => exact fun _ => rfl
    | cons flags l ih => exact fun a => ih _
  rw [fields]
  simp only [foldl_accessMergeOne, ne_eq, not_true_eq_false, if_false]

variable {s : Hivefs}

/-- The registry has the hive under its name, as its tree. -/
def Shows (s : Hivefs) (hive : Hive) (tree : HiveTree) : Prop :=
  s.loaded = true ∧ ∃ i h, s.findHiveName (utf8 hive.name) = some i ∧ s.hives[i]? = some h ∧
    h.toHiveTree = tree

theorem Shows.findKey (shows : Shows s hive tree) (path : List UInt8) :
    s.findKey (utf8 hive.name) path = (tree.lookup path).map (tree, ·) := by
  obtain ⟨_, i, h, named, found, rfl⟩ := shows
  rw [Hivefs.findKey, named, bind_some, found]
  rfl

theorem agrees_of_short (of : TreeOf hive nodes tree) (good : hive.Good u)
    (shows : Shows s hive tree) (short : Short hive) : Agrees s hive := by
  have loaded := shows.1
  have located : ∀ key ∈ hive.keys, ∃ j node, nodes[j]? = some node ∧ node.path = key.path ∧
      s.findKey (utf8 hive.name) (utf8 key.path) = .ok (tree, j) := fun key member => by
    obtain ⟨j, node, found, path, looked⟩ := of.lookup good short member
    exact ⟨j, node, found, path, by rw [shows.findKey, looked]; rfl⟩
  -- the levels collected from a start that has merged some flags already
  have walked : ∀ key ∈ hive.keys, ∀ (inner : List UInt32) fuel j node, nodes[j]? = some node →
      node.path = key.path → (Parser.splitDots key.path).length < fuel →
      (tree.accessWalk fuel j (inner.foldl (fun a flags => accessMerge flags a)
        ⟨hivefsAccessInherit, hivefsAccessInherit, hivefsAccessInherit⟩)).map (fun result => result.map fun a =>
          accessPack (accessMerge hivefsAccessDefault (accessMerge tree.flags a))) =
        some (.ok (declaredAccess (inner ++ enclosing hive key))) := by
    intro key member inner fuel j node found path enough
    have parts := partsOf_of_ne (good.keys key member).path.some_
    rw [of.accessWalk good (of.built.present key member) _ fuel j node found path (parts ▸ enough),
      parts, of.flags, declaredAccess, ← foldl_accessMerge, enclosing, foldl_append, foldl_append]
    rfl
  refine ⟨fun key member => ?_, fun key member fuel enough => ?_, fun key member value inside => ?_,
    fun key member value inside fuel enough => ?_⟩
  all_goals obtain ⟨j, node, found, path, looked⟩ := located key member
  · exact ⟨_, looked⟩
  · rw [Hivefs.accessInfo, loaded]
    simp only [looked]
    exact walked key member [] fuel j node found path enough
  all_goals
    obtain ⟨v, valueFound, related⟩ := of.findValue good short member inside found path
    have some_ := utf8_ne_nil ((good.keys key member).values value inside).name.some_
  · refine ⟨v, ?_, related.type, related.data⟩
    rw [Hivefs.valueInfo, loaded, if_neg (by simp [some_]), looked]
    dsimp only [bind, Except.bind]
    rw [valueFound]
    rfl
  · rw [Hivefs.accessInfo, loaded]
    simp only [looked, some_, valueFound, map_some, related.flags]
    exact walked key member [value.flags] fuel j node found path enough

theorem findChild_short (found : tree.findChild i part = some j) :
    part.length < hivefsNameSize := by
  rw [HiveTree.findChild] at found
  split at found
  case isFalse => cases found
  have first := (filter_eq_some_iff.mp found).1
  obtain ⟨_, hit, _⟩ := findIdx?_eq_some_iff_getElem.mp first
  rw [Bool.and_eq_true, beq_iff_eq] at hit
  exact hit.2 ▸ tree.nodes[j].name.short

theorem lookupParts_short (found : tree.lookupParts parts i = .ok j) :
    ∀ part ∈ parts, part.length < hivefsNameSize := by
  induction parts generalizing i with
  | nil => exact nofun
  | cons part parts ih =>
    rw [HiveTree.lookupParts] at found
    split at found
    · cases found
    split at found
    · next k child =>
      intro other member
      rcases mem_cons.mp member with rfl | later
      · exact findChild_short child
      · exact ih found other later
    · cases found

theorem parts_short (of : TreeOf hive nodes tree) (good : hive.Good u) (shows : Shows s hive tree)
    (member : key ∈ hive.keys) (looked : s.findKey (utf8 hive.name) (utf8 key.path) = .ok found) :
    ∀ part ∈ Parser.splitDots key.path, (utf8 part).length < hivefsNameSize := by
  intro part inside
  rw [shows.findKey] at looked
  cases search : tree.lookup (utf8 key.path) with
  | error e =>
    rw [search] at looked
    cases looked
  | ok j =>
    rw [HiveTree.lookup, if_neg of.nodes_ne_nil, of.components_path good member] at search
    exact lookupParts_short search (utf8 part) (mem_map_of_mem inside)

theorem valueInfo_inv {found : HiveValue} (looked : s.valueInfo hiveName path name = .ok found) :
    name.length < hivefsNameSize ∧ ∃ located, s.findKey hiveName path = .ok located := by
  rw [Hivefs.valueInfo] at looked
  split at looked
  · cases looked
  obtain ⟨⟨h, j⟩, located, looked⟩ := Loop.except_bind_ok looked
  refine ⟨?_, _, located⟩
  simp only at looked
  split at looked
  · cases looked
  next v valueFound =>
  obtain ⟨k, search, _⟩ := bind_eq_some_iff.mp valueFound
  rw [HiveTree.findValue] at search
  split at search
  case isFalse => cases search
  obtain ⟨_, hit, _⟩ := findIdx?_eq_some_iff_getElem.mp (filter_eq_some_iff.mp search).1
  rw [Bool.and_eq_true, beq_iff_eq] at hit
  exact hit.2 ▸ h.values[k].name.short

theorem short_of_agrees (of : TreeOf hive nodes tree) (good : hive.Good u)
    (shows : Shows s hive tree) (agrees : Agrees s hive) : Short hive where
  part := fun key member => by
    obtain ⟨found, looked⟩ := agrees.key key member
    exact parts_short of good shows member looked
  value := fun key member value inside => by
    obtain ⟨found, looked, _⟩ := agrees.value key member value inside
    exact (valueInfo_inv looked).1

theorem ItemOf.treeOf (of : ItemOf hive item) (good : hive.Good u) :
    item.image.Valid ∧ ∃ nodes, TreeOf hive nodes item.tree := by
  obtain ⟨_, nodes, _, t, nodesRan, filled⟩ := buildImage_filled of.image
  obtain ⟨built, root, rootFound, rootPath⟩ := buildNodes_built good.paths nodesRan
  have nonempty : nodes ≠ [] := by
    rintro rfl
    cases rootFound
  have compiled := filled.compiled
  have small := of.size
  simp only [Image.size, Image.dataOff, Image.stringOff, Image.valueOff, sizeofNodeEntry,
    sizeofValueEntry] at small
  refine ⟨filled.valid nonempty of.size, nodes, built, ⟨root, rootFound, rootPath⟩, compiled.keys,
    compiled.values, of.flags, ?_, ?_⟩
  · simp only [PackItem.tree, Image.hiveNodes, length_map]
    omega
  · simp only [PackItem.tree, Image.hiveValues, length_map]
    omega

theorem Hive.Good.plain (good : hive.Good u) : 0 ∉ utf8 hive.name := utf8_plain good.name.chars

theorem packValid (related : List.Forall₂ ItemOf hives items) (good : ∀ hive ∈ hives, hive.Good u)
    (some_ : hives ≠ []) (few : hives.length ≤ hivefsMaxHives) (small : Pack.size items < 2 ^ 32)
    (distinct : (hives.map (·.name)).Nodup) : Pack.Valid items where
  size := small
  some_ := by
    rintro rfl
    cases related
    exact some_ rfl
  few := related.length_eq ▸ few
  images := fun item member => by
    obtain ⟨hive, inside, of⟩ := forall₂_exists_left related member
    exact (of.treeOf (good hive inside)).1
  names := by
    have names : (items.map (·.name)).map (·.bytes) = (hives.map (·.name)).map utf8 := by
      rw [List.map_map, List.map_map]
      exact forall₂_map_eq related fun hive _ item of => of.name
    apply List.Nodup.of_map (·.bytes)
    rw [names]
    exact distinct.map utf8_injective

theorem shows_of_loaded (related : List.Forall₂ ItemOf hives items)
    (good : ∀ hive ∈ hives, hive.Good u) (distinct : (hives.map (·.name)).Nodup)
    (loaded : s.loaded = true) (trees : s.hives.map (·.toHiveTree) = items.map (·.tree))
    (found : hives[k]? = some hive) : ∃ item, ItemOf hive item ∧ Shows s hive item.tree := by
  have at_ : ∀ {j : Nat} {h : Otsos.Hive}, s.hives[j]? = some h → ∃ other item,
      hives[j]? = some other ∧ ItemOf other item ∧ h.toHiveTree = item.tree := by
    intro j h there
    have same : (s.hives.map (·.toHiveTree))[j]? = some h.toHiveTree := by rw [getElem?_map, there]; rfl
    rw [trees, getElem?_map, map_eq_some_iff] at same
    obtain ⟨item, itemFound, tree⟩ := same
    obtain ⟨other, here, of⟩ := forall₂_getElem? related.flip itemFound
    exact ⟨other, item, here, of, tree.symm⟩
  have length : s.hives.length = hives.length := by
    have lengths := congrArg length trees
    rw [length_map, length_map] at lengths
    exact lengths.trans related.length_eq.symm
  have inside : k < s.hives.length := length ▸ (List.getElem?_eq_some_iff.mp found).1
  have there := getElem?_eq_getElem inside
  obtain ⟨other, item, here, of, tree⟩ := at_ there
  rw [found, some.injEq] at here
  subst here
  have name : s.hives[k].name.bytes = utf8 hive.name := by
    rw [show s.hives[k].name = item.name from congrArg HiveTree.name tree, of.name]
  refine ⟨item, of, loaded, k, s.hives[k], ?_, there, tree⟩
  rw [Hivefs.findHiveName, if_neg (utf8_ne_nil (good hive (mem_of_getElem? found)).name.some_)]
  refine findIdx?_unique there (beq_iff_eq.mpr name) fun j h found' hit => ?_
  obtain ⟨other, item', here', of', tree'⟩ := at_ found'
  have sameName : other.name = hive.name := by
    rw [beq_iff_eq, show h.name = item'.name from congrArg HiveTree.name tree', of'.name] at hit
    exact utf8_injective hit
  have left : (hives.map (·.name))[j]? = some hive.name := by
    rw [getElem?_map, here', ← sameName]; rfl
  have right : (hives.map (·.name))[k]? = some hive.name := by rw [getElem?_map, found]; rfl
  exact (List.getElem?_inj (List.getElem?_eq_some_iff.mp left).1 distinct).mp
    (left.trans right.symm)

theorem packLoadInto_compiled (good : ∀ hive ∈ hives, hive.Good u) (some_ : hives ≠ [])
    (few : hives.length ≤ hivefsMaxHives) (built : buildPack hives = .ok bytes)
    (plenty : Pack.Plenty env requests) :
      ∃ later loaded, packLoadInto env requests bytes = some (later, .ok loaded) ∧
      ∀ s : Hivefs, s.loaded = true → s.hives = loaded → ∀ hive ∈ hives,
        ∃ nodes tree, TreeOf hive nodes tree ∧ Shows s hive tree := by
  obtain ⟨_, related, rfl, small, distinct⟩ :=
    buildPack_inv (fun hive member => (good hive member).plain) built
  have valid := packValid related good some_ few small distinct
  obtain ⟨later, loaded, ran, _, trees⟩ := Pack.packLoadInto_bytes valid plenty
  refine ⟨later, loaded, ran, fun s up hives_ hive member => ?_⟩
  obtain ⟨k, found⟩ := mem_iff_getElem?.mp member
  obtain ⟨item, of, shows⟩ := shows_of_loaded related good distinct up (hives_ ▸ trees) found
  obtain ⟨_, nodes, treeOf⟩ := of.treeOf (good hive member)
  exact ⟨nodes, item.tree, treeOf, shows⟩

/-- The compiler and the kernel agree on sources that are accepted exactly when every name fits. -/
theorem compiler_agrees_iff {sources : List (String × Text × Text)}
    (parsed : sources.mapM (fun source => parseFile u source.1 source.2.1 source.2.2) = .ok hives)
    (some_ : hives ≠ []) (few : hives.length ≤ hivefsMaxHives) (built : buildPack hives = .ok bytes)
    (plenty : Pack.Plenty env requests) :
    ∃ later loaded, packLoadInto env requests bytes = some (later, .ok loaded) ∧
      ∀ s : Hivefs, s.loaded = true → s.hives = loaded →
        ((∀ hive ∈ hives, Agrees s hive) ↔ ∀ hive ∈ hives, Short hive) := by
  have good : ∀ hive ∈ hives, hive.Good u := fun hive member => by
    obtain ⟨source, _, read⟩ := forall₂_exists_left (forall₂_of_mapM parsed) member
    exact parseFile_good read
  obtain ⟨later, loaded, ran, compiled⟩ := packLoadInto_compiled good some_ few built plenty
  refine ⟨later, loaded, ran, fun s up hives_ => forall₂_congr fun hive member => ?_⟩
  obtain ⟨nodes, tree, of, shows⟩ := compiled s up hives_ hive member
  exact ⟨short_of_agrees of (good hive member) shows, agrees_of_short of (good hive member) shows⟩

theorem buildPack_one (name : List UInt8) (image : buildImage hive = .ok img)
    (named : fixedName hive.name = .ok name) (small : img.size < 2 ^ 31) :
    ∃ bytes, buildPack [hive] = .ok bytes := by
  have word : ∀ {n : Nat}, n < 2 ^ 32 → packWord n = .ok (.ofNat n) :=
    fun below => by rw [packWord, if_pos below]
  have blobs : buildBlobs [] [hive] = .ok [(hive, img.bytes)] := by
    rw [buildBlobs, buildHive_ok image (Nat.lt_trans small (by decide))]
    rfl
  have length : (alignBody [] ++ img.bytes).length = img.size := by
    rw [length_append, Image.length_bytes]
    exact Nat.zero_add _
  have entries : packEntries (sizeofPackHeader + sizeofPackEntry * 1) [(hive, img.bytes)] [] =
      .ok ([⟨name, .ofNat 88, .ofNat img.size, hive.flags, crc32 img.bytes⟩], alignBody [] ++ img.bytes) := by
    rw [packEntries, named, Image.length_bytes, word (by decide), word (by omega)]
    rfl
  rw [buildPack, blobs, ok_bind]
  simp only [length_singleton]
  rw [entries, ok_bind]
  rw [word (by decide), word (by decide), word (by decide),
    word (by simp only [sizeofPackHeader, sizeofPackEntry]; omega)]
  exact ⟨_, rfl⟩

/-- The characters of ASCII. -/
def asciiOnly : Unicode where
  isalnum := Char.isAlphanum
  isalpha := Char.isAlpha
  isdigit := Char.isDigit
  isspace := Char.isWhitespace
  int10 := fun text =>
    if text ≠ [] ∧ text.all Char.isDigit then
      some (text.foldl (fun n c => 10 * n + (c.toNat - '0'.toNat)) 0 : Nat)
    else none
  repr := fun c => c.toString
  alnum_of_alpha := fun c letter => by simp [Char.isAlphanum, letter]
  plain := fun c member => by
    simp only [mem_cons, not_mem_nil, or_false] at member
    rcases member with rfl | rfl | rfl | rfl <;> rfl

/-- Two hive files that differ in one path, with a part of thirty-two bytes in the second. -/
def shortPath : Text := "Init.Shell".toList
def longPath : Text := "Init.aaaaaaaaaaaaaaaaaaaaaaaaaaaaaaaa".toList

def sourceWith (path : Text) : Text :=
  "hive BOOT \x7b key ".toList ++ path ++ " \x7b bool On = true \x7d \x7d".toList

def hiveWith (path : Text) : Hive :=
  ⟨"BOOT".toList, hivefsAccessDefault, [⟨path, 0, [⟨"On".toList, .bool, 0, [1]⟩]⟩]⟩

/-- Memory is always there. -/
def roomyEnv : HiveEnv := ⟨fun _ => true, fun _ => true, fun _ => none⟩

theorem roomyEnv_plenty : Pack.Plenty roomyEnv 0 := fun _ _ => rfl

theorem buildPack_hiveWith (path : Text) (image : buildImage (hiveWith path) = .ok img)
    (small : img.size < 2 ^ 31) : ∃ bytes, buildPack [hiveWith path] = .ok bytes :=
  buildPack_one ([0x42, 0x4f, 0x4f, 0x54] ++ replicate 28 0) image rfl small

theorem compiler_agrees_shortPath :
    ∃ bytes later loaded, buildPack [hiveWith shortPath] = .ok bytes ∧
    packLoadInto roomyEnv 0 bytes = some (later, .ok loaded) ∧ ∀ s : Hivefs, s.loaded = true → s.hives = loaded →
      ((∀ hive ∈ [hiveWith shortPath], Agrees s hive) ↔ ∀ hive ∈ [hiveWith shortPath], Short hive) := by
  obtain ⟨bytes, built⟩ := buildPack_hiveWith shortPath rfl (by decide +kernel)
  have parsed : [("BOOT.hive", "BOOT".toList, sourceWith shortPath)].mapM (fun source =>
      parseFile asciiOnly source.1 source.2.1 source.2.2) = .ok [hiveWith shortPath] := rfl
  obtain ⟨later, loaded, ran, agrees⟩ := compiler_agrees_iff parsed (cons_ne_nil _ _)
    (Nat.le_of_ble_eq_true rfl) built roomyEnv_plenty
  exact ⟨bytes, later, loaded, built, ran, agrees⟩

/-- A value that is accepted, compiled and loaded, and that the kernel does not find. -/
theorem long_path_not_found : ∃ bytes later loaded,
    parseFile asciiOnly "BOOT.hive" "BOOT".toList (sourceWith longPath) = .ok (hiveWith longPath) ∧
    buildPack [hiveWith longPath] = .ok bytes ∧
    packLoadInto roomyEnv 0 bytes = some (later, .ok loaded) ∧ ∀ s : Hivefs, s.loaded = true →
      s.hives = loaded → ∀ found,
      s.valueInfo (utf8 "BOOT".toList) (utf8 longPath) (utf8 "On".toList) ≠ .ok found := by
  obtain ⟨bytes, built⟩ := buildPack_hiveWith longPath rfl (by decide +kernel)
  have parsed : parseFile asciiOnly "BOOT.hive" "BOOT".toList (sourceWith longPath) =
    .ok (hiveWith longPath) := rfl
  have good := parseFile_good parsed
  obtain ⟨later, loaded, ran, compiled⟩ := packLoadInto_compiled
    (fun _ member => mem_singleton.mp member ▸ good) (cons_ne_nil _ _) (Nat.le_of_ble_eq_true rfl)
    built roomyEnv_plenty
  refine ⟨bytes, later, loaded, parsed, built, ran, fun s up hives_ found looked => ?_⟩
  obtain ⟨_, _, of, shows⟩ := compiled s up hives_ _ mem_cons_self
  obtain ⟨_, _, keyFound⟩ := valueInfo_inv looked
  have short := parts_short of good shows mem_cons_self keyFound
  exact absurd (short "aaaaaaaaaaaaaaaaaaaaaaaaaaaaaaaa".toList (by decide)) (by decide)

end Otsos.Hivec
