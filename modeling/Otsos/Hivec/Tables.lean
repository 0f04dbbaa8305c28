import Otsos.Foundation.Related
import Otsos.Hivec.Nodes

/-! The tables of an image as the compiler fills them: every name and the data of every value stand
at the offsets in the entries, so the image is valid and gives the nodes and the values back. -/
namespace Otsos.Hivec
open Bytes Related
open Loop (except_bind_ok)
open List

theorem packWord_ok (ran : packWord n = .ok w) : w.toNat = n := by
  rw [packWord] at ran
  split at ran
  · next small =>
    cases ran
    exact toNat_ofNat32 small
  · cases ran

namespace StringTable

variable {t : StringTable}

/-- Every text in the index stands at its offset, with its NUL. -/
def Sound (t : StringTable) : Prop := ∀ p ∈ t.index, ∃ post, t.data.drop p.2 = utf8 p.1 ++ 0 :: post

def Known (t : StringTable) (text : Text) : Prop := ∃ off, t.index.lookup text = some off

theorem add_known (known : t.Known text) : (t.add text).2 = t := by
  obtain ⟨_, found⟩ := known
  rw [add, found]

theorem add_knows (t : StringTable) (text : Text) : (t.add text).2.Known text := by
  cases found : t.index.lookup text with
  | some off =>
    rw [add, found]
    exact ⟨off, found⟩
  | none =>
    rw [add, found]
    exact ⟨t.data.length, lookup_cons_self⟩

theorem Known.add (known : t.Known name) (text : Text) : (t.add text).2.Known name := by
  cases found : t.index.lookup text with
  | some off =>
    rw [StringTable.add, found]
    exact known
  | none =>
    obtain ⟨off, there⟩ := known
    have other : (name == text) = false := by
      rw [beq_eq_false_iff_ne]
      rintro rfl
      rw [found] at there
      cases there
    rw [StringTable.add, found]
    exact ⟨off, by rw [lookup_cons, other]; exact there⟩

theorem drop_append_of_drop {data : List UInt8}
    (here : data.drop off = s ++ 0 :: post) :
    (data ++ more).drop off = s ++ 0 :: (post ++ more) := by
  have inside : off ≤ data.length := by
    by_contra beyond
    rw [drop_eq_nil_of_le (by omega)] at here
    simp at here
  rw [drop_append_of_le_length inside, here]
  simp

theorem Sound.add (sound : t.Sound) (text : Text) : (t.add text).2.Sound := by
  cases found : t.index.lookup text with
  | some off =>
    rw [StringTable.add, found]
    exact sound
  | none =>
    rw [StringTable.add, found]
    intro p member
    rcases mem_cons.mp member with rfl | older
    · exact ⟨[], by rw [drop_left]⟩
    · obtain ⟨_, here⟩ := sound p older
      exact ⟨_, drop_append_of_drop here⟩

theorem Sound.drop (sound : t.Sound) (known : t.Known text) :
    ∃ post, t.data.drop (t.add text).1 = utf8 text ++ 0 :: post := by
  obtain ⟨off, found⟩ := known
  obtain ⟨_, _, split, _⟩ := lookup_eq_some_iff.mp found
  rw [StringTable.add, found]
  exact sound (text, off) (by rw [split]; simp)

end StringTable

theorem nameCopy_terminated (s post : List UInt8) : nameCopy (s ++ 0 :: post) = nameCopy s := by
  apply HiveName.ext
  have same : (s ++ 0 :: post).takeWhile (· != 0) = s.takeWhile (· != 0) := by
    induction s with
    | nil => rfl
    | cons c s ih =>
      rw [cons_append, takeWhile_cons, takeWhile_cons, ih]
  exact congrArg (take _) same

/-- The values with the numbers of their nodes, in the order they are written. -/
def valueList (nodes : List Node) : List (Nat × Value) :=
  nodes.zipIdx.flatMap fun p => (sortedValues p.1).map (p.2, ·)

/-- The tables after the values in `done`. -/
structure Tables.Holds (t : Tables) (done : List (Nat × Value)) : Prop where
  sound : t.strings.Sound
  rows : t.rows.map (fun r => (r.node, r.value)) = done
  known : ∀ r ∈ t.rows, t.strings.Known r.value.name
  data : ∀ r ∈ t.rows, r.off + r.size ≤ t.data.length ∧ slice t.data r.off r.size = r.value.data

theorem slice_append_left (inside : off + size ≤ data.length) :
    slice (data ++ more) off size = slice data off size := by
  rw [slice, slice, drop_append_of_le_length (by omega), take_append_of_le_length]
  rw [length_drop]
  omega

theorem Tables.Holds.addValue (holds : t.Holds done) (nidx : Nat)
    (value : Value) : (Hivec.addValue nidx t value).Holds (done ++ [(nidx, value)]) where
  sound := holds.sound.add value.name
  rows := by
    rw [Hivec.addValue, map_append, holds.rows]
    rfl
  known := forall_mem_append.mpr ⟨fun r old => (holds.known r old).add value.name,
    forall_mem_singleton.mpr (StringTable.add_knows _ _)⟩
  data := by
    refine forall_mem_append.mpr ⟨fun r old => ?_, forall_mem_singleton.mpr ⟨?_, ?_⟩⟩
    · obtain ⟨inside, read⟩ := holds.data r old
      rw [Hivec.addValue, length_append, slice_append_left inside, read]
      exact ⟨by omega, rfl⟩
    · rw [Hivec.addValue, length_append]
    · simp only [Hivec.addValue, slice, drop_left, take_length]

theorem Tables.Holds.addValues (holds : t.Holds done) (p : Node × Nat) :
    (Hivec.addValues t p).Holds (done ++ (sortedValues p.1).map (p.2, ·)) := by
  rw [Hivec.addValues]
  induction sortedValues p.1 generalizing t done with
  | nil =>
    rw [map_nil, append_nil]
    exact holds
  | cons value values ih =>
    rw [map_cons, append_cons]
    exact ih (holds.addValue p.2 value)

theorem Tables.Holds.addAll (holds : t.Holds done) (ps : List (Node × Nat)) :
    (ps.foldl Hivec.addValues t).Holds (done ++ ps.flatMap fun p => (sortedValues p.1).map (p.2, ·)) := by
  induction ps generalizing t done with
  | nil =>
    rw [flatMap_nil, append_nil]
    exact holds
  | cons p ps ih =>
    rw [flatMap_cons, ← append_assoc]
    exact ih (holds.addValues p)

theorem known_addAll (known : t.strings.Known text) (ps : List (Node × Nat)) :
    (ps.foldl addValues t).strings.Known text := by
  refine foldlRecOn (motive := fun t : Tables => t.strings.Known text) ps addValues known
    fun t known p _ => ?_
  exact foldlRecOn (motive := fun t : Tables => t.strings.Known text) _ _ known
    fun t known v _ => known.add _

theorem known_names (nodes : List Node) (t : StringTable) (sound : t.Sound) :
    (nodes.foldl (fun t node => (t.add node.name).2) t).Sound ∧
      (∀ node ∈ nodes, (nodes.foldl (fun t node => (t.add node.name).2) t).Known node.name) ∧
      ∀ text, t.Known text → (nodes.foldl (fun t node => (t.add node.name).2) t).Known text := by
  induction nodes generalizing t with
  | nil => exact ⟨sound, nofun, fun _ known => known⟩
  | cons node nodes ih =>
    obtain ⟨later, here, kept⟩ := ih _ (sound.add node.name)
    refine ⟨later, fun other member => ?_, fun text known => kept text (known.add node.name)⟩
    rcases mem_cons.mp member with rfl | inside
    · exact kept _ (StringTable.add_knows t other.name)
    · exact here other inside

/-- The entry that stands for a node. -/
structure NodeEntryOf (t : StringTable) (parents : List Nat) (rows : List Row)
    (p : (Node × Nat) × Nat) (e : NodeEntry) : Prop where
  parent : e.parent.toNat = p.1.2
  nameOff : e.nameOff.toNat = (t.add p.1.1.name).1
  flags : e.flags = p.1.1.flags
  firstChild : e.childCount ≠ 0 → e.firstChild.toNat ∈ childMap parents p.2
  firstValue : e.valueCount ≠ 0 → e.firstValue.toNat ∈ valueMap rows p.2

theorem first_mem {l : List Nat} {first count : UInt32}
    (head : first.toNat = l.head?.getD hivefsNoIndex) (length : count.toNat = l.length)
    (some_ : count ≠ 0) : first.toNat ∈ l := by
  cases l with
  | nil => exact absurd (UInt32.toNat_inj.mp length) some_
  | cons i l =>
    rw [head]
    exact mem_cons_self

theorem packNodes_spec (known : ∀ p ∈ ps, t.Known p.1.1.name)
    (ran : packNodes parents rows ps t = .ok (entries, t')) :
    t' = t ∧ List.Forall₂ (NodeEntryOf t parents rows) ps entries := by
  induction ps generalizing entries t' with
  | nil =>
    cases ran
    exact ⟨rfl, .nil⟩
  | cons p ps ih =>
    obtain ⟨⟨node, _⟩, _⟩ := p
    have same := StringTable.add_known (known _ mem_cons_self)
    obtain ⟨_, parentOk, ran⟩ := except_bind_ok ran
    obtain ⟨_, nameOk, ran⟩ := except_bind_ok ran
    obtain ⟨_, firstChildOk, ran⟩ := except_bind_ok ran
    obtain ⟨_, childCountOk, ran⟩ := except_bind_ok ran
    obtain ⟨_, firstValueOk, ran⟩ := except_bind_ok ran
    obtain ⟨_, valueCountOk, ran⟩ := except_bind_ok ran
    obtain ⟨⟨others, last⟩, rest, ran⟩ := except_bind_ok ran
    have rest : packNodes parents rows ps (t.add node.name).2 = .ok (others, last) := rest
    rw [same] at rest
    obtain ⟨kept, related⟩ := ih (fun p later => known p (mem_cons_of_mem _ later)) rest
    cases ran
    refine ⟨kept, .cons ⟨packWord_ok parentOk, packWord_ok nameOk, rfl, ?_, ?_⟩ related⟩
    · exact first_mem (packWord_ok firstChildOk) (packWord_ok childCountOk)
    · exact first_mem (packWord_ok firstValueOk) (packWord_ok valueCountOk)

/-- The entry that stands for a row. -/
structure ValueEntryOf (t : StringTable) (row : Row) (e : ValueEntry) : Prop where
  node : e.node.toNat = row.node
  nameOff : e.nameOff.toNat = (t.add row.value.name).1
  type : e.type = row.value.type.id
  flags : e.flags = row.value.flags
  dataOff : e.dataOff.toNat = row.off
  size : e.size.toNat = row.size

theorem packValues_spec {entries : List ValueEntry}
    (known : ∀ r ∈ rows, t.Known r.value.name) (ran : packValues rows t = .ok (entries, t')) :
    t' = t ∧ List.Forall₂ (ValueEntryOf t) rows entries := by
  induction rows generalizing entries t' with
  | nil =>
    cases ran
    exact ⟨rfl, .nil⟩
  | cons row rows ih =>
    have same := StringTable.add_known (known _ mem_cons_self)
    obtain ⟨_, nodeOk, ran⟩ := except_bind_ok ran
    obtain ⟨_, nameOk, ran⟩ := except_bind_ok ran
    obtain ⟨_, dataOk, ran⟩ := except_bind_ok ran
    obtain ⟨_, sizeOk, ran⟩ := except_bind_ok ran
    obtain ⟨⟨others, last⟩, rest, ran⟩ := except_bind_ok ran
    have rest : packValues rows (t.add row.value.name).2 = .ok (others, last) := rest
    rw [same] at rest
    obtain ⟨kept, related⟩ := ih (fun r later => known r (mem_cons_of_mem _ later)) rest
    cases ran
    exact ⟨kept, .cons ⟨packWord_ok nodeOk, packWord_ok nameOk, rfl, rfl, packWord_ok dataOk,
      packWord_ok sizeOk⟩ related⟩

/-- The key that the kernel makes of a node. -/
structure KeyOf (nodes : List Node) (p : Node × Nat) (h : HiveNode) : Prop where
  name : h.name = nameCopy (utf8 p.1.name)
  parent : parentIndex nodes p = .ok h.parent
  flags : h.flags = p.1.flags
  alive : h.deleted = false

/-- The value that the kernel makes of a value. -/
structure ValueOf (p : Nat × Value) (v : HiveValue) : Prop where
  name : v.name = nameCopy (utf8 p.2.name)
  node : v.node = p.1
  type : v.type = p.2.type.id
  flags : v.flags = p.2.flags
  data : v.data = p.2.data
  alive : v.deleted = false

/-- The image is that of the nodes. -/
structure Compiled (nodes : List Node) (img : Image) : Prop where
  keys : List.Forall₂ (KeyOf nodes) nodes.zipIdx img.hiveNodes
  values : List.Forall₂ ValueOf (valueList nodes) img.hiveValues

theorem nodeIndex_ok (ran : nodeIndex nodes path = .ok i) :
    ∃ node, nodes[i]? = some node ∧ node.path = path := by
  rw [nodeIndex] at ran
  split at ran
  · cases ran
  next j found =>
  cases ran
  obtain ⟨inside, same, _⟩ := findIdx?_eq_some_iff_getElem.mp found
  exact ⟨nodes[i], getElem?_eq_getElem inside, of_decide_eq_true same⟩

theorem ValueType.id_ok (type : ValueType) :
    hivefsTypeString ≤ type.id ∧ type.id ≤ hivefsTypeMultiString := by
  cases type <;> decide

theorem hasString_of_drop (here : data.drop off = s ++ 0 :: post) :
    hasString data off = true := by
  rw [hasString, here]
  simp

theorem mem_valueList :
    p ∈ valueList nodes ↔ ∃ node, nodes[p.1]? = some node ∧ p.2 ∈ node.values := by
  obtain ⟨i, value⟩ := p
  simp only [valueList, mem_flatMap, mem_map, Prod.exists, mem_zipIdx_iff_getElem?, Prod.mk.injEq,
    sortedValues, mem_insertionSort]
  constructor
  · rintro ⟨node, j, found, v, member, rfl, rfl⟩
    exact ⟨node, found, member⟩
  · rintro ⟨node, found, member⟩
    exact ⟨node, i, found, value, member, rfl, rfl⟩

/-- The tables of an image, as they are filled. -/
structure Filled (nodes : List Node) (parents : List Nat) (t : Tables) (img : Image) : Prop where
  above : List.Forall₂ (fun p pidx => parentIndex nodes p = .ok pidx) nodes.zipIdx parents
  holds : t.Holds (valueList nodes)
  known : ∀ node ∈ nodes, t.strings.Known node.name
  entries : List.Forall₂ (NodeEntryOf t.strings parents t.rows) (nodes.zip parents).zipIdx img.nodes
  values : List.Forall₂ (ValueEntryOf t.strings) t.rows img.values
  strings : img.strings = t.strings.data
  data : img.data = t.data

theorem buildImage_filled (ran : buildImage hive = .ok img) :
    img.flags = hive.flags ∧ ∃ nodes parents t, buildNodes hive = .ok nodes ∧
    Filled nodes parents t img := by
  obtain ⟨nodes, nodesRan, ran⟩ := except_bind_ok ran
  obtain ⟨parents, parentsRan, ran⟩ := except_bind_ok ran
  obtain ⟨⟨_, _⟩, nodesPacked, ran⟩ := except_bind_ok ran
  obtain ⟨⟨_, _⟩, valuesPacked, ran⟩ := except_bind_ok ran
  have empty : (StringTable.mk [] []).Sound := fun p member => nomatch member
  obtain ⟨sound, named, _⟩ := known_names nodes _ (empty.add [])
  have start : (Tables.mk (nodes.foldl (fun t node => (t.add node.name).2) ((StringTable.mk [] []).add []).2)
      [] []).Holds [] := ⟨sound, rfl, nofun, nofun⟩
  have holds := start.addAll nodes.zipIdx
  have known := fun node member => known_addAll (t := ⟨_, [], []⟩) (named node member) nodes.zipIdx
  have knownPair : ∀ p ∈ (nodes.zip parents).zipIdx, StringTable.Known _ p.1.1.name :=
    fun p member => known p.1.1 (of_mem_zip (mem_of_getElem? (mem_zipIdx_iff_getElem?.mp member))).1
  obtain ⟨rfl, nodesRelated⟩ := packNodes_spec knownPair nodesPacked
  obtain ⟨rfl, valuesRelated⟩ := packValues_spec holds.known valuesPacked
  cases ran
  exact ⟨rfl, nodes, parents, _, nodesRan, forall₂_of_mapM parentsRan, holds, known, nodesRelated,
    valuesRelated, rfl, rfl⟩

section
variable (filled : Filled nodes parents t img)
include filled

theorem Filled.entry (found : img.nodes[i]? = some e) :
    ∃ node pidx, nodes[i]? = some node ∧ parentIndex nodes (node, i) = .ok pidx ∧
      NodeEntryOf t.strings parents t.rows ((node, pidx), i) e := by
  obtain ⟨⟨⟨node, pidx⟩, j⟩, there, entry⟩ := forall₂_getElem? filled.entries.flip found
  rw [getElem?_zipIdx, Option.map_eq_some_iff] at there
  obtain ⟨_, zipped, same⟩ := there
  rw [Nat.zero_add] at same
  obtain ⟨rfl, rfl⟩ := same
  obtain ⟨here, parent⟩ := getElem?_zip_eq_some.mp zipped
  have zipIdx : nodes.zipIdx[i]? = some (node, i) := by
    rw [getElem?_zipIdx, here, Nat.zero_add]
    rfl
  obtain ⟨_, parent', looked⟩ := forall₂_getElem? filled.above zipIdx
  rw [show parents[i]? = some pidx from parent, Option.some.injEq] at parent'
  subst parent'
  exact ⟨node, pidx, here, looked, entry⟩

theorem Filled.length : img.nodes.length = nodes.length ∧ parents.length = nodes.length := by
  have above := filled.above.length_eq
  have entries := filled.entries.length_eq
  rw [length_zipIdx] at above entries
  rw [length_zip] at entries
  omega

theorem Filled.name (known : t.strings.Known text) : hasString img.strings (t.strings.add text).1 ∧
    nameCopy (img.strings.drop (t.strings.add text).1) = nameCopy (utf8 text) := by
  obtain ⟨post, here⟩ := filled.holds.sound.drop known
  rw [filled.strings]
  exact ⟨hasString_of_drop here, by rw [here, nameCopy_terminated]⟩

theorem Filled.valid (root : nodes ≠ []) (small : img.size < 2 ^ 32) : img.Valid := by
  obtain ⟨length, parentsLength⟩ := filled.length
  have entryOf : ∀ e ∈ img.nodes, ∃ node pidx i, node ∈ nodes ∧
      NodeEntryOf t.strings parents t.rows ((node, pidx), i) e := fun e member => by
    obtain ⟨i, found⟩ := mem_iff_getElem?.mp member
    obtain ⟨node, pidx, here, _, entry⟩ := filled.entry found
    exact ⟨node, pidx, i, mem_of_getElem? here, entry⟩
  refine ⟨small, ?_, ?_, ?_, ?_, ?_, ?_, ?_, ?_, ?_⟩
  · cases entries : img.nodes with
    | nil =>
      rw [entries] at length
      exact absurd (length_eq_zero_iff.mp length.symm) root
    | cons e es =>
      obtain ⟨node, pidx, _, looked, entry⟩ := filled.entry (i := 0) (e := e) (by rw [entries]; rfl)
      refine ⟨e, es, rfl, ?_⟩
      cases looked
      exact entry.parent
  · intro i e found later
    obtain ⟨node, pidx, _, looked, entry⟩ := filled.entry found
    rw [parentIndex, if_neg (Nat.ne_of_gt later)] at looked
    obtain ⟨_, above, _⟩ := nodeIndex_ok looked
    rw [entry.parent, length]
    exact (List.getElem?_eq_some_iff.mp above).1
  · intro e member
    obtain ⟨node, pidx, i, inside, entry⟩ := entryOf e member
    rw [entry.nameOff]
    exact (filled.name (filled.known node inside)).1
  · intro e member some_
    obtain ⟨node, pidx, i, _, entry⟩ := entryOf e member
    obtain ⟨⟨p, j⟩, child, same⟩ := mem_map.mp (entry.firstChild some_)
    rw [← same, length, ← parentsLength]
    simpa using snd_lt_of_mem_zipIdx (mem_of_mem_filter child)
  · intro e member some_
    obtain ⟨node, pidx, i, _, entry⟩ := entryOf e member
    obtain ⟨⟨p, j⟩, value, same⟩ := mem_map.mp (entry.firstValue some_)
    rw [← same, ← filled.values.length_eq]
    simpa using snd_lt_of_mem_zipIdx (mem_of_mem_filter value)
  all_goals
    intro e member
    obtain ⟨row, inside, entry⟩ := forall₂_exists_left filled.values member
  · have listed : (row.node, row.value) ∈ valueList nodes := by
      rw [← filled.holds.rows]
      exact mem_map_of_mem (f := fun r : _ => (r.node, r.value)) inside
    obtain ⟨node, here, _⟩ := mem_valueList.mp listed
    rw [entry.node, length]
    exact (List.getElem?_eq_some_iff.mp here).1
  · rw [entry.nameOff]
    exact (filled.name (filled.holds.known row inside)).1
  · rw [entry.type]
    exact row.value.type.id_ok
  · rw [entry.dataOff, entry.size, filled.data]
    exact (filled.holds.data row inside).1

theorem Filled.compiled : Compiled nodes img where
  keys := by
    refine forall₂_of_getElem? (by rw [length_zipIdx, Image.hiveNodes, length_map, filled.length.1]) ?_
    intro i p h found made
    rw [Image.hiveNodes, getElem?_map, Option.map_eq_some_iff] at made
    obtain ⟨e, there, rfl⟩ := made
    obtain ⟨node, _, here, looked, entry⟩ := filled.entry there
    rw [getElem?_zipIdx, here, Nat.zero_add] at found
    cases found
    refine ⟨?_, ?_, entry.flags, rfl⟩
    · rw [entry.nameOff, (filled.name (filled.known node (mem_of_getElem? here))).2]
    · rw [entry.parent]
      exact looked
  values := by
    rw [← filled.holds.rows, Image.hiveValues, forall₂_map_left_iff, forall₂_map_right_iff]
    refine forall₂_of_getElem? filled.values.length_eq fun i row e found there => ?_
    obtain ⟨_, same, entry⟩ := forall₂_getElem? filled.values found
    rw [there, Option.some.injEq] at same
    subst same
    have inside := mem_of_getElem? found
    refine ⟨?_, entry.node, entry.type, entry.flags, ?_, rfl⟩
    · rw [entry.nameOff, (filled.name (filled.holds.known row inside)).2]
    · rw [entry.dataOff, entry.size, filled.data]
      exact (filled.holds.data row inside).2

end

end Otsos.Hivec
