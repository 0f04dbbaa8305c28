import Mathlib.Logic.Relation
import Otsos.Hive.Invariant
import Otsos.Hive.Registry

/-! The edits of a hive that every change of the registry is made of, and what each of them
keeps. -/
namespace Otsos
open List

/-- Capacities start at 8 and are doubled, so each is zero or a power of two that is a `u32`. -/
def Capacity (cap : Nat) : Prop := cap = 0 ∨ ∃ k < 32, cap = 2 ^ k

/-- A number of entries within a capacity. -/
structure Room (count cap : Nat) : Prop where
  inside : count ≤ cap
  capacity : Capacity cap

variable {count : Nat}

theorem Room.mono (room : Room count cap) (fewer : count' ≤ count) : Room count' cap :=
  ⟨Nat.le_trans fewer room.inside, room.capacity⟩

/-- The largest capacity is `2^31`: doubling that gives zero. -/
theorem Room.small (room : Room count cap) : count ≤ 2 ^ 31 := by
  obtain ⟨inside, rfl | ⟨k, low, rfl⟩⟩ := room
  · omega
  · exact Nat.le_trans inside (Nat.pow_le_pow_right (by decide) (by omega))

theorem Capacity.double (capacity : Capacity cap) : Capacity (u32 (cap * 2)) := by
  obtain rfl | ⟨k, low, rfl⟩ := capacity
  · exact .inl rfl
  rw [← Nat.pow_succ]
  by_cases last : k = 31
  · subst last
    exact .inl rfl
  · exact .inr ⟨k + 1, by omega, Nat.mod_eq_of_lt (Nat.pow_lt_pow_right (by decide) (by omega))⟩

theorem growCap_room (capacity : Capacity cap) (ran : growCap needed fuel cap = some (.ok cap')) :
    Room needed cap' := by
  induction fuel generalizing cap with
  | zero => cases ran
  | succ fuel ih =>
    rw [growCap] at ran
    split at ran
    · split at ran
      · cases ran
      · exact ih capacity.double ran
    · cases ran
      exact ⟨by omega, capacity⟩

theorem reserve_room (capacity : Capacity cap)
    (ran : reserve env requests cap needed = some (later, .ok cap')) : Room needed cap' := by
  rw [reserve] at ran
  split at ran
  · cases ran
    exact ⟨‹_›, capacity⟩
  obtain ⟨grown, growing, ran⟩ := Option.map_eq_some_iff.mp ran
  cases grown with
  | error e => cases ran
  | ok c =>
    simp only [Prod.mk.injEq] at ran
    have same : c = cap' := by
      have answer := ran.2
      split at answer
      · cases answer
        rfl
      · cases answer
    subst same
    refine growCap_room ?_ growing
    split
    · exact .inr ⟨3, by decide, rfl⟩
    · exact capacity.double

theorem Room.reserve (room : Room count cap)
    (ran : Otsos.reserve env requests cap (u32 (count + 1)) = some (later, .ok cap')) :
    Room (count + 1) cap' := by
  have reserved := reserve_room room.capacity ran
  have small := room.small
  rwa [u32, Nat.mod_eq_of_lt (by omega)] at reserved

namespace HiveTree

variable {h : HiveTree} {parent : Nat} {name : HiveName}

/-- The names of what hangs from a key: keys, then values. -/
def childNames (h : HiveTree) (i : Nat) : List HiveName :=
  (h.nodes.filter (isChild i)).map (·.name) ++ (h.values.filter (isValueOf i)).map (·.name)

/-- What hangs from one live key has pairwise distinct names, also across keys and values. -/
def Distinct (h : HiveTree) : Prop := ∀ i, h.live i = true → (h.childNames i).Nodup

/-- The indices of the keys and the values fit into an `int`. -/
structure Small (h : HiveTree) : Prop where
  nodes : h.nodes.length ≤ 2 ^ 31
  values : h.values.length ≤ 2 ^ 31

def TypeOk (type : UInt32) : Prop := hivefsTypeString ≤ type ∧ type ≤ hivefsTypeMultiString

/-- One change of a hive. A name that is added is new. -/
inductive Edit (h : HiveTree) : HiveTree → Prop where
  | addKey (name : HiveName) (parent : Nat) (alive : h.live parent = true)
      (fresh : name ∉ h.childNames parent) (room : h.nodes.length < hivefsNoIndex) :
      Edit h { h with nodes := h.nodes ++ [⟨name, parent, 0, false⟩] }
  | dropKey (node : Nat) (inner : node ≠ 0) (empty : h.childNames node = []) :
      Edit h { h with nodes := h.nodes.modify node fun n => { n with deleted := true } }
  | addValue (value : HiveValue) (alive : h.live value.node = true)
      (fresh : value.name ∉ h.childNames value.node) (type : TypeOk value.type) :
      Edit h { h with values := h.values ++ [value] }
  | putValue (v : Nat) (old new : HiveValue) (found : h.values[v]? = some old) (name : new.name = old.name)
      (node : new.node = old.node) (deleted : old.deleted = true → new.deleted = true)
      (type : TypeOk new.type) :
      Edit h { h with values := h.values.set v new }
  | mark (dirty : Bool) : Edit h { h with dirty := dirty }

theorem Edit.name_flags (edit : Edit h h') : h'.name = h.name ∧ h'.flags = h.flags := by
  cases edit <;> exact ⟨rfl, rfl⟩

theorem live_addKey (n : HiveNode) (alive : n.deleted = false) :
    ({ h with nodes := h.nodes ++ [n] } : HiveTree).live i = true ↔ h.live i = true ∨
    i = h.nodes.length := by
  simp only [live_iff, getElem?_append]
  by_cases inside : i < h.nodes.length
  · simp only [if_pos inside]
    constructor
    · exact .inl
    · rintro (old | last)
      · exact old
      · omega
  · have missing : h.nodes[i]? = none := getElem?_eq_none (by omega)
    simp only [if_neg inside, missing, getElem?_singleton]
    constructor
    · rintro ⟨_, found, _⟩
      split at found
      · exact .inr (by omega)
      · cases found
    · rintro (⟨_, impossible, _⟩ | last)
      · cases impossible
      · exact ⟨n, by rw [if_pos (by omega)], alive⟩

theorem live_dropKey :
    ({ h with nodes := h.nodes.modify node fun n => { n with deleted := true } } : HiveTree).live
      i = true ↔ h.live i = true ∧ i ≠ node := by
  simp only [live_iff, getElem?_modify]
  constructor
  · rintro ⟨n, found, alive⟩
    obtain ⟨old, there, rfl⟩ := Option.map_eq_some_iff.mp found
    by_cases same : node = i
    · simp [same] at alive
    · simp only [if_neg same] at alive
      exact ⟨⟨old, there, alive⟩, Ne.symm same⟩
  · rintro ⟨⟨n, found, alive⟩, other⟩
    exact ⟨n, by simp [found, Ne.symm other], alive⟩

theorem mem_childNames : name ∈ h.childNames i ↔ (∃ n ∈ h.nodes, isChild i n = true ∧ n.name = name) ∨
      ∃ v ∈ h.values, isValueOf i v = true ∧ v.name = name := by
  simp only [childNames, mem_append, mem_map, mem_filter, and_assoc]

theorem parent_ne (empty : h.childNames node = []) {k : Nat}
    (found : h.nodes[k]? = some n) (alive : n.deleted = false) : n.parent ≠ node := by
  rintro rfl
  have member : n.name ∈ h.childNames n.parent :=
    mem_childNames.mpr (.inl ⟨n, mem_of_getElem? found, by simp [isChild, alive], rfl⟩)
  rw [empty] at member
  cases member

theorem owner_ne (empty : h.childNames node = []) (member : v ∈ h.values)
    (alive : v.deleted = false) : v.node ≠ node := by
  rintro rfl
  have named : v.name ∈ h.childNames v.node :=
    mem_childNames.mpr (.inr ⟨v, member, by simp [isValueOf, alive], rfl⟩)
  rw [empty] at named
  cases named

theorem WF.addKey (wf : h.WF) (alive : h.live parent = true)
    (room : h.nodes.length < hivefsNoIndex) :
    ({ h with nodes := h.nodes ++ [⟨name, parent, 0, false⟩] } : HiveTree).WF where
  root := by
    obtain ⟨n, found, here⟩ := wf.root
    exact ⟨n, by rw [List.getElem?_append_left (List.getElem?_eq_some_iff.mp found).1, found], here⟩
  parent := by
    intro i n found here inner
    apply (live_addKey _ rfl).mpr
    rw [getElem?_append] at found
    split at found
    · exact .inl (wf.parent i n found here inner)
    · rw [getElem?_singleton] at found
      split at found
      · cases found
        exact .inl alive
      · cases found
  owner := fun v member here => (live_addKey _ rfl).mpr (.inl (wf.owner v member here))
  type := wf.type
  count := by
    rw [length_append]
    exact room

theorem WF.dropKey (wf : h.WF) (inner : node ≠ 0) (empty : h.childNames node = []) :
    ({ h with nodes := h.nodes.modify node fun n => { n with deleted := true } } : HiveTree).WF where
  root := by
    obtain ⟨n, found, here⟩ := wf.root
    exact ⟨n, by simp [found, inner], here⟩
  parent := by
    intro i n found here notRoot
    rw [getElem?_modify] at found
    obtain ⟨old, there, rfl⟩ := Option.map_eq_some_iff.mp found
    by_cases same : node = i
    · simp [same] at here
    · simp only [if_neg same] at here ⊢
      exact live_dropKey.mpr ⟨wf.parent i old there here notRoot, parent_ne empty there here⟩
  owner := fun v member here => live_dropKey.mpr ⟨wf.owner v member here,
    owner_ne empty member here⟩
  type := wf.type
  count := by
    rw [length_modify]
    exact wf.count

theorem Edit.wf (edit : Edit h h') (wf : h.WF) : h'.WF := by
  cases edit with
  | addKey name parent alive fresh room => exact wf.addKey alive room
  | dropKey node inner empty => exact wf.dropKey inner empty
  | addValue value alive fresh type =>
    refine ⟨wf.root, wf.parent, fun v member here => ?_, fun v member => ?_, wf.count⟩ <;>
      rcases mem_append.mp member with old | last
    · exact wf.owner v old here
    · cases mem_singleton.mp last
      exact alive
    · exact wf.type v old
    · cases mem_singleton.mp last
      exact type
  | putValue v old new found name node deleted type =>
    refine ⟨wf.root, wf.parent, fun w member here => ?_, fun w member => ?_, wf.count⟩ <;>
      rcases mem_or_eq_of_mem_set member with there | rfl
    · exact wf.owner w there here
    · have alive : old.deleted = false := by
        rw [← Bool.not_eq_true]
        intro gone
        rw [deleted gone] at here
        cases here
      rw [node]
      exact wf.owner old (mem_of_getElem? found) alive
    · exact wf.type w there
    · exact type
  | mark dirty => exact ⟨wf.root, wf.parent, wf.owner, wf.type, wf.count⟩

theorem filter_modify_sublist (l : List HiveNode) (k : Nat) :
    ((l.modify k fun n => { n with deleted := true }).filter (isChild i)).Sublist
    (l.filter (isChild i)) := by
  induction l generalizing k with
  | nil => cases k <;> exact List.Sublist.refl _
  | cons n l ih =>
    cases k with
    | zero =>
      exact (sublist_cons_self n l).filter _
    | succ k =>
      rw [modify_succ_cons, filter_cons, filter_cons]
      split
      · exact (ih k).cons_cons n
      · exact ih k

theorem names_set_sublist {l : List HiveValue} (found : l[v]? = some old)
    (name : new.name = old.name) (owner : new.node = old.node)
    (deleted : old.deleted = true → new.deleted = true) :
    (((l.set v new).filter (isValueOf i)).map (·.name)).Sublist
    ((l.filter (isValueOf i)).map (·.name)) := by
  induction l generalizing v with
  | nil => cases found
  | cons w l ih =>
    cases v with
    | zero =>
      rw [getElem?_cons_zero, Option.some.injEq] at found
      subst found
      rw [set_cons_zero, filter_cons, filter_cons]
      by_cases chosen : isValueOf i new = true
      · have before : isValueOf i w = true := by
          simp only [isValueOf, Bool.and_eq_true, Bool.not_eq_true'] at chosen ⊢
          refine ⟨?_, owner ▸ chosen.2⟩
          rw [← Bool.not_eq_true]
          intro gone
          rw [deleted gone] at chosen
          cases chosen.1
        rw [if_pos chosen, if_pos before, map_cons, map_cons, name]
      · rw [if_neg chosen]
        split
        · exact sublist_cons_self _ _
        · exact List.Sublist.refl _
    | succ v =>
      rw [set_cons_succ, filter_cons, filter_cons]
      split
      · exact (ih found).cons_cons _
      · exact ih found

theorem WF.childNames_new (wf : h.WF) (room : h.nodes.length < hivefsNoIndex) :
    h.childNames h.nodes.length = [] := by
  rw [eq_nil_iff_forall_not_mem]
  intro _ member
  rcases mem_childNames.mp member with ⟨n, there, child, _⟩ | ⟨v, there, owned, _⟩
  · simp only [isChild, Bool.and_eq_true, Bool.not_eq_true', beq_iff_eq] at child
    obtain ⟨k, found⟩ := getElem?_of_mem there
    by_cases root : k = 0
    · obtain ⟨_, found', _⟩ := wf.root
      rw [root, found', Option.some.injEq] at found
      subst found
      omega
    · have inside := lt_of_live (wf.parent k n found child.1 root)
      omega
  · simp only [isValueOf, Bool.and_eq_true, Bool.not_eq_true', beq_iff_eq] at owned
    have inside := lt_of_live (wf.owner v there owned.1)
    omega

theorem nodup_insert (distinct : (a ++ b).Nodup) (fresh : name ∉ a ++ b) :
    (a ++ [name] ++ b).Nodup := by
  have perm : (a ++ [name] ++ b).Perm (name :: (a ++ b)) := by
    rw [append_assoc]
    exact perm_middle
  exact perm.nodup_iff.mpr (nodup_cons.mpr ⟨fresh, distinct⟩)

theorem Edit.distinct (edit : Edit h h') (wf : h.WF) (distinct : h.Distinct) : h'.Distinct := by
  cases edit with
  | addKey name parent alive fresh room =>
    intro i here
    have before : (h.childNames i).Nodup := by
      rcases (live_addKey _ rfl).mp here with old | last
      · exact distinct i old
      · rw [last, wf.childNames_new room]
        exact nodup_nil
    by_cases same : parent = i
    · subst same
      have added : isChild parent ⟨name, parent, 0, false⟩ = true := by simp [isChild]
      simp only [childNames, filter_append, filter_cons_of_pos added, map_append, map_cons]
      exact nodup_insert before fresh
    · have skipped : ¬ isChild i ⟨name, parent, 0, false⟩ = true := by simp [isChild, same]
      simp only [childNames, filter_append, filter_cons_of_neg skipped, filter_nil, append_nil]
      exact before
  | dropKey node inner empty =>
    intro i here
    have fewer := ((filter_modify_sublist (i := i) h.nodes node).map (·.name)).append
      (List.Sublist.refl ((h.values.filter (isValueOf i)).map (·.name)))
    exact (distinct i (live_dropKey.mp here).1).sublist fewer
  | addValue value alive fresh type =>
    intro i here
    by_cases same : value.node = i
    · subst same
      by_cases gone : value.deleted = true
      · have skipped : ¬ isValueOf value.node value = true := by simp [isValueOf, gone]
        simp only [childNames, filter_append, filter_cons_of_neg skipped, filter_nil, append_nil]
        exact distinct _ here
      · have added : isValueOf value.node value = true := by simp [isValueOf, gone]
        simp only [childNames, filter_append, filter_cons_of_pos added, filter_nil, map_append, map_cons, map_nil]
        rw [← append_assoc, ← append_nil (_ ++ [value.name])]
        exact nodup_insert (by rw [append_nil]; exact distinct _ here) (by rw [append_nil]; exact fresh)
    · have skipped : ¬ isValueOf i value = true := by simp [isValueOf, same]
      simp only [childNames, filter_append, filter_cons_of_neg skipped, filter_nil, append_nil]
      exact distinct i here
  | putValue v old new found name node deleted type =>
    intro i here
    have fewer := (List.Sublist.refl ((h.nodes.filter (isChild i)).map (·.name))).append
      (names_set_sublist (i := i) found name node deleted)
    exact (distinct i here).sublist fewer
  | mark dirty => exact distinct

/-- Any number of edits. -/
def Edits : HiveTree → HiveTree → Prop := Relation.ReflTransGen Edit

theorem Edits.wf (edits : Edits h h') (wf : h.WF) : h'.WF := by
  induction edits with
  | refl => exact wf
  | tail _ edit ih => exact edit.wf ih

theorem Edits.distinct (edits : Edits h h') (wf : h.WF) (distinct : h.Distinct) : h'.Distinct := by
  induction edits with
  | refl => exact distinct
  | tail before edit ih => exact edit.distinct (Edits.wf before wf) ih

theorem Edits.name_flags (edits : Edits h h') : h'.name = h.name ∧ h'.flags = h.flags := by
  induction edits with
  | refl => exact ⟨rfl, rfl⟩
  | tail _ edit ih => exact ⟨edit.name_flags.1.trans ih.1, edit.name_flags.2.trans ih.2⟩

end HiveTree

end Otsos
