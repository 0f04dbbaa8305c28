import Mathlib.Data.List.Forall2
import Otsos.Hive.Build

/-! The invariant of a hive, and what the registry shows of it: the keys on every path, with their
flags and values. -/
namespace Otsos
open List Option

namespace HiveTree

variable {h : HiveTree} {i : Nat}

/-- The root is alive and has no parent; what is alive hangs from a key that is alive. -/
structure WF (h : HiveTree) : Prop where
  root : ∃ n, h.nodes[0]? = some n ∧ n.deleted = false ∧ n.parent = hivefsNoIndex
  parent : ∀ i n, h.nodes[i]? = some n → n.deleted = false → i ≠ 0 → h.live n.parent = true
  owner : ∀ v ∈ h.values, v.deleted = false → h.live v.node = true
  type : ∀ v ∈ h.values, hivefsTypeString ≤ v.type ∧ v.type ≤ hivefsTypeMultiString
  count : h.nodes.length ≤ hivefsNoIndex

theorem live_iff : h.live i = true ↔ ∃ n, h.nodes[i]? = some n ∧ n.deleted = false := by
  rw [live]
  cases found : h.nodes[i]? with
  | none => simp
  | some n => simp

theorem lt_of_live (alive : h.live i = true) : i < h.nodes.length := by
  obtain ⟨n, found, _⟩ := live_iff.mp alive
  exact (List.getElem?_eq_some_iff.mp found).1

/-- The children of a key with a given name. -/
def select (h : HiveTree) (parent : Nat) (name : HiveName) : List Nat :=
  (h.nodes.zipIdx.filter fun q => isChild parent q.1 && q.1.name == name).map (·.2)

/-- The keys that a path of names leads to from some keys. -/
def keysFrom (h : HiveTree) : List HiveName → List Nat → List Nat
  | [], keys => keys
  | name :: path, keys => h.keysFrom path (keys.flatMap fun key => h.select key name)

/-- What is shown of a key: its flags, and the name, type, flags and data of each of its values. -/
def keyView (h : HiveTree) (i : Nat) :
    Option UInt32 × List (HiveName × UInt32 × UInt32 × List UInt8) :=
  (h.nodes[i]?.map (·.flags), (h.values.filter (isValueOf i)).map fun v => (v.name, v.type, v.flags,
    v.data))

/-- The keys on a path from the root. -/
def view (h : HiveTree) (path : List HiveName) :
    List (Option UInt32 × List (HiveName × UInt32 × UInt32 × List UInt8)) :=
  (h.keysFrom path [0]).map h.keyView

theorem WF.live_root (wf : h.WF) : h.live 0 = true := by
  obtain ⟨n, found, alive, _⟩ := wf.root
  exact live_iff.mpr ⟨n, found, alive⟩

theorem WF.keeps_eq (wf : h.WF) (found : h.nodes[i]? = some n) : h.keeps i n = !n.deleted := by
  cases deleted : n.deleted with
  | true => simp [keeps, deleted]
  | false =>
    by_cases root : i = 0
    · simp [keeps, deleted, root]
    · simp [keeps, deleted, wf.parent i n found deleted root]

theorem WF.nodeMap_of_live (wf : h.WF) (alive : h.live i = true) : ∃ k, h.nodeMap i = some k := by
  obtain ⟨n, found, here⟩ := live_iff.mp alive
  exact Compact.rank_of_keep found (by rw [wf.keeps_eq found, here]; rfl)

theorem WF.live_of_nodeMap (wf : h.WF) (mapped : h.nodeMap i = some k) : h.live i = true := by
  obtain ⟨n, found, kept⟩ := Compact.keep_of_rank mapped
  rw [wf.keeps_eq found, Bool.not_eq_true'] at kept
  exact live_iff.mpr ⟨n, found, kept⟩

theorem nodeMap_lt (mapped : h.nodeMap i = some k) : k < h.keptNodes.length :=
  Compact.rank_lt mapped

theorem length_keptNodes (h : HiveTree) : h.keptNodes.length ≤ h.nodes.length := by
  refine Nat.le_trans (length_filter_le _ _) ?_
  rw [length_zipIdx]

theorem WF.nodeMap_zero (wf : h.WF) : h.nodeMap 0 = some 0 := by
  obtain ⟨n, found, alive, _⟩ := wf.root
  have keeps : h.keeps 0 n = true := by rw [wf.keeps_eq found, alive]; rfl
  refine Compact.rank_eq_some.mpr ⟨n, ?_⟩
  obtain ⟨n', rest, nodes⟩ : ∃ n' rest, h.nodes = n' :: rest := by
    cases empty : h.nodes with
    | nil => rw [empty] at found; cases found
    | cons n' rest => exact ⟨n', rest, rfl⟩
  rw [nodes, getElem?_cons_zero, some.injEq] at found
  subst found
  rw [Compact.kept, nodes, zipIdx_cons, filter_cons, if_pos keeps]
  rfl

/-- The hive after it has been written out and read back. -/
def compact (h : HiveTree) : HiveTree where
  name := h.name
  flags := h.flags
  nodes := h.keptNodes.map fun p => { p.1 with parent := h.newParent p }
  values := h.keptValues.map fun v => { v with node := (h.nodeMap v.node).getD 0 }
  dirty := false

theorem WF.newParent_eq (wf : h.WF) (found : h.nodes[i]? = some n) (alive : n.deleted = false)
    (mapped : h.nodeMap k = some m) : h.newParent (n, i) = m ↔ n.parent = k := by
  have count := wf.count
  have small : m < hivefsNoIndex :=
    Nat.lt_of_lt_of_le (nodeMap_lt mapped) (Nat.le_trans (length_keptNodes h) count)
  have inside : k < hivefsNoIndex :=
    Nat.lt_of_lt_of_le (lt_of_live (wf.live_of_nodeMap mapped)) count
  by_cases root : i = 0
  · subst root
    obtain ⟨n', found', _, parent⟩ := wf.root
    rw [found, some.injEq] at found'
    subst found'
    rw [newParent, if_pos rfl]
    constructor <;> intro same <;> omega
  · obtain ⟨q, parent⟩ := wf.nodeMap_of_live (wf.parent i n found alive root)
    rw [newParent, if_neg root, parent]
    constructor
    · rintro rfl
      exact Compact.rank_injective parent mapped
    · rintro rfl
      exact some.inj (parent.symm.trans mapped)

theorem WF.select_compact (wf : h.WF) (mapped : h.nodeMap k = some m) (name : HiveName) :
    (h.compact.select m name).map some = (h.select k name).map h.nodeMap := by
  have before : h.nodes.zipIdx.filter (fun q => isChild k q.1 && q.1.name == name) =
      h.keptNodes.filter fun q => isChild k q.1 && q.1.name == name := by
    refine Compact.filter_zipIdx (fun n => isChild k n && n.name == name) fun i n found chosen => ?_
    rw [Bool.and_eq_true, isChild, Bool.and_eq_true] at chosen
    rw [wf.keeps_eq found]
    exact chosen.1.1
  have after : (((h.compact.nodes.zipIdx.filter fun q => isChild m q.1 && q.1.name == name)).map fun q =>
      some q.2) = (h.keptNodes.filter fun q => isChild k q.1 && q.1.name == name).map fun p =>
      h.nodeMap p.2 := by
    refine Compact.filter_map_kept (fun p : _ × Nat => { p.1 with parent := h.newParent p })
      (fun n => isChild k n && n.name == name) (fun n => isChild m n && n.name == name) fun p member => ?_
    obtain ⟨found, kept⟩ := Compact.mem_kept.mp member
    rw [wf.keeps_eq found, Bool.not_eq_true'] at kept
    simp only [isChild]
    congr 2
    rw [Bool.eq_iff_iff, beq_iff_eq, beq_iff_eq]
    exact wf.newParent_eq found kept mapped
  rw [select, select, before, List.map_map, List.map_map]
  exact after

theorem WF.keysFrom_compact (wf : h.WF) (path : List HiveName) {keys : List Nat}
    (mapped : List.Forall₂ (fun k m => h.nodeMap k = some m) keys keys') :
    List.Forall₂ (fun k m => h.nodeMap k = some m) (h.keysFrom path keys)
    (h.compact.keysFrom path keys') := by
  induction path generalizing keys keys' with
  | nil => exact mapped
  | cons name path ih =>
    refine ih ?_
    refine rel_flatMap mapped fun k m here => ?_
    have selected := wf.select_compact here name
    rw [← forall₂_eq_eq_eq, forall₂_map_left_iff, forall₂_map_right_iff] at selected
    exact selected.flip.imp fun _ _ same => same.symm

theorem keyView_compact (mapped : h.nodeMap k = some m) : h.compact.keyView m = h.keyView k := by
  obtain ⟨n, kept⟩ := Compact.rank_eq_some.mp mapped
  obtain ⟨found, _⟩ := Compact.mem_kept.mp (mem_of_getElem? kept)
  have flags : h.compact.nodes[m]?.map (·.flags) = h.nodes[k]?.map (·.flags) := by
    rw [compact, List.getElem?_map, keptNodes, kept, found]
    rfl
  have chosen : h.keptValues.filter (fun v => isValueOf m { v with node := (h.nodeMap v.node).getD 0 }) =
      h.values.filter (isValueOf k) := by
    rw [keptValues, List.filter_filter]
    refine filter_congr fun v _ => ?_
    rw [Bool.eq_iff_iff]
    simp only [isValueOf, Bool.and_eq_true, beq_iff_eq, isSome_iff_exists]
    constructor
    · rintro ⟨⟨alive, same⟩, _, q, there⟩
      rw [there] at same
      subst same
      exact ⟨alive, Compact.rank_injective there mapped⟩
    · rintro ⟨alive, rfl⟩
      refine ⟨⟨alive, ?_⟩, alive, m, mapped⟩
      rw [mapped, getD_some]
  rw [keyView, flags, compact, List.filter_map, List.map_map]
  exact congrArg (Prod.mk _) (congrArg (map _) chosen)

theorem WF.view_compact (wf : h.WF) (path : List HiveName) : h.compact.view path = h.view path := by
  have mapped := wf.keysFrom_compact path (List.Forall₂.cons wf.nodeMap_zero .nil)
  rw [view, view]
  generalize h.keysFrom path [0] = keys at mapped
  generalize h.compact.keysFrom path [0] = keys' at mapped
  induction mapped with
  | nil => rfl
  | cons here _ ih => rw [map_cons, map_cons, ih, keyView_compact here]

end HiveTree

end Otsos
