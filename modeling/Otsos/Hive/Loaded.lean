import Mathlib.Data.List.Nodup
import Otsos.Hive.Changes

/-! What the loader establishes for every pack that it accepts. -/
namespace Otsos
open Bytes Related
open List Option

variable {raw : RawHive} {base : List UInt8}

theorem mulSizeOk_some {count : UInt32} (ran : mulSizeOk count size = some bytes) :
    count.toNat ≤ 0xFFFFFFFF / size.toNat := by
  rw [mulSizeOk] at ran
  split at ran
  · cases ran
  next fits =>
  rw [UInt32.not_lt, UInt32.le_iff_toNat_le] at fits
  exact fits

namespace RawHive

/-- What the checks of an image establish about its entries. -/
structure Checked (raw : RawHive) : Prop where
  nodes : ∀ i e, raw.nodes[i]? = some e → raw.nodeOk i e = true
  values : ∀ e ∈ raw.values, raw.valueOk e = true
  some_ : 0 < raw.header.nodeCount.toNat
  nodeBytes : raw.header.nodeCount.toNat ≤ 0xFFFFFFFF / 28
  valueBytes : raw.header.valueCount.toNat ≤ 0xFFFFFFFF / 24

theorem length_nodes (raw : RawHive) : raw.nodes.length = raw.header.nodeCount.toNat := by
  rw [nodes, length_map, length_range]

theorem length_values (raw : RawHive) : raw.values.length = raw.header.valueCount.toNat := by
  rw [values, length_map, length_range]

theorem headerOk_counts (ok : headerOk hdr size base = true) :
    0 < hdr.nodeCount.toNat ∧ hdr.nodeCount.toNat ≤ 0xFFFFFFFF / 28 ∧
    hdr.valueCount.toNat ≤ 0xFFFFFFFF / 24 := by
  rw [headerOk] at ok
  cases nodeBytes : mulSizeOk hdr.nodeCount 28 with
  | none => simp [nodeBytes] at ok
  | some n =>
    cases valueBytes : mulSizeOk hdr.valueCount 24 with
    | none => simp [valueBytes] at ok
    | some v =>
      have positive : hdr.nodeCount ≠ 0 := by
        intro zero
        simp [zero] at ok
      refine ⟨Nat.pos_of_ne_zero fun zero => positive (UInt32.toNat_inj.mp zero), ?_, ?_⟩
      · exact mulSizeOk_some nodeBytes
      · exact mulSizeOk_some valueBytes

theorem checked_of_validateHive (ran : validateHive base = some raw) : raw.Checked := by
  obtain ⟨header, entries⟩ := filter_eq_some_iff.mp ran
  rw [Bool.and_eq_true, List.all_eq_true, List.all_eq_true] at entries
  simp only [validateHeader] at header
  split at header
  · next accepted =>
    cases header
    obtain ⟨positive, nodeBytes, valueBytes⟩ := headerOk_counts accepted.2.2
    refine ⟨fun i e found => ?_, entries.2, positive, nodeBytes, valueBytes⟩
    exact entries.1 (e, i) (mk_mem_zipIdx_iff_getElem?.mpr found)
  · cases header

/-- The hive that an image stands for. -/
def tree (raw : RawHive) (name : HiveName) (flags : UInt32) : HiveTree :=
  ⟨name, flags, raw.nodes.map raw.importNode, raw.values.map raw.importValue, false⟩

theorem live_tree (raw : RawHive) (name : HiveName) (flags : UInt32) :
    (raw.tree name flags).live i = true ↔ i < raw.header.nodeCount.toNat := by
  rw [HiveTree.live_iff, ← length_nodes]
  constructor
  · rintro ⟨n, found, _⟩
    have inside := (List.getElem?_eq_some_iff.mp found).1
    simpa only [tree, length_map] using inside
  · intro inside
    exact ⟨raw.importNode raw.nodes[i], by simp [tree, inside], rfl⟩

theorem Checked.wf (checked : raw.Checked) (name : HiveName) (flags : UInt32) :
    (raw.tree name flags).WF where
  root := by
    have inside : 0 < raw.nodes.length := by
      rw [length_nodes]
      exact checked.some_
    have ok := checked.nodes 0 _ (getElem?_eq_getElem inside)
    rw [nodeOk, if_pos rfl] at ok
    simp only [Bool.and_eq_true, beq_iff_eq] at ok
    exact ⟨raw.importNode raw.nodes[0], by simp [tree, inside], rfl, ok.1.1.1⟩
  parent := by
    intro i n found _ inner
    rw [tree, getElem?_map] at found
    obtain ⟨e, there, rfl⟩ := map_eq_some_iff.mp found
    have ok := checked.nodes i e there
    rw [nodeOk, if_neg inner] at ok
    simp only [Bool.and_eq_true, decide_eq_true_eq] at ok
    exact (live_tree raw name flags).mpr ok.1.1.1
  owner := by
    intro v member _
    obtain ⟨e, there, rfl⟩ := mem_map.mp member
    have ok := checked.values e there
    simp only [valueOk, Bool.and_eq_true, decide_eq_true_eq] at ok
    exact (live_tree raw name flags).mpr ok.1.1.1.1
  type := by
    intro v member
    obtain ⟨e, there, rfl⟩ := mem_map.mp member
    have ok := checked.values e there
    simp only [valueOk, Bool.and_eq_true, decide_eq_true_eq] at ok
    exact ⟨ok.1.1.2, ok.1.2⟩
  count := by
    have few := checked.nodeBytes
    rw [tree, length_map, length_nodes, hivefsNoIndex]
    omega

theorem importValues_some {values : List HiveValue}
    (ran : raw.importValues env es requests = (later, .ok values)) :
    values = es.map raw.importValue := by
  induction es generalizing requests values with
  | nil =>
    cases ran
    rfl
  | cons e es ih =>
    rw [importValues] at ran
    split at ran
    · cases ran
    simp only [Prod.mk.injEq] at ran
    cases rest : (raw.importValues env es (if e.size = 0 then requests else requests + 1)) with
    | mk middle answer =>
      rw [rest] at ran
      cases answer with
      | error err => cases ran.2
      | ok others =>
        obtain ⟨rfl, same⟩ := ran
        cases same
        rw [ih rest, map_cons]

theorem Checked.importHive (checked : raw.Checked) {flags : UInt32}
    (ran : raw.importHive env requests name flags = some (later, .ok hive)) :
    hive.toHiveTree = raw.tree name flags ∧ hive.Rooms := by
  have nodeBytes := checked.nodeBytes
  have valueBytes := checked.valueBytes
  have nodeCount : u32 (raw.header.nodeCount.toNat + 8) = raw.header.nodeCount.toNat + 8 :=
    Nat.mod_eq_of_lt (by omega)
  have valueCount : u32 (raw.header.valueCount.toNat + 8) = raw.header.valueCount.toNat + 8 :=
    Nat.mod_eq_of_lt (by omega)
  obtain ⟨⟨_, nodeCap⟩, nodesReserved, ran⟩ := bind_eq_some_iff.mp ran
  cases nodeCap with
  | error e => cases ran
  | ok nodeCap =>
    obtain ⟨⟨second, valueCap⟩, valuesReserved, ran⟩ := bind_eq_some_iff.mp ran
    cases valueCap with
    | error e => cases ran
    | ok valueCap =>
      cases imported : raw.importValues env raw.values second with
      | mk third values =>
        simp only [imported] at ran
        cases values with
        | error e => cases ran
        | ok values =>
          cases ran
          have same := importValues_some imported
          refine ⟨by rw [same]; rfl, ?_, ?_⟩
          · apply (reserve_room (.inl rfl) nodesReserved).mono
            rw [length_map, length_nodes]
            omega
          · apply (reserve_room (.inl rfl) valuesReserved).mono
            rw [same, length_map, length_values]
            omega

/-- The names in an image of what hangs from a key, in full. -/
def childNames (raw : RawHive) (i : Nat) : List (List UInt8) :=
  ((raw.nodes.filter fun e => e.parent.toNat == i).map fun e => (raw.stringAt e.nameOff).takeWhile
    (· != 0)) ++ (raw.values.filter fun e => e.node.toNat == i).map
    fun e => (raw.stringAt e.nameOff).takeWhile (· != 0)

/-- No two children of a key, keys or values, share a name. -/
def Distinct (raw : RawHive) : Prop := ∀ i < raw.header.nodeCount.toNat, (raw.childNames i).Nodup

/-- They do not even share one when names are cut to what a name in memory holds. -/
def DistinctCut (raw : RawHive) : Prop :=
  ∀ i < raw.header.nodeCount.toNat, ((raw.childNames i).map (·.take (hivefsNameSize - 1))).Nodup

theorem childNames_tree (raw : RawHive) (name : HiveName) (flags : UInt32) (i : Nat) :
    ((raw.tree name flags).childNames i).map (·.bytes) = (raw.childNames i).map
    (·.take (hivefsNameSize - 1)) := by
  simp only [HiveTree.childNames, tree, childNames, List.filter_map, List.map_append, List.map_map]
  rfl

theorem distinct_tree (raw : RawHive) (name : HiveName) (flags : UInt32) :
    (raw.tree name flags).Distinct ↔ raw.DistinctCut := by
  have bytes : Function.Injective HiveName.bytes := fun a b same => HiveName.ext same
  constructor
  · intro distinct i inside
    rw [← childNames_tree raw name flags, nodup_map_iff bytes]
    exact distinct i ((live_tree raw name flags).mpr inside)
  · intro cut i alive
    have apart := cut i ((live_tree raw name flags).mp alive)
    rwa [← childNames_tree raw name flags, nodup_map_iff bytes] at apart

end RawHive

/-- The hive of an entry of a pack. -/
def Imports (data : List UInt8) (e : PackEntry) (hive : Hive) : Prop :=
  ∃ raw, validateHive (e.image data) = some raw ∧
    hive.toHiveTree = raw.tree (nameCopy e.name) e.flags ∧ hive.Rooms

theorem loadEntries_imports {before : List PackEntry}
    (ran : loadEntries env hdr data before es requests = some (later, .ok hives)) :
    List.Forall₂ (Imports data) es hives ∧ (es.map fun e => nameCopy e.name).Nodup ∧
      ∀ p ∈ before, ∀ e ∈ es, nameCopy p.name ≠ nameCopy e.name := by
  induction es generalizing before requests hives with
  | nil =>
    cases ran
    exact ⟨.nil, nodup_nil, fun _ _ _ impossible => nomatch impossible⟩
  | cons e es ih =>
    rw [loadEntries] at ran
    split at ran
    · next accepted =>
      cases validated : validateHive (e.image data) with
      | none =>
        simp only [validated] at ran
        cases ran
      | some raw =>
        simp only [validated] at ran
        obtain ⟨⟨_, answer⟩, imported, ran⟩ := bind_eq_some_iff.mp ran
        cases answer with
        | error err => cases ran
        | ok hive =>
          obtain ⟨⟨_, rest⟩, others, ran⟩ := bind_eq_some_iff.mp ran
          cases rest with
          | error err => cases ran
          | ok rest =>
            cases ran
            obtain ⟨related, distinct, apart⟩ := ih others
            have here := (RawHive.checked_of_validateHive validated).importHive imported
            simp only [entryOk, Bool.and_eq_true, List.all_eq_true, bne_iff_ne] at accepted
            refine ⟨.cons ⟨raw, validated, here⟩ related, ?_, ?_⟩
            · rw [map_cons, nodup_cons]
              refine ⟨fun member => ?_, distinct⟩
              obtain ⟨e', there, same⟩ := mem_map.mp member
              exact apart e (mem_append_right _ mem_cons_self) e' there same.symm
            · intro p earlier e' member
              rcases mem_cons.mp member with rfl | later
              · exact accepted.2 p earlier
              · exact apart p (mem_append_left _ earlier) e' later
    · cases ran

namespace Hivefs

/-- The registry as `hivefs_pack_load` leaves it; what was known of the store is kept. -/
structure Loaded (env : HiveEnv) (data : List UInt8) (s : Hivefs) : Prop where
  loaded : s.loaded = true
  hives : ∃ requests, packLoadInto env requests data = some (s.requests, .ok s.hives)

theorem Loaded.imports (start : Loaded env data s) :
    List.Forall₂ (Imports data) (packEntries data) s.hives ∧
      ((packEntries data).map fun e => nameCopy e.name).Nodup ∧ packEntries data ≠ [] ∧
      (packEntries data).length ≤ hivefsMaxHives := by
  obtain ⟨_, ran⟩ := start.hives
  simp only [packLoadInto] at ran
  split at ran
  · next accepted =>
    obtain ⟨related, distinct, _⟩ := loadEntries_imports ran
    have count : (packEntries data).length = (PackHeader.decode data).hiveCount.toNat := by
      rw [packEntries, length_map, length_range]
    have ok := accepted.2.2
    simp only [packHeaderOk, Bool.and_eq_true, bne_iff_ne, decide_eq_true_eq] at ok
    obtain ⟨⟨⟨⟨⟨_, positive⟩, few⟩, _⟩, _⟩, _⟩ := ok
    refine ⟨related, distinct, fun empty => ?_, count ▸ few⟩
    rw [empty] at count
    exact positive (UInt32.toNat_inj.mp count.symm)
  · cases ran

theorem Loaded.sound (start : Loaded env data s) : s.Sound := by
  obtain ⟨related, distinct, some_, few⟩ := start.imports
  have count := related.length_eq
  refine ⟨⟨start.loaded, ?_, count ▸ few, ?_, ?_⟩, ?_⟩
  · intro empty
    rw [empty] at count
    exact some_ (length_eq_zero_iff.mp count)
  · have names : s.trees.map (·.name) = (packEntries data).map fun e => nameCopy e.name := by
      rw [trees, List.map_map]
      apply forall₂_map_eq related
      rintro e _ hive ⟨raw, _, tree, _⟩
      exact (congrArg HiveTree.name tree)
    rw [names]
    exact distinct
  · intro h member
    obtain ⟨hive, there, rfl⟩ := mem_map.mp member
    obtain ⟨e, _, raw, validated, tree, _⟩ := forall₂_exists_left related there
    rw [tree]
    exact (RawHive.checked_of_validateHive validated).wf _ _
  · intro hive member
    obtain ⟨e, _, raw, _, _, rooms⟩ := forall₂_exists_left related member
    exact rooms

end Hivefs

end Otsos
