import Otsos.Foundation.Transition
import Otsos.Hive.Entries
import Otsos.Hive.Loaded

/-! Runs of the registry from a pack that has been loaded: what is written out is what is shown,
what a failed call leaves, and the names of what hangs from one key. -/
namespace Otsos
open Related
open Relation (ReflTransGen)
open Transition (Free Reaches exec)
open List

namespace HiveTree

/-- The parents of a key lead to the root in `d` steps. -/
inductive Up (h : HiveTree) : Nat → Nat → Prop where
  | root : Up h 0 0
  | step {k : Nat} (n : HiveNode) (found : h.nodes[k]? = some n) (alive : n.deleted = false)
      (up : Up h d n.parent) : Up h (d + 1) k

theorem Up.lookupParts (up : Up h d node) (found : h.lookupParts parts node = .ok k) :
    Up h (d + parts.length) k := by
  induction parts generalizing node d with
  | nil =>
    cases found
    exact up
  | cons part rest ih =>
    rw [HiveTree.lookupParts] at found
    split at found
    · cases found
    cases child : h.findChild node part with
    | none =>
      simp only [child] at found
      cases found
    | some next =>
      simp only [child] at found
      obtain ⟨n, there, below⟩ := findChild_some child
      rw [isChild, Bool.and_eq_true, Bool.not_eq_true', beq_iff_eq] at below
      have one : Up h (d + 1) next := .step n there below.1 (below.2 ▸ up)
      have whole := ih one found
      rwa [Nat.add_assoc, Nat.add_comm 1] at whole

theorem up_of_lookup (found : h.lookup key = .ok k) : Up h (components isKeySep key).length k := by
  rw [lookup] at found
  split at found
  · cases found
  · have whole := Up.root.lookupParts found
    rwa [Nat.zero_add] at whole

theorem Up.accessWalk (up : Up h d k) (enough : d < fuel) (a : Access) :
    (h.accessWalk fuel k a).isSome = true := by
  induction up generalizing fuel a with
  | root =>
    obtain ⟨more, rfl⟩ : ∃ more, fuel = more + 1 := ⟨fuel - 1, by omega⟩
    rw [HiveTree.accessWalk]
    split
    · rfl
    · split
      · rfl
      · rfl
  | step n found alive _ ih =>
    obtain ⟨more, rfl⟩ : ∃ more, fuel = more + 1 := ⟨fuel - 1, by omega⟩
    rw [HiveTree.accessWalk, found]
    simp only [alive, Bool.false_eq_true, if_false]
    split
    · rfl
    · exact ih (by omega) _

end HiveTree

namespace Hivefs

variable {s : Hivefs}

/-- The calls that change the registry, with their arguments. -/
inductive Op where
  | createKey (hive key : CString)
  | deleteKey (hive key : CString)
  | setValue (hive key value : CString) (type : UInt32) (data : Option (List UInt8)) (size : UInt32)
  | deleteValue (hive key value : CString)
  | vnodeWrite (vn : Vnode) (buf : List UInt8) (offset : UInt64)
  | createFile (path : CString)
  | mkdir (path : CString)
  | rmdir (path : CString)
  | unlink (path : CString)
  | truncate (path : CString) (length : UInt64)
  | writeFile (path : CString) (data : List UInt8) (size : UInt32)

def Op.run (env : HiveEnv) (s : Hivefs) : Op → Option (Hivefs × Except ApiErr Unit)
  | .createKey hive key => s.createKey env hive.bytes key.bytes
  | .deleteKey hive key => s.deleteKey env hive.bytes key.bytes
  | .setValue hive key value type data size =>
    s.setValue env hive.bytes key.bytes value.bytes type data size
  | .deleteValue hive key value => s.deleteValue env hive.bytes key.bytes value.bytes
  | .vnodeWrite vn buf offset => s.vnodeWrite env vn buf offset
  | .createFile path => s.backCreateFile env path.bytes
  | .mkdir path => s.backMkdir env path.bytes
  | .rmdir path => s.backRmdir env path.bytes
  | .unlink path => s.backUnlink env path.bytes
  | .truncate path length => s.backTruncate env path.bytes length
  | .writeFile path data size => s.backWriteFile env path.bytes data size

/-- One call, whatever it returns. -/
def Step (env : HiveEnv) (s s' : Hivefs) : Prop := ∃ op result, Op.run env s op = some (s', result)

/-- A write through a vnode that gets past its checks, to a hive that is clean. -/
def Op.WritesClean (env : HiveEnv) (s : Hivefs) : Op → Prop
  | .vnodeWrite vn buf offset =>
    (∃ old, (s.vnodeWriteCheck env vn buf offset).2 = .ok old) ∧
      ∃ hive, s.hives[vn.hive]? = some hive ∧ hive.dirty = false
  | _ => False

theorem Op.effect {op : Op} (sound : s.Sound)
    (other : ∀ vn buf offset, op ≠ .vnodeWrite vn buf offset)
    (ran : op.run env s = some (s', result)) : Effect s s' result := by
  cases op with
  | createKey hive key => exact createKey_effect sound key.plain ran
  | deleteKey hive key => exact deleteKey_effect sound ran
  | setValue hive key value type data size => exact setValue_effect sound key.plain value.plain ran
  | deleteValue hive key value => exact deleteValue_effect sound ran
  | vnodeWrite vn buf offset => exact absurd rfl (other vn buf offset)
  | createFile path => exact backCreateFile_effect sound path.plain ran
  | mkdir path => exact backMkdir_effect sound path.plain ran
  | rmdir path => exact backRmdir_effect sound ran
  | unlink path => exact backUnlink_effect sound ran
  | truncate path length => exact backTruncate_effect sound path.plain ran
  | writeFile path data size => exact backWriteFile_effect sound path.plain ran

theorem Same.evolves (same : Same s s') : Evolves s s' := by
  refine ⟨same.loaded, ?_⟩
  have trees := same.trees
  have rooms := same.rooms
  rw [Hivefs.trees, Hivefs.trees] at trees
  generalize s.hives = old at trees
  generalize s'.hives = new at trees rooms
  induction new generalizing old with
  | nil =>
    rw [map_nil, eq_comm, map_eq_nil_iff] at trees
    rw [trees]
    exact .nil
  | cons h new ih =>
    cases old with
    | nil => cases trees
    | cons h' old =>
      rw [map_cons, map_cons, cons.injEq] at trees
      refine .cons ⟨?_, rooms h mem_cons_self⟩
        (ih old trees.2 fun k member => rooms k (mem_cons_of_mem _ member))
      rw [trees.1]
      exact .refl

theorem Effect.evolves (effect : Effect s s' result) : Evolves s s' := by
  cases effect with
  | failed e same => exact same.evolves
  | done evolves => exact evolves

theorem Step.evolves (step : Step env s s') (sound : s.Sound) : Evolves s s' := by
  obtain ⟨op, _, ran⟩ := step
  by_cases write : ∃ vn buf offset, op = .vnodeWrite vn buf offset
  · obtain ⟨vn, buf, offset, rfl⟩ := write
    rcases vnodeWrite_cases sound ran with ⟨_, _, _, same⟩ | ⟨_, _, _, found, ⟨_, _, loaded, hives⟩ | ⟨_, after⟩⟩
    · exact same.evolves
    · exact sound.evolves found loaded hives ((Hive.Evolves.refl (sound.hive_spec found).2).mark true)
    · exact after
  · exact (Op.effect sound (fun vn buf offset same => write ⟨vn, buf, offset, same⟩) ran).evolves

theorem run_sound (begun : Loaded env data start) (reached : ReflTransGen (Step env) start s) :
    s.Sound := by
  induction reached with
  | refl => exact begun.sound
  | tail _ step ih => exact (step.evolves ih).sound ih

theorem exists_loaded (valid : Pack.Valid items) (plenty : Pack.Plenty env 0)
    (storePath : List UInt8) : ∃ s, Loaded env (Pack.bytes items) s ∧ s.trees = items.map (·.tree) ∧
      s.storePath = storePath ∧ s.syncing = false := by
  obtain ⟨later, hives, ran, _, trees⟩ := Pack.packLoadInto_bytes valid plenty
  exact ⟨⟨hives, true, false, storePath, later, 0⟩, ⟨rfl, 0, ran⟩, trees, rfl, rfl⟩

theorem one_hive {item : PackItem} (shown : s.trees = [item].map (·.tree)) :
    ∃ hive, s.hives = [hive] ∧ hive.toHiveTree = item.tree := by
  rw [map_singleton, trees, map_eq_singleton_iff] at shown
  exact shown

theorem commitOr_no_store (loaded : s.loaded = true) (noStore : s.storePath = [])
    (idle : s.syncing = false) (undo : Hivefs → Hivefs) :
    ∃ last, s.commitOr env undo = some (last, .error .io) := by
  refine ⟨undo { s with commits := s.commits + 1 }, ?_⟩
  simp [commitOr, commit, loaded, noStore, idle]

/-- Memory is there and the store can be written. -/
def quietEnv : HiveEnv := ⟨fun _ => true, fun _ => true, fun _ => none⟩

theorem quietEnv_plenty (requests : Nat) : Pack.Plenty quietEnv requests := fun _ _ => rfl

theorem parent_of_tail {nodes : List NodeEntry} {count : Nat}
    (small : ∀ e ∈ nodes.tail, e.parent.toNat < count) : ∀ i e, nodes[i]? = some e → 0 < i →
    e.parent.toNat < count := by
  intro i e found _
  apply small
  obtain ⟨k, rfl⟩ : ∃ k, i = k + 1 := ⟨i - 1, by omega⟩
  rw [← getElem?_tail] at found
  exact mem_of_getElem? found

/-- A hive `h` with one value `v` of two bytes at its root. -/
def sampleItem : PackItem where
  name := ⟨[0x68], by decide, by decide⟩
  flags := 0
  image :=
    { flags := 0
      nodes := [⟨0xFFFFFFFF, 0, 0, 0, 0, 0, 1⟩]
      values := [⟨0, 1, 7, 0, 0, 2⟩]
      strings := [0, 0x76, 0]
      data := [1, 2] }

theorem sampleItem_valid : Pack.Valid [sampleItem] where
  size := by decide
  some_ := by decide
  few := by decide
  images := by
    intro _ member
    cases mem_singleton.mp member
    exact ⟨by decide, ⟨_, _, rfl, rfl⟩, parent_of_tail (by decide), by decide, by decide, by decide, by decide,
      by decide, by decide, by decide⟩
  names := by decide

/-- Whatever has been done to the registry, writing it out and reading it back gives the same hives,
with the same keys and values on every path. -/
theorem run_round_trip (begun : Loaded env data start) (reached : ReflTransGen (Step env) start s)
    (small : s.packSize < 2 ^ 32) (plenty : Pack.Plenty env s.requests) :
    ∃ later pack later' hives, s.buildPack env = some (later, .ok pack) ∧
      packLoadInto env later pack = some (later', .ok hives) ∧
      List.Forall₂ (fun (h : HiveTree) (h' : _) => h'.name = h.name ∧ h'.flags = h.flags ∧
        ∀ path, h'.view path = h.view path) s.trees hives := by
  have wf := (run_sound begun reached).wf
  obtain ⟨later, pack, later', hives, built, loaded, trees⟩ := wf.load_build small plenty
  refine ⟨later, pack, later', hives, built, loaded, ?_⟩
  have shown : List.Forall₂ (fun h h' : HiveTree => h'.name = h.name ∧ h'.flags = h.flags ∧
      ∀ path, h'.view path = h.view path) s.trees (s.trees.map (·.compact)) := by
    rw [forall₂_map_right_iff]
    exact forall₂_same.mpr fun h member => ⟨rfl, rfl, (wf.hives h member).view_compact⟩
  rw [← trees, forall₂_map_right_iff] at shown
  exact shown

/-- A key is made, a value is set under another one, and the first is deleted. -/
def sampleEdits : List Op :=
  [.createKey ⟨[0x68], by decide⟩ ⟨[0x6b], by decide⟩,
    .setValue ⟨[0x68], by decide⟩ ⟨[0x6d], by decide⟩ ⟨[0x77], by decide⟩ 7 (some [5]) 1,
    .deleteKey ⟨[0x68], by decide⟩ ⟨[0x6b], by decide⟩]

/-- The registry behind them, from hives that were loaded. -/
def sampleEdited : Nat × Except ApiErr (List Hive) → Option Hivefs
  | (later, .ok hives) =>
    exec (fun s op => (op.run quietEnv s).map Prod.fst) Free ⟨hives, true, false, [0x2f], later, 0⟩
      sampleEdits
  | (_, .error _) => none

/-- Which keys have been deleted, and the data of the values. -/
def summary (s : Hivefs) : List (List Bool × List (List UInt8)) :=
  s.trees.map fun h => (h.nodes.map (·.deleted), h.values.map (·.data))

set_option maxRecDepth 20000 in
theorem run_round_trip_sampleEdits : ∃ start s, Loaded quietEnv (Pack.bytes [sampleItem]) start ∧
    ReflTransGen (Step quietEnv) start s ∧ s.packSize < 2 ^ 32 ∧
    s.summary = [([false, true, false], [[1, 2], [5]])] ∧
    ∃ later pack later' hives, s.buildPack quietEnv = some (later, .ok pack) ∧
      packLoadInto quietEnv later pack = some (later', .ok hives) ∧
      List.Forall₂ (fun (h : _) (h' : _) => h'.name = h.name ∧ h'.flags = h.flags ∧
        ∀ path, h'.view path = h.view path) s.trees hives := by
  obtain ⟨⟨later, answer⟩, loaded, ran⟩ :
      ∃ x, packLoadInto quietEnv 0 (Pack.bytes [sampleItem]) = some x ∧ (sampleEdited x).any fun s =>
        s.packSize < 2 ^ 32 ∧ s.summary = [([false, true, false], [[1, 2], [5]])] :=
    Loop.exists_of_any (by decide +kernel)
  cases answer with
  | error => cases ran
  | ok hives =>
    obtain ⟨s, run, seen⟩ := Reaches.exists_of_exec _ ran
    obtain ⟨small, shown⟩ := of_decide_eq_true seen
    have begun : Loaded quietEnv (Pack.bytes [sampleItem]) ⟨hives, true, false, [0x2f], later, 0⟩ :=
      ⟨rfl, 0, loaded⟩
    have reached : ReflTransGen (Step quietEnv) ⟨hives, true, false, [0x2f], later, 0⟩ s := by
      refine ReflTransGen.mono (fun _ _ ⟨op, _, taken⟩ => ?_) _ _ run
      obtain ⟨⟨_, result⟩, ran, rfl⟩ := Option.map_eq_some_iff.mp taken
      exact ⟨op, result, ran⟩
    exact ⟨_, s, begun, reached, small, shown, run_round_trip begun reached small (quietEnv_plenty _)⟩

/-- A call that fails leaves what the registry shows, unless it is a write through a vnode to a
clean hive that got past its checks: that one leaves the hive marked dirty. -/
theorem run_atomic_iff (begun : Loaded env data start) (reached : ReflTransGen (Step env) start s)
    (op : Op) (e : ApiErr) (failed : op.run env s = some (s', .error e)) :
    s'.loaded = s.loaded ∧ (s'.trees = s.trees ↔ ¬ op.WritesClean env s) ∧
      (op.WritesClean env s → s'.trees.map (·.dirty) ≠ s.trees.map (·.dirty)) := by
  have sound := run_sound begun reached
  by_cases write : ∃ vn buf offset, op = .vnodeWrite vn buf offset
  · obtain ⟨vn, buf, offset, rfl⟩ := write
    rcases vnodeWrite_cases sound failed with
      ⟨_, refused, _, same⟩ | ⟨old, hive, passed, found, ⟨_, _, loaded, hives⟩ | ⟨impossible, _⟩⟩
    · have notClean : ¬ Op.WritesClean env s (.vnodeWrite vn buf offset) := by
        rintro ⟨⟨old, passed⟩, _⟩
        rw [refused] at passed
        cases passed
      exact ⟨same.loaded, ⟨fun _ => notClean, fun _ => same.trees⟩, fun clean => absurd clean notClean⟩
    · have there : s.trees[vn.hive]? = some hive.toHiveTree := by
        rw [trees, getElem?_map, found]
        rfl
      have after : s'.trees[vn.hive]? = some { hive.toHiveTree with dirty := true } := by
        rw [trees, hives, getElem?_map, List.getElem?_set_self (List.getElem?_eq_some_iff.mp found).1]
        rfl
      -- the two flags differ exactly when the hive was clean
      have flags : hive.dirty = false → s'.trees.map (·.dirty) ≠ s.trees.map (·.dirty) := by
        intro clean same
        have here := congrArg (·[vn.hive]?) same
        simp only [getElem?_map, there, after, Option.map_some] at here
        rw [clean] at here
        cases here
      refine ⟨loaded, ⟨?_, ?_⟩, ?_⟩
      · rintro same ⟨_, hive', found', clean⟩
        rw [found, Option.some.injEq] at found'
        subst found'
        exact flags clean (congrArg (map (·.dirty)) same)
      · intro notClean
        have dirty : hive.dirty = true := by
          rw [← Bool.not_eq_false]
          exact fun clean => notClean ⟨⟨old, passed⟩, hive, found, clean⟩
        have marked : ({ hive with dirty := true } : Hive) = hive := by rw [← dirty]
        obtain ⟨_, here⟩ := List.getElem?_eq_some_iff.mp found
        rw [trees, hives, marked, ← here, set_getElem_self]
        rfl
      · rintro ⟨_, hive', found', clean⟩
        rw [found, Option.some.injEq] at found'
        subst found'
        exact flags clean
    · cases impossible
  · have notClean : ¬ op.WritesClean env s := by
      cases op with
      | vnodeWrite vn buf offset => exact absurd ⟨vn, buf, offset, rfl⟩ write
      | _ => exact id
    cases Op.effect sound (fun vn buf offset same => write ⟨vn, buf, offset, same⟩) failed with
    | failed _ same =>
      exact ⟨same.loaded, ⟨fun _ => notClean, fun _ => same.trees⟩, fun clean => absurd clean notClean⟩

/-- The write of one byte to the value of the sample. -/
def sampleWrite : Op := .vnodeWrite ⟨true, 0, 0⟩ [9] 0

theorem sampleWrite_fails (begun : Loaded quietEnv (Pack.bytes [sampleItem]) s)
    (shown : s.trees = [sampleItem].map (·.tree)) (noStore : s.storePath = [])
    (idle : s.syncing = false) : ∃ s', sampleWrite.run quietEnv s = some (s', .error .io) ∧
    sampleWrite.WritesClean quietEnv s := by
  obtain ⟨hive, hives, tree⟩ := one_hive shown
  have values : hive.values = sampleItem.image.hiveValues := congrArg HiveTree.values tree
  have clean : hive.dirty = false := congrArg HiveTree.dirty tree
  have found : s.hives[(0 : Nat)]? = some hive := by rw [hives]; rfl
  obtain ⟨old, present⟩ : ∃ old, hive.values[(0 : Nat)]? = some old := by
    rw [values]
    exact ⟨_, rfl⟩
  have alive : old.deleted = false := by
    rw [values] at present
    cases present
    rfl
  obtain ⟨mid, passed, loaded, store, waits⟩ : ∃ mid, s.vnodeWriteCheck quietEnv ⟨true, 0, 0⟩ [9] 0 = (mid, .ok old) ∧
      mid.loaded = true ∧ mid.storePath = [] ∧ mid.syncing = false := by
    have some_ : (overwrite old.data 0 [9]).length ≠ 0 := by simp [overwrite]
    refine ⟨{ s with requests := s.requests + 1 }, ?_, begun.loaded, noStore, idle⟩
    simp [vnodeWriteCheck, found, present, alive, takeMemory, some_, quietEnv]
  have clear : sampleWrite.WritesClean quietEnv s := ⟨⟨old, by rw [passed]⟩, hive, found, clean⟩
  simp only [sampleWrite, Op.run, vnodeWrite, passed]
  obtain ⟨last, failed⟩ := commitOr_no_store (s := mid.modifyHive 0 _) loaded store waits _
  exact ⟨last, failed, clear⟩

theorem run_atomic_iff_sampleWrite : ∃ s s', Loaded quietEnv (Pack.bytes [sampleItem]) s ∧
      sampleWrite.run quietEnv s = some (s', .error .io) ∧ sampleWrite.WritesClean quietEnv s ∧
      (s'.trees = s.trees ↔ ¬ sampleWrite.WritesClean quietEnv s) := by
  obtain ⟨s, begun, shown, noStore, idle⟩ := exists_loaded sampleItem_valid (quietEnv_plenty 0) []
  obtain ⟨s', failed, clean⟩ := sampleWrite_fails begun shown noStore idle
  exact ⟨s, s', begun, failed, clean, (run_atomic_iff begun .refl sampleWrite .io failed).2.1⟩

/-- A registry that has just been loaded is clean, and dirty after a write that failed. -/
theorem failed_write_leaves_dirty : ∃ s s', Loaded quietEnv (Pack.bytes [sampleItem]) s ∧
      sampleWrite.run quietEnv s = some (s', .error .io) ∧
      s.trees.map (·.dirty) = [false] ∧ s'.trees.map (·.dirty) ≠ s.trees.map (·.dirty) := by
  obtain ⟨s, begun, shown, noStore, idle⟩ := exists_loaded sampleItem_valid (quietEnv_plenty 0) []
  obtain ⟨s', failed, clean⟩ := sampleWrite_fails begun shown noStore idle
  obtain ⟨_, hives, _⟩ := one_hive shown
  refine ⟨s, s', begun, failed, by rw [shown]; rfl, ?_⟩
  obtain ⟨_, _, found, tidy⟩ := clean
  rcases vnodeWrite_cases begun.sound failed with
    ⟨_, refused, _⟩ | ⟨_, hive'', _, found', ⟨_, _, _, after⟩ | ⟨impossible, _⟩⟩
  · obtain ⟨old, passed⟩ := ‹∃ old, _›
    rw [refused] at passed
    cases passed
  · rw [hives] at found found'
    cases found
    cases found'
    rw [trees, trees, after, hives]
    simp [tidy]
  · cases impossible

theorem Loaded.distinct_iff (begun : Loaded env data start) : (∀ h ∈ start.trees, h.Distinct) ↔
      ∀ e ∈ packEntries data, ∀ raw, validateHive (e.image data) = some raw → raw.DistinctCut := by
  obtain ⟨related, _⟩ := begun.imports
  constructor
  · intro distinct e member raw validated
    obtain ⟨hive, there, _, validated', tree, _⟩ := forall₂_exists_left related.flip member
    rw [validated, Option.some.injEq] at validated'
    subst validated'
    have here := distinct _ (mem_map_of_mem there)
    rwa [tree, RawHive.distinct_tree] at here
  · intro cut h member
    obtain ⟨hive, there, rfl⟩ := mem_map.mp member
    obtain ⟨e, entry, raw, validated, tree, _⟩ := forall₂_exists_left related there
    rw [tree, RawHive.distinct_tree]
    exact cut e entry raw validated

theorem Evolves.distinct (evolves : Evolves s s') (sound : s.Sound)
    (distinct : ∀ h ∈ s.trees, h.Distinct) : ∀ h ∈ s'.trees, h.Distinct := by
  intro h member
  obtain ⟨_, there, rfl⟩ := mem_map.mp member
  obtain ⟨_, before, here⟩ := forall₂_exists_left evolves.hives there
  have was := mem_map_of_mem (f := (·.toHiveTree)) before
  exact here.edits.distinct (sound.wf.hives _ was) (distinct _ was)

theorem run_distinct (begun : Loaded env data start) (first : ∀ h ∈ start.trees, h.Distinct)
    (reached : ReflTransGen (Step env) start s) : s.Sound ∧ ∀ h ∈ s.trees, h.Distinct := by
  induction reached with
  | refl => exact ⟨begun.sound, first⟩
  | tail _ step ih =>
    have evolves := step.evolves ih.1
    exact ⟨evolves.sound ih.1, evolves.distinct ih.1 ih.2⟩

/-- The names under one key stay apart in every run exactly when those in the pack
are apart after they have been cut to the length of a name in memory. In every run whatever is alive
hangs from a live key, the parents of a key that a look-up finds lead to the root, and the access
levels are found. -/
theorem run_namespace_iff (begun : Loaded env data start) :
    ((∀ s, ReflTransGen (Step env) start s → ∀ h ∈ s.trees, h.Distinct) ↔
      ∀ e ∈ packEntries data, ∀ raw, validateHive (e.image data) = some raw → raw.DistinctCut) ∧
    ∀ s, ReflTransGen (Step env) start s → (∀ h ∈ s.trees,
        (∀ i n, h.nodes[i]? = some n → n.deleted = false → i ≠ 0 → h.live n.parent = true) ∧
        (∀ v ∈ h.values, v.deleted = false → h.live v.node = true) ∧
        ∀ key k, h.lookup key = .ok k → h.Up (components isKeySep key).length k) ∧
      ∀ hiveName key valueName fuel, (components isKeySep key).length < fuel →
        (s.accessInfo fuel hiveName key valueName).isSome = true := by
  refine ⟨⟨fun always => begun.distinct_iff.mp (always start .refl), fun cut s reached => ?_⟩,
    fun s reached => ?_⟩
  · exact (run_distinct begun (begun.distinct_iff.mpr cut) reached).2
  · have wf := (run_sound begun reached).wf
    refine ⟨fun h member => ⟨(wf.hives h member).parent, (wf.hives h member).owner,
      fun key k found => HiveTree.up_of_lookup found⟩, fun hiveName key valueName fuel enough => ?_⟩
    rw [accessInfo]
    split
    · rfl
    split
    · rfl
    next h node found =>
    have below : h.Up (components isKeySep key).length node := by
      rw [findKey] at found
      split at found
      · cases found
      next hive _ =>
      cases known : hive.lookup key with
      | error e =>
        rw [known] at found
        cases found
      | ok k =>
        rw [known] at found
        cases found
        exact HiveTree.up_of_lookup known
    simp only
    split
    · rfl
    · rw [Option.isSome_map]
      exact below.accessWalk enough _

theorem run_namespace_iff_sampleItem : ∃ s, Loaded quietEnv (Pack.bytes [sampleItem]) s ∧
      ((∀ s', ReflTransGen (Step quietEnv) s s' → ∀ h ∈ s'.trees, h.Distinct) ↔
        ∀ e ∈ packEntries (Pack.bytes [sampleItem]), ∀ raw,
          validateHive (e.image (Pack.bytes [sampleItem])) = some raw → raw.DistinctCut) := by
  obtain ⟨s, begun, _⟩ := exists_loaded sampleItem_valid (quietEnv_plenty 0) []
  exact ⟨s, begun, (run_namespace_iff begun).1⟩

/-- A hive with two keys at its root whose names differ in their last byte, the 32nd. -/
def longNames : PackItem where
  name := ⟨[0x68], by decide, by decide⟩
  flags := 0
  image :=
    { flags := 0
      nodes := [⟨0xFFFFFFFF, 0, 0, 1, 2, 0, 0⟩, ⟨0, 1, 0, 0, 0, 0, 0⟩, ⟨0, 34, 0, 0, 0, 0, 0⟩]
      values := []
      strings := 0 :: (replicate 31 0x61 ++ 0x62 :: 0 :: (replicate 31 0x61 ++ [0x63, 0]))
      data := [] }

theorem longNames_valid : Pack.Valid [longNames] where
  size := by decide +kernel
  some_ := by decide
  few := by decide
  images := by
    intro _ member
    cases mem_singleton.mp member
    exact ⟨by decide +kernel, ⟨_, _, rfl, rfl⟩, parent_of_tail (by decide), by decide +kernel, by decide, by decide,
      by decide, by decide, by decide, by decide⟩
  names := by decide

/-- No two children in the pack share a name, and two keys of the loaded hive do. -/
theorem longNames_clash : ∃ s, Loaded quietEnv (Pack.bytes [longNames]) s ∧
      (∀ e ∈ packEntries (Pack.bytes [longNames]), ∀ raw,
        validateHive (e.image (Pack.bytes [longNames])) = some raw → raw.Distinct) ∧
      ∃ h ∈ s.trees, ¬ h.Distinct := by
  obtain ⟨s, begun, shown, _⟩ := exists_loaded longNames_valid (quietEnv_plenty 0) []
  refine ⟨s, begun, ?_, longNames.tree, by rw [shown]; exact mem_singleton_self _, ?_⟩
  · intro e member raw validated
    rw [Pack.packEntries_bytes longNames_valid] at member
    obtain ⟨_, found, _, _, _, _, _, image⟩ := Pack.entry_spec longNames_valid (i := 0) (by decide)
    obtain ⟨k, there⟩ := getElem?_of_mem member
    have first : k = 0 := by
      have inside := (List.getElem?_eq_some_iff.mp there).1
      rw [Pack.length_entries, length_singleton] at inside
      omega
    subst first
    rw [found, Option.some.injEq] at there
    subst there
    rw [getElem_cons_zero] at image
    rw [image, Image.validateHive_bytes (longNames_valid.images _ mem_cons_self), Option.some.injEq] at validated
    subst validated
    have apart : ∀ i < longNames.image.raw.header.nodeCount.toNat, (longNames.image.raw.childNames i).Nodup := by
      decide +kernel
    exact apart
  · intro distinct
    have clash : ¬ (longNames.tree.childNames 0).Nodup := by decide +kernel
    exact clash (distinct 0 (by decide +kernel))

end Hivefs

end Otsos
