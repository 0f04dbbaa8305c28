import Otsos.Hive.Commit
import Otsos.Hive.Edit

/-! What each change of the registry can do. A change that fails leaves what the registry shows, a
write through a vnode apart, and one that succeeds has edited the hives. -/
namespace Otsos
open Related
open List Option

variable {i : Nat} {s mid : Hivefs} {hive : Hive}

/-- The counts of a hive are within its capacities. -/
structure Hive.Rooms (h : Hive) : Prop where
  nodes : Room h.nodes.length h.nodeCap
  values : Room h.values.length h.valueCap

theorem Hive.Rooms.small (rooms : hive.Rooms) : hive.toHiveTree.Small :=
  ⟨rooms.nodes.small, rooms.values.small⟩

/-- A hive has become another one by edits. -/
structure Hive.Evolves (h h' : Hive) : Prop where
  edits : HiveTree.Edits h.toHiveTree h'.toHiveTree
  rooms : h'.Rooms

theorem Hive.Evolves.refl (rooms : hive.Rooms) : hive.Evolves hive := ⟨.refl, rooms⟩

theorem Hive.Evolves.trans (first : hive.Evolves made) (second : made.Evolves last) :
    hive.Evolves last := ⟨first.edits.trans second.edits, second.rooms⟩

theorem Hive.Evolves.mark (before : hive.Evolves made) (dirty : Bool) :
    hive.Evolves { made with dirty := dirty } :=
  ⟨before.edits.tail (.mark dirty), before.rooms.nodes, before.rooms.values⟩

namespace Hivefs

structure Sound (s : Hivefs) : Prop where
  wf : s.WF
  rooms : ∀ h ∈ s.hives, h.Rooms

/-- The hives have been edited, each by itself. -/
structure Evolves (s s' : Hivefs) : Prop where
  loaded : s'.loaded = s.loaded
  hives : List.Forall₂ Hive.Evolves s.hives s'.hives

/-- What the registry shows is the same. -/
structure Same (s s' : Hivefs) : Prop where
  loaded : s'.loaded = s.loaded
  trees : s'.trees = s.trees
  rooms : ∀ h ∈ s'.hives, h.Rooms

/-- What a change can do. -/
inductive Effect (s : Hivefs) : Hivefs → Except ApiErr Unit → Prop where
  | failed (e : ApiErr) (same : Same s s') : Effect s s' (.error e)
  | done (evolves : Evolves s s') : Effect s s' (.ok ())

theorem Sound.hive_spec (sound : s.Sound) (found : s.hives[i]? = some hive) :
    hive.toHiveTree.WF ∧ hive.Rooms :=
  ⟨sound.wf.hives _ (mem_map_of_mem (mem_of_getElem? found)),
    sound.rooms hive (mem_of_getElem? found)⟩

theorem Sound.same (sound : s.Sound) : Same s s := ⟨rfl, rfl, sound.rooms⟩

theorem Sound.fail (sound : s.Sound) (e : ApiErr) : Effect s s (.error e) := .failed e sound.same

theorem Same.sound (same : Same s s') (sound : s.Sound) : s'.Sound := by
  have count : s'.hives.length = s.hives.length := by
    simpa only [Hivefs.trees, length_map] using congrArg length same.trees
  refine ⟨⟨same.loaded.trans sound.wf.loaded, ?_, count ▸ sound.wf.few, ?_, ?_⟩, same.rooms⟩
  · intro empty
    rw [empty] at count
    exact sound.wf.some_ (length_eq_zero_iff.mp count.symm)
  · rw [same.trees]
    exact sound.wf.names
  · rw [same.trees]
    exact sound.wf.hives

theorem Evolves.names (evolves : Evolves s s') : s'.trees.map (·.name) = s.trees.map (·.name) := by
  have related := evolves.hives
  simp only [trees, List.map_map]
  generalize s.hives = hives at related
  generalize s'.hives = hives' at related
  induction related with
  | nil => rfl
  | cons here _ ih =>
    rw [map_cons, ih]
    exact congrArg (· :: _) here.edits.name_flags.1

theorem Evolves.sound (evolves : Evolves s s') (sound : s.Sound) : s'.Sound := by
  have count := evolves.hives.length_eq
  refine ⟨⟨evolves.loaded.trans sound.wf.loaded, ?_, count ▸ sound.wf.few, ?_, ?_⟩, ?_⟩
  · intro empty
    rw [empty] at count
    exact sound.wf.some_ (length_eq_zero_iff.mp count)
  · rw [evolves.names]
    exact sound.wf.names
  · intro h member
    obtain ⟨_, there, rfl⟩ := mem_map.mp member
    obtain ⟨_, before, here⟩ := forall₂_exists_left evolves.hives there
    exact here.edits.wf (sound.wf.hives _ (mem_map_of_mem before))
  · intro h member
    obtain ⟨_, _, here⟩ := forall₂_exists_left evolves.hives member
    exact here.rooms

theorem modifyHive_hives (found : s.hives[i]? = some hive) (f : Hive → Hive) :
    (s.modifyHive i f).hives = s.hives.set i (f hive) := by
  rw [modifyHive, modify_eq_set_getElem?, found]
  rfl

theorem getElem_set (found : s.hives[i]? = some hive) (edited : mid.hives = s.hives.set i made) :
    mid.hives[i]? = some made := by
  rw [edited, List.getElem?_set_self (List.getElem?_eq_some_iff.mp found).1]

theorem Evolves.trans (first : Evolves s mid) (second : Evolves mid last) : Evolves s last := by
  refine ⟨second.loaded.trans first.loaded, ?_⟩
  have before := first.hives
  have after := second.hives
  generalize s.hives = a at before
  generalize mid.hives = b at before after
  generalize last.hives = c at after
  induction before generalizing c with
  | nil =>
    cases after
    exact .nil
  | cons here _ ih =>
    cases after with
    | cons there rest => exact .cons (here.trans there) (ih _ rest)

theorem Sound.commit_evolves (sound : s.Sound) (ran : s.commit env = some (s', .ok ())) :
    Evolves s s' := by
  obtain ⟨loaded, ⟨e, impossible, _⟩ | ⟨_, hives⟩⟩ := sound.wf.commit_spec ran
  · cases impossible
  · refine ⟨loaded, ?_⟩
    rcases hives with same | clean
    · rw [same]
      exact forall₂_same.mpr fun h member => .refl (sound.rooms h member)
    · rw [clean, forall₂_map_right_iff]
      exact forall₂_same.mpr fun h member => (Hive.Evolves.refl (sound.rooms h member)).mark false

section
variable (sound : s.Sound) (found : s.hives[i]? = some hive) (loaded : mid.loaded = s.loaded)
  (edited : mid.hives = s.hives.set i made)
include sound found loaded edited

theorem Sound.evolves (evolves : hive.Evolves made) : Evolves s mid := by
  refine ⟨loaded, ?_⟩
  rw [edited]
  exact forall₂_set (fun h member => .refl (sound.rooms h member)) found evolves

theorem Sound.restored (tree : made.toHiveTree = hive.toHiveTree) (rooms : made.Rooms) :
    Same s mid := by
  refine ⟨loaded, ?_, ?_⟩
  · have unchanged : s.trees.set i hive.toHiveTree = s.trees := by
      have there : s.trees[i]? = some hive.toHiveTree := by rw [trees, getElem?_map, found]; rfl
      obtain ⟨_, here⟩ := List.getElem?_eq_some_iff.mp there
      rw [← here, set_getElem_self]
    rw [trees, edited, map_set, tree]
    exact unchanged
  · rw [edited]
    intro h member
    rcases mem_or_eq_of_mem_set member with old | rfl
    · exact sound.rooms h old
    · exact rooms

theorem Sound.commitOr_cases (evolves : hive.Evolves made)
    (ran : mid.commitOr env (fun s => s.modifyHive i undo) = some (s', result)) :
    (∃ e, result = .error e ∧ s'.loaded = s.loaded ∧ s'.hives = s.hives.set i (undo made)) ∨
      result = .ok () ∧ Evolves s s' ∧ ∃ dirty, s'.hives[i]? = some { made with dirty := dirty } := by
  have step := sound.evolves found loaded edited evolves
  have midSound := step.sound sound
  obtain ⟨⟨last, answer⟩, committed, ran⟩ := map_eq_some_iff.mp ran
  cases answer with
  | error e =>
    cases ran
    obtain ⟨same, ⟨_, _, hives⟩ | ⟨impossible, _⟩⟩ := midSound.wf.commit_spec committed
    · refine .inl ⟨e, rfl, same.trans loaded, ?_⟩
      have there : last.hives[i]? = some made := by rw [hives, getElem_set found edited]
      rw [modifyHive_hives there, hives, edited, set_set]
    · cases impossible
  | ok =>
    cases ran
    refine .inr ⟨rfl, step.trans (midSound.commit_evolves committed), ?_⟩
    have there := getElem_set found edited
    obtain ⟨_, ⟨_, impossible, _⟩ | ⟨_, same | clean⟩⟩ := midSound.wf.commit_spec committed
    · cases impossible
    · exact ⟨made.dirty, by rw [same, there]⟩
    · exact ⟨false, by rw [clean, getElem?_map, there]; rfl⟩

theorem Sound.commitOr_effect (evolves : hive.Evolves made)
    (undone : (undo made).toHiveTree = hive.toHiveTree) (rooms : (undo made).Rooms)
    (ran : mid.commitOr env (fun s => s.modifyHive i undo) = some (s', result)) :
    Effect s s' result := by
  rcases sound.commitOr_cases found loaded edited evolves ran with
    ⟨e, rfl, same, hives⟩ | ⟨rfl, after, _⟩
  · exact .failed e (sound.restored found same hives undone rooms)
  · exact .done after

end

theorem hiveNamed_found (named : s.hiveNamed name = some (i, hive)) :
    s.hives[i]? = some hive := by
  simp only [hiveNamed, Option.bind_eq_bind, Option.bind_eq_some_iff] at named
  obtain ⟨k, _, h, found, rfl, rfl⟩ := named
  exact found

end Hivefs

end Otsos
