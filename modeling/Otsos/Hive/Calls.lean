import Otsos.Hive.Changes

/-! The effect of each call that changes the registry. -/
namespace Otsos
open List Option

variable {mid : Hivefs} {hive : Hive}

theorem nameCopy_bytes (plain : 0 ∉ part) (short : part.length < hivefsNameSize) :
    (nameCopy part).bytes = part := by
  have fits : part.length ≤ hivefsNameSize - 1 := Nat.le_sub_one_of_lt short
  have whole : (part.takeWhile (· != 0)).take (hivefsNameSize - 1) = part := by
    rw [takeWhile_plain plain, take_of_length_le fits]
  exact whole

theorem nameFromPart_ok (ran : nameFromPart part = .ok name) :
    name = part ∧ part.length < hivefsNameSize := by
  rw [nameFromPart] at ran
  split at ran
  · cases ran
  · split at ran
    · cases ran
    · cases ran
      exact ⟨rfl, by omega⟩

theorem nextComponent_plain (plain : 0 ∉ path) :
    0 ∉ (nextComponent sep path).1 ∧ 0 ∉ (nextComponent sep path).2 := by
  have start : 0 ∉ path.dropWhile sep := fun member => plain ((dropWhile_sublist _).mem member)
  constructor
  · exact fun member => start ((takeWhile_sublist _).mem member)
  · exact fun member => start ((dropWhile_sublist _).mem ((dropWhile_sublist _).mem member))

theorem components_plain (plain : 0 ∉ path) (member : part ∈ components sep path) : 0 ∉ part := by
  rw [components] at member
  generalize path.length = fuel at member
  induction fuel generalizing path with
  | zero => cases member
  | succ fuel ih =>
    rw [componentsFrom] at member
    split at member
    · cases member
    · rcases mem_cons.mp member with rfl | later
      · exact (nextComponent_plain plain).1
      · exact ih (nextComponent_plain plain).2 later

namespace HiveTree

variable {h : HiveTree} {k : Nat}

theorem asInt_some (here : asInt found = some k) : found = some k :=
  (filter_eq_some_iff.mp here).1

theorem asInt_none {l : List α} (missed : asInt (l.findIdx? p) = none)
    (small : l.length ≤ 2 ^ 31) : ∀ a ∈ l, p a = false := by
  apply findIdx?_eq_none_iff.mp
  cases found : l.findIdx? p with
  | none => rfl
  | some k =>
    have inside := (findIdx?_eq_some_iff_getElem.mp found).1
    rw [found, asInt, filter_some, if_pos (by simpa using by omega)] at missed
    cases missed

theorem findChild_some (found : h.findChild node part = some k) :
    ∃ n, h.nodes[k]? = some n ∧ isChild node n = true := by
  rw [findChild] at found
  split at found
  · obtain ⟨inside, chosen, _⟩ := findIdx?_eq_some_iff_getElem.mp (asInt_some found)
    rw [Bool.and_eq_true] at chosen
    exact ⟨_, getElem?_eq_getElem inside, chosen.1⟩
  · cases found

theorem findChild_live (found : h.findChild node part = some k) : h.live k = true := by
  obtain ⟨n, there, child⟩ := findChild_some found
  rw [isChild, Bool.and_eq_true, Bool.not_eq_true'] at child
  exact live_iff.mpr ⟨n, there, child.1⟩

theorem valueNamed_some (found : Hivefs.valueNamed h node part = some (v, value)) :
    h.values[v]? = some value ∧ value.deleted = false := by
  simp only [Hivefs.valueNamed, Option.bind_eq_bind, Option.bind_eq_some_iff] at found
  obtain ⟨k, index, w, there, rfl, rfl⟩ := found
  refine ⟨there, ?_⟩
  rw [findValue] at index
  split at index
  · obtain ⟨inside, chosen, _⟩ := findIdx?_eq_some_iff_getElem.mp (asInt_some index)
    rw [getElem?_eq_getElem inside, some.injEq] at there
    rw [there, Bool.and_eq_true, isValueOf, Bool.and_eq_true, Bool.not_eq_true'] at chosen
    exact chosen.1.1
  · cases index

theorem valueNamed_none (missed : Hivefs.valueNamed h node part = none) :
    h.findValue node part = none := by
  cases found : h.findValue node part with
  | none => rfl
  | some k =>
    have inside : k < h.values.length := by
      rw [findValue] at found
      split at found
      · exact (findIdx?_eq_some_iff_getElem.mp (asInt_some found)).1
      · cases found
    simp [Hivefs.valueNamed, found, getElem?_eq_getElem inside] at missed

theorem fresh_of_find (alive : h.live node = true) (noKey : h.findChild node part = none)
    (noValue : h.findValue node part = none) (copied : (nameCopy part).bytes = part)
    (small : h.Small) : nameCopy part ∉ h.childNames node := by
  rw [findChild, if_pos alive] at noKey
  rw [findValue, if_pos alive] at noValue
  intro member
  rcases mem_childNames.mp member with ⟨n, there, child, same⟩ | ⟨v, there, owned, same⟩
  · have missed := asInt_none noKey small.nodes n there
    rw [child, same, copied] at missed
    simp at missed
  · have missed := asInt_none noValue small.values v there
    rw [owned, same, copied] at missed
    simp at missed

theorem lookupParts_live (alive : h.live node = true) (found : h.lookupParts parts node = .ok k) :
    h.live k = true := by
  induction parts generalizing node with
  | nil =>
    cases found
    exact alive
  | cons part rest ih =>
    rw [lookupParts] at found
    split at found
    · cases found
    · cases child : h.findChild node part with
      | none => simp [child] at found
      | some next =>
        simp only [child] at found
        exact ih (findChild_live child) found

theorem WF.lookup_live (wf : h.WF) (found : h.lookup key = .ok k) : h.live k = true := by
  rw [lookup] at found
  split at found
  · cases found
  · exact lookupParts_live wf.live_root found

end HiveTree

namespace Hive

/-- Keys have been added and nothing else has changed. -/
structure Grown (h made : Hive) : Prop where
  evolves : h.Evolves made
  nodes : ∃ new, made.nodes = h.nodes ++ new
  values : made.values = h.values

theorem Grown.takeBack (grown : hive.Grown made) :
    (hive.takeBack made).toHiveTree = hive.toHiveTree := by
  obtain ⟨name, flags⟩ := grown.evolves.edits.name_flags
  obtain ⟨_, nodes⟩ := grown.nodes
  have kept : made.nodes.take hive.nodes.length = hive.nodes := by rw [nodes, take_left]
  simp only [Hive.takeBack, kept, name, flags, grown.values]

theorem Rooms.takeBack (rooms : made.Rooms) (h : Hive) : (h.takeBack made).Rooms :=
  ⟨rooms.nodes.mono (length_take_le' _ _), rooms.values⟩

theorem evolves_addKey (rooms : hive.Rooms) (alive : hive.live node = true)
    (fresh : name ∉ hive.childNames node) (room : Room (hive.nodes.length + 1) cap) :
    hive.Evolves (addKey { hive with nodeCap := cap } name node) := by
  have small := room.small
  have below : hive.nodes.length < hivefsNoIndex := by
    rw [hivefsNoIndex]
    omega
  refine ⟨(Relation.ReflTransGen.single (.addKey name node alive fresh below)).tail (.mark true),
    ?_, rooms.values⟩
  simpa only [addKey, length_append, length_singleton] using room

theorem createParts_spec (rooms : hive.Rooms) (alive : hive.live node = true)
    (plain : ∀ part ∈ parts, 0 ∉ part)
    (ran : hive.createParts env parts node requests = some (later, made, answer)) :
    hive.Grown made ∧ ∀ k, answer = .ok k → made.live k = true := by
  induction parts generalizing hive node requests with
  | nil =>
    cases ran
    refine ⟨⟨.refl rooms, ⟨[], (append_nil _).symm⟩, rfl⟩, fun k same => ?_⟩
    cases same
    exact alive
  | cons part rest ih =>
    -- every exit before the key is added leaves the hive
    have stays : hive.Grown hive := ⟨.refl rooms, ⟨[], (append_nil _).symm⟩, rfl⟩
    have others : ∀ part ∈ rest, 0 ∉ part := fun p member => plain p (mem_cons_of_mem _ member)
    rw [createParts] at ran
    split at ran
    · cases ran
      exact ⟨stays, nofun⟩
    cases child : hive.findChild node part with
    | some next =>
      simp only [child] at ran
      exact ih rooms (HiveTree.findChild_live child) others ran
    | none =>
      simp only [child] at ran
      split at ran
      · cases ran
        exact ⟨stays, nofun⟩
      next noValue =>
      rw [Bool.not_eq_true, isSome_eq_false_iff, isNone_iff_eq_none] at noValue
      cases named : nameFromPart part with
      | error e =>
        simp only [named] at ran
        cases ran
        exact ⟨stays, nofun⟩
      | ok name =>
        obtain ⟨rfl, short⟩ := nameFromPart_ok named
        simp only [named] at ran
        obtain ⟨⟨_, cap⟩, reserved, ran⟩ := bind_eq_some_iff.mp ran
        cases cap with
        | error e =>
          cases ran
          exact ⟨stays, nofun⟩
        | ok cap =>
          have copied := nameCopy_bytes (plain name mem_cons_self) short
          have step := evolves_addKey rooms alive (HiveTree.fresh_of_find alive child noValue copied rooms.small)
            (rooms.nodes.reserve reserved)
          have last : (addKey { hive with nodeCap := cap } (nameCopy name) node).live hive.nodes.length = true :=
            (HiveTree.live_addKey (h := hive.toHiveTree) ⟨nameCopy name, node, 0, false⟩ rfl).mpr (.inr rfl)
          obtain ⟨grown, found⟩ := ih step.rooms last others ran
          obtain ⟨new, nodes⟩ := grown.nodes
          have added : made.nodes = hive.nodes ++ (⟨nameCopy name, node, 0, false⟩ :: new) := by
            rw [nodes, addKey, append_assoc]
            rfl
          exact ⟨⟨step.trans grown.evolves, ⟨_, added⟩, grown.values⟩, found⟩

theorem createPath_spec (wf : hive.toHiveTree.WF)
    (rooms : hive.Rooms) (plain : 0 ∉ key)
    (ran : hive.createPath env requests key = some (later, made, answer)) :
    hive.Grown made ∧ ∀ k, answer = .ok k → made.live k = true := by
  rw [createPath] at ran
  split at ran
  · cases ran
    exact ⟨⟨.refl rooms, ⟨[], (append_nil _).symm⟩, rfl⟩, nofun⟩
  · exact createParts_spec rooms wf.live_root (fun _ member => components_plain plain member) ran

end Hive

namespace Hivefs

theorem Sound.takeBack_same (sound : s.Sound) (found : s.hives[i]? = some hive)
    (grown : hive.Grown made) (loaded : mid.loaded = s.loaded)
    (edited : mid.hives = s.hives.set i made) : Same s (mid.modifyHive i hive.takeBack) := by
  have kept : (mid.modifyHive i hive.takeBack).loaded = s.loaded := loaded
  have back : (mid.modifyHive i hive.takeBack).hives = s.hives.set i (hive.takeBack made) := by
    rw [modifyHive_hives (getElem_set found edited), edited, set_set]
  exact sound.restored found kept back grown.takeBack (grown.evolves.rooms.takeBack hive)

theorem Sound.in_hive {act : Nat → Hive → Option (Hivefs × Except ApiErr Unit)} (sound : s.Sound)
    (ran : (match s.hiveNamed name with | none => some (s, .error e) | some (i, hive) => act i hive) = some (s', result))
    (effect : ∀ i hive, s.hives[i]? = some hive → hive.toHiveTree.WF → hive.Rooms →
      act i hive = some (s', result) → Effect s s' result) : Effect s s' result := by
  cases named : s.hiveNamed name with
  | none =>
    rw [named] at ran
    cases ran
    exact sound.fail _
  | some found =>
    rw [named] at ran
    have there := hiveNamed_found named
    obtain ⟨wf, rooms⟩ := sound.hive_spec there
    exact effect _ _ there wf rooms ran

theorem createKey_effect (sound : s.Sound) (plain : 0 ∉ key)
    (ran : s.createKey env hiveName key = some (s', result)) : Effect s s' result := by
  rw [createKey] at ran
  split at ran
  · cases ran
    exact sound.fail _
  refine sound.in_hive ran fun i hive there wf rooms ran => ?_
  cases known : hive.lookup key with
  | ok k =>
    simp only [known] at ran
    cases ran
    exact sound.fail _
  | error e =>
    simp only [known] at ran
    split at ran
    · cases ran
      exact sound.fail _
    obtain ⟨⟨_, _, answer⟩, created, ran⟩ := bind_eq_some_iff.mp ran
    obtain ⟨grown, _⟩ := Hive.createPath_spec wf rooms plain created
    cases answer with
    | error e =>
      cases ran
      exact .failed e (sound.takeBack_same there grown rfl rfl)
    | ok k =>
      refine sound.commitOr_effect there ?_ ?_ grown.evolves grown.takeBack
        (grown.evolves.rooms.takeBack hive) ran <;> rfl

theorem undelete {nodes : List HiveNode} (found : nodes[node]? = some n)
    (alive : n.deleted = false) :
      (nodes.modify node fun n => { n with deleted := true }).modify node
      (fun n => { n with deleted := false }) = nodes := by
  apply ext_getElem?
  intro k
  by_cases here : node = k
  · subst here
    simp [found, ← alive]
  · simp [here]

theorem childNames_empty {h : HiveTree}
    (empty : ¬ (h.nodes.any (HiveTree.isChild node) || h.values.any (HiveTree.isValueOf node)) = true) :
    h.childNames node = [] := by
  simp only [Bool.or_eq_true, List.any_eq_true, not_or, not_exists, not_and] at empty
  rw [HiveTree.childNames, List.filter_eq_nil_iff.mpr empty.1, List.filter_eq_nil_iff.mpr empty.2]
  rfl

theorem deleteKey_effect (sound : s.Sound)
    (ran : s.deleteKey env hiveName key = some (s', result)) : Effect s s' result := by
  rw [deleteKey] at ran
  split at ran
  · cases ran
    exact sound.fail _
  refine sound.in_hive ran fun i hive there wf rooms ran => ?_
  cases known : hive.lookup key with
  | error e =>
    simp only [known] at ran
    cases ran
    exact sound.fail _
  | ok node =>
    simp only [known] at ran
    split at ran
    · cases ran
      exact sound.fail _
    next inner =>
    split at ran
    · cases ran
      exact sound.fail _
    next empty =>
    obtain ⟨n, present, alive⟩ := HiveTree.live_iff.mp (wf.lookup_live known)
    let gone : Hive := { hive with
      nodes := hive.nodes.modify node fun n => { n with deleted := true }, dirty := true }
    have dropped : HiveTree.Edit hive.toHiveTree _ := .dropKey node inner (childNames_empty empty)
    have goneRooms : gone.Rooms := ⟨by simpa only [gone, length_modify] using rooms.nodes, rooms.values⟩
    have evolves : hive.Evolves gone := ⟨(Relation.ReflTransGen.single dropped).tail (.mark true), goneRooms⟩
    refine sound.commitOr_effect there ?_ (modifyHive_hives there _) evolves ?_ ?_ ran
    · rfl
    · simp only [undelete present alive]
    · exact ⟨by simpa only [length_modify] using rooms.nodes, rooms.values⟩

theorem set_back {values : List HiveValue} (found : values[v]? = some old)
    (new : HiveValue) : (values.set v new).set v old = values := by
  obtain ⟨_, rfl⟩ := List.getElem?_eq_some_iff.mp found
  rw [set_set, set_getElem_self]

theorem evolves_putValue (new : HiveValue) (before : hive.Evolves made)
    (found : made.values[v]? = some old) (name : new.name = old.name) (node : new.node = old.node)
    (deleted : old.deleted = true → new.deleted = true) (type : HiveTree.TypeOk new.type) :
    hive.Evolves { made with values := made.values.set v new } :=
  ⟨before.edits.tail (.putValue v old new found name node deleted type), before.rooms.nodes, by
    simpa only [length_set] using before.rooms.values⟩

theorem setValueAt_effect (sound : s.Sound)
    (found : s.hives[i]? = some hive) (grown : hive.Grown made) (alive : made.live node = true)
    (loaded : mid.loaded = s.loaded) (edited : mid.hives = s.hives.set i made)
    (copied : (nameCopy valueName).bytes = valueName) (noKey : made.findChild node valueName = none)
    (typeOk : HiveTree.TypeOk type)
    (ran : mid.setValueAt env i hive made node valueName type data = some (s', result)) :
    Effect s s' result := by
  have there := getElem_set found edited
  have back := grown.takeBack
  rw [setValueAt] at ran
  cases known : valueNamed made.toHiveTree node valueName with
  | some value =>
    obtain ⟨v, old⟩ := value
    obtain ⟨present, kept⟩ := HiveTree.valueNamed_some known
    simp only [known] at ran
    let new : HiveValue := { old with data := data, type := type, deleted := false }
    have put : hive.Evolves { made with values := made.values.set v new, dirty := true } :=
      (evolves_putValue new grown.evolves present rfl rfl (by simp [kept]) typeOk).mark true
    refine sound.commitOr_effect found ?_ ?_ put ?_ ?_ ran
    · exact loaded
    · rw [modifyHive_hives there, edited, set_set]
    · simp only [set_back present] at ⊢
      exact back
    · refine ⟨(put.rooms.takeBack hive).nodes, ?_⟩
      simpa only [Hive.takeBack, length_set] using put.rooms.values
  | none =>
    simp only [known] at ran
    obtain ⟨⟨later, cap⟩, reserved, ran⟩ := bind_eq_some_iff.mp ran
    cases cap with
    | error e =>
      cases ran
      exact .failed e (sound.takeBack_same found grown loaded edited)
    | ok cap =>
      let value : HiveValue := ⟨nameCopy valueName, node, type, 0, data, false⟩
      have fresh := HiveTree.fresh_of_find alive noKey (HiveTree.valueNamed_none known) copied
        grown.evolves.rooms.small
      have room : Room (made.values ++ [value]).length cap := by
        simpa only [length_append, length_singleton] using
          grown.evolves.rooms.values.reserve reserved
      have added : hive.Evolves { made with valueCap := cap, values := made.values ++ [value], dirty := true } :=
        ⟨(grown.evolves.edits.tail (.addValue value alive fresh typeOk)).tail (.mark true),
          grown.evolves.rooms.nodes, room⟩
      refine sound.commitOr_effect found ?_ ?_ added ?_ ?_ ran
      · exact loaded
      · rw [modifyHive_hives (s := { mid with requests := later }) there]
        simp only [edited, set_set]
        rfl
      · have values : (made.values ++ [value]).take hive.values.length = made.values := by
          rw [← grown.values, take_left]
        simp only [values] at ⊢
        exact back
      · exact ⟨(added.rooms.takeBack hive).nodes, room.mono (length_take_le' _ _)⟩

theorem takeMemory_hives (env : HiveEnv) (s : Hivefs) (size : Nat) :
    (s.takeMemory env size).1.hives = s.hives ∧ (s.takeMemory env size).1.loaded = s.loaded := by
  rw [takeMemory]
  split <;> exact ⟨rfl, rfl⟩

theorem setValue_effect {data : Option (List UInt8)} (sound : s.Sound) (plainKey : 0 ∉ key)
    (plainName : 0 ∉ valueName)
    (ran : s.setValue env hiveName key valueName type data size = some (s', result)) :
    Effect s s' result := by
  rw [setValue] at ran
  split at ran
  · cases ran
    exact sound.fail _
  next accepted =>
  have typeOk : HiveTree.TypeOk type := by
    simp only [Bool.or_eq_true, decide_eq_true_eq, not_or, UInt32.not_lt] at accepted
    exact ⟨accepted.1.2, accepted.2⟩
  refine sound.in_hive ran fun i _ there wf rooms ran => ?_
  cases checked : nameFromPart valueName with
  | error e =>
    simp only [checked] at ran
    cases ran
    exact sound.fail _
  | ok name =>
    have copied := nameCopy_bytes plainName (nameFromPart_ok checked).2
    simp only [checked] at ran
    obtain ⟨⟨later, made, answer⟩, created, ran⟩ := bind_eq_some_iff.mp ran
    obtain ⟨grown, reached⟩ := Hive.createPath_spec wf rooms plainKey created
    cases answer with
    | error e =>
      cases ran
      exact .failed e (sound.takeBack_same there grown rfl rfl)
    | ok node =>
      simp only at ran
      split at ran
      · cases ran
        exact .failed _ (sound.takeBack_same there grown rfl rfl)
      next noKey =>
      rw [Bool.not_eq_true, isSome_eq_false_iff, isNone_iff_eq_none] at noKey
      obtain ⟨hives, loaded⟩ :=
        takeMemory_hives env { s.setHive i made with requests := later } size.toNat
      cases taken : takeMemory env { s.setHive i made with requests := later } size.toNat with
      | mk mid granted =>
        rw [taken] at hives loaded
        simp only [taken] at ran
        cases granted with
        | false =>
          cases ran
          exact .failed _ (sound.takeBack_same there grown loaded hives)
        | true =>
          exact setValueAt_effect sound there grown (reached node rfl) loaded hives copied noKey typeOk ran

theorem deleteValue_effect (sound : s.Sound)
    (ran : s.deleteValue env hiveName key valueName = some (s', result)) : Effect s s' result := by
  rw [deleteValue] at ran
  split at ran
  · cases ran
    exact sound.fail _
  refine sound.in_hive ran fun i hive there wf rooms ran => ?_
  cases known : hive.lookup key with
  | error e =>
    simp only [known] at ran
    cases ran
    exact sound.fail _
  | ok node =>
    simp only [known] at ran
    cases value : valueNamed hive.toHiveTree node valueName with
    | none =>
      simp only [value] at ran
      cases ran
      exact sound.fail _
    | some pair =>
      obtain ⟨v, old⟩ := pair
      obtain ⟨present, alive⟩ := HiveTree.valueNamed_some value
      have typeOk := wf.type old (mem_of_getElem? present)
      simp only [value] at ran
      obtain ⟨⟨_, _⟩, committed, ran⟩ := map_eq_some_iff.mp ran
      let gone : HiveValue := { old with deleted := true }
      let without : Hive := { hive with values := hive.values.set v gone, dirty := true }
      have dropped : hive.Evolves without :=
        (evolves_putValue gone (.refl rooms) present rfl rfl (fun _ => rfl) typeOk).mark true
      rcases sound.commitOr_cases there (by rfl) (modifyHive_hives there _) dropped committed with
        ⟨e, rfl, loaded, hives⟩ | ⟨rfl, after, dirty, held⟩
      · cases ran
        have restored : ({ old with deleted := false } : HiveValue) = old := by rw [← alive]
        refine .failed e (sound.restored there loaded hives ?_ ?_)
        · simp only [restored, set_back present]
        · exact ⟨rooms.nodes, by simpa only [length_set] using rooms.values⟩
      · cases ran
        -- the data of the deleted value go after the commit
        have lastSound := after.sound sound
        have inside : (hive.values.set v gone)[v]? = some gone :=
          List.getElem?_set_self (List.getElem?_eq_some_iff.mp present).1
        have cleared := evolves_putValue { gone with data := [] }
          (.refl (lastSound.rooms _ (mem_of_getElem? held))) inside rfl rfl (fun _ => rfl) typeOk
        exact .done (after.trans (lastSound.evolves held rfl (modifyHive_hives held _) cleared))

end Hivefs

end Otsos
