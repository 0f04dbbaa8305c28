import Otsos.Hive.Calls

/-! The entry points of the file system: paths are split into a hive, a key and a value, and the
calls on these follow. A write through a vnode is a call of its own. -/
namespace Otsos
open Loop (foldlM_except_inv)
open List

variable {s : Hivefs} {path : List UInt8}

namespace Hivefs

theorem stripPrefix_plain (plain : 0 ∉ path) : 0 ∉ s.stripPrefix path := by
  have inner : ∀ fuel (p : List UInt8), 0 ∉ p → 0 ∉ s.stripFrom fuel p := by
    intro fuel
    induction fuel with
    | zero => exact fun p _ => not_mem_nil
    | succ fuel ih =>
      intro p clean
      have start : 0 ∉ p.dropWhile isPathSep := fun member => clean ((dropWhile_sublist _).mem member)
      rw [stripFrom]
      split
      · exact not_mem_nil
      · simp only
        split
        · exact start
        · exact ih _ fun member => start ((dropWhile_sublist _).mem member)
  cases path with
  | nil => exact not_mem_nil
  | cons c p =>
    rw [stripPrefix]
    split
    · exact inner _ p fun member => plain (mem_cons_of_mem _ member)
    · exact plain

theorem pathAppendKey_plain (plainKey : 0 ∉ key) (plainPart : 0 ∉ part)
    (ran : pathAppendKey key part = .ok key') : 0 ∉ key' := by
  rw [pathAppendKey] at ran
  split at ran
  · cases ran
  split at ran
  · cases ran
  have front : 0 ∉ (if key = [] then [] else key ++ [0x2e] : List UInt8) := by
    split
    · exact not_mem_nil
    · simpa using plainKey
  simp only at ran
  generalize (if key = [] then [] else key ++ [0x2e] : List UInt8) = base at ran front
  split at ran
  · cases ran
  cases ran
  rw [mem_append, not_or]
  exact ⟨front, plainPart⟩

theorem pathSplitKey_plain (plain : 0 ∉ path) (ran : s.pathSplitKey path = .ok (hiveName, key)) :
    0 ∉ key := by
  have next : 0 ∉ (nextComponent isPathSep (s.stripPrefix path)).2 :=
    (nextComponent_plain (stripPrefix_plain plain)).2
  simp only [pathSplitKey] at ran
  split at ran
  · cases ran
  cases folded : (components isPathSep (nextComponent isPathSep (s.stripPrefix path)).2).foldlM
      pathAppendKey [] with
  | error e =>
    rw [folded] at ran
    cases ran
  | ok last =>
    rw [folded] at ran
    cases ran
    exact foldlM_except_inv (fun k => 0 ∉ k)
      (fun k _ _ member clean => pathAppendKey_plain clean (components_plain next member))
      not_mem_nil folded

theorem pathSplitStep_plain {part : List UInt8}
    (plain : 0 ∉ state.1 ∧ ∀ last, state.2 = some last → 0 ∉ last) (plainPart : 0 ∉ part)
    (ran : pathSplitStep state part = .ok state') : 0 ∉ state'.1 ∧ ∀ last, state'.2 = some last →
    0 ∉ last := by
  obtain ⟨key, previous⟩ := state
  simp only [pathSplitStep] at ran
  split at ran
  · cases ran
  -- what is left once the component before this one has joined the key
  have named : ∀ key', 0 ∉ key' → (nameFromPart part >>= fun last => pure (key', some last)) =
      .ok state' → 0 ∉ state'.1 ∧ ∀ last, state'.2 = some last → 0 ∉ last := by
    intro key' clean finished
    cases name : nameFromPart part with
    | error e =>
      rw [name] at finished
      cases finished
    | ok last =>
      rw [name] at finished
      cases finished
      refine ⟨clean, fun _ same => ?_⟩
      cases same
      rw [(nameFromPart_ok name).1]
      exact plainPart
  cases previous with
  | none => exact named key plain.1 ran
  | some last =>
    cases appended : pathAppendKey key last with
    | error e =>
      simp only [appended] at ran
      cases ran
    | ok key' =>
      simp only [appended] at ran
      exact named key' (pathAppendKey_plain plain.1 (plain.2 last rfl) appended) ran

theorem pathSplitValue_plain (plain : 0 ∉ path)
    (ran : s.pathSplitValue path = .ok (hiveName, key, valueName)) : 0 ∉ key ∧ 0 ∉ valueName := by
  have next : 0 ∉ (nextComponent isPathSep (s.stripPrefix path)).2 :=
    (nextComponent_plain (stripPrefix_plain plain)).2
  simp only [pathSplitValue] at ran
  split at ran
  · cases ran
  cases folded : (components isPathSep (nextComponent isPathSep (s.stripPrefix path)).2).foldlM
      pathSplitStep ([], none) with
  | error e =>
    rw [folded] at ran
    cases ran
  | ok last =>
    have first : 0 ∉ ([] : List UInt8) ∧ ∀ last, (none : Option (List UInt8)) = some last → 0 ∉ last :=
      ⟨not_mem_nil, nofun⟩
    obtain ⟨clean, named⟩ := foldlM_except_inv
      (fun state : List UInt8 × Option (List UInt8) => 0 ∉ state.1 ∧ ∀ last, state.2 = some last → 0 ∉ last)
      (fun state _ _ member clean => pathSplitStep_plain clean (components_plain next member))
      first folded
    rw [folded] at ran
    obtain ⟨k, value⟩ := last
    cases value with
    | none => cases ran
    | some value =>
      cases ran
      exact ⟨clean, named valueName rfl⟩

theorem bytesOk : HiveTree.TypeOk hivefsTypeBytes := ⟨by decide, by decide⟩

theorem vnodeWriteCheck_spec (env : HiveEnv) (s : Hivefs) (vn : Vnode) (buf : List UInt8)
    (offset : UInt64) : (s.vnodeWriteCheck env vn buf offset).1.hives = s.hives ∧
    (s.vnodeWriteCheck env vn buf offset).1.loaded = s.loaded ∧
    ∀ old, (s.vnodeWriteCheck env vn buf offset).2 = .ok old →
      ∃ hive, s.hives[vn.hive]? = some hive ∧ hive.values[vn.value]? = some old ∧ old.deleted = false := by
  rw [vnodeWriteCheck]
  split
  · exact ⟨rfl, rfl, nofun⟩
  split
  · next hive _ found =>
    split
    · exact ⟨rfl, rfl, nofun⟩
    next old present =>
    split
    · exact ⟨rfl, rfl, nofun⟩
    next alive =>
    split
    · exact ⟨rfl, rfl, nofun⟩
    obtain ⟨hives, loaded⟩ := takeMemory_hives env s (overwrite old.data offset.toNat buf).length
    split
    · next taken =>
      rw [taken] at hives loaded
      exact ⟨hives, loaded, nofun⟩
    · next taken =>
      rw [taken] at hives loaded
      refine ⟨hives, loaded, fun _ same => ?_⟩
      cases same
      exact ⟨hive, found, present, by simpa using alive⟩
  · exact ⟨rfl, rfl, nofun⟩

section
variable (sound : s.Sound)
include sound

/-- A write through a vnode either fails its checks, or gets as far as the commit; when that fails,
the hive is left marked dirty. -/
theorem vnodeWrite_cases {offset : UInt64}
    (ran : s.vnodeWrite env vn buf offset = some (s', result)) :
    (∃ e, (s.vnodeWriteCheck env vn buf offset).2 = .error e ∧ result = .error e ∧ Same s s') ∨
    ∃ old hive, (s.vnodeWriteCheck env vn buf offset).2 = .ok old ∧ s.hives[vn.hive]? = some hive ∧
      ((∃ e, result = .error e ∧ s'.loaded = s.loaded ∧ s'.hives = s.hives.set vn.hive { hive with dirty := true }) ∨
        result = .ok () ∧ Evolves s s') := by
  obtain ⟨hives, loaded, passed⟩ := vnodeWriteCheck_spec env s vn buf offset
  rw [vnodeWrite] at ran
  cases checked : s.vnodeWriteCheck env vn buf offset with
  | mk mid answer =>
    rw [checked] at hives loaded passed
    cases answer with
    | error e =>
      simp only [checked] at ran
      cases ran
      refine .inl ⟨e, rfl, rfl, loaded, ?_, ?_⟩
      · rw [trees, hives, trees]
      · rw [hives]
        exact sound.rooms
    | ok old =>
      obtain ⟨hive, found, present, alive⟩ := passed old rfl
      obtain ⟨_, rooms⟩ := sound.hive_spec found
      simp only [checked] at ran
      let new : HiveValue := { old with
        data := overwrite old.data offset.toNat buf, type := hivefsTypeBytes, deleted := false }
      have put : hive.Evolves { hive with values := hive.values.set vn.value new, dirty := true } :=
        (evolves_putValue new (.refl rooms) present rfl rfl (by simp [alive]) bytesOk).mark true
      have there : mid.hives[vn.hive]? = some hive := by rw [hives, found]
      have edited : (mid.modifyHive vn.hive fun h =>
          { h with values := h.values.set vn.value new, dirty := true }).hives =
          s.hives.set vn.hive { hive with values := hive.values.set vn.value new, dirty := true } := by
        rw [modifyHive_hives there, hives]
      refine .inr ⟨old, hive, rfl, found, ?_⟩
      rcases sound.commitOr_cases found (by exact loaded) edited put ran with
        ⟨e, rfl, kept, after⟩ | ⟨rfl, evolves, _⟩
      · refine .inl ⟨e, rfl, kept, ?_⟩
        rw [after]
        simp only [set_back present]
      · exact .inr ⟨rfl, evolves⟩

theorem backCreateFile_effect (plain : 0 ∉ path)
    (ran : s.backCreateFile env path = some (s', result)) : Effect s s' result := by
  rw [backCreateFile] at ran
  cases parsed : s.pathSplitValue path with
  | error e =>
    simp only [parsed] at ran
    cases ran
    exact sound.fail _
  | ok parts =>
    obtain ⟨plainKey, plainName⟩ := pathSplitValue_plain plain parsed
    simp only [parsed] at ran
    iterate 3
      split at ran
      · cases ran
        exact sound.fail _
    exact setValue_effect sound plainKey plainName ran

theorem backMkdir_effect (plain : 0 ∉ path) (ran : s.backMkdir env path = some (s', result)) :
    Effect s s' result := by
  rw [backMkdir] at ran
  cases parsed : s.pathSplitKey path with
  | error e =>
    simp only [parsed] at ran
    cases ran
    exact sound.fail _
  | ok parts =>
    simp only [parsed] at ran
    exact createKey_effect sound (pathSplitKey_plain plain parsed) ran

theorem backRmdir_effect (ran : s.backRmdir env path = some (s', result)) : Effect s s' result := by
  rw [backRmdir] at ran
  split at ran
  · cases ran
    exact sound.fail _
  · exact deleteKey_effect sound ran

theorem backUnlink_effect (ran : s.backUnlink env path = some (s', result)) :
    Effect s s' result := by
  rw [backUnlink] at ran
  split at ran
  · cases ran
    exact sound.fail _
  · exact deleteValue_effect sound ran

theorem backWriteFile_effect (plain : 0 ∉ path)
    (ran : s.backWriteFile env path data size = some (s', result)) : Effect s s' result := by
  rw [backWriteFile] at ran
  cases parsed : s.pathSplitValue path with
  | error e =>
    simp only [parsed] at ran
    cases ran
    exact sound.fail _
  | ok parts =>
    obtain ⟨plainKey, plainName⟩ := pathSplitValue_plain plain parsed
    simp only [parsed] at ran
    exact setValue_effect sound plainKey plainName ran

end

theorem Effect.of_hives (hives : mid.hives = s.hives) (loaded : mid.loaded = s.loaded)
    (effect : Effect mid s' result) : Effect s s' result := by
  cases effect with
  | failed e same =>
    refine .failed e ⟨same.loaded.trans loaded, ?_, same.rooms⟩
    rw [same.trees, Hivefs.trees, hives, Hivefs.trees]
  | done evolves => exact .done ⟨evolves.loaded.trans loaded, hives ▸ evolves.hives⟩

theorem backTruncate_effect {length : UInt64} (sound : s.Sound) (plain : 0 ∉ path)
    (ran : s.backTruncate env path length = some (s', result)) : Effect s s' result := by
  rw [backTruncate] at ran
  split at ran
  · cases ran
    exact sound.fail _
  cases parsed : s.pathSplitValue path with
  | error e =>
    simp only [parsed] at ran
    cases ran
    exact sound.fail _
  | ok parts =>
    obtain ⟨plainKey, plainName⟩ := pathSplitValue_plain plain parsed
    simp only [parsed] at ran
    iterate 3
      split at ran
      · cases ran
        exact sound.fail _
    obtain ⟨hives, loaded⟩ := takeMemory_hives env s length.toNat
    cases taken : s.takeMemory env length.toNat with
    | mk mid granted =>
      rw [taken] at hives loaded
      simp only [taken] at ran
      have same : Same s mid := by
        refine ⟨loaded, ?_, ?_⟩
        · rw [trees, hives, trees]
        · rw [hives]
          exact sound.rooms
      cases granted with
      | false =>
        cases ran
        exact .failed _ same
      | true => exact (setValue_effect (same.sound sound) plainKey plainName ran).of_hives hives loaded

end Hivefs

end Otsos
