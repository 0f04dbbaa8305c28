import Otsos.Hive.Registry
import Otsos.Hive.RoundTrip

/-! The registry as a whole is written out and read back, and what a commit leaves. -/
namespace Otsos
open Bytes Related
open List Option

variable {requests : Nat} {item : PackItem} {s : Hivefs}

/-- The item is the one of the hive. -/
structure ItemOf (h : HiveTree) (item : PackItem) : Prop where
  name : item.name = h.name
  flags : item.flags = h.flags
  image : ImageOf h item.image

theorem ItemOf.tree (here : ItemOf h item) : item.tree = h.compact := by
  rw [PackItem.tree, here.name, here.flags, here.image.nodes, here.image.values]
  rfl

/-- The end of the body of a pack of hives that starts at a position. -/
def bodyEnd : Nat → List HiveTree → Nat
  | pos, [] => pos
  | pos, h :: hs => bodyEnd (alignUp8 pos + h.blobSize) hs

theorem le_bodyEnd (pos : Nat) (hs : List HiveTree) : pos ≤ bodyEnd pos hs := by
  induction hs generalizing pos with
  | nil => exact Nat.le_refl _
  | cons h hs ih => exact Nat.le_trans (Nat.le_trans (le_alignUp8 pos) (Nat.le_add_right _ _)) (ih _)

theorem length_body (related : List.Forall₂ ItemOf hs items) (pos : Nat) :
    pos + (Pack.body pos items).length = bodyEnd pos hs := by
  induction related generalizing pos with
  | nil => rfl
  | @cons h item hs items here _ ih =>
    have aligned := le_alignUp8 pos
    rw [bodyEnd, ← ih, Pack.body]
    simp only [length_append, length_replicate, Image.length_bytes, here.image.size]
    omega

namespace Hivefs

theorem buildBlobs_items (wf : ∀ h ∈ hs, h.WF)
    (built : buildBlobs env hs requests pos = some (later, .ok (items, body))) :
    List.Forall₂ ItemOf hs items := by
  induction hs generalizing requests later pos items body with
  | nil =>
    simp only [buildBlobs, some.injEq, Prod.mk.injEq, Except.ok.injEq] at built
    rw [← built.2.1]
    exact .nil
  | cons h hs ih =>
    obtain ⟨⟨_, blob⟩, once, built⟩ := bind_eq_some_iff.mp built
    cases blob with
    | error e => simp at built
    | ok img =>
      simp only at built
      split at built
      · simp at built
      obtain ⟨⟨_, rest⟩, others, built⟩ := bind_eq_some_iff.mp built
      cases rest with
      | error e => simp at built
      | ok rest =>
        simp only [some.injEq, Prod.mk.injEq, Except.ok.injEq] at built
        rw [← built.2.1]
        have image := buildHiveBlob_imageOf (wf h mem_cons_self) once
        exact .cons ⟨rfl, rfl, image⟩ (ih (fun h member => wf h (mem_cons_of_mem _ member)) others)

theorem buildBlobs_succeeds (wf : ∀ h ∈ hs, h.WF) (small : bodyEnd pos hs < 2 ^ 32)
    (plenty : Pack.Plenty env requests) :
    ∃ later items, buildBlobs env hs requests pos = some (later, .ok (items, bodyEnd pos hs)) ∧
    requests ≤ later := by
  induction hs generalizing requests pos with
  | nil => exact ⟨requests, [], rfl, Nat.le_refl _⟩
  | cons h hs ih =>
    have here := wf h mem_cons_self
    have total := le_bodyEnd (alignUp8 pos + h.blobSize) hs
    rw [bodyEnd] at small
    obtain ⟨img, built⟩ := buildHiveBlob_succeeds here (by omega) plenty
    have size := (buildHiveBlob_imageOf here built).size
    have aligned : u32 (alignUp8 pos) = alignUp8 pos := Nat.mod_eq_of_lt (by omega)
    obtain ⟨later, items, others, _⟩ :=
      ih (fun h member => wf h (mem_cons_of_mem _ member)) small (plenty.mono (Nat.le_add_right _ 2))
    refine ⟨later, ⟨h.name, h.flags, img⟩ :: items, ?_, by omega⟩
    simp only [buildBlobs, built, bind_eq_bind, bind_some, aligned, size]
    rw [if_neg (by omega), others]
    rfl

/-- The hives are in order and can be told apart by their names. -/
structure WF (s : Hivefs) : Prop where
  loaded : s.loaded = true
  some_ : s.hives ≠ []
  few : s.hives.length ≤ hivefsMaxHives
  names : (s.trees.map (·.name)).Nodup
  hives : ∀ h ∈ s.trees, h.WF

/-- The size of the whole registry written out. -/
def packSize (s : Hivefs) : Nat :=
  sizeofPackHeader + sizeofPackEntry * s.hives.length + bodyEnd 0 s.trees

theorem WF.packValid (wf : s.WF) (related : List.Forall₂ ItemOf s.trees items)
    (small : s.packSize < 2 ^ 32) : Pack.Valid items := by
  have count : s.hives.length = items.length := by
    rw [← related.length_eq, trees, length_map]
  refine ⟨?_, ?_, count ▸ wf.few, fun item member => ?_, ?_⟩
  · have body := length_body related 0
    rw [Pack.size, Pack.dataOff, ← count]
    rw [packSize] at small
    omega
  · intro empty
    rw [empty, length_nil, length_eq_zero_iff] at count
    exact wf.some_ count
  · obtain ⟨h, _, here⟩ := forall₂_exists_left related member
    exact here.image.valid
  · rw [forall₂_map_eq related fun h _ item here => here.name]
    exact wf.names

theorem WF.buildPack_items (wf : s.WF) (built : s.buildPack env = some (later, .ok pack)) :
    ∃ items, pack = Pack.bytes items ∧ List.Forall₂ ItemOf s.trees items ∧ Pack.Valid items := by
  simp only [buildPack] at built
  split at built
  · simp at built
  obtain ⟨⟨_, blobs⟩, blobsBuilt, built⟩ := bind_eq_some_iff.mp built
  cases blobs with
  | error e => simp at built
  | ok blobs =>
    obtain ⟨items, body⟩ := blobs
    simp only at built
    split at built
    · simp at built
    next sizes =>
    split at built
    · simp at built
    split at built
    · simp at built
    next fits =>
    simp only [some.injEq, Prod.mk.injEq, Except.ok.injEq] at built
    have related := buildBlobs_items wf.hives blobsBuilt
    refine ⟨items, built.2.symm, related, wf.packValid related ?_⟩
    have body := length_body related 0
    have count : s.hives.length = items.length := by
      rw [← related.length_eq, trees, length_map]
    rw [packSize, count]
    rw [Pack.dataOff] at sizes
    omega

theorem WF.buildPack_succeeds (wf : s.WF) (small : s.packSize < 2 ^ 32)
    (plenty : Pack.Plenty env s.requests) :
      ∃ later items, s.buildPack env = some (later, .ok (Pack.bytes items)) ∧ s.requests ≤ later ∧
      List.Forall₂ ItemOf s.trees items ∧ Pack.Valid items := by
  have parts : s.packSize = sizeofPackHeader + sizeofPackEntry * s.hives.length +
    bodyEnd 0 s.trees := rfl
  obtain ⟨later, items, built, order⟩ :=
    buildBlobs_succeeds wf.hives (by omega : bodyEnd 0 s.trees < 2 ^ 32) plenty
  have related := buildBlobs_items wf.hives built
  have body := length_body related 0
  have count : s.hives.length = items.length := by
    rw [← related.length_eq, trees, length_map]
  refine ⟨later + 1, items, ?_, by omega, related, wf.packValid related small⟩
  simp only [buildPack, wf.loaded, wf.some_, built, bind_eq_bind, bind_some,
    plenty later order, Bool.not_true, Bool.false_or, decide_false, Bool.false_eq_true, if_false]
  rw [if_neg (by rw [Pack.dataOff, ← count]; omega), if_neg (by omega)]

theorem WF.load_build (wf : s.WF) (small : s.packSize < 2 ^ 32)
    (plenty : Pack.Plenty env s.requests) :
      ∃ later pack later' hives, s.buildPack env = some (later, .ok pack) ∧
      packLoadInto env later pack = some (later', .ok hives) ∧
      hives.map (·.toHiveTree) = s.trees.map (·.compact) := by
  obtain ⟨later, _, built, order, related, valid⟩ := wf.buildPack_succeeds small plenty
  obtain ⟨later', hives, loaded, _, trees⟩ := Pack.packLoadInto_bytes valid (plenty.mono order)
  refine ⟨later, _, later', hives, built, loaded, ?_⟩
  rw [trees]
  exact forall₂_map_eq related fun h _ _ here => here.tree

theorem adoptHive_eq {img : Image}
    (image : e.image pack = img.bytes) (valid : img.Valid) (flags : img.flags = hive.flags) :
    adoptHive pack hive e = { hive with dirty := false } := by
  rw [adoptHive, image, Image.validateHeader_bytes valid]
  have kept : img.raw.header.flags = hive.flags := flags
  simp only [kept]

theorem adopt_items {hives : List Hive}
    (related : List.Forall₂ ItemOf (hives.map (·.toHiveTree)) items) (valid : Pack.Valid items) :
    zipWith (adoptHive (Pack.bytes items)) hives (packEntries (Pack.bytes items)) =
      hives.map fun h => { h with dirty := false } := by
  have count : hives.length = items.length := by rw [← related.length_eq, length_map]
  rw [Pack.packEntries_bytes valid]
  apply ext_getElem
  · rw [length_zipWith, Pack.length_entries, count, Nat.min_self, length_map, count]
  · intro i _ high
    rw [length_map] at high
    obtain ⟨e, found, _, _, _, _, _, image⟩ := Pack.entry_spec valid (count ▸ high)
    obtain ⟨_, here⟩ := List.getElem?_eq_some_iff.mp found
    have item := related.get (by rw [length_map]; exact high) (count ▸ high)
    rw [get_eq_getElem, getElem_map] at item
    rw [getElem_zipWith, getElem_map, here]
    exact adoptHive_eq image item.image.valid item.image.flags

theorem WF.commit_spec (wf : s.WF) (ran : s.commit env = some (s', result)) :
    s'.loaded = s.loaded ∧ ((∃ e, result = .error e ∧ s'.hives = s.hives) ∨
      result = .ok () ∧ (s'.hives = s.hives ∨ s'.hives = s.hives.map fun h => { h with dirty := false })) := by
  simp only [commit, wf.loaded, Bool.not_true, Bool.false_eq_true, if_false] at ran
  split at ran
  · cases ran
    exact ⟨rfl, .inr ⟨rfl, .inl rfl⟩⟩
  split at ran
  · cases ran
    exact ⟨wf.loaded.symm, .inl ⟨_, rfl, rfl⟩⟩
  obtain ⟨⟨_, built⟩, building, ran⟩ := bind_eq_some_iff.mp ran
  cases built with
  | error e =>
    cases ran
    exact ⟨wf.loaded.symm, .inl ⟨e, rfl, rfl⟩⟩
  | ok pack =>
    obtain ⟨⟨_, checked⟩, _, ran⟩ := bind_eq_some_iff.mp ran
    cases checked with
    | error e =>
      cases ran
      exact ⟨wf.loaded.symm, .inl ⟨e, rfl, rfl⟩⟩
    | ok =>
      simp only at ran
      split at ran
      · cases ran
        exact ⟨wf.loaded.symm, .inl ⟨_, rfl, rfl⟩⟩
      · cases ran
        obtain ⟨_, rfl, related, valid⟩ := wf.buildPack_items building
        exact ⟨wf.loaded.symm, .inr ⟨rfl, .inr (adopt_items related valid)⟩⟩

end Hivefs

end Otsos
