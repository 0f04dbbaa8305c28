import Otsos.Uma.Invariant

/-! The slab lists of a zone: linking, unlinking and moving a slab. -/
namespace Otsos.Uma
open Function (update update_of_ne)
open Intrusive
open List
attribute [local simp] setHead

variable {s : Uma} {l : SlabList}

/-- Only heads of the zone and links of the slabs listed have changed. -/
structure Relinked (z : Nat) (slabs : List Nat) (s s' : Uma) : Prop where
  zone : s'.zone = s.zone
  cache : s'.cache = s.cache
  slab : s'.slab = s.slab
  word : s'.word = s.word
  blocks : s'.blocks = s.blocks
  zones : s'.zones = s.zones
  zoneCount : s'.zoneCount = s.zoneCount
  head : ∀ l y, y ≠ z → s'.head l y = s.head l y
  next : ∀ x, x ∉ slabs → s'.next x = s.next x
  prev : ∀ x, x ∉ slabs → s'.prev x = s.prev x

theorem Relinked.trans (first : Relinked z slabs s s') (second : Relinked z slabs s' s'') :
    Relinked z slabs s s'' := by
  refine ⟨second.zone.trans first.zone, second.cache.trans first.cache,
    second.slab.trans first.slab, second.word.trans first.word, second.blocks.trans first.blocks,
    second.zones.trans first.zones, second.zoneCount.trans first.zoneCount, fun l y other => ?_,
    fun x away => ?_, fun x away => ?_⟩
  · rw [second.head l y other, first.head l y other]
  · rw [second.next x away, first.next x away]
  · rw [second.prev x away, first.prev x away]

theorem Relinked.mono (relinked : Relinked z slabs s s') (sub : slabs ⊆ others) :
    Relinked z others s s' :=
  { relinked with
    next := fun x away => relinked.next x fun member => away (sub member)
    prev := fun x away => relinked.prev x fun member => away (sub member) }

theorem setHead_head : (s.setHead l z h).head l' y = if l' = l ∧ y = z then h else s.head l' y := by
  by_cases list : l' = l
  · subst list
    by_cases zone : y = z
    · subst zone; simp
    · simp [zone]
  · simp [list]

/-- The list after linking a slab in front; the other heads stay. -/
structure Linking (s s' : Uma) (l : SlabList) (z b : Nat) (slabs : List Nat) : Prop where
  linked : Linked s'.next s'.prev (s'.head l z) (b :: slabs)
  relinked : Relinked z (b :: slabs) s s'
  head : ∀ l', l' ≠ l → s'.head l' z = s.head l' z

theorem linkFront_spec (linked : Linked s.next s.prev (s.head l z) slabs) (fresh : b ∉ slabs)
    (first : s.prev b = none) : Linking s (s.linkFront l z b) l z b slabs := by
  have next : (s.linkFront l z b).next = update s.next b (s.head l z) := by
    simp only [linkFront]; split <;> rfl
  have head : (s.linkFront l z b).head = (s.setHead l z (some b)).head := by
    simp only [linkFront]; split <;> rfl
  have prev : ∀ x, (s.linkFront l z b).prev x = if slabs.head? = some x then some b else s.prev x := by
    intro x
    rw [← linked.head_eq]
    simp only [linkFront]
    split
    · next none => rw [none]; rfl
    · next h here =>
      rw [here]
      by_cases same : x = h
      · subst same; simp
      · simp [same, Ne.symm same]
  have away : ∀ x, x ∉ slabs → slabs.head? ≠ some x := fun x notIn here =>
    notIn (mem_of_mem_head? here)
  refine ⟨?_, ⟨?_, ?_, ?_, ?_, ?_, ?_, ?_, fun l' y other => ?_, fun x notIn => ?_,
    fun x notIn => ?_⟩, fun l' other => ?_⟩
  · rw [head, setHead_head, if_pos ⟨rfl, rfl⟩]
    apply Linked.insert (show Linked s.next s.prev (s.head l z) ([] ++ slabs) from linked) fresh
    · rw [prev, if_neg (away b fresh), first]
      rfl
    · rw [next, Function.update_self, linked.head_eq]
    · simp
    · intro y here
      rw [prev, if_pos here]
    · intro y member _
      rw [next, update_of_ne]
      exact ne_of_mem_of_not_mem member fresh
    · intro y _ other
      rw [prev, if_neg other]
  all_goals try (simp only [linkFront]; split <;> rfl)
  · rw [head, setHead_head, if_neg (by tauto)]
  · simp only [mem_cons, not_or] at notIn
    rw [next, update_of_ne notIn.1]
  · simp only [mem_cons, not_or] at notIn
    rw [prev, if_neg (away x notIn.2)]
  · rw [head, setHead_head, if_neg (by tauto)]

/-- The list after unlinking a slab. -/
structure Unlinking (s s' : Uma) (l : SlabList) (z : Nat) (l₁ : List Nat) (b : Nat)
    (l₂ : List Nat) : Prop where
  linked : Linked s'.next s'.prev (s'.head l z) (l₁ ++ l₂)
  relinked : Relinked z (l₁ ++ b :: l₂) s s'
  head : ∀ l', l' ≠ l → s'.head l' z = s.head l' z

theorem unlinkSlab_spec (linked : Linked s.next s.prev (s.head l z) (l₁ ++ b :: l₂))
    (list : l₁ = [] → m = l) : Unlinking s (s.unlinkSlab m z b) l z l₁ b l₂ := by
  obtain ⟨before, after⟩ := linked.links_at
  obtain ⟨fresh₁, _⟩ := linked.fresh
  have self : s.prev b ≠ some b := fun here => fresh₁ (mem_of_getLast? (before ▸ here))
  have next : ∀ x, (s.unlinkSlab m z b).next x = if l₁.getLast? = some x then l₂.head? else s.next x := by
    intro x
    rw [← before, ← after]
    simp only [unlinkSlab]
    cases here : s.prev b with
    | none => dsimp only; split <;> simp
    | some p =>
      by_cases same : x = p
      · subst same; split <;> simp
      · split <;> simp [same, Ne.symm same]
  have prev : ∀ x, (s.unlinkSlab m z b).prev x = if l₂.head? = some x then l₁.getLast? else s.prev x := by
    intro x
    rw [← before, ← after]
    have kept : ∀ p, s.prev b = some p → b ≠ p := by
      rintro p here rfl
      exact self here
    simp only [unlinkSlab]
    cases here : s.prev b with
    | none =>
      cases there : s.next b with
      | none => simp [there]
      | some n =>
        by_cases same : n = x
        · subst same; simp [there, here]
        · simp [there, same, Ne.symm same]
    | some p =>
      cases there : s.next b with
      | none => simp [kept p here, there]
      | some n =>
        by_cases same : n = x
        · subst same; simp [kept p here, there, here]
        · simp [kept p here, there, same, Ne.symm same]
  have head : ∀ l' y, (s.unlinkSlab m z b).head l' y =
      if l₁ = [] ∧ l' = l ∧ y = z then l₂.head? else s.head l' y := by
    intro l' y
    rw [← after]
    by_cases empty : l₁ = []
    · have none : s.prev b = none := by rw [before, empty]; rfl
      have unfolded : (s.unlinkSlab m z b).head = (s.setHead m z (s.next b)).head := by
        simp only [unlinkSlab, none]; split <;> rfl
      rw [unfolded, setHead_head, list empty]
      simp [empty]
    · obtain ⟨p, here⟩ : ∃ p, s.prev b = some p := by
        rw [before]
        exact Option.isSome_iff_exists.mp (by simpa using empty)
      have unfolded : (s.unlinkSlab m z b).head = s.head := by
        simp only [unlinkSlab, here]; split <;> rfl
      rw [unfolded, if_neg (by tauto)]
  refine ⟨?_, ⟨?_, ?_, ?_, ?_, ?_, ?_, ?_, fun l' y other => ?_, fun x away => ?_,
    fun x away => ?_⟩, fun l' other => ?_⟩
  · have removed : Linked (s.unlinkSlab m z b).next (s.unlinkSlab m z b).prev (l₁ ++ l₂).head?
        (l₁ ++ l₂) := by
      apply linked.remove
      · exact fun y here => by rw [next, if_pos here]
      · exact fun y here => by rw [prev, if_pos here]
      · exact fun y _ other => by rw [next, if_neg other]
      · exact fun y _ other => by rw [prev, if_neg other]
    rw [head]
    by_cases empty : l₁ = []
    · simpa [empty] using removed
    have kept : s.head l z = (l₁ ++ l₂).head? := by
      rw [linked.head_eq]
      cases l₁ with
      | nil => exact absurd rfl empty
      | cons x l => rfl
    rw [if_neg (by tauto), kept]
    exact removed
  all_goals try (simp only [unlinkSlab]; split <;> split <;> rfl)
  · rw [head, if_neg (by tauto)]
  · rw [next, if_neg (apart_of_not_mem away).2.1]
  · rw [prev, if_neg (apart_of_not_mem away).2.2]
  · rw [head, if_neg (by tauto)]

/-- Both lists after a slab has moved to the front of the other. -/
structure Moving (s s' : Uma) (source target : SlabList) (z : Nat) (l₁ : List Nat) (b : Nat)
    (l₂ slabs : List Nat) : Prop where
  source : Linked s'.next s'.prev (s'.head source z) (l₁ ++ l₂)
  target : Linked s'.next s'.prev (s'.head target z) (b :: slabs)
  relinked : Relinked z ((l₁ ++ b :: l₂) ++ slabs) s s'

theorem moveSlab_spec (different : target ≠ source)
    (linked : Linked s.next s.prev (s.head source z) (l₁ ++ b :: l₂))
    (linked' : Linked s.next s.prev (s.head target z) slabs)
    (apart : ∀ x ∈ l₁ ++ b :: l₂, x ∉ slabs) :
    Moving s (s.moveSlab source target z b) source target z l₁ b l₂ slabs := by
  obtain ⟨fresh₁, fresh₂⟩ := linked.fresh
  have unlinking := unlinkSlab_spec (m := source) linked fun _ => rfl
  set s₁ := s.unlinkSlab source z b
  set s₂ : Uma := { s₁ with prev := update s₁.prev b none } with s₂_eq
  have cleared : Relinked z (l₁ ++ b :: l₂) s₁ s₂ := by
    refine ⟨rfl, rfl, rfl, rfl, rfl, rfl, rfl, fun _ _ _ => rfl, fun _ _ => rfl, fun x away => ?_⟩
    exact update_of_ne (by rintro rfl; simp at away) _ _
  have remote : ∀ x ∈ slabs, x ∉ l₁ ++ b :: l₂ := fun x member inList => apart x inList member
  have kept : Linked s₂.next s₂.prev (s₂.head target z) slabs := by
    rw [show s₂.head target z = s.head target z from unlinking.head target different]
    have relinked := unlinking.relinked.trans cleared
    exact linked'.frame (fun x member => relinked.next x (remote x member))
      fun x member => relinked.prev x (remote x member)
  have linking := linkFront_spec (b := b) kept (apart b (by simp)) (by simp [s₂_eq])
  refine ⟨?_, linking.linked, ?_⟩
  · have head : (s₂.linkFront target z b).head source z = s₁.head source z :=
      linking.head source (Ne.symm different)
    have away : ∀ x ∈ l₁ ++ l₂, x ∉ b :: slabs := by
      intro x member inList
      rcases mem_cons.mp inList with rfl | inSlabs
      · rcases mem_append.mp member with here | here
        · exact fresh₁ here
        · exact fresh₂ here
      · exact apart x (by simp only [mem_append] at member ⊢; tauto) inSlabs
    show Linked (s₂.linkFront target z b).next (s₂.linkFront target z b).prev
      ((s₂.linkFront target z b).head source z) (l₁ ++ l₂)
    rw [head]
    refine unlinking.linked.frame (fun x member => linking.relinked.next x (away x member))
      fun x member => ?_
    rw [linking.relinked.prev x (away x member)]
    exact update_of_ne (fun here => away x member (by simp [here])) _ _
  · refine ((unlinking.relinked.mono ?_).trans (cleared.mono ?_)).trans (linking.relinked.mono ?_)
    · exact subset_append_left _ _
    · exact subset_append_left _ _
    · intro x member
      simp only [mem_append, mem_cons] at member ⊢
      tauto

end Otsos.Uma
