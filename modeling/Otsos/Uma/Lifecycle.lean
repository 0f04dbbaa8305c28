import Otsos.Uma.Calls

/-! The life of a zone: the start of the allocator, making a zone and destroying one. -/
namespace Otsos.Uma
open Function (update)
open Intrusive
open List Option

variable {s : Uma} {L : Layout}

theorem registryUnlink_spec (l₁ l₂ : List Nat) (fuel : Nat) (nonempty : l₁ ≠ [])
    (chain : Chain (fun x => (s.zone x).registryNext) l₁.head? (l₁ ++ z :: l₂))
    (enough : l₁.length < fuel) : ∃ y, l₁.getLast? = some y ∧ registryUnlink z fuel l₁.head? s =
      some (s.setZone y fun r => { r with registryNext := (s.zone z).registryNext }) := by
  induction l₁ generalizing fuel with
  | nil => exact absurd rfl nonempty
  | cons x l₁ ih =>
    obtain ⟨fuel, rfl⟩ := Loop.fuel_succ enough
    obtain ⟨_, rest⟩ := chain
    have next : (s.zone x).registryNext = (l₁ ++ z :: l₂).head? := rest.head_eq
    rw [head?_cons, registryUnlink]
    cases l₁ with
    | nil =>
      have here : (s.zone x).registryNext = some z := next
      rw [if_pos here]
      exact ⟨x, rfl, rfl⟩
    | cons w l₁ =>
      have other : (s.zone x).registryNext ≠ some z := by
        rw [next]
        rintro ⟨rfl⟩
        exact absurd rest.nodup (by simp)
      rw [if_neg other, next]
      obtain ⟨y, last, computed⟩ := ih fuel (by simp) (next ▸ rest) (by simpa using enough)
      exact ⟨y, last, computed⟩

theorem registryRemove_spec (inv : Inv s L) (member : z ∈ L.registry) :
    ∃ s', (s.setZone z fun r => { r with alive := false }).registryRemove z = some s' ∧
      Inv s' { L with registry := L.registry.erase z } ∧ s'.head = s.head ∧ s'.slab = s.slab := by
  obtain ⟨l₁, l₂, split⟩ := append_of_mem member
  have registry := inv.registry
  have nodup := registry.nodup
  have count := inv.zoneCount
  rw [split] at registry nodup count
  have fresh₁ : z ∉ l₁ := fun here => (nodup_append.mp nodup).2.2 z here z (by simp) rfl
  have erased : L.registry.erase z = l₁ ++ l₂ := by
    rw [split, erase_append_right _ fresh₁, erase_cons_head]
  have fresh : z ∉ l₁ ++ l₂ := by
    rw [← erased, ← split] at *
    exact nodup.not_mem_erase
  have counted : l₁.length + (l₂.length + 1) = s.zoneCount := by simpa using count.symm
  set s₁ := s.setZone z fun r => { r with alive := false } with s₁_eq
  have zone₁ : ∀ x, s₁.zone x = if x = z then { s.zone z with alive := false } else s.zone x :=
    fun x => setZone_zone x
  have next₁ : ∀ x, (s₁.zone x).registryNext = (s.zone x).registryNext := by
    intro x
    rw [zone₁]
    split
    · next here => rw [here]
    · rfl
  -- the state before the last two stores, with the registry it has
  obtain ⟨s₂, unlinked, fields, zones, zone₂⟩ : ∃ s₂, s₁.registryUnhook z = some s₂ ∧
      (s₂.head = s.head ∧ s₂.cache = s.cache ∧ s₂.slab = s.slab ∧ s₂.next = s.next ∧
        s₂.prev = s.prev ∧ s₂.blocks = s.blocks ∧ s₂.word = s.word ∧ s₂.zoneCount = s.zoneCount) ∧
      s₂.zones = (if l₁ = [] then (s.zone z).registryNext else s.zones) ∧
      ∀ x, s₂.zone x = if l₁.getLast? = some x then
        { s₁.zone x with registryNext := (s.zone z).registryNext } else s₁.zone x := by
    have zones₁ : s₁.zones = s.zones := rfl
    unfold registryUnhook
    by_cases empty : l₁ = []
    · subst empty
      have first : s₁.zones = some z := registry.head_eq
      rw [if_pos first]
      exact ⟨_, rfl, ⟨rfl, rfl, rfl, rfl, rfl, rfl, rfl, rfl⟩, by rw [if_pos rfl]; exact next₁ z, by simp⟩
    · have head : s.zones = l₁.head? := by
        rw [registry.head_eq]
        cases l₁ with
        | nil => exact absurd rfl empty
        | cons x l => rfl
      have notFirst : s₁.zones ≠ some z := by
        rw [zones₁, head]
        exact fun here => fresh₁ (mem_of_mem_head? here)
      have chain₁ : Chain (fun x => (s₁.zone x).registryNext) l₁.head? (l₁ ++ z :: l₂) := by
        rw [funext next₁, ← head]
        exact registry
      obtain ⟨y, last, computed⟩ := registryUnlink_spec l₁ l₂ (s₁.zoneCount + 1) empty chain₁
        (by rw [show s₁.zoneCount = s.zoneCount from rfl]; omega)
      rw [if_neg notFirst, zones₁, head, computed]
      refine ⟨_, rfl, ⟨rfl, rfl, rfl, rfl, rfl, rfl, rfl, rfl⟩, by rw [if_neg empty]; exact head, fun x => ?_⟩
      rw [setZone_zone, last, next₁]
      by_cases here : x = y
      · simp [here]
      · simp [here, Ne.symm here]
  obtain ⟨head, cache, slab, next, prev, blocks, word, zoneCount⟩ := fields
  set s₃ := s₂.setZone z fun r => { r with registryNext := none } with s₃_eq
  set s' : Uma :=
    { s₃ with zoneCount := if s₃.zoneCount > 0 then s₃.zoneCount - 1 else s₃.zoneCount }
  have zone' : ∀ x, s'.zone x = if x = z then { s₂.zone z with registryNext := none }
    else s₂.zone x := by
    intro x
    have kept : s'.zone x = s₃.zone x := rfl
    rw [setZone_zone]
  have shape : ∀ x, SameShape (s.zone x) (s'.zone x) := by
    intro x
    rw [zone', zone₂, zone₂, zone₁, zone₁]
    split_ifs <;> first | exact ⟨rfl, rfl, rfl, rfl⟩ | (subst_vars; exact ⟨rfl, rfl, rfl, rfl⟩)
  have alive : ∀ x, x ≠ z → (s'.zone x).alive = (s.zone x).alive := by
    intro x other
    rw [zone', if_neg other, zone₂, zone₁]
    split <;> rfl
  refine ⟨s', ?_, ?_, head, slab⟩
  · rw [registryRemove, unlinked]
    rfl
  · apply inv.register _ shape head cache slab next prev blocks fun a _ _ => by
      show s₂.word a = s.word a
      rw [word]
    · intro x here
      have other : x ≠ z := by
        rintro rfl
        rcases here with store | inList
        · exact inv.store (store ▸ inv.registered x member)
        · exact fresh (erased ▸ inList)
      rw [alive x other]
      exact inv.alive x (here.imp id mem_of_mem_erase)
    · rw [erased]
      have first : s'.zones = if l₁ = [] then (s.zone z).registryNext else s.zones := zones
      rw [first]
      apply registry.remove
      · intro x last
        have other : x ≠ z := fun same => fresh₁ (same ▸ mem_of_getLast? last)
        rw [zone', if_neg other, zone₂, if_pos last]
      · intro x inList notLast
        have other : x ≠ z := ne_of_mem_of_not_mem inList fresh
        rw [zone', if_neg other, zone₂, if_neg notLast, next₁]
    · intro x inList
      exact inv.registered x (mem_of_mem_erase inList)
    · rw [erased]
      have positive : s₃.zoneCount = s.zoneCount := zoneCount
      show (if s₃.zoneCount > 0 then s₃.zoneCount - 1 else s₃.zoneCount) = _
      rw [if_pos (by omega), length_append]
      omega

theorem zoneEmpty_spec (zone : ZoneInv s L z) (l₁ l₂ : List Nat) (fuel : Nat)
    (split : L.slabs .partialSlabs z = l₁ ++ l₂) (enough : l₂.length < fuel) :
    ∃ answer, s.zoneEmpty z fuel l₂.head? = some answer ∧ (answer = true →
      (∀ b ∈ l₂, (s.slab b).itemsFree = (s.slab b).itemsTotal) ∧ L.slabs .fullSlabs z = []) := by
  induction l₂, fuel, enough using Loop.walk_induction generalizing l₁ with
  | nil =>
    refine ⟨_, rfl, fun none => ⟨by simp, ?_⟩⟩
    rw [(zone.linked .fullSlabs).head_eq] at none
    simpa using none
  | cons b l₂ fuel _ ih =>
    rw [head?_cons, zoneEmpty, zone.next_eq split]
    split
    · exact ⟨false, rfl, by simp⟩
    · next whole =>
      obtain ⟨answer, computed, meaning⟩ := ih (l₁ ++ [b]) (by simpa using split)
      refine ⟨answer, computed, fun yes => ⟨?_, (meaning yes).2⟩⟩
      exact forall_mem_cons.mpr ⟨not_not.mp whole, (meaning yes).1⟩

theorem releaseFrom_spec (slabs : List Nat) (fuel : Nat) (inv : Inv s L) (live : L.Live z)
    (part : L.slabs .partialSlabs z = slabs)
    (whole : ∀ b ∈ slabs, (s.slab b).itemsFree = (s.slab b).itemsTotal)
    (enough : slabs.length < fuel) : ∃ s' L', releaseFrom z fuel slabs.head? s = some s' ∧
      Inv s' L' ∧ Settled L L' ∧
      L'.slabs .partialSlabs z = [] ∧ L'.slabs .fullSlabs z = L.slabs .fullSlabs z := by
  induction slabs, fuel, enough using Loop.walk_induction generalizing s L with
  | nil =>
    exact ⟨s, L, rfl, inv, .refl L, part, rfl⟩
  | cons b slabs fuel _ ih =>
    have zone := inv.zone z live
    have split : L.slabs .partialSlabs z = [] ++ b :: slabs := part
    obtain ⟨inv₁, part₁, full₁⟩ := slabRelease_spec inv live split (whole b (by simp))
    have fresh : b ∉ slabs := by
      have nodup := (zone.linked .partialSlabs).nodup
      rw [part] at nodup
      exact (nodup_cons.mp nodup).1
    have whole₁ : ∀ x ∈ slabs, ((s.slabRelease z b).slab x).itemsFree =
        ((s.slabRelease z b).slab x).itemsTotal := by
      intro x member
      rw [(slabRelease_released zone split).slab x (ne_of_mem_of_not_mem member fresh)]
      exact whole x (by simp [member])
    obtain ⟨s', L', computed, inv', settled, empty, full⟩ := ih inv₁ live part₁ whole₁
    refine ⟨s', L', ?_, inv', Layout.dropSlab_settled.trans settled, empty, full.trans full₁⟩
    rw [head?_cons, releaseFrom, zone.next_eq split, computed]

theorem Inv.dropZone (inv : Inv s L) (slabs : ∀ l, L.slabs l z = []) (gone : z ∉ L.registry)
    (member : z ∈ L.zones) : Inv s { L with zones := L.zones.filter (· ≠ z) } := by
  set L' : Layout := { L with zones := L.zones.filter (· ≠ z) } with L'_eq
  have inList : ∀ {y}, y ∈ L'.zones ↔ y ∈ L.zones ∧ y ≠ z := by
    simp [L'_eq]
  have alive : ∀ {y}, L'.Live y → L.Live y ∧ y ≠ z := by
    rintro y (rfl | here)
    · exact ⟨.inl rfl, fun same => inv.store (same ▸ member)⟩
    · exact ⟨.inr (inList.mp here).1, (inList.mp here).2⟩
  have other : ∀ {y}, L.Live y → y ≠ z → L'.Live y := by
    rintro y (rfl | here) different
    · exact .inl rfl
    · exact .inr (inList.mpr ⟨here, different⟩)
  have has : ∀ b, ¬L.Has z b := by
    rintro b ⟨l, here⟩
    rw [slabs l] at here
    simp at here
  have none : ∀ a, ¬L.Concerns z (L.place a) := by
    intro a concerns
    obtain ⟨b, here, _⟩ := inv.slot_of_concerns (.inr member) concerns
    exact has b here
  refine ⟨fun y live => ?_, fun a somewhere => ?_, inv.blocks, fun b here => ?_, inv.alive,
    inv.registry, fun y here => ?_, inv.zoneCount, fun here => inv.store (inList.mp here).1⟩
  · exact (inv.zone y (alive live).1).congr (.refl _) (fun _ => rfl) rfl rfl rfl rfl rfl
      (fun _ _ _ => rfl) (fun _ => rfl) rfl rfl
  · obtain ⟨y, live, concerns⟩ := inv.known a somewhere
    refine ⟨y, other live ?_, ?_⟩
    · rintro rfl
      exact none a concerns
    · cases place : L.place a <;> rw [place] at concerns <;> exact concerns
  · obtain ⟨y, live, here⟩ := inv.owned b here
    refine ⟨y, other live ?_, here⟩
    rintro rfl
    exact has _ here
  · exact inList.mpr ⟨inv.registered y here, fun same => gone (same ▸ here)⟩

/-- What a call of `uma_zdestroy` has done: nothing, or the zone is gone and its record given
back. -/
def Destroyed (L L' : Layout) (z : Nat) (result : Int) : Prop :=
  (result = -1 ∧ Settled L L') ∨
    (result = 0 ∧ L'.zones = L.zones.filter (· ≠ z) ∧ L'.registry = L.registry.erase z ∧
      ∀ y a, L'.place a = .held y ↔ L.place a = .held y ∧ ¬(y = umaZoneStore ∧ a = z))

theorem zdestroyEmpty_spec (env : UmaEnv) (inv : Inv s L) (member : z ∈ L.registry)
    (held : L.place z = .held umaZoneStore)
    (whole : ∀ b ∈ L.slabs .partialSlabs z, (s.slab b).itemsFree = (s.slab b).itemsTotal)
    (full : L.slabs .fullSlabs z = []) :
    ∃ s' L', s.zdestroyEmpty env z = some s' ∧ Inv s' L' ∧ L'.zones = L.zones.filter (· ≠ z) ∧
      L'.registry = L.registry.erase z ∧
      ∀ y a, L'.place a = .held y ↔ L.place a = .held y ∧ ¬(y = umaZoneStore ∧ a = z) := by
  have inZones := inv.registered z member
  have live : L.Live z := .inr inZones
  have zone := inv.zone z live
  have head : s.head .partialSlabs z = (L.slabs .partialSlabs z).head? := (zone.linked _).head_eq
  obtain ⟨_, removed, inv₂, head₂, slab₂⟩ := registryRemove_spec inv member
  obtain ⟨s₃, L₃, released, inv₃, settled, part₃, full₃⟩ :=
    releaseFrom_spec (L.slabs .partialSlabs z) ((s.zone z).slabCount + 1) inv₂ (z := z) live rfl
      (by rw [slab₂]; exact whole)
    (by rw [zone.count]; omega)
  rw [← head, ← head₂] at released
  have slabs₃ : ∀ l, L₃.slabs l z = [] := by
    intro l
    cases l with
    | partialSlabs => exact part₃
    | fullSlabs => exact full₃.trans full
  have zone₃ := inv₃.zone z (settled.1.live.mpr live)
  have heads₃ : ∀ l, s₃.head l z = none := by
    intro l
    rw [(zone₃.linked l).head_eq, slabs₃ l]
    rfl
  have cleared : (s₃.setHead .partialSlabs z none).setHead .fullSlabs z none = s₃ := by
    have unchanged : ∀ {s : Uma} {l : SlabList}, s.head l z = none → s.setHead l z none = s := by
      intro s l here
      simp only [setHead, ← here, Function.update_eq_self]
    rw [unchanged (heads₃ _), unchanged (heads₃ _)]
  have registry₃ : L₃.registry = L.registry.erase z := settled.1.2
  have gone : z ∉ L₃.registry := by
    rw [registry₃]
    exact inv.registry.nodup.not_mem_erase
  have inv₄ := inv₃.dropZone slabs₃ gone (by rw [settled.1.1]; exact inZones)
  have held₃ : L₃.place z = .held umaZoneStore := (settled.2 _ z).mpr held
  obtain ⟨L₅, inv₅, same, moved⟩ := zfree_spec env inv₄ (.inl rfl) held₃
  refine ⟨_, L₅, ?_, inv₅, ?_, ?_, fun y a => ?_⟩
  · simp only [zdestroyEmpty, removed, released, bind_eq_bind, bind_some, cleared]
  · rw [same.1]
    exact congrArg (filter (· ≠ z)) settled.1.1
  · rw [same.2]
    exact registry₃
  · rw [moved, mem_singleton]
    exact and_congr_left fun _ => settled.2 y a

theorem zdestroy_spec (env : UmaEnv) (cpus : Nat) (inv : Inv s L) (member : z ∈ L.registry)
    (held : L.place z = .held umaZoneStore) :
    ∃ s' result L', s.zdestroy env (some z) cpus = some (s', result) ∧ Inv s' L' ∧
    Destroyed L L' z result := by
  have inZones := inv.registered z member
  have notStore : z ≠ umaZoneStore := fun same => inv.store (same ▸ inZones)
  have live : L.Live z := .inr inZones
  by_cases several : cpus ≠ 1
  · exact ⟨s, -1, L, by simp [zdestroy, several], inv, .inl ⟨rfl, .refl L⟩⟩
  have single : ¬(z = umaZoneStore ∨ cpus ≠ 1) := by tauto
  obtain ⟨L₁, inv₁, settled₁⟩ := zoneDrainLocal_spec env inv live
  set s₁ := s.zoneDrainLocal env z with s₁_eq
  have live₁ := settled₁.1.live.mpr live
  have member₁ : z ∈ L₁.registry := by rw [settled₁.1.2]; exact member
  have zone₁ := inv₁.zone z live₁
  have head₁ : s₁.head .partialSlabs z = (L₁.slabs .partialSlabs z).head? :=
    (zone₁.linked _).head_eq
  have enough : (L₁.slabs .partialSlabs z).length < (s₁.zone z).slabCount + 1 := by
    rw [zone₁.count]
    omega
  obtain ⟨answer, tested, meaning⟩ := zoneEmpty_spec zone₁ [] _ _ rfl enough
  rw [← head₁] at tested
  cases answer with
  | false => exact ⟨s₁, -1, L₁, by simp [zdestroy, single, ← s₁_eq, tested], inv₁, .inl ⟨rfl, settled₁⟩⟩
  | true =>
    obtain ⟨whole, full⟩ := meaning rfl
    obtain ⟨s', L', destroyed, inv', effect⟩ := zdestroyEmpty_spec env inv₁ member₁
      ((settled₁.2 _ z).mpr held) whole full
    refine ⟨s', 0, L', ?_, inv', ?_⟩
    · simp only [zdestroy, if_neg single, ← s₁_eq, tested, inv₁.alive z (.inr member₁), destroyed]
      rfl
    · obtain ⟨zones, registry, places⟩ := effect
      rw [settled₁.1.1] at zones
      rw [settled₁.1.2] at registry
      exact .inr ⟨rfl, zones, registry, fun y a => by rw [places, settled₁.2]⟩

theorem growWhile_bounds (more : Nat → Nat → Bool) (fuel bytes order : Nat) :
    bytes ≤ (growWhile more fuel bytes order).1 ∧
    (growWhile more fuel bytes order).1 ≤ bytes * 2 ^ fuel := by
  induction fuel generalizing bytes order with
  | zero => simp [growWhile]
  | succ fuel ih =>
    rw [growWhile]
    have again := ih (bytes * 2) (order + 1)
    split
    · rw [Nat.pow_succ', ← Nat.mul_assoc]
      exact ⟨by omega, again.2⟩
    · exact ⟨Nat.le_refl _, Nat.le_mul_of_pos_right _ (Nat.two_pow_pos _)⟩

theorem zoneGeometry_spec (computed : zoneGeometry r itemSize = some r')
    (size : r.itemSize = itemSize) (positive : 0 < itemSize) :
    Geometry r' ∧ r'.slabCount = r.slabCount := by
  have low : umaPageSize ≤ (growToFit itemSize umaSlabMaxOrder umaPageSize 0).1 ∧
      (growToFit itemSize umaSlabMaxOrder umaPageSize 0).1 ≤ umaPageSize * 2 ^ umaSlabMaxOrder :=
    growWhile_bounds _ umaSlabMaxOrder umaPageSize 0
  simp only [zoneGeometry] at computed
  set first := growToFit itemSize umaSlabMaxOrder umaPageSize 0
  have high : first.1 ≤ (growForItems itemSize umaSlabMaxOrder first.1 first.2).1 ∧
      (growForItems itemSize umaSlabMaxOrder first.1 first.2).1 ≤ first.1 * 2 ^ umaSlabMaxOrder :=
    growWhile_bounds _ umaSlabMaxOrder first.1 first.2
  split at computed
  · cases computed
  next fits =>
  set second := growForItems itemSize umaSlabMaxOrder first.1 first.2
  obtain rfl := some.inj computed
  simp only [umaSlabMaxOrder, umaPageSize] at low high
  have items : (second.1 - umaSlabHdr) / itemSize ≤ second.1 :=
    Nat.le_trans (Nat.div_le_self _ _) (Nat.sub_le _ _)
  have more : (first.1 - umaSlabHdr) / itemSize ≤ (second.1 - umaSlabHdr) / itemSize :=
    Nat.div_le_div_right (Nat.sub_le_sub_right high.1 _)
  have small : u32 ((second.1 - umaSlabHdr) / itemSize) = (second.1 - umaSlabHdr) / itemSize := by
    apply Nat.mod_eq_of_lt
    omega
  have room := Nat.div_mul_le_self (second.1 - umaSlabHdr) itemSize
  refine ⟨⟨?_, ?_, ?_, ?_⟩, rfl⟩
  · exact size ▸ positive
  · show 0 < u32 _
    omega
  · rw [small, size]
    simp only [umaSlabHdr] at *
    omega
  · simp only [umaPageSize]
    omega

theorem resetZone_zone (x : Nat) : (s.resetZone z r).zone x = if x = z then r else s.zone x := by
  by_cases here : x = z
  · subst here; simp [resetZone]
  · simp [resetZone, setHead, here]

theorem resetZone_head (l : SlabList) (x : Nat) :
    (s.resetZone z r).head l x = if x = z then none else s.head l x := by
  have unfolded : (s.resetZone z r).head =
    ((s.setHead .partialSlabs z none).setHead .fullSlabs z none).head := rfl
  rw [unfolded, setHead_head, setHead_head]
  cases l <;> simp

theorem resetZone_cache (x : Nat) : (s.resetZone z r).cache x = if x = z then fun _ => []
    else s.cache x := by
  by_cases here : x = z
  · subst here; simp [resetZone]
  · simp [resetZone, setHead, here]

theorem Inv.resetZone (inv : Inv s L) (dead : ¬L.Live z) (r : UmaZone) :
    Inv (s.resetZone z r) L := by
  have other : ∀ {y}, L.Live y → y ≠ z := by
    rintro y live rfl
    exact dead live
  have zone : ∀ y, y ≠ z → (s.resetZone z r).zone y = s.zone y := fun y away => by
    rw [resetZone_zone, if_neg away]
  refine ⟨fun y live => ?_, inv.known, inv.blocks, inv.owned, fun y here => ?_, ?_, inv.registered,
    inv.zoneCount, inv.store⟩
  · refine (inv.zone y live).congr (by rw [zone y (other live)]; exact .refl _) (fun l => ?_) ?_ rfl
      rfl rfl rfl (fun _ _ _ => rfl) (fun _ => rfl) rfl rfl
    · rw [resetZone_head, if_neg (other live)]
    · rw [resetZone_cache, if_neg (other live)]
  · rw [zone y (other (here.imp id (inv.registered y)))]
    exact inv.alive y here
  · refine inv.registry.frame fun y here => ?_
    rw [zone y (other (.inr (inv.registered y here)))]

theorem ZoneInv.empty (geometry : Geometry (s.zone z)) (count : (s.zone z).slabCount = 0)
    (head : ∀ l, s.head l z = none) (cache : ∀ cpu, s.cache z cpu = [])
    (slabs : ∀ l, L.slabs l z = []) (held : ∀ a, L.place a ≠ .held z)
    (cached : ∀ a cpu, L.place a ≠ .cache z cpu) : ZoneInv s L z := by
  have none : ∀ b, ¬L.Has z b := by
    rintro b ⟨l, here⟩
    simp [slabs] at here
  refine ⟨geometry, fun l => ?_, fun l b here => (none b ⟨l, here⟩).elim, ?_,
    fun b here => (none b here).elim, fun b here => (none b here).elim, fun cpu a => ?_,
    fun cpu => ?_, fun cpu => ?_, fun a here => ?_, fun b here => (none b here).elim⟩
  · rw [head, slabs]
    exact .nil
  · simp [slabs, count]
  · simp [cache, cached]
  · simp [cache]
  · simp [cache]
  · simp [held, cached] at here

/-- A new zone, empty, at the head of the registry. -/
def Layout.addZone (L : Layout) (z : Nat) : Layout :=
  { L with
    slabs := fun l y => if y = z then [] else L.slabs l y
    zones := z :: L.zones
    registry := z :: L.registry }

theorem Inv.addZone (inv : Inv s L) (dead : ¬L.Live z) (geometry : Geometry r)
    (count : r.slabCount = 0) (alive : r.alive = true) :
    Inv { (s.resetZone z r).setZone z fun r => { r with registryNext := s.zones } with
      zones := some z, zoneCount := s.zoneCount + 1 } (L.addZone z) := by
  set s' : Uma := { (s.resetZone z r).setZone z fun r => { r with registryNext := s.zones } with
      zones := some z, zoneCount := s.zoneCount + 1 } with s'_eq
  have other : ∀ {y}, L.Live y → y ≠ z := by
    rintro y live rfl
    exact dead live
  have zone_eq : ∀ y, s'.zone y = if y = z then { r with registryNext := s.zones }
    else s.zone y := by
    intro y
    have kept : s'.zone y = ((s.resetZone z r).setZone z fun r => { r with registryNext := s.zones }).zone y :=
      rfl
    rw [setZone_zone, resetZone_zone, resetZone_zone, if_pos rfl]
    split <;> rfl
  have zone : ∀ y, y ≠ z → s'.zone y = s.zone y := fun y away => by rw [zone_eq, if_neg away]
  have head : ∀ l y, s'.head l y = if y = z then none else s.head l y := resetZone_head (r := r)
  have cache : ∀ y, s'.cache y = if y = z then fun _ => [] else s.cache y :=
    resetZone_cache (r := r)
  have idle : ∀ a, L.place a ≠ .nowhere → (∀ y, L.Concerns y (L.place a) → z = y) → False := by
    intro a somewhere mine
    obtain ⟨y, live, concerns⟩ := inv.known a somewhere
    exact other live (mine y concerns).symm
  have slabs : ∀ l y, y ≠ z → (L.addZone z).slabs l y = L.slabs l y := fun l y away => by
    simp [Layout.addZone, away]
  have live_cases : ∀ {y}, (L.addZone z).Live y → y = z ∨ L.Live y := by
    rintro y (store | here)
    · exact .inr (.inl store)
    · exact (mem_cons.mp here).imp id .inr
  have has : ∀ y b, y ≠ z → ((L.addZone z).Has y b ↔ L.Has y b) := by
    intro y b away
    simp only [Layout.Has, slabs _ y away]
  refine ⟨fun y live => ?_, fun a somewhere => ?_, inv.blocks, fun b here => ?_, fun y here => ?_,
    ⟨rfl, ?_⟩, fun y here => ?_, ?_, fun here => ?_⟩
  · rcases live_cases live with rfl | old
    · -- no item of the layout before is an item of a zone that was not there
      apply ZoneInv.empty
      · rw [zone_eq, if_pos rfl]
        exact ⟨geometry.item, geometry.items, geometry.fits, geometry.page⟩
      · rw [zone_eq, if_pos rfl]
        exact count
      · simp [head]
      · simp [cache]
      · simp [Layout.addZone]
      · exact fun a (here : L.place a = _) => idle a (by simp [here]) (by simp [here, Layout.Concerns])
      · exact fun a cpu (here : L.place a = _) => idle a (by simp [here]) (by simp [here, Layout.Concerns])
    · have away := other old
      exact (inv.zone y old).congr (by rw [zone y away]; exact .refl _)
        (fun l => by rw [head, if_neg away]) (by rw [cache, if_neg away]) rfl rfl rfl rfl (fun _ _ _ => rfl)
        (fun l => slabs l y away) rfl rfl
  · obtain ⟨y, live, concerns⟩ := inv.known a somewhere
    refine ⟨y, live.imp id (mem_cons_of_mem z), ?_⟩
    have same : (L.addZone z).place a = L.place a := rfl
    rw [same]
    cases place : L.place a <;> rw [place] at concerns
    · exact concerns
    · exact (has y _ (other live)).mpr concerns
    · exact concerns
    · exact concerns
  · obtain ⟨y, live, mine⟩ := inv.owned b here
    exact ⟨y, live.imp id (mem_cons_of_mem z), (has y _ (other live)).mpr mine⟩
  · rw [zone_eq]
    split
    · exact alive
    · next away =>
      rcases here with store | inList
      · exact inv.alive y (.inl store)
      · exact inv.alive y (.inr ((mem_cons.mp inList).resolve_left away))
  · dsimp only
    rw [zone_eq, if_pos rfl]
    refine inv.registry.frame fun y here => ?_
    rw [zone y (other (.inr (inv.registered y here)))]
  · exact mem_cons.mpr ((mem_cons.mp here).imp id (inv.registered y))
  · show s.zoneCount + 1 = (z :: L.registry).length
    rw [inv.zoneCount, length_cons]
  · rcases mem_cons.mp here with same | old
    · exact dead (.inl same.symm)
    · exact inv.store old

theorem umaAlignUp_pos (large : umaItemMin ≤ size) (aligned : size ≤ umaAlignUp size align) :
    0 < umaAlignUp size align :=
  Nat.lt_of_lt_of_le (Nat.lt_of_lt_of_le (by decide) large) aligned

/-- What a call of `uma_zcreate` has done: nothing, or there is a new zone, whose record is held
from the zone of zones. -/
def Made (L L' : Layout) : Option Nat → Prop
  | none => Settled L L'
  | some z => L'.zones = z :: L.zones ∧ L'.registry = z :: L.registry ∧ (∀ y, L.place z ≠ .held y) ∧
      ∀ y a, L'.place a = .held y ↔ L.place a = .held y ∨ (y = umaZoneStore ∧ a = z)

/-- The items of the zone of zones in the hands of a caller are the zones there are. -/
def Records (L : Layout) : Prop := ∀ z, L.place z = .held umaZoneStore ↔ z ∈ L.zones

theorem held_ne_store (inv : Inv s L) (held : L.place a = .held z) : a ≠ umaZoneStore := by
  obtain ⟨y, live, concerns⟩ := inv.known a (by simp [held])
  obtain ⟨b, has, slot⟩ := inv.slot_of_concerns live concerns
  obtain ⟨_, _, slab⟩ := inv.slabInv live has
  have low := (inv.blocks.inside _ slab.block).1
  have bounds := slot.bounds (inv.zone y live).geometry
  simp only [umaZoneStore] at *
  omega

theorem zcreate_spec (env : UmaEnv) (size align : Nat) (flags : UInt32) (inv : Inv s L)
    (records : Records L) : ∃ s' result L', s.zcreate env size align flags = some (s', result) ∧
    Inv s' L' ∧ Made L L' result := by
  unfold zcreate
  split
  · exact ⟨s, none, L, rfl, inv, .refl L⟩
  next accepted =>
  have large : umaItemMin ≤ size := by
    simp only [Bool.or_eq_true, decide_eq_true_eq, not_or, Nat.not_lt] at accepted
    exact accepted.1.2
  dsimp only
  set align' := if align < 8 then 8 else align
  split
  · exact ⟨s, none, L, rfl, inv, .refl L⟩
  next bounds =>
  have positive : 0 < umaAlignUp size align' := umaAlignUp_pos large (by omega)
  obtain ⟨s₁, result, L₁, allocated, inv₁, handed⟩ := zalloc_spec env mZero inv (.inl rfl)
  rw [allocated]
  cases result with
  | none => exact ⟨s₁, none, L₁, rfl, inv₁, handed⟩
  | some z =>
    have held₁ : L₁.place z = .held umaZoneStore := (handed.held _ z).mpr (.inr ⟨rfl, by simp⟩)
    have new : z ∉ L.zones := fun here => handed.fresh z (by simp) _ ((records z).mpr here)
    have dead : ¬L₁.Live z := by
      rintro (store | here)
      · exact held_ne_store inv₁ held₁ store
      · exact new (handed.same.1 ▸ here)
    have undone : ∀ r, ∃ s' L', (s₁.resetZone z r).zfree env (some umaZoneStore) (some z) = s' ∧
        Inv s' L' ∧ Settled L L' := by
      intro r
      obtain ⟨L₂, inv₂, same, moved⟩ := zfree_spec env (inv₁.resetZone dead r) (.inl rfl) held₁
      refine ⟨_, L₂, rfl, inv₂, handed.same.trans same, fun y a => ?_⟩
      rw [moved, handed.held, mem_singleton]
      constructor
      · rintro ⟨old | mine, away⟩
        · exact old
        · exact absurd mine away
      · intro old
        refine ⟨.inl old, ?_⟩
        rintro ⟨rfl, rfl⟩
        exact handed.fresh a (by simp) _ old
    simp only [bind_eq_bind, bind_some]
    cases computed : zoneGeometry (zeroZone (umaAlignUp size align') align' flags) (umaAlignUp size align') with
    | none =>
      obtain ⟨s', L', freed, inv', settled⟩ := undone (zeroZone (umaAlignUp size align') align' flags)
      exact ⟨s', none, L', by rw [← freed], inv', settled⟩
    | some r =>
      obtain ⟨geometry, count⟩ := zoneGeometry_spec computed rfl positive
      dsimp only
      split
      · obtain ⟨s', L', freed, inv', settled⟩ := undone { r with alive := true }
        exact ⟨s', none, L', by rw [← freed], inv', settled⟩
      have geometry' : Geometry { r with alive := true } :=
        ⟨geometry.item, geometry.items, geometry.fits, geometry.page⟩
      refine ⟨_, some z, _, rfl, inv₁.addZone dead geometry' count rfl, ?_, ?_, ?_, ?_⟩
      · exact congrArg (z :: ·) handed.same.1
      · exact congrArg (z :: ·) handed.same.2
      · exact handed.fresh z (by simp)
      · intro y a
        have same : (L₁.addZone z).place a = L₁.place a := rfl
        rw [same, handed.held, mem_singleton]

/-- The layout at the start: no slabs. -/
def Layout.empty : Layout := ⟨fun _ _ => [], fun _ => [], fun _ => .nowhere, [], []⟩

theorem init_spec (s : Uma) (blocks : s.blocks = []) : Inv s.init .empty := by
  cases computed : zoneGeometry (zeroZone (umaAlignUp sizeofUmaZone umaAlignCache) umaAlignCache 0)
      (umaAlignUp sizeofUmaZone umaAlignCache) with
  | none => exact absurd (congrArg isSome computed) (by decide)
  | some r =>
  obtain ⟨geometry, count⟩ := zoneGeometry_spec computed rfl (by decide)
  have started : s.init = { { s with zones := none, zoneCount := 0 }.resetZone umaZoneStore
      { r with alive := true } with ready := true } := by
    simp only [init, computed]
  rw [started]
  set s₀ : Uma := { s with zones := none, zoneCount := 0 }
  have zone : (s₀.resetZone umaZoneStore { r with alive := true }).zone umaZoneStore =
    { r with alive := true } := by
    rw [resetZone_zone, if_pos rfl]
  refine ⟨fun z live => ?_, fun a somewhere => absurd rfl somewhere, ?_, fun b here => ?_,
    fun z here => ?_, ?_, fun z here => absurd here not_mem_nil, rfl, not_mem_nil⟩
  · obtain rfl : z = umaZoneStore := live.resolve_right not_mem_nil
    apply ZoneInv.empty
    · exact ⟨geometry.item, geometry.items, geometry.fits, geometry.page⟩
    · exact count
    · simp [resetZone_head]
    · simp [resetZone_cache]
    · simp [Layout.empty]
    · simp [Layout.empty]
    · simp [Layout.empty]
  · show Blocks s.blocks
    rw [blocks]
    exact ⟨.nil, by simp, by simp, by simp⟩
  · have old : b ∈ s.blocks := here
    rw [blocks] at old
    exact absurd old not_mem_nil
  · obtain rfl : z = umaZoneStore := here.resolve_right not_mem_nil
    rw [zone]
  · rfl

end Otsos.Uma
