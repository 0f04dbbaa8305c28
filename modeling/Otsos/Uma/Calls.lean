import Otsos.Uma.Zones

/-! What each call of the slab allocator does to the invariant. -/
namespace Otsos.Uma
open Function (update)
open Intrusive
open List

theorem fillCache_spec (items stack : List Nat) (size : stack.length ≤ umaCacheItems) :
    ∃ n, fillCache items stack = ((items.take n).reverse ++ stack, items.drop n) ∧
      ((items.take n).reverse ++ stack).length ≤ umaCacheItems := by
  induction items generalizing stack with
  | nil => exact ⟨0, by simpa [fillCache] using size⟩
  | cons item items ih =>
    by_cases full : stack.length ≥ umaCacheItems
    · exact ⟨0, by simpa [fillCache, full] using size⟩
    · obtain ⟨n, filled, small⟩ := ih (item :: stack) (by simp only [length_cons]; omega)
      refine ⟨n + 1, ?_, ?_⟩
      · simp [fillCache, full, filled]
      · simpa using small

theorem share_spec (cpu : Nat) (inv : Inv s L) (live : L.Live z) (nodup : items.Nodup)
    (held : ∀ a ∈ items, L.place a = .held z) (left right : List Nat)
    (perm : (left ++ right).Perm (items ++ s.cache z cpu)) (size : left.length ≤ umaCacheItems) :
    ∃ L', Inv ((s.setCache z cpu left).drainItems z right) L' ∧ Returned L L' z items := by
  have zone := inv.zone z live
  have members : ∀ a, a ∈ left ++ right ↔ a ∈ items ∨ L.place a = .cache z cpu := by
    intro a
    rw [perm.mem_iff, mem_append, zone.cache]
  have apart : (items ++ s.cache z cpu).Nodup := by
    refine nodup_append.mpr ⟨nodup, zone.cacheNodup cpu, ?_⟩
    rintro a member _ cached rfl
    cases (held a member).symm.trans ((zone.cache cpu a).mp cached)
  obtain ⟨L₂, inv₂, same, moved⟩ := replaceCache_spec inv live (perm.nodup_iff.mpr apart) size
    (fun a member => ((members a).mp member).symm.imp id (held a))
    fun a cached => (members a).mpr (.inr ((zone.cache cpu a).mp cached))
  refine ⟨L₂, inv₂, same, fun y a => ?_⟩
  rw [moved, members]
  constructor
  · exact fun ⟨here, away⟩ => ⟨here, fun given => away ⟨given.1, .inl given.2⟩⟩
  · rintro ⟨here, away⟩
    refine ⟨here, ?_⟩
    rintro ⟨rfl, member | cached⟩
    · exact away ⟨rfl, member⟩
    · cases here.symm.trans cached

theorem stashItems_spec (env : UmaEnv) (inv : Inv s L) (live : L.Live z) (nodup : items.Nodup)
    (held : ∀ a ∈ items, L.place a = .held z) :
    ∃ L', Inv (s.stashItems env z items) L' ∧ Returned L L' z items := by
  have looked := inv.lookups (s.lookups + 1)
  rw [stashItems, cacheOf_eq]
  cases (s.cacheOf env).2 with
  | none => exact drainItems_spec looked live nodup held
  | some cpu =>
    dsimp only
    obtain ⟨n, filled, small⟩ := fillCache_spec items (s.cache z cpu) ((inv.zone z live).cacheSize cpu)
    rw [filled]
    refine share_spec cpu looked live nodup held _ _ ?_ small
    have moved : ((items.take n).reverse ++ (s.cache z cpu ++ items.drop n)).Perm
        (items.take n ++ (items.drop n ++ s.cache z cpu)) :=
      (reverse_perm _).append perm_append_comm
    rwa [← append_assoc, ← append_assoc, take_append_drop] at moved

theorem finishAlloc_spec (flags : UInt32) (inv : Inv s L) (held : L.place item = .held z) :
    Inv (s.finishAlloc z flags item) L := by
  have zeroed : Inv (if flags &&& mZero ≠ 0 ∨ (s.zone z).flags &&& mZero ≠ 0 then
      { s with word := update s.word item none } else s) L := by
    split
    · refine inv.congr (fun _ => .refl _) (fun _ => rfl) (fun _ => rfl) rfl rfl rfl rfl rfl rfl rfl rfl ?_
      intro a b chained
      refine Function.update_of_ne ?_ _ _
      rintro rfl
      cases held.symm.trans chained
    · exact inv
  exact zeroed.count z (fun r => { r with allocs := u64 (r.allocs + 1) })
    (fun _ => ⟨rfl, rfl, rfl, rfl⟩) (fun _ => rfl) fun _ => rfl

/-- What a call that may hand out an item has done. -/
def Handed (L L' : Layout) (z : Nat) : Option Nat → Prop
  | none => Settled L L'
  | some item => Obtained L L' z [item]

theorem zallocRefill_spec (env : UmaEnv) (flags : UInt32) (inv : Inv s L) (live : L.Live z) :
    ∃ s' result L', s.zallocRefill env z flags = some (s', result) ∧ Inv s' L' ∧
    Handed L L' z result := by
  obtain ⟨s₁, items, L₁, refilled, inv₁, obtained, nodup⟩ := refill_spec env umaRefillItems inv live
  have live₁ := obtained.same.live.mpr live
  rcases eq_nil_or_concat items with rfl | ⟨rest, item, rfl⟩
  · refine ⟨s₁, none, L₁, ?_, inv₁, obtained.same, fun y a => ?_⟩
    · simp [zallocRefill, refilled]
    · simpa using obtained.held y a
  rw [concat_eq_append] at *
  have held : ∀ a ∈ rest ++ [item], L₁.place a = .held z := fun a member =>
    (obtained.held z a).mpr (.inr ⟨rfl, member⟩)
  obtain ⟨nodupRest, _, apart⟩ := nodup_append.mp nodup
  have fresh : item ∉ rest := fun member => apart item member item (by simp) rfl
  obtain ⟨L₂, inv₂, same, moved⟩ := stashItems_spec env inv₁ live₁ nodupRest fun a member =>
    held a (by simp [member])
  have held₂ : L₂.place item = .held z := by
    rw [moved]
    exact ⟨held item (by simp), fun here => fresh here.2⟩
  refine ⟨_, some item, L₂, ?_, finishAlloc_spec flags inv₂ held₂, obtained.same.trans same,
    fun a member => obtained.fresh a (by simp_all), fun y a => ?_⟩
  · simp [zallocRefill, refilled]
  · rw [moved, obtained.held, mem_append, mem_singleton]
    constructor
    · rintro ⟨old | ⟨rfl, inRest | here⟩, away⟩
      · exact .inl old
      · exact absurd ⟨rfl, inRest⟩ away
      · exact .inr ⟨rfl, here⟩
    · rintro (old | ⟨rfl, rfl⟩)
      · refine ⟨.inl old, ?_⟩
        rintro ⟨rfl, inRest⟩
        exact obtained.fresh a (by simp [inRest]) _ old
      · exact ⟨.inr ⟨rfl, .inr rfl⟩, fun here => fresh here.2⟩

theorem zalloc_spec (env : UmaEnv) (flags : UInt32) (inv : Inv s L)
    (known : z = umaZoneStore ∨ z ∈ L.registry) :
    ∃ s' result L', s.zalloc env (some z) flags = some (s', result) ∧ Inv s' L' ∧
    Handed L L' z result := by
  have live : L.Live z := known.imp id (inv.registered z)
  have looked := inv.lookups (s.lookups + 1)
  simp only [zalloc, inv.alive z known]
  rw [cacheOf_eq]
  cases (s.cacheOf env).2 with
  | none => exact zallocRefill_spec env flags looked live
  | some cpu =>
    dsimp only
    cases cached : s.cache z cpu with
    | nil => exact zallocRefill_spec env flags looked live
    | cons item stack =>
      have zone := inv.zone z live
      have place : ∀ a ∈ item :: stack, L.place a = .cache z cpu := fun a member =>
        (zone.cache cpu a).mp (by rwa [cached])
      have nodup := zone.cacheNodup cpu
      have size := zone.cacheSize cpu
      rw [cached] at nodup size
      obtain ⟨fresh, nodup⟩ := nodup_cons.mp nodup
      have inv₁ := setCache_spec looked live nodup (Nat.le_of_succ_le size) fun a member =>
        .inl (place a (by simp [member]))
      have held : (L.setCache z cpu stack).place item = .held z := by
        rw [Layout.setCache_held]
        exact ⟨fresh, .inr ⟨rfl, place item (by simp)⟩⟩
      refine ⟨_, some item, _, rfl, finishAlloc_spec flags inv₁ held, ⟨rfl, rfl⟩, ?_, fun y a => ?_⟩
      · simp [place item]
      · rw [Layout.setCache_held, mem_singleton, ← zone.cache cpu a, cached, mem_cons]
        constructor
        · rintro ⟨away, old | ⟨rfl, rfl | inStack⟩⟩
          · exact .inl old
          · exact .inr ⟨rfl, rfl⟩
          · exact absurd inStack away
        · rintro (old | ⟨rfl, rfl⟩)
          · refine ⟨fun member => ?_, .inl old⟩
            cases old.symm.trans (place a (by simp [member]))
          · exact ⟨fresh, .inr ⟨rfl, .inl rfl⟩⟩

theorem isItem_of_held (inv : Inv s L) (live : L.Live z) (held : L.place item = .held z) :
    s.isItem z item = true := by
  have zone := inv.zone z live
  obtain ⟨b, has, slot⟩ := zone.home item (.inl held)
  obtain ⟨_, _, slab⟩ := inv.slabInv live has
  simp only [isItem, inv.slabOf_eq live has slot]
  obtain ⟨i, small, rfl⟩ := slot
  have offset : b + umaSlabHdr + i * (s.zone z).itemSize - b - umaSlabHdr =
    i * (s.zone z).itemSize := by omega
  have low : umaSlabHdr ≤ b + umaSlabHdr + i * (s.zone z).itemSize - b := by omega
  have below : i * (s.zone z).itemSize < (s.zone z).itemsPerSlab * (s.zone z).itemSize :=
    (Nat.mul_lt_mul_right zone.geometry.item).mpr small
  simp [slab.magic, slab.zone, offset, low, slab.total, below]

theorem zfree_spec (env : UmaEnv) (inv : Inv s L) (known : z = umaZoneStore ∨ z ∈ L.registry)
    (held : L.place item = .held z) :
    ∃ L', Inv (s.zfree env (some z) (some item)) L' ∧ Returned L L' z [item] := by
  have live : L.Live z := known.imp id (inv.registered z)
  have looked := inv.lookups (s.lookups + 1)
  have zone := inv.zone z live
  have mine : ∀ a ∈ [item], L.place a = .held z := by simp [held]
  simp only [zfree, inv.alive z known, isItem_of_held inv live held, and_self, if_true]
  rw [cacheOf_eq]
  cases (s.cacheOf env).2 with
  | none => exact drainItems_spec looked live (nodup_singleton _) mine
  | some cpu =>
    dsimp only
    have freed : ∀ {s : Uma} {L : Layout}, Inv s L →
        Inv (s.setZone z fun r => { r with frees := u64 (r.frees + 1) }) L := fun inv =>
      inv.count z _ (fun _ => ⟨rfl, rfl, rfl, rfl⟩) (fun _ => rfl) fun _ => rfl
    split
    · next room =>
      obtain ⟨L', inv', returned⟩ := share_spec cpu looked live (nodup_singleton _) mine
        (item :: s.cache z cpu) [] (by simp) (Nat.succ_le_of_lt room)
      exact ⟨L', freed inv', returned⟩
    · have perm : ((s.cache z cpu).drop (umaRefillItems - 1) ++
          (((s.cache z cpu).take (umaRefillItems - 1)).reverse ++ [item])).Perm ([item] ++ s.cache z cpu) := by
        rw [← append_assoc]
        refine perm_append_comm.trans (List.Perm.append_left _ ?_)
        have halves := (reverse_perm ((s.cache z cpu).take (umaRefillItems - 1))).append_right
          ((s.cache z cpu).drop (umaRefillItems - 1))
        rw [take_append_drop] at halves
        exact perm_append_comm.trans halves
      obtain ⟨L', inv', returned⟩ := share_spec cpu looked live (nodup_singleton _) mine _ _ perm
        (Nat.le_trans (by simp) (zone.cacheSize cpu))
      exact ⟨L', freed inv', returned⟩

theorem Blocks.length_le {blocks : List (Nat × Nat)} (inv : Blocks blocks) :
    blocks.length ≤ 2 ^ 35 := by
  have nodup : (blocks.map fun b => b.1 / umaPageSize).Nodup := by
    refine pairwise_map.mpr (inv.disjoint.imp_of_mem fun {b c} inb inc => ?_)
    have := inv.page b inb
    have := inv.page c inc
    simp only [umaPageSize] at *
    omega
  have sub : (blocks.map fun b => b.1 / umaPageSize) ⊆ range' (dmapBase / umaPageSize) (2 ^ 35) := by
    intro q member
    obtain ⟨b, inb, rfl⟩ := mem_map.mp member
    have := inv.inside b inb
    have := inv.page b inb
    rw [mem_range'_1]
    simp only [umaPageSize, dmapBase] at *
    omega
  have le := (subperm_of_subset nodup sub).length_le
  rwa [length_map, length_range'] at le

theorem preallocLoop_spec (env : UmaEnv) (items fuel got : Nat) (inv : Inv s L) (live : L.Live z)
    (enough : 2 ^ 35 < fuel + s.blocks.length) :
    ∃ s' got' L', preallocLoop env z items fuel got s = some (s', got') ∧ Inv s' L' ∧
    Settled L L' := by
  induction fuel generalizing s L got with
  | zero =>
    have := inv.blocks.length_le
    omega
  | succ fuel ih =>
    rw [preallocLoop]
    split
    · obtain ⟨s₁, made, L₁, created, inv₁, settled, part⟩ := slabCreate_spec env inv live
      rw [created]
      cases made with
      | none => exact ⟨s₁, got, L₁, rfl, inv₁, settled⟩
      | some b =>
        have grown := (part b rfl).2
        obtain ⟨s', got', L', computed, inv', settled'⟩ :=
          ih (u32 (got + (s₁.zone z).itemsPerSlab)) inv₁ (settled.1.live.mpr live) (by omega)
        exact ⟨s', got', L', computed, inv', settled.trans settled'⟩
    · exact ⟨s, got, L, rfl, inv, .refl L⟩

theorem prealloc_spec (env : UmaEnv) (items : UInt32) (inv : Inv s L)
    (known : z = umaZoneStore ∨ z ∈ L.registry) :
    ∃ s' got L', s.prealloc env (some z) items = some (s', got) ∧ Inv s' L' ∧ Settled L L' := by
  have live : L.Live z := known.imp id (inv.registered z)
  simp only [prealloc]
  split
  · obtain ⟨_, got, L₁, computed, inv₁, settled⟩ :=
      preallocLoop_spec env items.toNat (2 ^ 35 + 1) 0 inv live (by omega)
    rw [computed]
    refine ⟨_, got, L₁, rfl, ?_, settled⟩
    split
    · exact inv₁.count z _ (fun _ => ⟨rfl, rfl, rfl, rfl⟩) (fun _ => rfl) fun _ => rfl
    · exact inv₁
  · exact ⟨s, 0, L, rfl, inv, .refl L⟩

end Otsos.Uma
