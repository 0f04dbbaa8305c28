import Otsos.Uma.Pages

/-! The loops over slabs and the caches: draining, reclaiming and refilling. -/
namespace Otsos.Uma
open Function (update)
open Intrusive
open List Option

variable {s : Uma} {L : Layout} {z : Nat}

theorem SameZones.live (same : SameZones L L') : L'.Live z ↔ L.Live z := by
  rw [Layout.Live, Layout.Live, same.1]

theorem SameZones.trans (first : SameZones L L') (second : SameZones L' L'') : SameZones L L'' :=
  ⟨second.1.trans first.1, second.2.trans first.2⟩

theorem Obtained.nil : Obtained L L z [] := ⟨⟨rfl, rfl⟩, by simp, by simp⟩

theorem Settled.obtained (first : Settled L L') (second : Obtained L' L'' z items) :
    Obtained L L'' z items :=
  ⟨first.1.trans second.same, fun a member y here => second.fresh a member y
    ((first.2 y a).mpr here), fun y a => by rw [second.held, first.2]⟩

theorem Obtained.append (first : Obtained L L' z items) (second : Obtained L' L'' z items') :
    Obtained L L'' z (items ++ items') := by
  refine ⟨first.same.trans second.same, fun a member y here => ?_, fun y a => ?_⟩
  · rcases mem_append.mp member with old | new
    · exact first.fresh a old y here
    · exact second.fresh a new y ((first.held y a).mpr (.inl here))
  · rw [second.held, first.held, mem_append]
    tauto

theorem drainItems_spec (inv : Inv s L) (live : L.Live z) (nodup : items.Nodup)
    (held : ∀ a ∈ items, L.place a = .held z) :
    ∃ L', Inv (s.drainItems z items) L' ∧ Returned L L' z items := by
  induction items generalizing s L with
  | nil => exact ⟨L, inv, ⟨rfl, rfl⟩, by simp⟩
  | cons item items ih =>
    obtain ⟨fresh, nodup⟩ := nodup_cons.mp nodup
    obtain ⟨L₁, inv₁, same, moved⟩ := slabPush_spec inv live (held item (by simp))
    have held₁ : ∀ a ∈ items, L₁.place a = .held z := by
      intro a member
      rw [moved]
      refine ⟨held a (by simp [member]), fun here => ?_⟩
      simp only [mem_singleton, true_and] at here
      exact fresh (here ▸ member)
    obtain ⟨L₂, inv₂, same₂, moved₂⟩ := ih inv₁ (same.live.mpr live) nodup held₁
    refine ⟨L₂, inv₂, same.trans same₂, fun y a => ?_⟩
    rw [moved₂, moved, mem_singleton, mem_cons]
    tauto

/-- The layout after the cache of a CPU has become `items`. -/
def Layout.setCache (L : Layout) (z cpu : Nat) (items : List Nat) : Layout :=
  { L with place := fun a =>
      if a ∈ items then .cache z cpu else if L.place a = .cache z cpu then .held z else L.place a }

theorem setCache_spec (inv : Inv s L) (live : L.Live z) (nodup : items.Nodup)
    (size : items.length ≤ umaCacheItems) (mine : ∀ a ∈ items, L.place a = .cache z cpu ∨
      L.place a = .held z) :
    Inv (s.setCache z cpu items) (L.setCache z cpu items) := by
  have zone := inv.zone z live
  set L' := L.setCache z cpu items with L'_eq
  set s' := s.setCache z cpu items with s'_eq
  have place : ∀ {p}, p ≠ .cache z cpu → p ≠ .held z → ∀ a, L'.place a = p ↔ L.place a = p := by
    intro p notCache notHeld a
    simp only [L'_eq, Layout.setCache]
    split
    · next member =>
      rcases mine a member with here | here
      · rw [here]
      · rw [here]
        exact iff_of_false (Ne.symm notCache) (Ne.symm notHeld)
    · split
      · next here =>
        rw [here]
        exact iff_of_false (Ne.symm notHeld) (Ne.symm notCache)
      · rfl
  have cached : ∀ a, L'.place a = .cache z cpu ↔ a ∈ items := by
    intro a
    simp only [L'_eq, Layout.setCache]
    split
    · next member => simp [member]
    · next away =>
      split
      · simp [away]
      · next other => simp [away, other]
  have source : ∀ a, L'.place a = .held z ∨ (∃ cpu, L'.place a = .cache z cpu) →
      L.place a = .held z ∨ ∃ cpu, L.place a = .cache z cpu := by
    intro a
    simp only [L'_eq, Layout.setCache]
    split
    · next member =>
      intro
      exact (mine a member).symm.imp id fun here => ⟨cpu, here⟩
    · split
      · next here =>
        intro
        exact .inr ⟨cpu, here⟩
      · exact id
  have target : ∀ a, L.place a = .held z ∨ (∃ cpu, L.place a = .cache z cpu) →
      (∃ cpu, L'.place a = .cache z cpu) ∨ L'.place a = .held z := by
    intro a
    simp only [L'_eq, Layout.setCache]
    split
    · intro
      exact .inl ⟨cpu, rfl⟩
    split
    · intro
      exact .inr rfl
    · rintro (here | here)
      · exact .inr here
      · exact .inl here
  have zone' : ZoneInv s' L' z := by
    refine ⟨zone.geometry, zone.linked, fun l b member => ?_, zone.count, fun b has a => ?_,
      fun b has a here => ?_, fun c a => ?_, fun c => ?_, fun c => ?_, fun a here =>
      zone.home a (source a here), fun b has a slot => ?_⟩
    · obtain ⟨magic, owner, phys, total, links, free, list, run⟩ := zone.slab l b member
      exact ⟨magic, owner, phys, total, links, free, list, run⟩
    · rw [place (by simp) (by simp)]
      exact zone.chain b has a
    · rw [place (by simp) (by simp)] at here
      exact zone.slots b has a here
    · by_cases here : c = cpu
      · subst here
        rw [cached]
        simp [s'_eq, Uma.setCache]
      · rw [place (by simpa using here) (by simp), ← zone.cache c a]
        simp [s'_eq, Uma.setCache, here]
    · by_cases here : c = cpu
      · subst here
        simpa [s'_eq, Uma.setCache] using nodup
      · simpa [s'_eq, Uma.setCache, here] using zone.cacheNodup c
    · by_cases here : c = cpu
      · subst here
        simpa [s'_eq, Uma.setCache] using size
      · simpa [s'_eq, Uma.setCache, here] using zone.cacheSize c
    · rcases zone.covered b has a slot with here | here | here
      · exact .inl ((place (by simp) (by simp) a).mpr here)
      · exact .inr (target a (.inr here))
      · exact .inr (target a (.inl here))
  have change : Change z s s' L L' := by
    refine ⟨fun _ _ => rfl, rfl, rfl, rfl, rfl, fun _ _ _ => rfl, fun y other => ?_, ⟨rfl, rfl⟩,
      fun _ _ _ => rfl, fun b has => .inl has, fun _ _ _ _ _ => ⟨rfl, rfl, rfl, rfl, fun _ => id⟩,
      fun _ _ _ _ _ _ _ => rfl, fun a => ?_, fun a concerns => concerns⟩
    · simp [s'_eq, Uma.setCache, other]
    · simp only [L'_eq, Layout.setCache]
      split
      · next member =>
        refine .inr ⟨.inr ?_, .inr rfl⟩
        rcases mine a member with here | here <;> rw [here] <;> rfl
      · split
        · next here => exact .inr ⟨.inr (by rw [here]; rfl), .inr rfl⟩
        · exact .inl rfl
  exact change.inv inv live zone' inv.blocks fun b member => .inl ⟨member, id⟩

theorem Layout.setCache_held : (L.setCache z cpu items).place a = .held y ↔
    a ∉ items ∧ (L.place a = .held y ∨ (y = z ∧ L.place a = .cache z cpu)) := by
  simp only [Layout.setCache]
  split
  · next member => simp [member]
  · next away =>
    split
    · next here => simp [away, here, eq_comm]
    · next other => simp [away, other]

theorem Inv.lookups (inv : Inv s L) (n : Nat) : Inv { s with lookups := n } L :=
  inv.congr (fun _ => .refl _) (fun _ => rfl) (fun _ => rfl) rfl rfl rfl rfl rfl rfl rfl rfl
    fun _ _ _ => rfl

theorem setZone_zone (x : Nat) : (s.setZone z f).zone x = if x = z then f (s.zone z)
    else s.zone x := by
  by_cases here : x = z
  · subst here; simp [setZone]
  · simp [setZone, here]

theorem Inv.count (inv : Inv s L) (z : Nat) (f : UmaZone → UmaZone) (shape : ∀ r, SameShape r (f r))
    (alive : ∀ r, (f r).alive = r.alive) (next : ∀ r, (f r).registryNext = r.registryNext) :
    Inv (s.setZone z f) L := by
  refine inv.congr (fun y => ?_) (fun y => ?_) (fun y => ?_) rfl rfl rfl rfl rfl rfl rfl rfl
    fun _ _ _ => rfl
  · rw [setZone_zone]
    split
    · next here => rw [here]; exact shape _
    · exact .refl _
  · rw [setZone_zone]
    split
    · next here => rw [here, alive]
    · rfl
  · rw [setZone_zone]
    split
    · next here => rw [here, next]
    · rfl

theorem cacheOf_eq (env : UmaEnv) (s : Uma) :
    s.cacheOf env = ({ s with lookups := s.lookups + 1 }, (s.cacheOf env).2) := rfl

theorem replaceCache_spec (inv : Inv s L) (live : L.Live z) (nodup : (items' ++ items).Nodup)
    (size : items'.length ≤ umaCacheItems)
    (mine : ∀ a ∈ items' ++ items, L.place a = .cache z cpu ∨ L.place a = .held z)
    (all : ∀ a ∈ s.cache z cpu, a ∈ items' ++ items) :
    ∃ L', Inv ((s.setCache z cpu items').drainItems z items) L' ∧
    Returned L L' z (items' ++ items) := by
  obtain ⟨nodup', nodupRest, apart⟩ := nodup_append.mp nodup
  have inv₁ := setCache_spec inv live nodup' size fun a member => mine a (by simp [member])
  obtain ⟨L₂, inv₂, same, moved⟩ := drainItems_spec inv₁ live nodupRest fun a member => by
    rw [Layout.setCache_held]
    refine ⟨fun here => apart a here a member rfl, ?_⟩
    exact (mine a (by simp [member])).symm.imp id fun here => ⟨rfl, here⟩
  refine ⟨L₂, inv₂, same, fun y a => ?_⟩
  rw [moved, Layout.setCache_held, mem_append]
  have zone := inv.zone z live
  constructor
  · rintro ⟨⟨outside, held | ⟨rfl, cached⟩⟩, away⟩
    · exact ⟨held, fun here => here.2.elim outside fun member => away ⟨here.1, member⟩⟩
    · rcases mem_append.mp (all a ((zone.cache cpu a).mpr cached)) with member | member
      · exact absurd member outside
      · exact absurd ⟨rfl, member⟩ away
  · rintro ⟨held, away⟩
    refine ⟨⟨fun member => ?_, .inl held⟩, fun here => away ⟨here.1, .inr here.2⟩⟩
    rcases mine a (by simp [member]) with here | here
    · cases held.symm.trans here
    · obtain rfl : y = z := Place.held.inj (held.symm.trans here)
      exact away ⟨rfl, .inl member⟩

theorem zoneDrainLocal_spec (env : UmaEnv) (inv : Inv s L) (live : L.Live z) :
    ∃ L', Inv (s.zoneDrainLocal env z) L' ∧ Settled L L' := by
  have looked := inv.lookups (s.lookups + 1)
  have zone := inv.zone z live
  rw [zoneDrainLocal, cacheOf_eq]
  cases (s.cacheOf env).2 with
  | none => exact ⟨L, looked, .refl L⟩
  | some cpu =>
    have place : ∀ a ∈ (s.cache z cpu).reverse, L.place a = .cache z cpu := fun a member =>
      (zone.cache cpu a).mp (mem_reverse.mp member)
    have drained := replaceCache_spec looked live
      (show ([] ++ (s.cache z cpu).reverse).Nodup from nodup_reverse.mpr (zone.cacheNodup cpu)) (by simp)
      (fun a member => .inl (place a member))
      fun a member => mem_reverse.mpr member
    obtain ⟨L₂, inv₂, same, moved⟩ := drained
    refine ⟨L₂, inv₂, same, fun y a => ?_⟩
    rw [moved]
    refine ⟨And.left, fun held => ⟨held, ?_⟩⟩
    rintro ⟨rfl, member⟩
    cases held.symm.trans (place a member)

theorem ZoneInv.next_eq (zone : ZoneInv s L z)
    (split : L.slabs .partialSlabs z = l₁ ++ b :: l₂) : s.next b = l₂.head? := by
  have linked := zone.linked .partialSlabs
  rw [split] at linked
  exact linked.links_at.2

theorem zoneFreeItems_some (zone : ZoneInv s L z) (l₁ l₂ : List Nat) (fuel n : Nat)
    (split : L.slabs .partialSlabs z = l₁ ++ l₂) (enough : l₂.length < fuel) :
    ∃ total, s.zoneFreeItems fuel l₂.head? n = some total := by
  induction l₂, fuel, enough using Loop.walk_induction generalizing l₁ n with
  | nil =>
    exact ⟨n, rfl⟩
  | cons b l₂ fuel _ ih =>
    rw [head?_cons, zoneFreeItems, zone.next_eq split]
    exact ih (l₁ ++ [b]) _ (by simpa using split)

theorem reclaimFrom_spec (l₁ l₂ : List Nat) (fuel freeItems bytes : Nat) (inv : Inv s L)
    (live : L.Live z) (split : L.slabs .partialSlabs z = l₁ ++ l₂) (enough : l₂.length < fuel) :
    ∃ s' bytes' L', reclaimFrom z fuel l₂.head? freeItems bytes s = some (s', bytes') ∧ Inv s' L' ∧
    Settled L L' := by
  induction l₂, fuel, enough using Loop.walk_induction generalizing s L l₁ freeItems bytes with
  | nil =>
    exact ⟨s, bytes, L, rfl, inv, .refl L⟩
  | cons b l₂ fuel _ ih =>
    have kept : L.slabs .partialSlabs z = (l₁ ++ [b]) ++ l₂ := by simpa using split
    simp only [head?_cons, reclaimFrom, (inv.zone z live).next_eq split]
    split
    · exact ih (l₁ ++ [b]) freeItems bytes inv live kept
    next whole =>
    split
    · exact ih (l₁ ++ [b]) freeItems bytes inv live kept
    · obtain ⟨inv₁, split₁, _⟩ := slabRelease_spec inv live split (not_not.mp whole)
      obtain ⟨s', bytes', L', computed, inv', settled⟩ := ih l₁ _ _ inv₁ live split₁
      exact ⟨s', bytes', L', computed, inv', Layout.dropSlab_settled.trans settled⟩

theorem zoneReclaimEmpty_spec (inv : Inv s L) (live : L.Live z) :
    ∃ s' bytes L', s.zoneReclaimEmpty z = some (s', bytes) ∧ Inv s' L' ∧ Settled L L' := by
  have zone := inv.zone z live
  have head : s.head .partialSlabs z = (L.slabs .partialSlabs z).head? := (zone.linked _).head_eq
  have enough : (L.slabs .partialSlabs z).length < (s.zone z).slabCount + 1 := by
    rw [zone.count]
    omega
  obtain ⟨freeItems, counted⟩ := zoneFreeItems_some zone [] _ _ 0 rfl enough
  obtain ⟨s', bytes, L', computed, inv', settled⟩ :=
    reclaimFrom_spec [] _ _ freeItems 0 inv live rfl enough
  refine ⟨s', bytes, L', ?_, inv', settled⟩
  simp only [zoneReclaimEmpty, head, counted, computed, bind_eq_bind, bind_some]

theorem reclaimZones_spec (env : UmaEnv) (done rest : List Nat) (fuel bytes : Nat) (inv : Inv s L)
    (split : L.registry = done ++ rest) (enough : rest.length < fuel) :
    ∃ s' bytes' L', reclaimZones env fuel rest.head? bytes s = some (s', bytes') ∧ Inv s' L' ∧
    Settled L L' := by
  induction rest, fuel, enough using Loop.walk_induction generalizing s L done bytes with
  | nil =>
    exact ⟨s, bytes, L, rfl, inv, .refl L⟩
  | cons z rest fuel _ ih =>
    have member : z ∈ L.registry := by simp [split]
    have live : L.Live z := .inr (inv.registered z member)
    obtain ⟨_, inv₁, settled₁⟩ := zoneDrainLocal_spec env inv live
    obtain ⟨s₂, freed, L₂, computed₂, inv₂, settled₂⟩ :=
      zoneReclaimEmpty_spec inv₁ (settled₁.1.live.mpr live)
    have settled := settled₁.trans settled₂
    have split₂ : L₂.registry = done ++ z :: rest := settled.1.2.trans split
    have next : (s₂.zone z).registryNext = rest.head? := by
      have registry := inv₂.registry
      rw [split₂] at registry
      exact registry.link_at
    obtain ⟨s', bytes', L', computed, inv', settled'⟩ := ih (done ++ [z]) (u64 (bytes + freed)) inv₂
      (by simpa using split₂)
    refine ⟨s', bytes', L', ?_, inv', settled.trans settled'⟩
    rw [head?_cons, reclaimZones, if_pos (inv.alive z (.inr member))]
    simp only [computed₂, next, computed, bind_eq_bind, bind_some]

theorem reclaim_spec (env : UmaEnv) (inv : Inv s L) :
    ∃ s' bytes L', s.reclaim env = some (s', bytes) ∧ Inv s' L' ∧ Settled L L' := by
  have flag : ∀ {s : Uma} {L : Layout} (busy : Bool), Inv s L → Inv { s with reclaimBusy := busy } L :=
    fun _ inv => inv.congr (fun _ => .refl _) (fun _ => rfl) (fun _ => rfl) rfl rfl rfl rfl rfl rfl
      rfl rfl fun _ _ _ => rfl
  by_cases busy : s.reclaimBusy = true
  · exact ⟨s, 0, L, by simp [reclaim, busy], inv, .refl L⟩
  obtain ⟨s', bytes, L', computed, inv', settled⟩ := reclaimZones_spec env [] L.registry
    (s.zoneCount + 1) 0 (flag true inv) rfl (by rw [inv.zoneCount]; omega)
  refine ⟨{ s' with reclaimBusy := false }, bytes, L', ?_, flag false inv', settled⟩
  rw [← inv.registry.head_eq] at computed
  simp only [reclaim, busy, computed]
  rfl

/-- The items are held, none of them twice. -/
structure Holds (L : Layout) (z : Nat) (items : List Nat) : Prop where
  nodup : items.Nodup
  held : ∀ a ∈ items, L.place a = .held z

theorem Settled.holds (settled : Settled L L') (holds : Holds L z items) : Holds L' z items :=
  ⟨holds.nodup, fun a member => (settled.2 z a).mpr (holds.held a member)⟩

theorem Holds.concat (holds : Holds L z items) (obtained : Obtained L L' z [item]) :
    Holds L' z (items ++ [item]) := by
  refine ⟨nodup_append.mpr ⟨holds.nodup, by simp, ?_⟩, fun a member => ?_⟩
  · rintro x member y here rfl
    obtain rfl := mem_singleton.mp here
    exact obtained.fresh x here z (holds.held x member)
  · rw [obtained.held]
    rcases mem_append.mp member with old | new
    · exact .inl (holds.held a old)
    · exact .inr ⟨rfl, new⟩

/-- From the items it is given, `run` ends with these and with items that no one held. -/
def Refills (z : Nat) (run : Nat → List Nat → Uma → Option (Uma × List Nat)) : Prop :=
  ∀ {s L} (want : Nat) (items : List Nat), Inv s L → L.Live z → Holds L z items →
    ∃ s' new L', run want items s = some (s', items ++ new) ∧ Inv s' L' ∧ Obtained L L' z new ∧
      Holds L' z (items ++ new)

theorem pickSlab_spec (env : UmaEnv) (inv : Inv s L) (live : L.Live z) :
    ∃ s' slab L', s.pickSlab env z = (s', slab) ∧ Inv s' L' ∧ Settled L L' ∧
      ∀ b, slab = some b → b ∈ L'.slabs .partialSlabs z := by
  have head := ((inv.zone z live).linked .partialSlabs).head_eq
  unfold pickSlab
  cases first : s.head .partialSlabs z with
  | none =>
    obtain ⟨s', made, L', computed, inv', settled, part⟩ := slabCreate_spec env inv live
    exact ⟨s', made, L', computed, inv', settled, fun b here => (part b here).1⟩
  | some b =>
    refine ⟨s, some b, L, rfl, inv, .refl L, ?_⟩
    rintro _ ⟨rfl⟩
    exact mem_of_mem_head? (head.symm.trans first)

theorem refillLoop_refills (env : UmaEnv) (giveUp : Refills z retry) :
    Refills z (refillLoop env z retry) := by
  intro s L want items inv live holds
  induction want generalizing s L items with
  | zero =>
    exact ⟨s, [], L, by simp [refillLoop], inv, .nil, by simpa using holds⟩
  | succ want ih =>
    obtain ⟨_, slab, L₁, found, inv₁, settled, part⟩ := pickSlab_spec env inv live
    have live₁ := settled.1.live.mpr live
    have holds₁ := settled.holds holds
    rw [refillLoop, found]
    cases slab with
    | none =>
      obtain ⟨s', new, L', computed, inv', obtained, holds'⟩ :=
        giveUp (want + 1) items inv₁ live₁ holds₁
      exact ⟨s', new, L', computed, inv', settled.obtained obtained, holds'⟩
    | some b =>
      obtain ⟨item, _, L₂, popped, inv₂, obtained⟩ := slabPop_spec inv₁ live₁ (part b rfl)
      obtain ⟨s', new, L', computed, inv', obtained', holds'⟩ :=
        ih (items ++ [item]) inv₂ (obtained.same.live.mpr live₁) (holds₁.concat obtained)
      rw [append_assoc] at computed holds'
      refine ⟨s', item :: new, L', ?_, inv', ?_, holds'⟩
      · simp only [popped, bind_eq_bind]
        exact computed
      · exact settled.obtained (obtained.append obtained')

theorem refillFail_refills : Refills z (refillFail z) := by
  intro s L want items inv _ holds
  have counted := inv.count z (fun r => { r with fails := u64 (r.fails + 1) })
    (fun _ => ⟨rfl, rfl, rfl, rfl⟩) (fun _ => rfl) fun _ => rfl
  rw [← append_nil items] at holds
  exact ⟨_, [], L, by rw [refillFail, append_nil], counted, .nil, holds⟩

theorem refillRetry_refills (env : UmaEnv) : Refills z (refillRetry env z) := by
  intro s L want items inv live holds
  obtain ⟨_, _, L₁, reclaimed, inv₁, settled⟩ := reclaim_spec env inv
  obtain ⟨s', new, L', computed, inv', obtained, holds'⟩ :=
    refillLoop_refills env refillFail_refills want items inv₁ (settled.1.live.mpr live)
      (settled.holds holds)
  refine ⟨s', new, L', ?_, inv', settled.obtained obtained, holds'⟩
  simp only [refillRetry, reclaimed, computed, bind_eq_bind, bind_some]

theorem refill_spec (env : UmaEnv) (want : Nat) (inv : Inv s L) (live : L.Live z) :
    ∃ s' items L', s.refill env z want = some (s', items) ∧ Inv s' L' ∧ Obtained L L' z items ∧
    items.Nodup := by
  obtain ⟨s', items, L', computed, inv', obtained, holds⟩ :=
    refillLoop_refills env (refillRetry_refills env) want [] inv live ⟨nodup_nil, by simp⟩
  exact ⟨s', items, L', computed, inv', obtained, holds.nodup⟩

end Otsos.Uma
