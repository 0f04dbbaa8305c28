import Mathlib.Data.List.Pairwise
import Otsos.Foundation.Chain
import Otsos.Uma.Model

/-! The invariant of the slab allocator. Every item slot of a slab has one place; the free chains
and the caches list exactly the items whose place they are. -/
namespace Otsos.Uma
open Function (update)
open Intrusive

/-- Where an item is. -/
inductive Place where
  | nowhere
  | chain (b : Nat)
  | cache (z cpu : Nat)
  | held (z : Nat)
deriving DecidableEq

/-- The slab lists, the free chains and the places of the items; the zones there are besides the
zone of zones, and those of them in the registry. -/
structure Layout where
  slabs : SlabList → Nat → List Nat
  chain : Nat → List Nat
  place : Nat → Place
  (zones registry : List Nat)

def Layout.Live (L : Layout) (z : Nat) : Prop := z = umaZoneStore ∨ z ∈ L.zones

/-- The slab is on one of the lists of the zone. -/
def Layout.Has (L : Layout) (z b : Nat) : Prop := ∃ l, b ∈ L.slabs l z

/-- The place is a free chain or a cache of the zone, or in the hands of one of its callers. -/
def Layout.Concerns (L : Layout) (z : Nat) : Place → Prop
  | .nowhere => False
  | .chain b => L.Has z b
  | .cache y _ => y = z
  | .held y => y = z

/-- The slot `a` of the slab `b` of the zone `z`. -/
def Slot (s : Uma) (z b a : Nat) : Prop :=
  ∃ i < (s.zone z).itemsPerSlab, a = b + umaSlabHdr + i * (s.zone z).itemSize

/-- What `uma_zone_geometry` provides. -/
structure Geometry (r : UmaZone) : Prop where
  item : 0 < r.itemSize
  items : 0 < r.itemsPerSlab
  fits : umaSlabHdr + r.itemsPerSlab * r.itemSize ≤ r.slabBytes
  page : umaPageSize ≤ r.slabBytes

structure SlabInv (s : Uma) (L : Layout) (z : Nat) (l : SlabList) (b : Nat) : Prop where
  magic : (s.slab b).magic = true
  zone : (s.slab b).zone = z
  phys : (s.slab b).phys + dmapBase = b
  total : (s.slab b).itemsTotal = (s.zone z).itemsPerSlab
  chain : Chain s.word (s.slab b).freeHead (L.chain b)
  free : (s.slab b).itemsFree = (L.chain b).length
  list : l = .fullSlabs ↔ L.chain b = []
  block : (b, (s.zone z).slabBytes) ∈ s.blocks

theorem SlabInv.frame (slab : SlabInv s L z l b) (record : s'.slab b = s.slab b)
    (zone : s'.zone z = s.zone z) (chain : L'.chain b = L.chain b)
    (word : ∀ a ∈ L.chain b, s'.word a = s.word a)
    (block : ∀ n, (b, n) ∈ s.blocks → (b, n) ∈ s'.blocks) : SlabInv s' L' z l b := by
  obtain ⟨magic, owner, phys, total, links, free, list, run⟩ := slab
  rw [← record] at magic owner phys total links free
  rw [← chain] at free list
  refine ⟨magic, owner, phys, by rwa [zone], ?_, free, list, by rw [zone]; exact block _ run⟩
  rw [chain]
  exact links.frame word

structure ZoneInv (s : Uma) (L : Layout) (z : Nat) : Prop where
  geometry : Geometry (s.zone z)
  linked : ∀ l, Linked s.next s.prev (s.head l z) (L.slabs l z)
  slab : ∀ l, ∀ b ∈ L.slabs l z, SlabInv s L z l b
  count : (s.zone z).slabCount = (L.slabs .partialSlabs z).length + (L.slabs .fullSlabs z).length
  chain : ∀ b, L.Has z b → ∀ a, a ∈ L.chain b ↔ L.place a = .chain b
  slots : ∀ b, L.Has z b → ∀ a, L.place a = .chain b → Slot s z b a
  cache : ∀ cpu a, a ∈ s.cache z cpu ↔ L.place a = .cache z cpu
  cacheNodup : ∀ cpu, (s.cache z cpu).Nodup
  cacheSize : ∀ cpu, (s.cache z cpu).length ≤ umaCacheItems
  home : ∀ a, (L.place a = .held z ∨ ∃ cpu, L.place a = .cache z cpu) → ∃ b, L.Has z b ∧
    Slot s z b a
  covered : ∀ b, L.Has z b → ∀ a, Slot s z b a →
    L.place a = .chain b ∨ (∃ cpu, L.place a = .cache z cpu) ∨ L.place a = .held z

/-- The page runs taken are aligned, in the direct map and disjoint. -/
structure Blocks (blocks : List (Nat × Nat)) : Prop where
  disjoint : blocks.Pairwise fun b c => b.1 + b.2 ≤ c.1 ∨ c.1 + c.2 ≤ b.1
  aligned : ∀ b ∈ blocks, b.1 % b.2 = 0
  inside : ∀ b ∈ blocks, dmapBase < b.1 ∧ b.1 + b.2 ≤ 2 ^ 64
  page : ∀ b ∈ blocks, umaPageSize ≤ b.2

structure Inv (s : Uma) (L : Layout) : Prop where
  zone : ∀ z, L.Live z → ZoneInv s L z
  known : ∀ a, L.place a ≠ .nowhere → ∃ z, L.Live z ∧ L.Concerns z (L.place a)
  blocks : Blocks s.blocks
  owned : ∀ b ∈ s.blocks, ∃ z, L.Live z ∧ L.Has z b.1
  alive : ∀ z, z = umaZoneStore ∨ z ∈ L.registry → (s.zone z).alive = true
  registry : Chain (fun z => (s.zone z).registryNext) s.zones L.registry
  registered : ∀ z ∈ L.registry, z ∈ L.zones
  zoneCount : s.zoneCount = L.registry.length
  store : umaZoneStore ∉ L.zones

theorem Slot.bounds (slot : Slot s z b a) (geometry : Geometry (s.zone z)) :
    b + umaSlabHdr ≤ a ∧ a < b + (s.zone z).slabBytes := by
  obtain ⟨i, small, rfl⟩ := slot
  have item := geometry.item
  have fits := geometry.fits
  have next : (i + 1) * (s.zone z).itemSize ≤ (s.zone z).itemsPerSlab * (s.zone z).itemSize :=
    Nat.mul_le_mul_right _ small
  rw [Nat.succ_mul] at next
  omega

theorem Blocks.eq_of_overlap {blocks : List (Nat × Nat)} (inv : Blocks blocks)
    (member : b ∈ blocks) (member' : c ∈ blocks) (low : b.1 ≤ a) (high : a < b.1 + b.2)
    (low' : c.1 ≤ a) (high' : a < c.1 + c.2) : b = c := by
  have : Std.Symm fun b c : Nat × Nat => b.1 + b.2 ≤ c.1 ∨ c.1 + c.2 ≤ b.1 := ⟨fun _ _ => Or.symm⟩
  by_contra different
  have apart := inv.disjoint.forall member member' different
  omega

namespace Inv

section
variable (inv : Inv s L) (live : L.Live z)
include inv live

theorem slabInv (has : L.Has z b) : ∃ l, b ∈ L.slabs l z ∧ SlabInv s L z l b := by
  obtain ⟨l, member⟩ := has
  exact ⟨l, member, (inv.zone z live).slab l b member⟩

theorem zone_eq (live' : L.Live y) (has : L.Has z b) (has' : L.Has y b) : z = y := by
  obtain ⟨_, _, slab⟩ := inv.slabInv live has
  obtain ⟨_, _, slab'⟩ := inv.slabInv live' has'
  exact slab.zone.symm.trans slab'.zone

theorem slab_eq (live' : L.Live y) (has : L.Has z b)
    (has' : L.Has y b') (slot : Slot s z b a) (slot' : Slot s y b' a) : b = b' := by
  obtain ⟨_, _, slab⟩ := inv.slabInv live has
  obtain ⟨_, _, slab'⟩ := inv.slabInv live' has'
  have bounds := slot.bounds (inv.zone z live).geometry
  have bounds' := slot'.bounds (inv.zone y live').geometry
  exact congrArg Prod.fst (inv.blocks.eq_of_overlap slab.block slab'.block (by omega) bounds.2
    (by omega) bounds'.2)

theorem slabOf_eq (has : L.Has z b) (slot : Slot s z b a) : s.slabOf z a = b := by
  obtain ⟨_, _, slab⟩ := inv.slabInv live has
  obtain ⟨_, _⟩ := slot.bounds (inv.zone z live).geometry
  have aligned : b % (s.zone z).slabBytes = 0 := inv.blocks.aligned _ slab.block
  have offset : a % (s.zone z).slabBytes = a - b := by
    obtain ⟨q, rfl⟩ := Nat.dvd_of_mod_eq_zero aligned
    have below : a - (s.zone z).slabBytes * q < (s.zone z).slabBytes := by omega
    conv_lhs => rw [show a = a - (s.zone z).slabBytes * q + (s.zone z).slabBytes * q by omega]
    rw [Nat.add_mul_mod_self_left, Nat.mod_eq_of_lt below]
  rw [slabOf]
  omega

theorem slot_of_concerns (concerns : L.Concerns z (L.place a)) : ∃ b, L.Has z b ∧ Slot s z b a := by
  have zone := inv.zone z live
  cases place : L.place a with
  | nowhere => rw [place] at concerns; exact concerns.elim
  | chain b =>
    rw [place] at concerns
    exact ⟨b, concerns, zone.slots b concerns a place⟩
  | cache y cpu =>
    rw [place] at concerns
    obtain rfl : y = z := concerns
    exact zone.home a (.inr ⟨cpu, place⟩)
  | held y =>
    rw [place] at concerns
    obtain rfl : y = z := concerns
    exact zone.home a (.inl place)

end

end Inv

/-- Only the zone `z` has changed. -/
structure Change (z : Nat) (s s' : Uma) (L L' : Layout) : Prop where
  zone : ∀ y, y ≠ z → s'.zone y = s.zone y
  next : (s'.zone z).registryNext = (s.zone z).registryNext
  alive : (s'.zone z).alive = (s.zone z).alive
  zones : s'.zones = s.zones
  zoneCount : s'.zoneCount = s.zoneCount
  head : ∀ l y, y ≠ z → s'.head l y = s.head l y
  cache : ∀ y, y ≠ z → s'.cache y = s.cache y
  registry : L'.zones = L.zones ∧ L'.registry = L.registry
  slabs : ∀ l y, y ≠ z → L'.slabs l y = L.slabs l y
  mine : ∀ b, L'.Has z b → L.Has z b ∨ ∀ y, L.Live y → ¬L.Has y b
  slab : ∀ y, L.Live y → y ≠ z → ∀ b, L.Has y b → s'.slab b = s.slab b ∧ s'.next b = s.next b ∧
    s'.prev b = s.prev b ∧ L'.chain b = L.chain b ∧ ∀ n, (b, n) ∈ s.blocks → (b, n) ∈ s'.blocks
  word : ∀ y, L.Live y → y ≠ z → ∀ b, L.Has y b → ∀ a ∈ L.chain b, s'.word a = s.word a
  place : ∀ a, L'.place a = L.place a ∨ ((L.place a = .nowhere ∨ L.Concerns z (L.place a)) ∧
    (L'.place a = .nowhere ∨ L'.Concerns z (L'.place a)))
  kept : ∀ a, L.Concerns z (L'.place a) → L'.Concerns z (L'.place a)

namespace Change

section
variable (change : Change z s s' L L')
include change

theorem has (other : y ≠ z) : L'.Has y b ↔ L.Has y b := by
  simp only [Layout.Has, change.slabs _ y other]

theorem concerns (other : y ≠ z) : L'.Concerns y p ↔ L.Concerns y p := by
  cases p with
  | chain b => exact change.has other
  | nowhere | cache | held => exact Iff.rfl

theorem slot (other : y ≠ z) : Slot s' y b a ↔ Slot s y b a := by
  rw [Slot, Slot, change.zone y other]

theorem apart (inv : Inv s L) (live : L.Live z) (live' : L.Live y)
    (other : y ≠ z) (mine : L.Concerns z p ∨ L'.Concerns z p) : ¬L.Concerns y p := by
  intro theirs
  cases p with
  | nowhere => exact theirs
  | chain b =>
    rcases mine with here | here
    · exact other (inv.zone_eq live' live theirs here)
    · rcases change.mine b here with old | new
      · exact other (inv.zone_eq live' live theirs old)
      · exact new y live' theirs
  | cache w cpu =>
    rcases mine with here | here <;> exact other (theirs.symm.trans here)
  | held w =>
    rcases mine with here | here <;> exact other (theirs.symm.trans here)

theorem place_iff (inv : Inv s L) (live : L.Live z) (live' : L.Live y)
    (other : y ≠ z) (concerns : L.Concerns y p) : L'.place a = p ↔ L.place a = p := by
  rcases change.place a with same | ⟨before, after⟩
  · rw [same]
  constructor
  · rintro rfl
    rcases after with gone | mine
    · rw [gone] at concerns
      exact concerns.elim
    · exact (change.apart inv live live' other (.inr mine) concerns).elim
  · rintro rfl
    rcases before with gone | mine
    · rw [gone] at concerns
      exact concerns.elim
    · exact (change.apart inv live live' other (.inl mine) concerns).elim

theorem zoneInv (inv : Inv s L) (live : L.Live z) (live' : L.Live y) (other : y ≠ z) :
    ZoneInv s' L' y := by
  have zone := inv.zone y live'
  have place : ∀ p, L.Concerns y p → ∀ {a}, L'.place a = p ↔ L.place a = p := fun _ concerns =>
    change.place_iff inv live live' other concerns
  have chained : ∀ {a b}, L.Has y b → (L'.place a = .chain b ↔ L.place a = .chain b) := fun has =>
    place (.chain _) has
  have cached : ∀ {a cpu}, L'.place a = .cache y cpu ↔ L.place a = .cache y cpu :=
    place (.cache y _) rfl
  have held : ∀ {a}, L'.place a = .held y ↔ L.place a = .held y := place (.held y) rfl
  have slab := change.slab y live' other
  refine ⟨?_, fun l => ?_, fun l b member => ?_, ?_, fun b has a => ?_, fun b has a here => ?_,
    fun cpu a => ?_, ?_, ?_, fun a here => ?_, fun b has a slot => ?_⟩
  · rw [change.zone y other]
    exact zone.geometry
  · rw [change.head l y other, change.slabs l y other]
    exact (zone.linked l).frame (fun b member => (slab b ⟨l, member⟩).2.1)
      fun b member => (slab b ⟨l, member⟩).2.2.1
  · rw [change.slabs l y other] at member
    obtain ⟨record, _, _, chain, block⟩ := slab b ⟨l, member⟩
    exact (zone.slab l b member).frame record (change.zone y other) chain
      (change.word y live' other b ⟨l, member⟩) block
  · rw [change.zone y other, change.slabs _ y other, change.slabs _ y other]
    exact zone.count
  · rw [change.has other] at has
    rw [(slab b has).2.2.2.1, chained has]
    exact zone.chain b has a
  · rw [change.has other] at has
    rw [chained has] at here
    exact (change.slot other).mpr (zone.slots b has a here)
  · rw [change.cache y other, cached]
    exact zone.cache cpu a
  · rw [change.cache y other]
    exact zone.cacheNodup
  · rw [change.cache y other]
    exact zone.cacheSize
  · simp only [held, cached] at here
    obtain ⟨b, has, slot⟩ := zone.home a here
    exact ⟨b, (change.has other).mpr has, (change.slot other).mpr slot⟩
  · rw [change.has other] at has
    simp only [chained has, held, cached]
    exact zone.covered b has a ((change.slot other).mp slot)

theorem inv (inv : Inv s L) (live : L.Live z) (zone : ZoneInv s' L' z) (blocks : Blocks s'.blocks)
    (owned : ∀ b ∈ s'.blocks, (b ∈ s.blocks ∧ (L.Has z b.1 → L'.Has z b.1)) ∨ L'.Has z b.1) :
    Inv s' L' := by
  have live_iff : ∀ {y}, L'.Live y ↔ L.Live y := by
    intro y
    rw [Layout.Live, Layout.Live, change.registry.1]
  have next : (fun y => (s'.zone y).registryNext) = fun y => (s.zone y).registryNext := by
    funext y
    by_cases here : y = z
    · rw [here, change.next]
    · rw [change.zone y here]
  have alive : ∀ y, (s'.zone y).alive = (s.zone y).alive := by
    intro y
    by_cases here : y = z
    · rw [here, change.alive]
    · rw [change.zone y here]
  refine ⟨fun y live' => ?_, fun a somewhere => ?_, blocks, fun b member => ?_, fun y here => ?_,
    ?_, ?_, ?_, ?_⟩
  · by_cases here : y = z
    · rwa [here]
    · exact change.zoneInv inv live (live_iff.mp live') here
  · have mine : L.Concerns z (L'.place a) ∨ L'.Concerns z (L'.place a) →
        ∃ y, L'.Live y ∧ L'.Concerns y (L'.place a) := fun concerns =>
      ⟨z, live_iff.mpr live, concerns.elim (change.kept a) id⟩
    rcases change.place a with same | ⟨_, gone | here⟩
    · rw [same] at somewhere
      obtain ⟨y, live', concerns⟩ := inv.known a somewhere
      rw [← same] at concerns
      by_cases here : y = z
      · exact mine (.inl (here ▸ concerns))
      · exact ⟨y, live_iff.mpr live', (change.concerns here).mpr concerns⟩
    · exact absurd gone somewhere
    · exact mine (.inr here)
  · rcases owned b member with ⟨old, kept⟩ | new
    · obtain ⟨y, live', has⟩ := inv.owned b old
      by_cases here : y = z
      · exact ⟨z, live_iff.mpr live, kept (here ▸ has)⟩
      · exact ⟨y, live_iff.mpr live', (change.has here).mpr has⟩
    · exact ⟨z, live_iff.mpr live, new⟩
  · rw [change.registry.2] at here
    rw [alive]
    exact inv.alive y here
  · rw [change.registry.2, change.zones, next]
    exact inv.registry
  · rw [change.registry.1, change.registry.2]
    exact inv.registered
  · rw [change.zoneCount, change.registry.2]
    exact inv.zoneCount
  · rw [change.registry.1]
    exact inv.store

end

end Change

/-- The members of a zone that its slabs and caches depend on. -/
structure SameShape (r r' : UmaZone) : Prop where
  itemSize : r'.itemSize = r.itemSize
  slabBytes : r'.slabBytes = r.slabBytes
  itemsPerSlab : r'.itemsPerSlab = r.itemsPerSlab
  slabCount : r'.slabCount = r.slabCount

theorem SameShape.refl (r : UmaZone) : SameShape r r := ⟨rfl, rfl, rfl, rfl⟩

/-- The invariant of a zone depends on its lists, its slabs, its caches and its shape, and on the
first words of the items in its chains. -/
theorem ZoneInv.congr (zone : ZoneInv s L z) (shape : SameShape (s.zone z) (s'.zone z))
    (head : ∀ l, s'.head l z = s.head l z) (cache : s'.cache z = s.cache z)
    (slab : s'.slab = s.slab) (next : s'.next = s.next) (prev : s'.prev = s.prev)
    (blocks : s'.blocks = s.blocks) (word : ∀ a b, L.place a = .chain b → s'.word a = s.word a)
    (slabs : ∀ l, L'.slabs l z = L.slabs l z) (chain : L'.chain = L.chain)
    (place : L'.place = L.place) : ZoneInv s' L' z := by
  have slot : ∀ {b a}, Slot s' z b a ↔ Slot s z b a := by
    intro b a
    rw [Slot, Slot, shape.itemsPerSlab, shape.itemSize]
  have has : ∀ {b}, L'.Has z b ↔ L.Has z b := by
    intro b
    simp only [Layout.Has, slabs]
  refine ⟨?_, fun l => by rw [next, prev, head, slabs]; exact zone.linked l, fun l b member => ?_,
    by rw [shape.slabCount, slabs, slabs]; exact zone.count,
    fun b here => by rw [chain, place]; exact zone.chain b (has.mp here),
    fun b here a there => slot.mpr (zone.slots b (has.mp here) a (by rwa [place] at there)),
    by rw [cache, place]; exact zone.cache, by rw [cache]; exact zone.cacheNodup,
    by rw [cache]; exact zone.cacheSize, fun a here => ?_,
    fun b here a there => by rw [place]; exact zone.covered b (has.mp here) a (slot.mp there)⟩
  · obtain ⟨_, _⟩ := zone.geometry
    exact ⟨by rwa [shape.itemSize], by rwa [shape.itemsPerSlab],
      by rwa [shape.itemSize, shape.itemsPerSlab, shape.slabBytes], by rwa [shape.slabBytes]⟩
  · rw [slabs] at member
    obtain ⟨_, _, _, _, links, _⟩ := zone.slab l b member
    refine ⟨by rwa [slab], by rwa [slab], by rwa [slab], by rwa [slab, shape.itemsPerSlab], ?_,
      by rwa [slab, chain], by rwa [chain], by rwa [blocks, shape.slabBytes]⟩
    rw [slab, chain]
    exact links.frame fun a here => word a b ((zone.chain b ⟨l, member⟩ a).mp here)
  · rw [place] at here
    obtain ⟨b, there, inSlab⟩ := zone.home a here
    exact ⟨b, has.mpr there, slot.mpr inSlab⟩

/-- Counters, flags and the first words of items that are in no free chain do not matter, and the
registry can be replaced. -/
theorem Inv.register (inv : Inv s L) (registry : List Nat)
    (shape : ∀ z, SameShape (s.zone z) (s'.zone z)) (head : s'.head = s.head)
    (cache : s'.cache = s.cache) (slab : s'.slab = s.slab) (next : s'.next = s.next)
    (prev : s'.prev = s.prev) (blocks : s'.blocks = s.blocks)
    (word : ∀ a b, L.place a = .chain b → s'.word a = s.word a)
    (alive : ∀ z, z = umaZoneStore ∨ z ∈ registry → (s'.zone z).alive = true)
    (linked : Chain (fun z => (s'.zone z).registryNext) s'.zones registry)
    (registered : ∀ z ∈ registry, z ∈ L.zones) (zoneCount : s'.zoneCount = registry.length) :
    Inv s' { L with registry := registry } := by
  refine ⟨fun z live => ?_, inv.known, by rw [blocks]; exact inv.blocks,
    by rw [blocks]; exact inv.owned, alive, linked, registered, zoneCount, inv.store⟩
  exact (inv.zone z live).congr (shape z) (fun l => by rw [head]) (by rw [cache]) slab next prev
    blocks word (fun _ => rfl) rfl rfl

theorem Inv.congr (inv : Inv s L) (shape : ∀ z, SameShape (s.zone z) (s'.zone z))
    (alive : ∀ z, (s'.zone z).alive = (s.zone z).alive)
    (registry : ∀ z, (s'.zone z).registryNext = (s.zone z).registryNext)
    (head : s'.head = s.head) (cache : s'.cache = s.cache) (slab : s'.slab = s.slab)
    (next : s'.next = s.next) (prev : s'.prev = s.prev) (blocks : s'.blocks = s.blocks)
    (zones : s'.zones = s.zones) (zoneCount : s'.zoneCount = s.zoneCount)
    (word : ∀ a b, L.place a = .chain b → s'.word a = s.word a) : Inv s' L := by
  apply inv.register L.registry shape head cache slab next prev blocks word
  · intro z here
    rw [alive]
    exact inv.alive z here
  · rw [zones, funext registry]
    exact inv.registry
  · exact inv.registered
  · rw [zoneCount]
    exact inv.zoneCount

end Otsos.Uma
