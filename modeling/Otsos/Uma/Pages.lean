import Mathlib.Data.List.Perm.Subperm
import Otsos.Uma.Slabs

/-! Making and releasing slabs, and what a change of a cache does to the invariant. -/
namespace Otsos.Uma
open Function (update update_of_ne update_self)
open Intrusive
open List

variable {s : Uma} {L : Layout} {l : SlabList}

/-- The slots of a slab, in order. -/
def slotList (r : UmaZone) (b : Nat) : List Nat :=
  (range r.itemsPerSlab).map fun i => b + umaSlabHdr + i * r.itemSize

theorem mem_slotList : a ∈ slotList (s.zone z) b ↔ Slot s z b a := by
  simp only [slotList, Slot, mem_map, mem_range, eq_comm]

/-- Nothing has changed hands. -/
def Settled (L L' : Layout) : Prop :=
  SameZones L L' ∧ ∀ y a, L'.place a = .held y ↔ L.place a = .held y

theorem Settled.refl (L : Layout) : Settled L L := ⟨⟨rfl, rfl⟩, fun _ _ => Iff.rfl⟩

theorem Settled.trans (first : Settled L L') (second : Settled L' L'') : Settled L L'' :=
  ⟨⟨second.1.1.trans first.1.1, second.1.2.trans first.1.2⟩,
    fun y a => (second.2 y a).trans (first.2 y a)⟩

theorem chainItems_spec (pos : 0 < itemSize) (i : Nat)
    (linked : Chain s.word (s.slab b).freeHead chain)
    (fresh : ∀ j < i, b + umaSlabHdr + j * itemSize ∉ chain) :
    ∃ word freeHead, chainItems b itemSize i s = { s with
        word := word, slab := update s.slab b { s.slab b with freeHead := freeHead } } ∧
      Chain word freeHead ((range i).map (fun j => b + umaSlabHdr + j * itemSize) ++ chain) ∧
      ∀ a, (∀ j < i, a ≠ b + umaSlabHdr + j * itemSize) → word a = s.word a := by
  induction i generalizing s chain with
  | zero => exact ⟨s.word, (s.slab b).freeHead, by simp [chainItems], linked, fun _ _ => rfl⟩
  | succ i ih =>
    set item := b + umaSlabHdr + i * itemSize with item_eq
    set s₁ := { s with word := update s.word item (s.slab b).freeHead }.setSlab b fun h =>
      { h with freeHead := some item } with s₁_eq
    have linked₁ : Chain s₁.word (s₁.slab b).freeHead (item :: chain) := by
      refine ⟨by simp [s₁_eq, setSlab], ?_⟩
      have word : s₁.word = update s.word item (s.slab b).freeHead := rfl
      rw [word, update_self]
      exact linked.frame fun a member =>
        update_of_ne (ne_of_mem_of_not_mem member (fresh i (by omega))) _ _
    have fresh₁ : ∀ j < i, b + umaSlabHdr + j * itemSize ∉ item :: chain := by
      intro j small member
      rcases mem_cons.mp member with _ | old
      · have := (Nat.mul_lt_mul_right pos).mpr small
        omega
      · exact fresh j (by omega) old
    obtain ⟨word, freeHead, computed, chained, frame⟩ := ih linked₁ fresh₁
    refine ⟨word, freeHead, ?_, ?_, fun a away => ?_⟩
    · rw [chainItems, computed]
      simp [s₁_eq, setSlab]
    · rw [range_succ, map_append, append_assoc]
      exact chained
    · rw [frame a fun j small => away j (by omega)]
      exact update_of_ne (away i (by omega)) _ _

theorem vmPageAllocContig_spec (env : UmaEnv) (s : Uma) (bytes : Nat) :
    (s.vmPageAllocContig env bytes = ({ s with requests := s.requests + 1 }, none)) ∨
      ∃ b, s.vmPageAllocContig env bytes = ({ s with
        requests := s.requests + 1, blocks := (b, bytes) :: s.blocks }, some b) ∧ Fresh s bytes b := by
  unfold vmPageAllocContig
  cases env.pages s.requests with
  | none => exact .inl rfl
  | some phys =>
    dsimp only
    split
    · next fresh => exact .inr ⟨_, rfl, fresh⟩
    · exact .inl rfl

theorem Fresh.blocks (fresh : Fresh s bytes b) (inv : Blocks s.blocks)
    (page : umaPageSize ≤ bytes) : Blocks ((b, bytes) :: s.blocks) := by
  obtain ⟨aligned, low, high, apart⟩ := fresh
  refine ⟨pairwise_cons.mpr ⟨apart, inv.disjoint⟩, ?_, ?_, ?_⟩
  · exact forall_mem_cons.mpr ⟨aligned, inv.aligned⟩
  · exact forall_mem_cons.mpr ⟨⟨low, high⟩, inv.inside⟩
  · exact forall_mem_cons.mpr ⟨page, inv.page⟩

theorem Fresh.unused (fresh : Fresh s bytes b) (inv : Inv s L) (page : umaPageSize ≤ bytes) :
    (∀ y, L.Live y → ¬L.Has y b) ∧ ∀ a, b ≤ a → a < b + bytes → L.place a = .nowhere := by
  obtain ⟨_, _, _, apart⟩ := fresh
  constructor
  · intro y live has
    obtain ⟨_, _, slab⟩ := inv.slabInv live has
    have := apart _ slab.block
    have := inv.blocks.page _ slab.block
    simp only [umaPageSize] at *
    omega
  · intro a _ _
    by_contra somewhere
    obtain ⟨y, live, concerns⟩ := inv.known a somewhere
    obtain ⟨_, has, slot⟩ := inv.slot_of_concerns live concerns
    obtain ⟨_, _, slab⟩ := inv.slabInv live has
    have bounds := slot.bounds (inv.zone y live).geometry
    have := apart _ slab.block
    omega

/-- The layout with a new slab in front of the partial list, all its items free. -/
@[local simp] def Layout.addSlab (L : Layout) (r : UmaZone) (z b : Nat) : Layout :=
  { L with
    slabs := fun l y => if y = z ∧ l = .partialSlabs then b :: L.slabs l y else L.slabs l y
    chain := update L.chain b (slotList r b)
    place := fun a => if a ∈ slotList r b then .chain b else L.place a }

theorem Layout.addSlab_has : (L.addSlab r z b).Has y x ↔ L.Has y x ∨ (y = z ∧ x = b) := by
  constructor
  · rintro ⟨l, member⟩
    simp only [Layout.addSlab] at member
    split at member
    · next here =>
      rcases mem_cons.mp member with same | old
      · exact .inr ⟨here.1, same⟩
      · exact .inl ⟨l, old⟩
    · exact .inl ⟨l, member⟩
  · rintro (⟨l, member⟩ | ⟨rfl, rfl⟩)
    · refine ⟨l, ?_⟩
      simp only [Layout.addSlab]
      split
      · exact mem_cons_of_mem _ member
      · exact member
    · exact ⟨.partialSlabs, by simp⟩

/-- The slab `b` of the zone is made or gone, and its other slabs are as they were. -/
structure Resized (z b : Nat) (s s' : Uma) (L L' : Layout) : Prop where
  shape : s'.zone z = { s.zone z with slabCount := (s'.zone z).slabCount }
  cache : s'.cache = s.cache
  slab : ∀ x, x ≠ b → s'.slab x = s.slab x
  blocks : ∀ x n, x ≠ b → (x, n) ∈ s.blocks → (x, n) ∈ s'.blocks
  word : ∀ x a, x ≠ b → L.place a = .chain x → s'.word a = s.word a
  chain : ∀ x, x ≠ b → L'.chain x = L.chain x
  lists : ∀ l x, x ∈ L'.slabs l z → (x ∈ L.slabs l z ∧ x ≠ b) ∨ x = b
  place : ∀ p a, p ≠ .nowhere → p ≠ .chain b → (L'.place a = p ↔ L.place a = p)

theorem Resized.slot (resized : Resized z b s s' L L') : Slot s' z x a ↔ Slot s z x a := by
  rw [Slot, Slot, resized.shape]

theorem Resized.zoneInv (resized : Resized z b s s' L L') (zone : ZoneInv s L z)
    (linked : ∀ l, Linked s'.next s'.prev (s'.head l z) (L'.slabs l z))
    (count : (s'.zone z).slabCount = (L'.slabs .partialSlabs z).length + (L'.slabs .fullSlabs z).length)
    (made : ∀ l, b ∈ L'.slabs l z → SlabInv s' L' z l b ∧
      ∀ a, (a ∈ L'.chain b ↔ L'.place a = .chain b) ∧ (L'.place a = .chain b ↔ Slot s z b a))
    (kept : ∀ x, L.Has z x → L'.Has z x ∨ ∀ a, Slot s z x a → L.place a = .chain x) :
    ZoneInv s' L' z := by
  have has : ∀ {x}, L'.Has z x → (L.Has z x ∧ x ≠ b) ∨ x = b := fun ⟨l, member⟩ =>
    (resized.lists l _ member).imp_left fun ⟨old, other⟩ => ⟨⟨l, old⟩, other⟩
  have chained : ∀ {x a}, x ≠ b → (L'.place a = .chain x ↔ L.place a = .chain x) := fun other =>
    resized.place _ _ (by simp) (by simpa using other)
  have cached : ∀ {cpu a}, L'.place a = .cache z cpu ↔ L.place a = .cache z cpu :=
    resized.place _ _ (by simp) (by simp)
  have held : ∀ {a}, L'.place a = .held z ↔ L.place a = .held z :=
    resized.place _ _ (by simp) (by simp)
  refine ⟨?_, linked, fun l x member => ?_, count, fun x there a => ?_, fun x there a here => ?_,
    fun cpu a => ?_, ?_, ?_, fun a here => ?_, fun x there a slot => ?_⟩
  · rw [resized.shape]
    exact ⟨zone.geometry.item, zone.geometry.items, zone.geometry.fits, zone.geometry.page⟩
  · rcases resized.lists l x member with ⟨old, other⟩ | rfl
    · obtain ⟨magic, owner, phys, total, links, free, list, run⟩ := zone.slab l x old
      rw [← resized.slab x other] at magic owner phys total links free
      rw [← resized.chain x other] at free list
      refine ⟨magic, owner, phys, by rw [total, resized.shape], ?_, free, list, ?_⟩
      · rw [resized.chain x other]
        exact links.frame fun a here => resized.word x a other ((zone.chain x ⟨l, old⟩ a).mp here)
      · rw [resized.shape]
        exact resized.blocks x _ other run
    · exact (made l member).1
  · rcases has there with ⟨old, other⟩ | rfl
    · rw [resized.chain x other, chained other]
      exact zone.chain x old a
    · obtain ⟨l, member⟩ := there
      exact ((made l member).2 a).1
  · rw [resized.slot]
    rcases has there with ⟨old, other⟩ | rfl
    · exact zone.slots x old a ((chained other).mp here)
    · obtain ⟨l, member⟩ := there
      exact ((made l member).2 a).2.mp here
  · rw [resized.cache, cached]
    exact zone.cache cpu a
  · rw [resized.cache]
    exact zone.cacheNodup
  · rw [resized.cache]
    exact zone.cacheSize
  · simp only [held, cached] at here
    obtain ⟨x, old, slot⟩ := zone.home a here
    rcases kept x old with new | free
    · exact ⟨x, new, resized.slot.mpr slot⟩
    · rw [free a slot] at here
      simp at here
  · rw [resized.slot] at slot
    rcases has there with ⟨old, other⟩ | rfl
    · simp only [chained other, held, cached]
      exact zone.covered x old a slot
    · obtain ⟨l, member⟩ := there
      exact .inl (((made l member).2 a).2.mpr slot)

/-- What `uma_slab_create` has done when it answers with the slab `b`; `part` is the partial
list. -/
structure Created (z b : Nat) (part : List Nat) (s s' : Uma) : Prop where
  zone : ∀ y, y ≠ z → s'.zone y = s.zone y
  shape : s'.zone z = { s.zone z with slabCount := (s.zone z).slabCount + 1 }
  zones : s'.zones = s.zones
  zoneCount : s'.zoneCount = s.zoneCount
  cache : s'.cache = s.cache
  blocks : s'.blocks = (b, (s.zone z).slabBytes) :: s.blocks
  linked : Linked s'.next s'.prev (s'.head .partialSlabs z) (b :: part)
  head : ∀ l y, y ≠ z ∨ l ≠ .partialSlabs → s'.head l y = s.head l y
  links : ∀ x, x ∉ b :: part → s'.next x = s.next x ∧ s'.prev x = s.prev x
  slab : ∀ x, x ≠ b → s'.slab x = s.slab x
  record : ∃ freeHead, s'.slab b = ⟨true, z, freeHead, b - dmapBase, (s.zone z).itemsPerSlab,
    (s.zone z).itemsPerSlab⟩
  chain : Chain s'.word (s'.slab b).freeHead (slotList (s.zone z) b)
  word : ∀ a, a ∉ slotList (s.zone z) b → s'.word a = s.word a

theorem slabCreate_cases (env : UmaEnv) (inv : Inv s L) (live : L.Live z) :
    (slabCreate env s z = ({ s with requests := s.requests + 1 }, none)) ∨
      ∃ b s', slabCreate env s z = (s', some b) ∧ Fresh s (s.zone z).slabBytes b ∧
        Created z b (L.slabs .partialSlabs z) s s' := by
  have zone := inv.zone z live
  rcases vmPageAllocContig_spec env s (s.zone z).slabBytes with failed | ⟨b, allocated, fresh⟩
  · left
    rw [slabCreate, failed]
  right
  have unused := fresh.unused inv zone.geometry.page
  set part := L.slabs .partialSlabs z with part_eq
  have notIn : b ∉ part := fun member => unused.1 z live ⟨.partialSlabs, member⟩
  set r := s.zone z with r_eq
  set s₀ : Uma :=
    { s with requests := s.requests + 1, blocks := (b, r.slabBytes) :: s.blocks } with s₀_eq
  set s₁ := { s₀ with next := update s₀.next b none, prev := update s₀.prev b none }.setSlab b
    fun _ => ⟨true, z, none, b - dmapBase, r.itemsPerSlab, r.itemsPerSlab⟩ with s₁_eq
  have record₁ : s₁.slab b = ⟨true, z, none, b - dmapBase, r.itemsPerSlab, r.itemsPerSlab⟩ := by
    simp [s₁_eq, setSlab]
  obtain ⟨word, freeHead, computed, chained, words⟩ :=
    chainItems_spec zone.geometry.item r.itemsPerSlab
      (show Chain s₁.word (s₁.slab b).freeHead [] by rw [record₁]; rfl) (by simp)
  rw [append_nil] at chained
  set s₂ := chainItems b r.itemSize r.itemsPerSlab s₁ with s₂_eq
  have linked₂ : Linked s₂.next s₂.prev (s₂.head .partialSlabs z) part := by
    rw [computed]
    exact (zone.linked .partialSlabs).frame
      (fun x member => update_of_ne (ne_of_mem_of_not_mem member notIn) _ _)
      fun x member => update_of_ne (ne_of_mem_of_not_mem member notIn) _ _
  have linking := linkFront_spec linked₂ notIn (by rw [computed]; simp [s₁_eq, setSlab])
  have relinked := linking.relinked
  set s₃ := s₂.linkFront .partialSlabs z b
  refine ⟨b, s₃.setZone z fun r => { r with slabCount := r.slabCount + 1 }, ?_, fresh, ?_⟩
  · rw [slabCreate, allocated]
    rfl
  have zone₃ : s₃.zone = s.zone := by rw [relinked.zone, computed]; rfl
  have slab₃ : s₃.slab = update s₁.slab b { s₁.slab b with freeHead := freeHead } := by
    rw [relinked.slab, computed]
  have word₃ : s₃.word = word := by rw [relinked.word, computed]
  refine ⟨fun y other => ?_, ?_, ?_, ?_, ?_, ?_, linking.linked, fun l y other => ?_,
    fun x away => ?_, fun x other => ?_, ⟨freeHead, ?_⟩, ?_, fun a away => ?_⟩
  · simp [setZone, other, zone₃]
  · simp [setZone, zone₃]
  · exact relinked.zones.trans (by rw [computed]; rfl)
  · exact relinked.zoneCount.trans (by rw [computed]; rfl)
  · exact relinked.cache.trans (by rw [computed]; rfl)
  · exact relinked.blocks.trans (by rw [computed]; rfl)
  · have same : s₂.head l y = s.head l y := by rw [computed]; rfl
    rw [← same]
    by_cases here : y = z
    · rw [here] at other ⊢
      exact linking.head l (other.resolve_left fun absurd => absurd rfl)
    · exact relinked.head l y here
  · have other : x ≠ b := fun here => away (by simp [here])
    constructor
    · refine (relinked.next x away).trans ?_
      rw [computed]
      exact update_of_ne other _ _
    · refine (relinked.prev x away).trans ?_
      rw [computed]
      exact update_of_ne other _ _
  · show s₃.slab x = s.slab x
    rw [slab₃]
    simp [s₁_eq, setSlab, other, s₀_eq]
  · show s₃.slab b = _
    rw [slab₃, update_self, record₁]
  · show Chain s₃.word (s₃.slab b).freeHead _
    rw [slab₃, word₃, update_self]
    exact chained
  · show s₃.word a = s.word a
    rw [word₃, words a fun j small same => away ?_]
    · rfl
    · rw [same]
      exact mem_map.mpr ⟨j, mem_range.mpr small, rfl⟩

namespace Created

theorem slots_bounds (geometry : Geometry (s.zone z)) (member : a ∈ slotList (s.zone z) b) :
    b ≤ a ∧ a < b + (s.zone z).slabBytes := by
  have bounds := (mem_slotList.mp member).bounds geometry
  omega

theorem zoneInv (created : Created z b (L.slabs .partialSlabs z) s s') (inv : Inv s L)
    (live : L.Live z) (fresh : Fresh s (s.zone z).slabBytes b) :
    ZoneInv s' (L.addSlab (s.zone z) z b) z := by
  have zone := inv.zone z live
  have unused := fresh.unused inv zone.geometry.page
  have nowhere : ∀ a ∈ slotList (s.zone z) b, L.place a = .nowhere := fun a member =>
    unused.2 a (slots_bounds zone.geometry member).1 (slots_bounds zone.geometry member).2
  have notChain : ∀ a, L.place a ≠ .chain b := by
    intro a here
    obtain ⟨y, live', concerns⟩ := inv.known a (by simp [here])
    rw [here] at concerns
    exact unused.1 y live' concerns
  have new : ∀ a, (L.addSlab (s.zone z) z b).place a = .chain b ↔ a ∈ slotList (s.zone z) b := by
    intro a
    simp only [Layout.addSlab]
    split
    · next member => simp [member]
    · next away => simp [away, notChain a]
  have chain_b : (L.addSlab (s.zone z) z b).chain b = slotList (s.zone z) b := update_self _ _ _
  have part : (L.addSlab (s.zone z) z b).slabs .partialSlabs z = b :: L.slabs .partialSlabs z := by
    simp
  have full : (L.addSlab (s.zone z) z b).slabs .fullSlabs z = L.slabs .fullSlabs z := by
    simp
  have other : ∀ l, ∀ x ∈ L.slabs l z, x ≠ b :=
    fun l x member same => unused.1 z live (same ▸ ⟨l, member⟩)
  have resized : Resized z b s s' L (L.addSlab (s.zone z) z b) := by
    refine ⟨by rw [created.shape], created.cache, created.slab, fun x n _ member => ?_, fun x a _ here => ?_,
      fun x other => update_of_ne other _ _, fun l x member => ?_, fun p a somewhere other => ?_⟩
    · rw [created.blocks]
      exact mem_cons_of_mem _ member
    · refine created.word a fun member => ?_
      cases here.symm.trans (nowhere a member)
    · cases l with
      | partialSlabs =>
        rw [part, mem_cons] at member
        exact member.symm.imp_left fun old => ⟨old, other _ x old⟩
      | fullSlabs =>
        rw [full] at member
        exact .inl ⟨member, other _ x member⟩
    · simp only [Layout.addSlab]
      split
      · next member => simp [nowhere a member, Ne.symm other, Ne.symm somewhere]
      · rfl
  refine resized.zoneInv zone (fun l => ?_) ?_ (fun l member => ⟨?_, fun a => ⟨?_, ?_⟩⟩)
    fun x has => .inl (Layout.addSlab_has.mpr (.inl has))
  · cases l with
    | partialSlabs =>
      rw [part]
      exact created.linked
    | fullSlabs =>
      rw [full, created.head _ _ (.inr (by simp))]
      have away : ∀ x ∈ L.slabs .fullSlabs z, x ∉ b :: L.slabs .partialSlabs z := by
        intro x member inList
        rcases mem_cons.mp inList with same | inPart
        · exact other _ x member same
        · cases zone.list_eq member inPart
      exact (zone.linked .fullSlabs).frame (fun x member => (created.links x (away x member)).1)
        fun x member => (created.links x (away x member)).2
  · have counted : (s'.zone z).slabCount = (s.zone z).slabCount + 1 :=
      congrArg UmaZone.slabCount created.shape
    rw [counted, part, full, length_cons, zone.count]
    omega
  · cases l with
    | fullSlabs => exact absurd rfl (other .fullSlabs b (full ▸ member))
    | partialSlabs =>
      obtain ⟨_, record⟩ := created.record
      have low := fresh.2.1
      refine ⟨by rw [record], by rw [record], ?_, by rw [record, created.shape], ?_, ?_, ?_, ?_⟩
      · rw [record]
        exact Nat.sub_add_cancel (Nat.le_of_lt low)
      · rw [chain_b]
        exact created.chain
      · rw [record, chain_b]
        simp [slotList]
      · have positive := zone.geometry.items
        rw [chain_b]
        simp [slotList, Nat.ne_of_gt positive]
      · rw [created.blocks, created.shape]
        exact mem_cons_self
  · rw [chain_b, new]
  · rw [new, mem_slotList]

theorem inv (created : Created z b (L.slabs .partialSlabs z) s s') (inv : Inv s L) (live : L.Live z)
    (fresh : Fresh s (s.zone z).slabBytes b) : Inv s' (L.addSlab (s.zone z) z b) := by
  have zone := inv.zone z live
  have unused := fresh.unused inv zone.geometry.page
  have change : Change z s s' L (L.addSlab (s.zone z) z b) := by
    refine ⟨created.zone, by rw [created.shape], by rw [created.shape], created.zones, created.zoneCount,
      fun l y other => created.head l y (.inl other), fun y _ => by rw [created.cache], ⟨rfl, rfl⟩,
      fun l y other => by simp [other], fun x has => ?_, fun y live' other x has => ?_,
      fun y live' other x has a member => ?_, fun a => ?_, fun a concerns => ?_⟩
    · rcases Layout.addSlab_has.mp has with old | ⟨_, rfl⟩
      · exact .inl old
      · exact .inr unused.1
    · have away : x ≠ b := fun same => unused.1 y live' (same ▸ has)
      have links := created.links x fun inList => (mem_cons.mp inList).elim away fun member =>
        other (inv.zone_eq live' live has ⟨_, member⟩)
      refine ⟨created.slab x away, links.1, links.2, update_of_ne away _ _, fun n member => ?_⟩
      rw [created.blocks]
      exact mem_cons_of_mem _ member
    · refine created.word a fun mine => ?_
      have bounds := slots_bounds zone.geometry mine
      have place := unused.2 a bounds.1 bounds.2
      cases place.symm.trans (((inv.zone y live').chain x has a).mp member)
    · simp only [Layout.addSlab]
      split
      · next mine =>
        have bounds := slots_bounds zone.geometry mine
        exact .inr ⟨.inl (unused.2 a bounds.1 bounds.2), .inr (Layout.addSlab_has.mpr (.inr ⟨rfl, rfl⟩))⟩
      · exact .inl rfl
    · cases place : (L.addSlab (s.zone z) z b).place a with
      | chain x =>
        rw [place] at concerns
        exact Layout.addSlab_has.mpr (.inl concerns)
      | nowhere | cache | held =>
        rw [place] at concerns
        exact concerns
  apply change.inv inv live (created.zoneInv inv live fresh)
  · rw [created.blocks]
    exact fresh.blocks inv.blocks zone.geometry.page
  · intro x member
    rw [created.blocks] at member
    rcases mem_cons.mp member with rfl | old
    · exact .inr (Layout.addSlab_has.mpr (.inr ⟨rfl, rfl⟩))
    · exact .inl ⟨old, fun has => Layout.addSlab_has.mpr (.inl has)⟩

theorem settled (_ : Created z b (L.slabs .partialSlabs z) s s') (inv : Inv s L) (live : L.Live z)
    (fresh : Fresh s (s.zone z).slabBytes b) : Settled L (L.addSlab (s.zone z) z b) := by
  have geometry := (inv.zone z live).geometry
  refine ⟨⟨rfl, rfl⟩, fun y a => ?_⟩
  simp only [Layout.addSlab]
  split
  · next mine =>
    have bounds := slots_bounds geometry mine
    simp [(fresh.unused inv geometry.page).2 a bounds.1 bounds.2]
  · rfl

end Created

theorem Inv.requests (inv : Inv s L) (n : Nat) : Inv { s with requests := n } L :=
  inv.congr (fun _ => .refl _) (fun _ => rfl) (fun _ => rfl) rfl rfl rfl rfl rfl rfl rfl rfl
    fun _ _ _ => rfl

theorem slabCreate_spec (env : UmaEnv) (inv : Inv s L) (live : L.Live z) :
    ∃ s' made L', slabCreate env s z = (s', made) ∧ Inv s' L' ∧ Settled L L' ∧
      ∀ b, made = some b → b ∈ L'.slabs .partialSlabs z ∧ s'.blocks.length = s.blocks.length + 1 := by
  rcases slabCreate_cases env inv live with failed | ⟨b, s', made, fresh, created⟩
  · exact ⟨_, none, L, failed, inv.requests _, .refl L, by simp⟩
  · refine ⟨s', some b, _, made, created.inv inv live fresh, created.settled inv live fresh, ?_⟩
    rintro _ ⟨rfl⟩
    refine ⟨by simp, ?_⟩
    rw [created.blocks, length_cons]

theorem ZoneInv.whole (zone : ZoneInv s L z) (member : b ∈ L.slabs l z)
    (whole : (s.slab b).itemsFree = (s.slab b).itemsTotal) :
    ∀ a, Slot s z b a → L.place a = .chain b := by
  have slab := zone.slab l b member
  have has : L.Has z b := ⟨l, member⟩
  have sub : L.chain b ⊆ slotList (s.zone z) b := fun a here =>
    mem_slotList.mpr (zone.slots b has a ((zone.chain b has a).mp here))
  have length : (slotList (s.zone z) b).length ≤ (L.chain b).length := by
    rw [← slab.free, whole, slab.total]
    simp [slotList]
  have perm := (subperm_of_subset slab.chain.nodup sub).perm_of_length_le length
  intro a slot
  exact (zone.chain b has a).mp (perm.mem_iff.mpr (mem_slotList.mpr slot))

/-- The layout without a slab whose items were all free. -/
@[local simp] def Layout.dropSlab (L : Layout) (z b : Nat) : Layout :=
  { L with
    slabs := fun l y => if y = z then (L.slabs l y).erase b else L.slabs l y
    place := fun a => if L.place a = .chain b then .nowhere else L.place a }

theorem Layout.dropSlab_place (somewhere : p ≠ .nowhere) (other : p ≠ .chain b) :
    (L.dropSlab z b).place a = p ↔ L.place a = p := by
  simp only [Layout.dropSlab]
  split
  · next here => simp [here, Ne.symm other, Ne.symm somewhere]
  · rfl

theorem Layout.dropSlab_settled : Settled L (L.dropSlab z b) :=
  ⟨⟨rfl, rfl⟩, fun _ _ => Layout.dropSlab_place (by simp) (by simp)⟩

/-- What `uma_slab_release` does to a slab of the partial list. -/
structure Released (z b : Nat) (l₁ l₂ : List Nat) (s s' : Uma) : Prop where
  zone : ∀ y, y ≠ z → s'.zone y = s.zone y
  shape : s'.zone z = { s.zone z with slabCount := (s.zone z).slabCount - 1 }
  zones : s'.zones = s.zones
  zoneCount : s'.zoneCount = s.zoneCount
  cache : s'.cache = s.cache
  blocks : s'.blocks = s.blocks.filter fun c => c.1 != b
  linked : Linked s'.next s'.prev (s'.head .partialSlabs z) (l₁ ++ l₂)
  head : ∀ l y, y ≠ z ∨ l ≠ .partialSlabs → s'.head l y = s.head l y
  links : ∀ x, x ∉ l₁ ++ b :: l₂ → s'.next x = s.next x ∧ s'.prev x = s.prev x
  slab : ∀ x, x ≠ b → s'.slab x = s.slab x
  word : s'.word = s.word

theorem slabRelease_released (zone : ZoneInv s L z)
    (split : L.slabs .partialSlabs z = l₁ ++ b :: l₂) :
    Released z b l₁ l₂ s (s.slabRelease z b) := by
  have slab := zone.slab .partialSlabs b (by simp [split])
  have linked := zone.linked .partialSlabs
  rw [split] at linked
  have first : l₁ = [] → (if s.head .partialSlabs z = some b then SlabList.partialSlabs
      else .fullSlabs) = .partialSlabs := by
    rintro rfl
    rw [linked.head_eq]
    simp
  have unlinking := unlinkSlab_spec linked first
  have relinked := unlinking.relinked
  set s₁ := s.unlinkSlab (if s.head .partialSlabs z = some b then .partialSlabs else .fullSlabs) z b
  have positive : 0 < (s.zone z).slabCount := by
    rw [zone.count, split]
    simp only [length_append, length_cons]
    omega
  have record : (s.slab b).phys + dmapBase = b := slab.phys
  refine ⟨fun y other => ?_, ?_, relinked.zones, relinked.zoneCount, relinked.cache, ?_,
    unlinking.linked, fun l y other => ?_,
    fun x away => ⟨relinked.next x away, relinked.prev x away⟩, fun x other => ?_, relinked.word⟩
  · show update s₁.zone z _ y = s.zone y
    rw [update_of_ne other, relinked.zone]
  · show update s₁.zone z _ z = _
    rw [update_self, relinked.zone, if_pos positive]
  · have same : (update s₁.slab b { s₁.slab b with magic := false } b).phys + dmapBase = b := by
      rw [update_self, relinked.slab]
      exact record
    have filtered : (s.slabRelease z b).blocks = s₁.blocks.filter fun c =>
        c.1 != (update s₁.slab b { s₁.slab b with magic := false } b).phys + dmapBase := rfl
    rw [filtered, same, relinked.blocks]
  · by_cases here : y = z
    · rw [here] at other ⊢
      exact unlinking.head l (other.resolve_left fun absurd => absurd rfl)
    · exact relinked.head l y here
  · show update s₁.slab b _ x = s.slab x
    rw [update_of_ne other, relinked.slab]

theorem slabRelease_spec (inv : Inv s L) (live : L.Live z)
    (split : L.slabs .partialSlabs z = l₁ ++ b :: l₂)
    (whole : (s.slab b).itemsFree = (s.slab b).itemsTotal) :
      Inv (s.slabRelease z b) (L.dropSlab z b) ∧ (L.dropSlab z b).slabs .partialSlabs z = l₁ ++ l₂ ∧
      (L.dropSlab z b).slabs .fullSlabs z = L.slabs .fullSlabs z := by
  have zone := inv.zone z live
  have member : b ∈ L.slabs .partialSlabs z := by simp [split]
  have has : L.Has z b := ⟨_, member⟩
  have released := slabRelease_released zone split
  have free := zone.whole member whole
  have fresh := (split ▸ zone.linked .partialSlabs : Linked _ _ _ (l₁ ++ b :: l₂)).fresh
  set s' := s.slabRelease z b
  set L' := L.dropSlab z b with L'_eq
  have part : L'.slabs .partialSlabs z = l₁ ++ l₂ := by
    simp only [L'_eq, Layout.dropSlab, if_pos, split]
    rw [erase_append_right _ fresh.1, erase_cons_head]
  have full : L'.slabs .fullSlabs z = L.slabs .fullSlabs z := by
    simp only [L'_eq, Layout.dropSlab]
    exact erase_of_not_mem fun there => by cases zone.list_eq there member
  have lists : ∀ l x, x ∈ L'.slabs l z ↔ x ∈ L.slabs l z ∧ x ≠ b := by
    intro l x
    simp only [L'_eq, Layout.dropSlab, if_pos]
    rw [(zone.linked l).nodup.mem_erase_iff, and_comm]
  have has' : ∀ x, L'.Has z x ↔ L.Has z x ∧ x ≠ b := by
    intro x
    simp only [Layout.Has, lists, exists_and_right]
  have blocks : ∀ x n, x ≠ b → (x, n) ∈ s.blocks → (x, n) ∈ s'.blocks := by
    intro x n other member
    rw [released.blocks, mem_filter]
    exact ⟨member, by simpa using other⟩
  have resized : Resized z b s s' L L' :=
    ⟨by rw [released.shape], released.cache, released.slab, blocks, fun _ _ _ _ => by rw [released.word], fun _ _ => rfl,
      fun l x here => .inl ((lists l x).mp here), fun _ _ => Layout.dropSlab_place⟩
  have zone' : ZoneInv s' L' z := by
    refine resized.zoneInv zone (fun l => ?_) ?_ (fun l here => absurd rfl ((lists l b).mp here).2) fun x old => ?_
    · cases l with
      | partialSlabs =>
        rw [part]
        exact released.linked
      | fullSlabs =>
        rw [full, released.head _ _ (.inr (by simp))]
        have away : ∀ x ∈ L.slabs .fullSlabs z, x ∉ l₁ ++ b :: l₂ := by
          rw [← split]
          intro x there here
          cases zone.list_eq there here
        exact (zone.linked .fullSlabs).frame (fun x there => (released.links x (away x there)).1)
          fun x there => (released.links x (away x there)).2
    · have counted : (s'.zone z).slabCount = (s.zone z).slabCount - 1 :=
        congrArg UmaZone.slabCount released.shape
      rw [counted, part, full, zone.count, split]
      simp only [length_append, length_cons]
      omega
    · by_cases here : x = b
      · exact .inr (here ▸ free)
      · exact .inl ((has' x).mpr ⟨old, here⟩)
  have change : Change z s s' L L' := by
    refine ⟨released.zone, by rw [released.shape], by rw [released.shape], released.zones,
      released.zoneCount, fun l y other => released.head l y (.inl other),
      fun y _ => by rw [released.cache], ⟨rfl, rfl⟩,
      fun l y other => by simp [L'_eq, other], fun x here => .inl ((has' x).mp here).1,
      fun y live' other x theirs => ?_, fun y live' other x theirs a _ => by rw [released.word],
      fun a => ?_, fun a concerns => ?_⟩
    · have away : x ≠ b := fun same => other (inv.zone_eq live' live theirs (same ▸ has))
      have links := released.links x fun here =>
        other (inv.zone_eq live' live theirs ⟨.partialSlabs, by rwa [split]⟩)
      exact ⟨released.slab x away, links.1, links.2, rfl, fun n => blocks x n away⟩
    · by_cases here : L.place a = .chain b
      · exact .inr ⟨.inr (by rw [here]; exact has), .inl (by simp [L'_eq, here])⟩
      · exact .inl (by simp [L'_eq, here])
    · cases place' : L'.place a with
      | chain x =>
        rw [place'] at concerns
        refine (has' x).mpr ⟨concerns, ?_⟩
        rintro rfl
        simp only [L'_eq, Layout.dropSlab] at place'
        split at place'
        · cases place'
        · contradiction
      | nowhere | cache | held =>
        rw [place'] at concerns
        exact concerns
  refine ⟨change.inv inv live zone' ?_ fun x here => ?_, part, full⟩
  · rw [released.blocks]
    exact ⟨inv.blocks.disjoint.filter _, fun c here => inv.blocks.aligned c (mem_of_mem_filter here),
      fun c here => inv.blocks.inside c (mem_of_mem_filter here),
      fun c here => inv.blocks.page c (mem_of_mem_filter here)⟩
  · rw [released.blocks, mem_filter] at here
    exact .inl ⟨here.1, fun mine => (has' x.1).mpr ⟨mine, by simpa using here.2⟩⟩

end Otsos.Uma
