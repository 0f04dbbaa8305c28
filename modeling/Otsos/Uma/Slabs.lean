import Otsos.Uma.Links

/-! What taking an item from a slab, giving one back, making a slab and releasing one do to the
invariant. -/
namespace Otsos.Uma
open Function (update update_of_ne update_self)
open Intrusive
open List

/-- The lists of the zone after the free chain of the slab `b` has changed: the slab is on the full
list exactly if the chain is empty now, the other slabs stay on theirs. -/
structure Resorted (z b : Nat) (empty : Prop) (s s' : Uma) (L L' : Layout) : Prop where
  head : ∀ l y, y ≠ z → s'.head l y = s.head l y
  links : ∀ x, ¬L.Has z x → s'.next x = s.next x ∧ s'.prev x = s.prev x
  slabs : ∀ l y, y ≠ z → L'.slabs l y = L.slabs l y
  linked : ∀ l, Linked s'.next s'.prev (s'.head l z) (L'.slabs l z)
  lists : ∀ l x, x ∈ L'.slabs l z ↔ (x ∈ L.slabs l z ∧ x ≠ b) ∨ (x = b ∧ (l = .fullSlabs ↔ empty))
  count : (L'.slabs .partialSlabs z).length + (L'.slabs .fullSlabs z).length =
    (L.slabs .partialSlabs z).length + (L.slabs .fullSlabs z).length

/-- An item goes from the free chain of its slab to a caller or back. -/
structure Transfer (z b item : Nat) (s s' : Uma) (L L' : Layout) : Prop
    extends Resorted z b (L'.chain b = []) s s' L L' where
  zone : s'.zone = s.zone
  cache : s'.cache = s.cache
  blocks : s'.blocks = s.blocks
  zones : s'.zones = s.zones ∧ s'.zoneCount = s.zoneCount
  same : L'.zones = L.zones ∧ L'.registry = L.registry
  slab : ∀ x, x ≠ b → s'.slab x = s.slab x
  record : (s'.slab b).magic = (s.slab b).magic ∧ (s'.slab b).zone = (s.slab b).zone ∧
    (s'.slab b).phys = (s.slab b).phys ∧ (s'.slab b).itemsTotal = (s.slab b).itemsTotal
  word : ∀ a, a ≠ item → s'.word a = s.word a
  others : ∀ x, x ≠ b → L'.chain x = L.chain x
  chain : Chain s'.word (s'.slab b).freeHead (L'.chain b)
  free : (s'.slab b).itemsFree = (L'.chain b).length
  members : ∀ a, a ∈ L'.chain b ↔ L'.place a = .chain b
  place : ∀ a, a ≠ item → L'.place a = L.place a
  before : L.place item = .chain b ∨ L.place item = .held z
  after : L'.place item = .chain b ∨ L'.place item = .held z

namespace Transfer

section
variable (transfer : Transfer z b item s s' L L')
include transfer

theorem has (old : L.Has z b) : L'.Has z x ↔ L.Has z x := by
  have cases : L'.chain b = [] ∨ L'.chain b ≠ [] := em _
  constructor
  · rintro ⟨l, member⟩
    rcases (transfer.lists l x).mp member with ⟨kept, _⟩ | ⟨rfl, _⟩
    · exact ⟨l, kept⟩
    · exact old
  · rintro ⟨l, member⟩
    by_cases here : x = b
    · rcases cases with empty | filled
      · exact ⟨.fullSlabs, (transfer.lists _ x).mpr (.inr ⟨here, by simp [empty]⟩)⟩
      · exact ⟨.partialSlabs, (transfer.lists _ x).mpr (.inr ⟨here, by simp [filled]⟩)⟩
    · exact ⟨l, (transfer.lists l x).mpr (.inl ⟨member, here⟩)⟩

theorem concerns (old : L.Has z b) : L'.Concerns z p ↔ L.Concerns z p := by
  cases p with
  | chain x => exact transfer.has old
  | nowhere | cache | held => exact Iff.rfl

theorem slot : Slot s' y x a ↔ Slot s y x a := by
  rw [Slot, Slot, transfer.zone]

theorem word_of_chain (inv : Inv s L) (live' : L.Live y)
    (has : L.Has y x) (other : x ≠ b) : ∀ a ∈ L.chain x, s'.word a = s.word a := by
  intro a member
  apply transfer.word
  rintro rfl
  have place := ((inv.zone y live').chain x has a).mp member
  rcases transfer.before with here | here
  · exact other (Place.chain.inj (place.symm.trans here))
  · cases place.symm.trans here

theorem zoneInv (inv : Inv s L) (live : L.Live z) (old : L.Has z b) (slot : Slot s z b item) :
    ZoneInv s' L' z := by
  have zone := inv.zone z live
  have unmoved : ∀ {p}, p ≠ .chain b → p ≠ .held z → ∀ a, L'.place a = p ↔ L.place a = p := by
    intro p notChain notHeld a
    by_cases here : a = item
    · subst here
      constructor
      · rintro rfl
        exact (transfer.after.elim notChain notHeld).elim
      · rintro rfl
        exact (transfer.before.elim notChain notHeld).elim
    · rw [transfer.place a here]
  refine ⟨?_, transfer.linked, fun l x member => ?_, ?_, fun x has a => ?_, fun x has a here => ?_,
    fun cpu a => ?_, ?_, ?_, fun a here => ?_, fun x has a slot' => ?_⟩
  · rw [transfer.zone]
    exact zone.geometry
  · rcases (transfer.lists l x).mp member with ⟨kept, other⟩ | ⟨rfl, list⟩
    · apply (zone.slab l x kept).frame (transfer.slab x other) (by rw [transfer.zone])
        (transfer.others x other) (transfer.word_of_chain inv live ⟨l, kept⟩ other)
      intro n member
      rwa [transfer.blocks]
    · obtain ⟨_, _, slab⟩ := inv.slabInv live old
      obtain ⟨magic, owner, phys, total⟩ := transfer.record
      exact ⟨magic.trans slab.magic, owner.trans slab.zone, by rw [phys]; exact slab.phys,
        by rw [total, transfer.zone]; exact slab.total, transfer.chain, transfer.free, list,
        by rw [transfer.blocks, transfer.zone]; exact slab.block⟩
  · rw [transfer.zone, transfer.count]
    exact zone.count
  · by_cases other : x = b
    · rw [other]
      exact transfer.members a
    · rw [transfer.others x other, unmoved (fun same => other (Place.chain.inj same)) (by simp)]
      exact zone.chain x ((transfer.has old).mp has) a
  · rw [transfer.slot]
    by_cases this : a = item
    · have home : x = b := by
        rcases transfer.after with place | place
        · exact Place.chain.inj (here.symm.trans (this ▸ place))
        · cases here.symm.trans (this ▸ place)
      rw [this, home]
      exact slot
    · rw [transfer.place a this] at here
      exact zone.slots x ((transfer.has old).mp has) a here
  · rw [transfer.cache, unmoved (by simp) (by simp)]
    exact zone.cache cpu a
  · rw [transfer.cache]
    exact zone.cacheNodup
  · rw [transfer.cache]
    exact zone.cacheSize
  · by_cases this : a = item
    · exact ⟨b, (transfer.has old).mpr old, this ▸ transfer.slot.mpr slot⟩
    · rw [transfer.place a this] at here
      obtain ⟨x, has, slot⟩ := zone.home a here
      exact ⟨x, (transfer.has old).mpr has, transfer.slot.mpr slot⟩
  · rw [transfer.has old] at has
    rw [transfer.slot] at slot'
    by_cases this : a = item
    · obtain rfl : x = b := inv.slab_eq live live has old slot' (this ▸ slot)
      rw [this]
      exact transfer.after.elim .inl fun held => .inr (.inr held)
    · rw [transfer.place a this]
      exact zone.covered x has a slot'

theorem change (inv : Inv s L) (live : L.Live z) (old : L.Has z b) : Change z s s' L L' := by
  obtain ⟨zones, zoneCount⟩ := transfer.zones
  have concerns : ∀ {p}, p = .chain b ∨ p = .held z → L.Concerns z p := by
    rintro p (rfl | rfl)
    · exact old
    · rfl
  refine ⟨fun y _ => by rw [transfer.zone], by rw [transfer.zone], by rw [transfer.zone], zones,
    zoneCount, transfer.head, fun y _ => by rw [transfer.cache], transfer.same, transfer.slabs,
    fun x has => .inl ((transfer.has old).mp has), fun y live' other x has => ?_,
    fun y live' other x has => ?_, fun a => ?_, fun a => (transfer.concerns old).mpr⟩
  · have away : x ≠ b := by
      rintro rfl
      exact other (inv.zone_eq live' live has old)
    have links := transfer.links x fun mine => other (inv.zone_eq live' live has mine)
    exact ⟨transfer.slab x away, links.1, links.2, transfer.others x away,
      fun n _ => by rwa [transfer.blocks]⟩
  · apply transfer.word_of_chain inv live' has
    rintro rfl
    exact other (inv.zone_eq live' live has old)
  · by_cases this : a = item
    · rw [this]
      exact .inr ⟨.inr (concerns transfer.before), .inr ((transfer.concerns old).mpr (concerns transfer.after))⟩
    · exact .inl (transfer.place a this)

theorem inv (inv : Inv s L) (live : L.Live z) (old : L.Has z b) (slot : Slot s z b item) :
    Inv s' L' := by
  apply (transfer.change inv live old).inv inv live (transfer.zoneInv inv live old slot)
  · rw [transfer.blocks]
    exact inv.blocks
  · intro x member
    rw [transfer.blocks] at member
    exact .inl ⟨member, (transfer.has old).mpr⟩

end

end Transfer

/-- Give an item its new place and its slab its new chain. -/
def Layout.setItem (L : Layout) (b item : Nat) (chain : List Nat) (p : Place) : Layout :=
  { L with chain := update L.chain b chain, place := update L.place item p }

/-- Move a slab from its list to the front of the other list of the zone. -/
@[local simp] def Layout.moveSlab (L : Layout) (source : SlabList) (z b : Nat) : Layout :=
  { L with slabs := fun l y =>
      if y = z then if l = source then (L.slabs l y).erase b else b :: L.slabs l y else L.slabs l y }

theorem ZoneInv.chain_nodup (zone : ZoneInv s L z) (has : L.Has z b) : (L.chain b).Nodup := by
  obtain ⟨l, member⟩ := has
  exact (zone.slab l b member).chain.nodup

theorem ZoneInv.list_eq (zone : ZoneInv s L z) (member : b ∈ L.slabs l z)
    (member' : b ∈ L.slabs l' z) : l = l' := by
  have same := (zone.slab l b member).list.trans (zone.slab l' b member').list.symm
  cases l <;> cases l' <;> simp_all

theorem Resorted.stay (zone : ZoneInv s L z) (member : b ∈ L.slabs l z)
    (list : l = .fullSlabs ↔ empty) (head : s'.head = s.head) (next : s'.next = s.next)
    (prev : s'.prev = s.prev) (slabs : L'.slabs = L.slabs) : Resorted z b empty s s' L L' := by
  refine ⟨fun l y _ => by rw [head], fun x _ => ⟨by rw [next], by rw [prev]⟩,
    fun l y _ => by rw [slabs], fun l => ?_, fun l' x => ?_, by rw [slabs]⟩
  · rw [next, prev, head, slabs]
    exact zone.linked l
  · rw [slabs]
    by_cases here : x = b
    · subst here
      simp only [ne_eq, not_true_eq_false, and_false, true_and, false_or]
      constructor
      · intro member'
        rwa [zone.list_eq member' member]
      · intro
        have same : l' = l := by
          cases l <;> cases l' <;> simp_all
        rwa [same]
    · simp [here]

theorem Resorted.move (s₁ : Uma) (zone : ZoneInv s L z)
    (member : b ∈ L.slabs source z) (different : target ≠ source)
    (list : target = .fullSlabs ↔ empty) (head₁ : s₁.head = s.head) (next₁ : s₁.next = s.next)
    (prev₁ : s₁.prev = s.prev) (moved : s₂ = s₁.moveSlab source target z b)
    (head : s'.head = s₂.head) (next : s'.next = s₂.next) (prev : s'.prev = s₂.prev)
    (slabs : L'.slabs = (L.moveSlab source z b).slabs) : Resorted z b empty s s' L L' := by
  obtain ⟨l₁, l₂, split⟩ := append_of_mem member
  have linked : Linked s₁.next s₁.prev (s₁.head source z) (l₁ ++ b :: l₂) := by
    rw [head₁, next₁, prev₁, ← split]
    exact zone.linked source
  have linked' : Linked s₁.next s₁.prev (s₁.head target z) (L.slabs target z) := by
    rw [head₁, next₁, prev₁]
    exact zone.linked target
  have apart : ∀ x ∈ l₁ ++ b :: l₂, x ∉ L.slabs target z := by
    rw [← split]
    intro x here there
    exact different (zone.list_eq there here)
  have moving := moveSlab_spec different linked linked' apart
  rw [← moved] at moving
  have relinked := moving.relinked
  have erased : (L.slabs source z).erase b = l₁ ++ l₂ := by
    rw [split, erase_append_right _ linked.fresh.1, erase_cons_head]
  have source_eq : L'.slabs source z = l₁ ++ l₂ := by
    rw [slabs, ← erased]
    simp
  have target_eq : L'.slabs target z = b :: L.slabs target z := by
    rw [slabs]
    simp [different]
  have either : ∀ l, l = source ∨ l = target := by
    intro l
    cases l <;> cases source <;> cases target <;> simp_all
  refine ⟨fun l y other => ?_, fun x foreign => ?_, fun l y other => ?_, fun l => ?_, fun l x => ?_,
    ?_⟩
  · rw [head, relinked.head l y other, head₁]
  · have away : x ∉ (l₁ ++ b :: l₂) ++ L.slabs target z := by
      rw [← split, mem_append]
      exact fun inList => foreign (inList.elim (fun here => ⟨_, here⟩) fun here => ⟨_, here⟩)
    rw [next, prev, relinked.next x away, relinked.prev x away, next₁, prev₁]
    exact ⟨rfl, rfl⟩
  · rw [slabs]
    simp [other]
  · rw [head, next, prev]
    rcases either l with rfl | rfl
    · rw [source_eq]
      exact moving.source
    · rw [target_eq]
      exact moving.target
  · have inSource : x ∈ l₁ ++ l₂ ↔ x ∈ L.slabs source z ∧ x ≠ b := by
      rw [← erased, (zone.linked source).nodup.mem_erase_iff, and_comm]
    rcases either l with rfl | rfl
    · have off : ¬(l = .fullSlabs ↔ empty) := by
        cases l <;> cases target <;> simp_all
      rw [source_eq, inSource]
      simp [off]
    · rw [target_eq]
      simp only [list]
      by_cases here : x = b
      · simp [here]
      · simp [here]
  · cases source <;> cases target <;> simp_all <;> omega

/-- The state but for the slabs and the words of the items. -/
def Rest (s s' : Uma) : Prop :=
  s'.zone = s.zone ∧ s'.cache = s.cache ∧ s'.blocks = s.blocks ∧ s'.zones = s.zones ∧
    s'.zoneCount = s.zoneCount

theorem moveSlab_rest (s : Uma) (source target : SlabList) (z b : Nat) : let s' := s.moveSlab source target z b
    Rest s s' ∧ s'.slab = s.slab ∧ s'.word = s.word := by
  simp only [moveSlab, unlinkSlab, linkFront]
  split <;> split <;> split <;> exact ⟨⟨rfl, rfl, rfl, rfl, rfl⟩, rfl, rfl⟩

/-- The zones are the same. -/
def SameZones (L L' : Layout) : Prop := L'.zones = L.zones ∧ L'.registry = L.registry

/-- Callers of the zone have got the items, which no one held; nothing else has changed hands. -/
structure Obtained (L L' : Layout) (z : Nat) (items : List Nat) : Prop where
  same : SameZones L L'
  fresh : ∀ a ∈ items, ∀ y, L.place a ≠ .held y
  held : ∀ y a, L'.place a = .held y ↔ L.place a = .held y ∨ (y = z ∧ a ∈ items)

/-- Callers of the zone have given the items back. -/
def Returned (L L' : Layout) (z : Nat) (items : List Nat) : Prop :=
  SameZones L L' ∧ ∀ y a, L'.place a = .held y ↔ L.place a = .held y ∧ ¬(y = z ∧ a ∈ items)

/-- The slab has a new chain, and the item is at `p`. -/
theorem Resorted.inv (resorted : Resorted z b (chain = []) s s' L L') (inv : Inv s L)
    (live : L.Live z) (has : L.Has z b) (slot : Slot s z b item) (rest : Rest s s')
    (slab : s'.slab = update s.slab b { s.slab b with freeHead := first, itemsFree := chain.length })
    (word : ∀ a, a ≠ item → s'.word a = s.word a) (linked : Chain s'.word first chain)
      (same : SameZones L L')
    (chains : L'.chain = update L.chain b chain) (places : L'.place = update L.place item p)
    (members : ∀ a, a ∈ chain ↔ update L.place item p a = .chain b)
    (before : L.place item = .chain b ∨ L.place item = .held z)
      (after : p = .chain b ∨ p = .held z) : Inv s' L' := by
  have own : s'.slab b = { s.slab b with freeHead := first, itemsFree := chain.length } := by
    rw [slab, update_self]
  have chain' : L'.chain b = chain := by rw [chains, update_self]
  refine Transfer.inv (b := b) ⟨by rwa [chain'], rest.1, rest.2.1, rest.2.2.1, rest.2.2.2, same,
    fun x other => by rw [slab, update_of_ne other], by rw [own]; exact ⟨rfl, rfl, rfl, rfl⟩, word,
    fun x other => by rw [chains, update_of_ne other], by rwa [own, chain'], by rw [own, chain'],
    by rwa [chain', places], fun a other => by rw [places, update_of_ne other], before, ?_⟩ inv live
    has slot
  rwa [places, update_self]

theorem slabPop_spec (inv : Inv s L) (live : L.Live z) (part : b ∈ L.slabs .partialSlabs z) :
    ∃ item s' L', s.slabPop z b = some (s', some item) ∧ Inv s' L' ∧ Obtained L L' z [item] := by
  have zone := inv.zone z live
  have has : L.Has z b := ⟨_, part⟩
  have slab := zone.slab _ b part
  have nodup := zone.chain_nodup has
  obtain ⟨item, chain, chain_eq⟩ : ∃ item chain, L.chain b = item :: chain :=
    exists_cons_of_ne_nil fun empty => by cases slab.list.mpr empty
  have links := slab.chain
  have free := slab.free
  rw [chain_eq] at links free nodup
  obtain ⟨freeHead, rest⟩ := links
  have place : L.place item = .chain b := (zone.chain b has item).mp (by simp [chain_eq])
  obtain ⟨fresh, _⟩ := nodup_cons.mp nodup
  set s₁ := s.setSlab b fun h =>
    { h with freeHead := s.word item, itemsFree := h.itemsFree - 1 } with s₁_eq
  have record : s₁.slab = update s.slab b { s.slab b with freeHead := s.word item, itemsFree := chain.length } := by
    simp [s₁_eq, setSlab, free]
  have free' : (s₁.slab b).itemsFree = 0 ↔ chain = [] := by
    rw [record, update_self, length_eq_zero_iff]
  have popped : s.slabPop z b = some
      (if (s₁.slab b).itemsFree = 0 then s₁.moveSlab .partialSlabs .fullSlabs z b else s₁, some item) := by
    simp [slabPop, free, freeHead, s₁_eq]
  obtain ⟨s₂, L₂, done, resorted, ⟨rest', slabs, word⟩, same, chains, places⟩ : ∃ s₂ L₂,
      s.slabPop z b = some (s₂, some item) ∧ Resorted z b (chain = []) s s₂ L L₂ ∧
      (Rest s s₂ ∧ s₂.slab = s₁.slab ∧ s₂.word = s.word) ∧ SameZones L L₂ ∧
      L₂.chain = update L.chain b chain ∧ L₂.place = update L.place item (.held z) := by
    by_cases empty : chain = []
    · rw [if_pos (free'.mpr empty)] at popped
      exact ⟨_, (L.setItem b item chain (.held z)).moveSlab .partialSlabs z b, popped,
        .move s₁ zone part (by simp) (by simp [empty]) rfl rfl rfl rfl rfl rfl rfl rfl,
        moveSlab_rest s₁ .., ⟨rfl, rfl⟩, rfl, rfl⟩
    · rw [if_neg fun none => empty (free'.mp none)] at popped
      exact ⟨_, L.setItem b item chain (.held z), popped, .stay zone part (by simp [empty]) rfl rfl rfl rfl,
        ⟨⟨rfl, rfl, rfl, rfl, rfl⟩, rfl, rfl⟩, ⟨rfl, rfl⟩, rfl, rfl⟩
  refine ⟨item, s₂, L₂, done, resorted.inv inv live has (zone.slots b has item place) rest'
    (slabs.trans record) (fun _ _ => by rw [word]) (word ▸ rest) same chains places (fun a => ?_)
    (.inl place) (.inr rfl), same, by simp [place], fun y a => ?_⟩
  · by_cases this : a = item
    · subst this
      simp [fresh]
    · rw [update_of_ne this, ← zone.chain b has a, chain_eq]
      simp [this]
  · rw [places]
    by_cases this : a = item
    · subst this
      simp [place, eq_comm]
    · simp [this]

theorem slabPush_spec (inv : Inv s L) (live : L.Live z) (holds : L.place item = .held z) :
    ∃ L', Inv (s.slabPush z (s.slabOf z item) item) L' ∧ Returned L L' z [item] := by
  have zone := inv.zone z live
  obtain ⟨b, has, slot⟩ := zone.home item (.inl holds)
  rw [inv.slabOf_eq live has slot]
  obtain ⟨l, member, slab⟩ := inv.slabInv live has
  set s₁ := if (s.slab b).itemsFree = 0 then s.moveSlab .fullSlabs .partialSlabs z b
    else s with s₁_eq
  obtain ⟨rest, slabs, word⟩ : Rest s s₁ ∧ s₁.slab = s.slab ∧ s₁.word = s.word := by
    rw [s₁_eq]
    split
    · exact moveSlab_rest s .fullSlabs .partialSlabs z b
    · exact ⟨⟨rfl, rfl, rfl, rfl, rfl⟩, rfl, rfl⟩
  set s₂ := s.slabPush z b item with s₂_eq
  have record : s₂.slab =
      update s.slab b { s.slab b with freeHead := some item, itemsFree := (item :: L.chain b).length } := by
    rw [s₂_eq, slabPush, ← s₁_eq]
    simp [setSlab, slabs, slab.free]
  have words : s₂.word = update s.word item (s.slab b).freeHead := by
    rw [s₂_eq, slabPush, ← s₁_eq]
    simp [setSlab, slabs, word]
  have fresh : item ∉ L.chain b := by
    rw [zone.chain b has, holds]
    simp
  have free : (s.slab b).itemsFree = 0 ↔ l = .fullSlabs := by
    rw [slab.free, length_eq_zero_iff, slab.list]
  obtain ⟨L₂, resorted, same, chains, places⟩ : ∃ L₂,
      Resorted z b (item :: L.chain b = []) s s₂ L L₂ ∧ SameZones L L₂ ∧
      L₂.chain = update L.chain b (item :: L.chain b) ∧
      L₂.place = update L.place item (.chain b) := by
    by_cases full : l = .fullSlabs
    · subst full
      rw [if_pos (free.mpr rfl)] at s₁_eq
      exact ⟨(L.setItem b item (item :: L.chain b) (.chain b)).moveSlab .fullSlabs z b,
        .move s zone member (by simp) (by simp) rfl rfl rfl s₁_eq rfl rfl rfl rfl, ⟨rfl, rfl⟩, rfl, rfl⟩
    · rw [if_neg fun none => full (free.mp none)] at s₁_eq
      have head : s₁.head = s.head ∧ s₁.next = s.next ∧ s₁.prev = s.prev := by rw [s₁_eq]; exact ⟨rfl, rfl, rfl⟩
      exact ⟨L.setItem b item (item :: L.chain b) (.chain b),
        .stay zone member (by simp [full]) head.1 head.2.1 head.2.2 rfl, ⟨rfl, rfl⟩, rfl, rfl⟩
  refine ⟨L₂, resorted.inv inv live has slot rest record
    (fun a other => by rw [words, update_of_ne other]) ⟨rfl, ?_⟩ same chains places (fun a => ?_)
    (.inr holds) (.inl rfl), same, fun y a => ?_⟩
  · rw [words, update_self]
    exact slab.chain.frame fun a here => update_of_ne (ne_of_mem_of_not_mem here fresh) _ _
  · by_cases this : a = item
    · simp [this]
    · simp [this, zone.chain b has]
  · rw [places]
    by_cases this : a = item
    · subst this
      simp [holds, eq_comm]
    · simp [this]

end Otsos.Uma
