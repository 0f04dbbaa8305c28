import Otsos.Foundation.Transition
import Otsos.Uma.Lifecycle

/-! Runs of the slab allocator: calls on any zones, each from whatever CPUs it finds itself on. -/
namespace Otsos.Uma
open Function (update)
open Intrusive
open List

/-- The entry points with their arguments. A caller may also write to an item that it holds. -/
inductive Op where
  | zcreate (size align : UInt64) (flags : UInt32)
  | zalloc (z : Nat) (flags : UInt32)
  | zfree (z item : Nat)
  | prealloc (z : Nat) (items : UInt32)
  | reclaim
  | zdestroy (z cpus : Nat)
  | write (z item : Nat) (word : Option Nat)

/-- The state of a run, the zones that have been created, and the items in the hands of callers,
each with its zone. -/
structure Session where
  state : Uma
  zones : List Nat
  held : List (Nat × Nat)

namespace Session

def step (env : UmaEnv) (r : Session) : Op → Option Session
  | .zcreate size align flags =>
    (r.state.zcreate env size.toNat align.toNat flags).map fun answer =>
      ⟨answer.1, answer.2.toList ++ r.zones, r.held⟩
  | .zalloc z flags =>
    (r.state.zalloc env (some z) flags).map fun answer =>
      ⟨answer.1, r.zones, answer.2.toList.map (z, ·) ++ r.held⟩
  | .zfree z item =>
    some ⟨r.state.zfree env (some z) (some item), r.zones, r.held.erase (z, item)⟩
  | .prealloc z items =>
    (r.state.prealloc env (some z) items).map fun answer => ⟨answer.1, r.zones, r.held⟩
  | .reclaim => (r.state.reclaim env).map fun answer => ⟨answer.1, r.zones, r.held⟩
  | .zdestroy z cpus =>
    (r.state.zdestroy env (some z) cpus).map fun answer =>
      ⟨answer.1, if answer.2 = 0 then r.zones.erase z else r.zones, r.held⟩
  | .write _ item word =>
    some ⟨{ r.state with word := update r.state.word item word }, r.zones, r.held⟩

/-- The zones passed exist; an item passed is in the hands of a caller. -/
def Accepts (r : Session) : Op → Prop
  | .zcreate .. | .reclaim => True
  | .zalloc z _ | .prealloc z _ | .zdestroy z _ => z ∈ r.zones
  | .zfree z item | .write z item _ => (z, item) ∈ r.held

def AcceptedStep (env : UmaEnv) (r r' : Session) : Prop :=
  ∃ op, r.Accepts op ∧ r.step env op = some r'

/-- The zones there are, with the zone of zones. -/
def Zone (r : Session) (z : Nat) : Prop := z = umaZoneStore ∨ z ∈ r.zones

/-- The item is in the hands of a caller; the record of a zone is in the hands of its creator. -/
def Holds (r : Session) (z item : Nat) : Prop :=
  (z, item) ∈ r.held ∨ (z = umaZoneStore ∧ item ∈ r.zones)

end Session

/-- The slabs of the zones, list by list, and their free chains. -/
structure Slabs where
  on : SlabList → Nat → List Nat
  chain : Nat → List Nat

/-- The item is found at this place. -/
def Session.Finds (r : Session) (S : Slabs) (item : Nat) : Place → Prop
  | .nowhere => False
  | .chain b => (∃ z l, r.Zone z ∧ b ∈ S.on l z) ∧ item ∈ S.chain b
  | .cache z cpu => r.Zone z ∧ item ∈ r.state.cache z cpu
  | .held z => r.Holds z item

/-- The links of the zone `z` lead to the slabs of `S` and to the items of their free chains, and
the counters agree with them. -/
structure Represents (s : Uma) (S : Slabs) (z : Nat) : Prop where
  linked : ∀ l, Linked s.next s.prev (s.head l z) (S.on l z)
  chain : ∀ l, ∀ b ∈ S.on l z, Chain s.word (s.slab b).freeHead (S.chain b)
  itemsFree : ∀ l, ∀ b ∈ S.on l z, (s.slab b).itemsFree = (S.chain b).length
  full : ∀ l, ∀ b ∈ S.on l z, l = .fullSlabs ↔ (s.slab b).itemsFree = 0
  slabCount : (s.zone z).slabCount = (S.on .partialSlabs z).length + (S.on .fullSlabs z).length

/-- No item is lost or in two places, and what has been taken from the page allocator are the
slabs. -/
structure Conserved (r : Session) (S : Slabs) : Prop where
  zone : ∀ z, r.Zone z → Represents r.state S z
  place : ∀ z, r.Zone z → ∀ l, ∀ b ∈ S.on l z, ∀ a, Slot r.state z b a →
    ∃ p, (p = .chain b ∨ (∃ cpu, p = .cache z cpu) ∨ p = .held z) ∧ ∀ q, r.Finds S a q ↔ q = p
  chain : ∀ z, r.Zone z → ∀ l, ∀ b ∈ S.on l z, ∀ a ∈ S.chain b, Slot r.state z b a
  once : r.held.Nodup ∧ ∀ z, r.Zone z → ∀ cpu, (r.state.cache z cpu).Nodup
  slabs : ∀ b n, (b, n) ∈ r.state.blocks ↔ ∃ z l, r.Zone z ∧ b ∈ S.on l z ∧
    n = (r.state.zone z).slabBytes
  used : ∀ a z, r.Holds z a ∨ (r.Zone z ∧ ∃ cpu, a ∈ r.state.cache z cpu) →
    ∃ b l, b ∈ S.on l z ∧ Slot r.state z b a ∧ (b, (r.state.zone z).slabBytes) ∈ r.state.blocks

/-- The layout of the items in a session. -/
structure Describes (L : Layout) (r : Session) : Prop where
  inv : Inv r.state L
  zones : L.zones = r.zones
  registry : L.registry = r.zones
  held : ∀ z a, r.Holds z a ↔ L.place a = .held z
  callers : ∀ z a, (z, a) ∈ r.held → z ≠ umaZoneStore
  nodup : r.held.Nodup

namespace Describes

section
variable (desc : Describes L r)
include desc

theorem records : Records L := by
  intro z
  rw [← desc.held, desc.zones]
  constructor
  · rintro (caller | ⟨_, here⟩)
    · exact absurd rfl (desc.callers _ _ caller)
    · exact here
  · exact fun here => .inr ⟨rfl, here⟩

theorem live : L.Live z ↔ r.Zone z := by
  rw [Layout.Live, Session.Zone, desc.zones]

theorem known (here : z ∈ r.zones) : z = umaZoneStore ∨ z ∈ L.registry :=
  .inr (desc.registry ▸ here)

theorem zone_of_held (caller : (z, a) ∈ r.held) : z ∈ r.zones := by
  have place := (desc.held z a).mp (.inl caller)
  obtain ⟨y, live, concerns⟩ := desc.inv.known a (by simp [place])
  rw [place] at concerns
  obtain rfl : z = y := concerns
  exact (desc.live.mp live).resolve_left (desc.callers z a caller)

theorem found (finds : r.Finds ⟨L.slabs, L.chain⟩ a p) : L.place a = p := by
  cases p with
  | nowhere => exact finds.elim
  | chain b =>
    obtain ⟨⟨z, l, live, on⟩, member⟩ := finds
    exact ((desc.inv.zone z (desc.live.mpr live)).chain b ⟨l, on⟩ a).mp member
  | cache z cpu => exact ((desc.inv.zone z (desc.live.mpr finds.1)).cache cpu a).mp finds.2
  | held z => exact (desc.held z a).mp finds

theorem conserved : Conserved r ⟨L.slabs, L.chain⟩ := by
  have zoneInv : ∀ {z}, r.Zone z → ZoneInv r.state L z :=
    fun live => desc.inv.zone _ (desc.live.mpr live)
  refine ⟨fun z live => ?_, fun z live l b on a slot => ?_, fun z live l b on a member => ?_,
    ⟨desc.nodup, fun z live cpu => (zoneInv live).cacheNodup cpu⟩, fun b n => ⟨fun taken => ?_, ?_⟩,
    fun a z used => ?_⟩
  · have zone := zoneInv live
    refine ⟨zone.linked, fun l b on => (zone.slab l b on).chain,
      fun l b on => (zone.slab l b on).free, fun l b on => ?_, zone.count⟩
    rw [(zone.slab l b on).list, (zone.slab l b on).free, length_eq_zero_iff]
  · -- the place is the one of the layout
    have zone := zoneInv live
    have covered := zone.covered b ⟨l, on⟩ a slot
    refine ⟨L.place a, covered.imp id (.imp id id), fun q => ⟨fun finds => (desc.found finds).symm, ?_⟩⟩
    rintro rfl
    rcases covered with chained | ⟨cpu, cached⟩ | held
    · rw [chained]
      exact ⟨⟨z, l, live, on⟩, (zone.chain b ⟨l, on⟩ a).mpr chained⟩
    · rw [cached]
      exact ⟨live, (zone.cache cpu a).mpr cached⟩
    · rw [held]
      exact (desc.held z a).mpr held
  · have zone := zoneInv live
    exact zone.slots b ⟨l, on⟩ a ((zone.chain b ⟨l, on⟩ a).mp member)
  · obtain ⟨z, live, l, on⟩ := desc.inv.owned _ taken
    refine ⟨z, l, desc.live.mp live, on, ?_⟩
    have block := ((desc.inv.zone z live).slab l b on).block
    have page := desc.inv.blocks.page _ taken
    have page' := desc.inv.blocks.page _ block
    simp only [umaPageSize] at page page'
    exact congrArg Prod.snd (desc.inv.blocks.eq_of_overlap (a := b) taken block (Nat.le_refl b)
      (by omega) (Nat.le_refl b) (by omega))
  · rintro ⟨z, l, live, on, rfl⟩
    exact ((zoneInv live).slab l b on).block
  · have live : r.Zone z := by
      rcases used with held | ⟨live, _⟩
      · rcases held with caller | record
        · exact .inr (desc.zone_of_held caller)
        · exact .inl record.1
      · exact live
    have zone := zoneInv live
    have place : L.place a = .held z ∨ ∃ cpu, L.place a = .cache z cpu := by
      rcases used with held | ⟨_, cpu, cached⟩
      · exact .inl ((desc.held z a).mp held)
      · exact .inr ⟨cpu, (zone.cache cpu a).mp cached⟩
    obtain ⟨b, ⟨l, on⟩, slot⟩ := zone.home a place
    exact ⟨b, l, on, slot, (zone.slab l b on).block⟩

theorem settled (inv : Inv s' L') (settled : Settled L L') :
    Describes L' { r with state := s' } := by
  refine ⟨inv, settled.1.1.trans desc.zones, settled.1.2.trans desc.registry, fun z a => ?_,
    desc.callers, desc.nodup⟩
  rw [settled.2]
  exact desc.held z a

end

end Describes

section
variable (env : UmaEnv) (desc : Describes L r)
include desc

theorem zcreate_describes (size align : UInt64) (flags : UInt32) :
    ∃ r' L', r.step env (.zcreate size align flags) = some r' ∧ Describes L' r' := by
  obtain ⟨s', result, L', computed, inv, made⟩ :=
    zcreate_spec env size.toNat align.toNat flags desc.inv desc.records
  refine ⟨⟨s', result.toList ++ r.zones, r.held⟩, L', by simp [Session.step, computed], ?_⟩
  cases result with
  | none => exact desc.settled inv made
  | some z =>
    obtain ⟨zones, registry, -, held⟩ := made
    refine ⟨inv, by rw [zones, desc.zones]; rfl, by rw [registry, desc.registry]; rfl,
      fun y a => ?_, desc.callers, desc.nodup⟩
    rw [held, ← desc.held]
    simp only [Session.Holds, Option.toList_some, singleton_append, mem_cons]
    tauto

theorem zalloc_describes (here : z ∈ r.zones) (flags : UInt32) :
    ∃ r' L', r.step env (.zalloc z flags) = some r' ∧ Describes L' r' := by
  obtain ⟨s', result, L', computed, inv, handed⟩ := zalloc_spec env flags desc.inv (desc.known here)
  refine ⟨⟨s', r.zones, result.toList.map (z, ·) ++ r.held⟩, L', by simp [Session.step, computed],
    ?_⟩
  cases result with
  | none => exact desc.settled inv handed
  | some item =>
    have notStore : z ≠ umaZoneStore := fun same => desc.inv.store (by rw [desc.zones, ← same]; exact here)
    have fresh : (z, item) ∉ r.held := fun caller =>
      handed.fresh item (by simp) z ((desc.held z item).mp (.inl caller))
    refine ⟨inv, handed.same.1.trans desc.zones, handed.same.2.trans desc.registry, fun y a => ?_,
      fun y a caller => ?_, nodup_cons.mpr ⟨fresh, desc.nodup⟩⟩
    · rw [handed.held, ← desc.held]
      simp only [Session.Holds, Option.toList_some, map_cons, map_nil, singleton_append,
        mem_cons, Prod.mk.injEq, not_mem_nil]
      tauto
    · rcases mem_cons.mp caller with new | old
      · rw [(Prod.mk.inj new).1]
        exact notStore
      · exact desc.callers y a old

theorem zfree_describes (caller : (z, item) ∈ r.held) :
    ∃ r' L', r.step env (.zfree z item) = some r' ∧ Describes L' r' := by
  obtain ⟨L', inv, same, moved⟩ := zfree_spec env desc.inv (desc.known (desc.zone_of_held caller))
    ((desc.held z item).mp (.inl caller))
  refine ⟨_, L', rfl, inv, same.1.trans desc.zones, same.2.trans desc.registry, fun y a => ?_,
    fun y a member => desc.callers y a (mem_of_mem_erase member), desc.nodup.erase _⟩
  have notStore := desc.callers z item caller
  rw [moved, ← desc.held, Session.Holds, desc.nodup.mem_erase_iff, mem_singleton]
  simp only [ne_eq, Prod.mk.injEq]
  constructor
  · rintro (⟨away, here⟩ | ⟨rfl, record⟩)
    · exact ⟨.inl here, away⟩
    · exact ⟨.inr ⟨rfl, record⟩, fun mine => notStore mine.1.symm⟩
  · rintro ⟨here | record, away⟩
    · exact .inl ⟨away, here⟩
    · exact .inr record

theorem zdestroy_describes (here : z ∈ r.zones) (cpus : Nat) :
    ∃ r' L', r.step env (.zdestroy z cpus) = some r' ∧ Describes L' r' := by
  have record : L.place z = .held umaZoneStore := (desc.held _ z).mp (.inr ⟨rfl, here⟩)
  obtain ⟨s', result, L', computed, inv, destroyed⟩ :=
    zdestroy_spec env cpus desc.inv (desc.registry ▸ here) record
  refine ⟨⟨s', if result = 0 then r.zones.erase z else r.zones, r.held⟩,
    L', by simp [Session.step, computed], ?_⟩
  rcases destroyed with ⟨rfl, settled⟩ | ⟨rfl, zones, registry, held⟩
  · exact desc.settled inv settled
  have nodup : r.zones.Nodup := desc.registry ▸ desc.inv.registry.nodup
  rw [if_pos rfl]
  refine ⟨inv, ?_, by rw [registry, desc.registry], fun y a => ?_, desc.callers, desc.nodup⟩
  · rw [zones, desc.zones, nodup.erase_eq_filter]
    exact filter_congr fun y => by by_cases same : y = z <;> simp [same]
  · rw [held, ← desc.held, Session.Holds, nodup.mem_erase_iff]
    constructor
    · rintro (caller | ⟨rfl, away, member⟩)
      · exact ⟨.inl caller, fun mine => desc.callers y a caller mine.1⟩
      · exact ⟨.inr ⟨rfl, member⟩, fun mine => away mine.2⟩
    · rintro ⟨caller | ⟨rfl, member⟩, away⟩
      · exact .inl caller
      · exact .inr ⟨rfl, fun same => away ⟨rfl, same⟩, member⟩

theorem step_describes (accepted : r.Accepts op) :
    ∃ r' L', r.step env op = some r' ∧ Describes L' r' := by
  cases op with
  | zcreate size align flags => exact zcreate_describes env desc size align flags
  | zalloc z flags => exact zalloc_describes env desc accepted flags
  | zfree z item => exact zfree_describes env desc accepted
  | prealloc z items =>
    obtain ⟨s', _, L', computed, inv, settled⟩ := prealloc_spec env items desc.inv (desc.known accepted)
    exact ⟨⟨s', r.zones, r.held⟩, L', by simp [Session.step, computed], desc.settled inv settled⟩
  | reclaim =>
    obtain ⟨s', _, L', computed, inv, settled⟩ := reclaim_spec env desc.inv
    exact ⟨⟨s', r.zones, r.held⟩, L', by simp [Session.step, computed], desc.settled inv settled⟩
  | zdestroy z cpus => exact zdestroy_describes env desc accepted cpus
  | write z item word =>
    refine ⟨_, L, rfl, desc.settled ?_ (.refl L)⟩
    refine desc.inv.congr (fun _ => .refl _) (fun _ => rfl) (fun _ => rfl) rfl rfl rfl rfl rfl rfl rfl rfl ?_
    intro a b chained
    have held := (desc.held z item).mp (.inl accepted)
    have away : a ≠ item := by
      rintro rfl
      cases held.symm.trans chained
    exact Function.update_of_ne away _ _

end

theorem run_describes {s₀ : Uma} (blocks : s₀.blocks = [])
    (run : Relation.ReflTransGen (Session.AcceptedStep env) ⟨s₀.init, [], []⟩ r) :
    ∃ L, Describes L r := by
  induction run with
  | refl =>
    refine ⟨.empty, init_spec s₀ blocks, rfl, rfl, fun z a => ?_, by simp, nodup_nil⟩
    simp [Session.Holds, Layout.empty]
  | tail _ stepped ih =>
    obtain ⟨_, accepted, computed⟩ := stepped
    obtain ⟨L, desc⟩ := ih
    obtain ⟨_, L', computed', desc'⟩ := step_describes env desc accepted
    rw [computed, Option.some.injEq] at computed'
    exact ⟨L', computed' ▸ desc'⟩

/-- In every run from any memory contents, whichever runs of free pages the page allocator answers
with and on whatever CPUs the calls find themselves, the items are conserved, and the next accepted
call does not fault. -/
theorem run_conserved (env : UmaEnv) (s₀ : Uma) (r : Session) (blocks : s₀.blocks = [])
    (run : Relation.ReflTransGen (Session.AcceptedStep env) ⟨s₀.init, [], []⟩ r) :
    (∃ S, Conserved r S) ∧ ∀ op, r.Accepts op → ∃ r', r.step env op = some r' := by
  obtain ⟨L, desc⟩ := run_describes blocks run
  refine ⟨⟨_, desc.conserved⟩, fun op accepted => ?_⟩
  obtain ⟨r', _, computed, _⟩ := step_describes env desc accepted
  exact ⟨r', computed⟩

section Concrete

instance (r : Session) : (op : Op) → Decidable (r.Accepts op)
  | .zcreate .. | .reclaim => isTrue trivial
  | .zalloc z _ | .prealloc z _ | .zdestroy z _ => inferInstanceAs (Decidable (z ∈ r.zones))
  | .zfree z item | .write z item _ => inferInstanceAs (Decidable ((z, item) ∈ r.held))

/-- The third request for pages fails; the calls move between three CPUs. -/
def movingEnv : UmaEnv where
  pages n := if n = 2 then none else some (0x100000 * (n + 1))
  cpu n := n % 3

def blank : Uma where
  zone _ := default
  head _ _ := none
  cache _ _ := []
  slab _ := default
  next _ := none
  prev _ := none
  word _ := none
  blocks := []
  zones := none
  zoneCount := 0
  ready := false
  reclaimBusy := false
  requests := 0
  lookups := 0

/-- The records of the two zones that the run below creates. -/
def firstZone : Nat := dmapBase + 0x500040
def secondZone : Nat := dmapBase + 0xb00040

def mixedRun : List Op :=
  [.zcreate 512 8 0, .zalloc firstZone 0, .zalloc firstZone 0, .zcreate 64 8 0,
    .prealloc secondZone 10, .zfree firstZone (dmapBase + 0x600640), .reclaim,
    .zdestroy secondZone 1]

theorem run_conserved_mixedRun : ∃ r : Session,
    Relation.ReflTransGen (Session.AcceptedStep movingEnv) ⟨blank.init, [], []⟩ r ∧
      r.zones = [firstZone] ∧ r.held.length = 1 ∧ r.state.blocks.length = 10 ∧
      (∃ S, Conserved r S) ∧ ∀ op, r.Accepts op → ∃ r', r.step movingEnv op = some r' := by
  obtain ⟨r, reached, data⟩ : ∃ r : Session,
      Relation.ReflTransGen (Session.AcceptedStep movingEnv) ⟨blank.init, [], []⟩ r ∧
        decide (r.zones = [firstZone] ∧ r.held.length = 1 ∧ r.state.blocks.length = 10) :=
    Transition.Reaches.exists_of_exec mixedRun (by decide +kernel)
  obtain ⟨zones, held, blocks⟩ := of_decide_eq_true data
  exact ⟨r, reached, zones, held, blocks, run_conserved movingEnv blank r rfl reached⟩

end Concrete

end Otsos.Uma
