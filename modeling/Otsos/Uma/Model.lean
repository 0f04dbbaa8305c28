import Otsos.Foundation.Loop
import Otsos.Phys.Page

/-! The slab allocator (`uma.c`). A zone, a slab and an item are named by their addresses; each link
is a map of its own. Every answer of the page allocator, and the CPU on which each look-up of a
CPU's cache finds itself, is given by the caller, by the number of the request. -/
namespace Otsos

open Function (update)

-- `UMA_*` and `PCPU_MAX_CPUS`
def umaSlabMaxOrder : Nat := 3
def umaSlabMinItems : Nat := 4
def umaPageSize : Nat := 4096
def umaCacheItems : Nat := 6
def umaRefillItems : Nat := umaCacheItems / 2 + 1
def umaZoneMax : Nat := 64
def umaAlignCache : Nat := 64
def umaItemMin : Nat := 8
def umaSlabHdr : Nat := 64
def umaItemMax : Nat := (2 ^ umaSlabMaxOrder * umaPageSize - umaSlabHdr) / umaSlabMinItems
def pcpuMaxCpus : Nat := 32
def dmapBase : Nat := 0xFFFF800000000000

/-- `M_ZERO` -/
def mZero : UInt32 := 0x100

/-- The two lists of slabs that a zone has. -/
inductive SlabList where
  | partialSlabs
  | fullSlabs
deriving DecidableEq

/-- `struct uma_slab` without its links. -/
structure UmaSlab where
  /-- `magic == UMA_MAGIC` -/
  magic : Bool
  zone : Nat
  freeHead : Option Nat
  (phys itemsTotal itemsFree : Nat)
deriving DecidableEq, Inhabited

/-- `struct uma_zone` without its slab lists, its caches, its name and its lock. -/
structure UmaZone where
  (itemSize alignment : Nat)
  flags : UInt32
  (order slabBytes itemsPerSlab allocs frees fails slabCount reserve : Nat)
  alive : Bool
  registryNext : Option Nat
deriving DecidableEq, Inhabited

/-- `sizeof(struct uma_zone)`: the members up to the caches take 192 bytes. -/
def sizeofUmaZone : Nat := 192 + 64 * pcpuMaxCpus

/-- What the rest of the machine answers: the physical address of the run of pages for the n-th
request of `vm_page_alloc_contig`, and the number of the CPU at the n-th `uma_cache_of`. -/
structure UmaEnv where
  pages : Nat → Option Nat
  cpu : Nat → Nat

/-- The memory of the allocator. A cache is its stack of items, the last one first; `word` is the
first word of an item; `blocks` are the page runs taken and not returned, as base and size. -/
structure Uma where
  zone : Nat → UmaZone
  head : SlabList → Nat → Option Nat
  cache : Nat → Nat → List Nat
  slab : Nat → UmaSlab
  (next prev word : Nat → Option Nat)
  blocks : List (Nat × Nat)
  zones : Option Nat
  zoneCount : Nat
  (ready reclaimBusy : Bool)
  (requests lookups : Nat)

namespace Uma
variable (env : UmaEnv) (s : Uma)

/-- The address of `uma_zone_store`, the zone of zones; it is in no slab. -/
def umaZoneStore : Nat := 0

def setZone (z : Nat) (f : UmaZone → UmaZone) : Uma :=
  { s with zone := update s.zone z (f (s.zone z)) }

def setSlab (b : Nat) (f : UmaSlab → UmaSlab) : Uma :=
  { s with slab := update s.slab b (f (s.slab b)) }

def setHead (l : SlabList) (z : Nat) (h : Option Nat) : Uma :=
  { s with head := update s.head l (update (s.head l) z h) }

def setCache (z cpu : Nat) (items : List Nat) : Uma :=
  { s with cache := update s.cache z (update (s.cache z) cpu items) }

/-- The slab of an item; the size of a slab is a power of two. -/
def slabOf (z item : Nat) : Nat := item - item % (s.zone z).slabBytes

/-- A run of pages that the page allocator may answer with: aligned to its size, in the physical
address space, and sharing no byte with a run already taken. -/
def Fresh (bytes base : Nat) : Prop :=
  base % bytes = 0 ∧ dmapBase < base ∧ base + bytes ≤ 2 ^ 64 ∧ ∀ b ∈ s.blocks, base + bytes ≤ b.1 ∨
    b.1 + b.2 ≤ base

instance (bytes base : Nat) : Decidable (Fresh s bytes base) :=
  inferInstanceAs (Decidable (_ ∧ _ ∧ _ ∧ ∀ b ∈ s.blocks, _))

/-- `vm_page_alloc_contig`: null or a run of free pages; here with the address in the direct map. -/
def vmPageAllocContig (bytes : Nat) : Uma × Option Nat :=
  let asked := { s with requests := s.requests + 1 }
  match env.pages s.requests with
  | none => (asked, none)
  | some phys =>
    if Fresh s bytes (phys + dmapBase) then
      ({ asked with blocks := (phys + dmapBase, bytes) :: s.blocks }, some (phys + dmapBase))
    else (asked, none)

def vmPageFreeContig (base : Nat) : Uma :=
  { s with blocks := s.blocks.filter fun b => b.1 != base }

/-- Put the items `i`, `i - 1`, …, 1 of a slab in front of its free chain. -/
def chainItems (b itemSize : Nat) : Nat → Uma → Uma
  | 0, s => s
  | i + 1, s =>
    let item := b + umaSlabHdr + i * itemSize
    chainItems b itemSize i
      ({ s with word := update s.word item (s.slab b).freeHead }.setSlab b fun h =>
        { h with freeHead := some item })

/-- Link a slab at the front of a list whose members do not include it. -/
def linkFront (l : SlabList) (z b : Nat) : Uma :=
  let s := { s with next := update s.next b (s.head l z) }
  let s := match s.head l z with
    | none => s
    | some h => { s with prev := update s.prev h (some b) }
  s.setHead l z (some b)

def slabCreate (z : Nat) : Uma × Option Nat :=
  match s.vmPageAllocContig env (s.zone z).slabBytes with
  | (s, none) => (s, none)
  | (s, some b) =>
    let total := (s.zone z).itemsPerSlab
    let s := { s with next := update s.next b none, prev := update s.prev b none }
    let s := s.setSlab b fun _ => ⟨true, z, none, b - dmapBase, total, total⟩
    let s := chainItems b (s.zone z).itemSize total s
    let s := s.linkFront .partialSlabs z b
    (s.setZone z fun r => { r with slabCount := r.slabCount + 1 }, some b)

/-- Take a slab off a list: its neighbours, or the head of the list, are joined. -/
def unlinkSlab (l : SlabList) (z b : Nat) : Uma :=
  let s := match s.prev b with
    | some p => { s with next := update s.next p (s.next b) }
    | none => s.setHead l z (s.next b)
  match s.next b with
  | some n => { s with prev := update s.prev n (s.prev b) }
  | none => s

/-- Move a slab from one list of its zone to the front of the other. -/
def moveSlab (source target : SlabList) (z b : Nat) : Uma :=
  let s := s.unlinkSlab source z b
  let s := { s with prev := update s.prev b none }
  s.linkFront target z b

def slabPop (z b : Nat) : Option (Uma × Option Nat) :=
  if (s.slab b).itemsFree = 0 then some (s, none)
  else do
    let item ← (s.slab b).freeHead
    let s := s.setSlab b fun h => { h with freeHead := s.word item, itemsFree := h.itemsFree - 1 }
    let s := if (s.slab b).itemsFree = 0 then s.moveSlab .partialSlabs .fullSlabs z b else s
    some (s, some item)

def slabPush (z b item : Nat) : Uma :=
  let s := if (s.slab b).itemsFree = 0 then s.moveSlab .fullSlabs .partialSlabs z b else s
  let s := { s with word := update s.word item (s.slab b).freeHead }
  s.setSlab b fun h => { h with freeHead := some item, itemsFree := h.itemsFree + 1 }

/-- A slab without predecessor is the head of the partial list or of the full one. -/
def slabRelease (z b : Nat) : Uma :=
  let l := if s.head .partialSlabs z = some b then .partialSlabs else .fullSlabs
  let s := s.unlinkSlab l z b
  let s := s.setZone z fun r =>
    if r.slabCount > 0 then { r with slabCount := r.slabCount - 1 } else r
  let s := s.setSlab b fun h => { h with magic := false }
  s.vmPageFreeContig ((s.slab b).phys + dmapBase)

/-- `uma_zone_free_items`, from a slab of the partial list on. -/
def zoneFreeItems (s : Uma) : Nat → Option Nat → Nat → Option Nat
  | 0, _, _ => none
  | _ + 1, none, n => some n
  | fuel + 1, some b, n => s.zoneFreeItems fuel (s.next b) (u32 (n + (s.slab b).itemsFree))

/-- The loop of `uma_zone_reclaim_empty`. -/
def reclaimFrom (z : Nat) : Nat → Option Nat → Nat → Nat → Uma → Option (Uma × Nat)
  | 0, _, _, _, _ => none
  | _ + 1, none, _, bytes, s => some (s, bytes)
  | fuel + 1, some b, freeItems, bytes, s =>
    let next := s.next b
    let total := (s.slab b).itemsTotal
    if (s.slab b).itemsFree ≠ total then reclaimFrom z fuel next freeItems bytes s
    else if freeItems < total ∨ freeItems - total < (s.zone z).reserve then
      reclaimFrom z fuel next freeItems bytes s
    else
      reclaimFrom z fuel next (freeItems - total) (u64 (bytes + (s.zone z).slabBytes))
        (s.slabRelease z b)

def zoneReclaimEmpty (z : Nat) : Option (Uma × Nat) := do
  let fuel := (s.zone z).slabCount + 1
  let freeItems ← s.zoneFreeItems fuel (s.head .partialSlabs z) 0
  reclaimFrom z fuel (s.head .partialSlabs z) freeItems 0 s

def drainItems (z : Nat) (items : List Nat) : Uma :=
  items.foldl (fun s item => s.slabPush z (s.slabOf z item) item) s

/-- `uma_cache_of`: the number of the current CPU, or null for one without a cache. -/
def cacheOf : Uma × Option Nat :=
  ({ s with lookups := s.lookups + 1 },
    if env.cpu s.lookups ≥ pcpuMaxCpus then none else some (env.cpu s.lookups))

def zoneDrainLocal (z : Nat) : Uma :=
  match s.cacheOf env with
  | (s, none) => s
  | (s, some cpu) => (s.setCache z cpu []).drainItems z (s.cache z cpu).reverse

/-- The loop of `uma_reclaim` over the registry. -/
def reclaimZones (env : UmaEnv) : Nat → Option Nat → Nat → Uma → Option (Uma × Nat)
  | 0, _, _, _ => none
  | _ + 1, none, bytes, s => some (s, bytes)
  | fuel + 1, some z, bytes, s =>
    if (s.zone z).alive then do
      let (s, freed) ← (s.zoneDrainLocal env z).zoneReclaimEmpty z
      reclaimZones env fuel (s.zone z).registryNext (u64 (bytes + freed)) s
    else reclaimZones env fuel (s.zone z).registryNext bytes s

def reclaim : Option (Uma × Nat) :=
  if s.reclaimBusy then some (s, 0)
  else do
    let (s, bytes) ← reclaimZones env (s.zoneCount + 1) s.zones 0 { s with reclaimBusy := true }
    some ({ s with reclaimBusy := false }, bytes)

/-- The first slab of the partial list, or a new one. -/
def pickSlab (z : Nat) : Uma × Option Nat :=
  match s.head .partialSlabs z with
  | none => s.slabCreate env z
  | some b => (s, some b)

/-- The loop of `uma_refill` for `want` more items. When no slab can be made, `retry` says what is
done first: reclaim and go on, or give up. -/
def refillLoop (env : UmaEnv) (z : Nat) (retry : Nat → List Nat → Uma → Option (Uma × List Nat)) :
    Nat → List Nat → Uma → Option (Uma × List Nat)
  | 0, items, s => some (s, items)
  | want + 1, items, s =>
    match s.pickSlab env z with
    | (s, none) => retry (want + 1) items s
    | (s, some b) => do
      match ← s.slabPop z b with
      | (s, none) => some (s, items)
      | (s, some item) => refillLoop env z retry want (items ++ [item]) s

def refillFail (z : Nat) (_ : Nat) (items : List Nat) (s : Uma) : Option (Uma × List Nat) :=
  some (s.setZone z fun r => { r with fails := u64 (r.fails + 1) }, items)

def refillRetry (z : Nat) (want : Nat) (items : List Nat) (s : Uma) :
    Option (Uma × List Nat) := do
  let (s, _) ← s.reclaim env
  refillLoop env z (refillFail z) want items s

def refill (z want : Nat) : Option (Uma × List Nat) :=
  refillLoop env z (refillRetry env z) want [] s

/-- Put items on a cache while there is room; the rest is left over. -/
def fillCache : List Nat → List Nat → List Nat × List Nat
  | [], stack => (stack, [])
  | item :: items, stack =>
    if stack.length ≥ umaCacheItems then (stack, item :: items) else fillCache items (item :: stack)

/-- The items that were not asked for go to the cache of the CPU that the call is on by now. -/
def stashItems (z : Nat) (items : List Nat) : Uma :=
  match s.cacheOf env with
  | (s, none) => s.drainItems z items
  | (s, some cpu) =>
    let (stack, left) := fillCache items (s.cache z cpu)
    (s.setCache z cpu stack).drainItems z left

def finishAlloc (z : Nat) (flags : UInt32) (item : Nat) : Uma :=
  let s := if flags &&& mZero ≠ 0 ∨ (s.zone z).flags &&& mZero ≠ 0 then
    { s with word := update s.word item none } else s
  s.setZone z fun r => { r with allocs := u64 (r.allocs + 1) }

/-- The slow path: refill, hand out the last item and stash the others. -/
def zallocRefill (z : Nat) (flags : UInt32) :
    Option (Uma × Option Nat) := do
  let (s, items) ← s.refill env z umaRefillItems
  match items.getLast? with
  | none => some (s, none)
  | some item => some ((s.stashItems env z items.dropLast).finishAlloc z flags item, some item)

def zalloc (zone : Option Nat) (flags : UInt32) :
    Option (Uma × Option Nat) :=
  match zone with
  | none => some (s, none)
  | some z =>
    if (s.zone z).alive then
      match s.cacheOf env with
      | (s, none) => s.zallocRefill env z flags
      | (s, some cpu) =>
        match s.cache z cpu with
        | [] => s.zallocRefill env z flags
        | item :: stack => some ((s.setCache z cpu stack).finishAlloc z flags item, some item)
    else some (s, none)

/-- The checks of `uma_zfree` on the address of an item. -/
def isItem (z item : Nat) : Bool :=
  let b := s.slabOf z item
  let offset := item - b
  (s.slab b).magic && (s.slab b).zone == z && umaSlabHdr ≤ offset &&
    offset - umaSlabHdr < (s.slab b).itemsTotal * (s.zone z).itemSize &&
    (offset - umaSlabHdr) % (s.zone z).itemSize == 0

def zfree (zone item : Option Nat) : Uma :=
  match zone, item with
  | some z, some item =>
    if (s.zone z).alive ∧ s.isItem z item then
      match s.cacheOf env with
      | (s, none) => s.drainItems z [item]
      | (s, some cpu) =>
        let stack := s.cache z cpu
        let s := if stack.length < umaCacheItems then s.setCache z cpu (item :: stack)
          else
            let n := umaRefillItems - 1
            (s.setCache z cpu (stack.drop n)).drainItems z ((stack.take n).reverse ++ [item])
        s.setZone z fun r => { r with frees := u64 (r.frees + 1) }
    else s
  | _, _ => s

/-- `uma_zone_empty`, from a slab of the partial list on. -/
def zoneEmpty (s : Uma) (z : Nat) : Nat → Option Nat → Option Bool
  | 0, _ => none
  | _ + 1, none => some (s.head .fullSlabs z).isNone
  | fuel + 1, some b =>
    if (s.slab b).itemsFree ≠ (s.slab b).itemsTotal then some false
    else s.zoneEmpty z fuel (s.next b)

/-- The loop of `uma_registry_remove` behind the head of the registry. -/
def registryUnlink (z : Nat) : Nat → Option Nat → Uma → Option Uma
  | 0, _, _ => none
  | _ + 1, none, s => some s
  | fuel + 1, some y, s =>
    if (s.zone y).registryNext = some z then
      some (s.setZone y fun r => { r with registryNext := (s.zone z).registryNext })
    else registryUnlink z fuel (s.zone y).registryNext s

/-- Redirect the link that leads to a zone. -/
def registryUnhook (z : Nat) : Option Uma :=
  if s.zones = some z then some { s with zones := (s.zone z).registryNext }
  else registryUnlink z (s.zoneCount + 1) s.zones s

def registryRemove (z : Nat) : Option Uma :=
  (s.registryUnhook z).map fun s =>
    let s := s.setZone z fun r => { r with registryNext := none }
    { s with zoneCount := if s.zoneCount > 0 then s.zoneCount - 1 else s.zoneCount }

/-- The loop of `uma_zdestroy` over the partial list. -/
def releaseFrom (z : Nat) : Nat → Option Nat → Uma → Option Uma
  | 0, _, _ => none
  | _ + 1, none, s => some s
  | fuel + 1, some b, s => releaseFrom z fuel (s.next b) (s.slabRelease z b)

/-- The second half of `uma_zdestroy`, for a zone found empty. -/
def zdestroyEmpty (z : Nat) : Option Uma := do
  let fuel := (s.zone z).slabCount + 1
  let s ← (s.setZone z fun r => { r with alive := false }).registryRemove z
  let s ← releaseFrom z fuel (s.head .partialSlabs z) s
  let s := (s.setHead .partialSlabs z none).setHead .fullSlabs z none
  some (s.zfree env (some umaZoneStore) (some z))

/-- `cpus` is what `smp_sched_cpu_count` answers; the result is 0 or -1. -/
def zdestroy (zone : Option Nat) (cpus : Nat) : Option (Uma × Int) :=
  match zone with
  | none => some (s, -1)
  | some z =>
    if z = umaZoneStore ∨ cpus ≠ 1 then some (s, -1)
    else
      let s := s.zoneDrainLocal env z
      match s.zoneEmpty z ((s.zone z).slabCount + 1) (s.head .partialSlabs z) with
      | none => none
      | some false => some (s, -1)
      | some true =>
        if (s.zone z).alive then (s.zdestroyEmpty env z).map fun s => (s, 0) else some (s, -1)

/-- The loop of `uma_prealloc`. -/
def preallocLoop (env : UmaEnv) (z items : Nat) : Nat → Nat → Uma → Option (Uma × Nat)
  | 0, _, _ => none
  | fuel + 1, got, s =>
    if got < items then
      match s.slabCreate env z with
      | (s, none) => some (s, got)
      | (s, some _) => preallocLoop env z items fuel (u32 (got + (s.zone z).itemsPerSlab)) s
    else some (s, got)

/-- The loop ends for want of pages at the latest: there are fewer than `2 ^ 35` in the direct
map. -/
def prealloc (zone : Option Nat) (items : UInt32) : Option (Uma × Nat) :=
  match zone with
  | none => some (s, 0)
  | some z =>
    if (s.zone z).alive ∧ items ≠ 0 ∧ (s.zone z).itemsPerSlab ≠ 0 then do
      let (s, got) ← preallocLoop env z items.toNat (2 ^ 35 + 1) 0 s
      some (if got > (s.zone z).reserve then s.setZone z fun r => { r with reserve := got } else s, got)
    else some (s, 0)

/-- Double the size of a slab while `more` says so. -/
def growWhile (more : Nat → Nat → Bool) : Nat → Nat → Nat → Nat × Nat
  | 0, bytes, order => (bytes, order)
  | fuel + 1, bytes, order =>
    if more bytes order then growWhile more fuel (bytes * 2) (order + 1) else (bytes, order)

/-- The first loop of `uma_zone_geometry`: until an item fits. -/
def growToFit (itemSize : Nat) : Nat → Nat → Nat → Nat × Nat :=
  growWhile fun bytes order => (bytes - umaSlabHdr) / itemSize < 1 && order < umaSlabMaxOrder

/-- The second loop: for more items, but not beyond a page. -/
def growForItems (itemSize : Nat) : Nat → Nat → Nat → Nat × Nat :=
  growWhile fun bytes order => (bytes - umaSlabHdr) / itemSize < umaSlabMinItems &&
    order < umaSlabMaxOrder && bytes * 2 ≤ umaPageSize

/-- `uma_zone_geometry`; both loops stop at the highest order. -/
def zoneGeometry (r : UmaZone) (itemSize : Nat) : Option UmaZone :=
  let (bytes, order) := growToFit itemSize umaSlabMaxOrder umaPageSize 0
  if (bytes - umaSlabHdr) / itemSize < 1 then none
  else
    let (bytes, order) := growForItems itemSize umaSlabMaxOrder bytes order
    some { r with
      order := order, slabBytes := bytes, itemsPerSlab := u32 ((bytes - umaSlabHdr) / itemSize) }

/-- The members of a zone after `memset`. -/
def zeroZone (itemSize alignment : Nat) (flags : UInt32) : UmaZone :=
  ⟨itemSize, alignment, flags, 0, 0, 0, 0, 0, 0, 0, 0, false, none⟩

/-- Overwrite the whole record of a zone. -/
def resetZone (z : Nat) (r : UmaZone) : Uma :=
  let s := (s.setHead .partialSlabs z none).setHead .fullSlabs z none
  { s with zone := update s.zone z r, cache := update s.cache z fun _ => [] }

/-- `UMA_ALIGN_UP` in 64 bits; the alignment is a power of two. -/
def umaAlignUp (v align : Nat) : Nat := u64 (v + align - 1) / align * align

def umaAlignOk (align : Nat) : Bool := align != 0 && align &&& (align - 1) == 0

/-- `uma_init`, with the bootstrap of the zone of zones. -/
def init : Uma :=
  let itemSize := umaAlignUp sizeofUmaZone umaAlignCache
  let r := zeroZone itemSize umaAlignCache 0
  let s := { s with zones := none, zoneCount := 0 }
  match zoneGeometry r itemSize with
  | none => { s.resetZone umaZoneStore r with ready := false }
  | some r => { s.resetZone umaZoneStore { r with alive := true } with ready := true }

def zcreate (size align : Nat) (flags : UInt32) :
    Option (Uma × Option Nat) :=
  if !s.ready || size < umaItemMin || !umaAlignOk align then some (s, none)
  else
    let align := if align < 8 then 8 else align
    let itemSize := umaAlignUp size align
    if itemSize < size ∨ itemSize > umaItemMax then some (s, none)
    else do
      match ← s.zalloc env (some umaZoneStore) mZero with
      | (s, none) => some (s, none)
      | (s, some z) =>
        let r := zeroZone itemSize align flags
        match zoneGeometry r itemSize with
        | none => some ((s.resetZone z r).zfree env (some umaZoneStore) (some z), none)
        | some r =>
          let s := s.resetZone z { r with alive := true }
          if s.zoneCount ≥ umaZoneMax then
            some (s.zfree env (some umaZoneStore) (some z), none)
          else
            let s := s.setZone z fun r => { r with registryNext := s.zones }
            some ({ s with zones := some z, zoneCount := s.zoneCount + 1 }, some z)

end Uma

end Otsos
