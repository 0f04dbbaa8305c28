import Otsos.Foundation.Loop
import Otsos.Phys.Page

/-! The binary buddy allocator over the page array. Every function returns `none` exactly when the
code would leave the page array; loops follow the source, with the trip count or a bound on it as
the recursion argument. -/
namespace Otsos.VmPhys

open Function (update)
variable (s : VmPhys)

def freelistInsert (page order : Nat) : Option VmPhys := do
  s.access page
  let head := s.freelists order
  let s := { s with
    plinksPrev := update s.plinksPrev page none
    plinksNext := update s.plinksNext page head }
  let s ← match head with
    | none => pure s
    | some h => do
      s.access h
      pure { s with plinksPrev := update s.plinksPrev h (some page) }
  return { s with
    freelists := update s.freelists order (some page)
    order := update s.order page order
    flags := update s.flags page { s.flags page with allocated := false, free := true }
    orderBlocks := update s.orderBlocks order (s.orderBlocks order + 1) }

def freelistRemove (page : Nat) : Option VmPhys := do
  s.access page
  let order := s.order page
  if order ≥ nFreeOrder then
    return s
  let s ← match s.plinksPrev page with
    | some q => do
      s.access q
      pure { s with plinksNext := update s.plinksNext q (s.plinksNext page) }
    | none => pure { s with freelists := update s.freelists order (s.plinksNext page) }
  let s ← match s.plinksNext page with
    | some q => do
      s.access q
      pure { s with plinksPrev := update s.plinksPrev q (s.plinksPrev page) }
    | none => pure s
  return { s with
    plinksNext := update s.plinksNext page none
    plinksPrev := update s.plinksPrev page none
    order := update s.order page freeOrderNone
    orderBlocks := update s.orderBlocks order (s.orderBlocks order - 1) }

def segOf (page : Nat) : Option (Option VmPhysSeg) := do
  s.access page
  return s.segs[s.segind page]?

/-- The loop of `vm_phys_block_valid` from page `idx + i` on. -/
def blockValidFrom (s : VmPhys) (idx : Nat) : (i count : Nat) → Option Bool
  | _, 0 => some true
  | i, count + 1 => do
    s.access (idx + i)
    if !(s.flags (idx + i)).free || (s.flags (idx + i)).excluded then
      return false
    if i ≠ 0 ∧ s.order (idx + i) ≠ freeOrderNone then
      return false
    blockValidFrom s idx (i + 1) count

def blockValid (pfn order segind : Nat) : Option Bool :=
  if order ≥ nFreeOrder then some false
  else match s.segs[segind]? with
    | none => some false
    | some seg =>
      let run := 2 ^ order
      let segPfn := seg.start / pageSize
      if pfn % run ≠ 0 then some false
      else if pfn < segPfn ∨ pfn + run > segPfn + seg.pageTotal then some false
      else s.blockValidFrom (seg.firstPage + (pfn - segPfn)) 0 run

/-- The index is computed in 64-bit arithmetic: a frame before the segment wraps around. -/
def pageAt (seg : VmPhysSeg) (pfn : Nat) : Nat :=
  u64 (seg.firstPage + (2 ^ 64 + pfn - seg.start / pageSize))

/-- The stores of one iteration of `vm_phys_mark_alloc`. -/
def allocPage (i : Nat) : VmPhys :=
  { s with
    flags := update s.flags i { s.flags i with free := false, zero := false, allocated := true }
    order := update s.order i freeOrderNone
    plinksNext := update s.plinksNext i none
    plinksPrev := update s.plinksPrev i none }

def markAlloc (page run : Nat) : Option VmPhys :=
  Loop.forUp (fun i s => do
    s.access (page + i)
    return s.allocPage (page + i)) 0 run s

/-- The two stores before a half goes back on its list. -/
def resetHalf (page : Nat) : Option VmPhys := do
  s.access page
  return { s with
    order := update s.order page freeOrderNone
    flags := update s.flags page { s.flags page with free := true } }

/-- The loop of `vm_phys_split_to` from order `order` down to `dst`. -/
def splitLoop (seg : VmPhysSeg) (pfn dst : Nat) : (order : Nat) → VmPhys → Option VmPhys
  | 0, s => some s
  | order + 1, s =>
    if order + 1 > dst then do
      let buddy := pageAt seg (pfn + 2 ^ order)
      let s ← s.resetHalf buddy
      let s ← s.freelistInsert buddy order
      splitLoop seg pfn dst order s
    else some s

def splitTo (page src dst : Nat) : Option VmPhys := do
  match ← s.segOf page with
  | none => return s
  | some seg => splitLoop seg (s.pfn page) dst src s

/-- The body of `vm_phys_alloc_order` once a block of order `k` has been found at `page`. -/
def takeBlock (page k order : Nat) : Option VmPhys := do
  let s ← s.freelistRemove page
  let s ← if k > order then s.splitTo page k order else some s
  { s with freePages := s.freePages - 2 ^ order }.markAlloc page (2 ^ order)

/-- The search of `vm_phys_alloc_order` over the orders `k, k + 1, …` (`count` of them). -/
def allocFrom (s : VmPhys) (order : Nat) : (k count : Nat) → Option (Option Nat × VmPhys)
  | _, 0 => some (none, s)
  | k, count + 1 =>
    match s.freelists k with
    | none => allocFrom s order (k + 1) count
    | some page => do
      let s ← s.takeBlock page k order
      return (some page, s)

def allocOrder (order : Int) : Option (Option Nat × VmPhys) :=
  if order < 0 ∨ order ≥ nFreeOrder then some (none, s)
  else s.allocFrom order.toNat order.toNat (nFreeOrder - order.toNat)

/-- The coalescing loop of `vm_phys_free_block`; `left` is `VM_NFREEORDER - 1 - order`. -/
def coalesce (seg : VmPhysSeg) : (left : Nat) → (page pfn order : Nat) → VmPhys →
    Option (Nat × Nat × VmPhys)
  | 0, page, _, order, s => some (page, order, s)
  | left + 1, page, pfn, order, s => do
    let buddyPfn := pfn ^^^ 2 ^ order
    s.access page
    if !(← s.blockValid buddyPfn order (s.segind page)) then
      return (page, order, s)
    let buddy := pageAt seg buddyPfn
    s.access buddy
    if s.order buddy ≠ order then
      return (page, order, s)
    let s ← s.freelistRemove buddy
    if buddyPfn < pfn then coalesce seg left buddy buddyPfn (order + 1) s
    else coalesce seg left page pfn (order + 1) s

/-- The stores of one iteration of the first loop of `vm_phys_free_block`. -/
def releasePage (i : Nat) : VmPhys :=
  { s with
    flags := update s.flags i { s.flags i with allocated := false, free := true }
    order := update s.order i freeOrderNone
    object := update s.object i none
    pindex := update s.pindex i 0 }

def markFree (seg : VmPhysSeg) (pfn run : Nat) : Option VmPhys :=
  Loop.forUp (fun i s => do
    s.access (pageAt seg (pfn + i))
    return s.releasePage (pageAt seg (pfn + i))) 0 run s

def freeBlock (page order : Nat) : Option VmPhys := do
  match ← s.segOf page with
  | none => return s
  | some seg =>
    if order ≥ nFreeOrder then
      return s
    let pfn := s.pfn page
    let s ← { s with freePages := s.freePages + 2 ^ order }.markFree seg pfn (2 ^ order)
    let (page, order, s) ← coalesce seg (nFreeOrder - 1 - order) page pfn order s
    s.freelistInsert page order

/-- The search for the head of the block that contains frame `target`: `k, k + 1, …`. -/
def headSearch (s : VmPhys) (seg : VmPhysSeg) (target : Nat) :
    (k count : Nat) → Option (Option (Nat × Nat × Nat))
  | _, 0 => some none
  | k, count + 1 => do
    let headPfn := target / 2 ^ k * 2 ^ k
    let other := pageAt seg headPfn
    s.access other
    if s.order other = k then
      return some (other, k, headPfn)
    headSearch s seg target (k + 1) count

/-- Head, order and frame of the block around `page`: the page itself if it carries an order. -/
def findHead (seg : VmPhysSeg) (page : Nat) : Option (Option (Nat × Nat × Nat)) :=
  if s.order page ≠ freeOrderNone then some (some (page, s.order page, s.pfn page))
  else s.headSearch seg (s.pfn page) 1 (nFreeOrder - 1)

/-- The halving loop: the halves that do not contain `target` go back on the free lists. -/
def carve (seg : VmPhysSeg) (target : Nat) : (order cur : Nat) → VmPhys → Option VmPhys
  | 0, _, s => some s
  | order + 1, cur, s => do
    let half := 2 ^ order
    let (other, cur) := if target ≥ cur + half then (pageAt seg cur, cur + half)
      else (pageAt seg (cur + half), cur)
    let s ← s.resetHalf other
    let s ← s.freelistInsert other order
    carve seg target order cur s

/-- The part shared by `vm_phys_free_isolate` and `vm_phys_steal_free`: take the page out of the
free block that contains it. The inner `none` is the early return. -/
def detach (page : Nat) : Option (Option VmPhys) := do
  match ← s.segOf page with
  | none => return none
  | some seg =>
    if !(s.flags page).free then
      return none
    match ← s.findHead seg page with
    | none => return none
    | some (head, order, headPfn) =>
      let target := s.pfn page
      let s ← s.freelistRemove head
      let s ← carve seg target order headPfn s
      return some s

def freeIsolate (page : Nat) : Option VmPhys := do
  match ← s.detach page with
  | none => return s
  | some s =>
    let s ← s.markAlloc page 1
    return { s with
      flags := update s.flags page { s.flags page with allocated := false, excluded := true }
      freePages := s.freePages - 1 }

/-- The returned flag is `true` for the code's result `0`. -/
def stealFree (page : Nat) : Option (Bool × VmPhys) := do
  match ← s.detach page with
  | none => return (false, s)
  | some s =>
    let s ← s.markAlloc page 1
    return (true, { s with freePages := s.freePages - 1 })

/-- `vm_phys_init` followed by `vm_phys_set_page_array`; the array has arbitrary contents. -/
def init (array : VmPhys) (count : Nat) : VmPhys :=
  { array with
    pageTotal := count
    segs := []
    freelists := fun _ => none
    orderBlocks := fun _ => 0
    freePages := 0 }

/-- The stores that initialise a page record. -/
def initPage (i physAddr segind : Nat) : VmPhys :=
  { s with
    physAddr := update s.physAddr i physAddr
    object := update s.object i none
    pindex := update s.pindex i 0
    plinksNext := update s.plinksNext i none
    plinksPrev := update s.plinksPrev i none
    qlinksNext := update s.qlinksNext i none
    qlinksPrev := update s.qlinksPrev i none
    refCount := update s.refCount i 0
    wireCount := update s.wireCount i 0
    flags := update s.flags i { excluded := true }
    order := update s.order i freeOrderNone
    segind := update s.segind i segind
    queue := update s.queue i 0 }

/-- The flag is `true` for the code's result `0`. -/
def addSeg (start stop : Nat) : Option (Bool × VmPhys) :=
  let start := pageFloor (u64 (start + (pageSize - 1)))
  let stop := pageFloor stop
  if stop ≤ start ∨ s.segs.length ≥ physMaxSeg then some (false, s)
  else
    let pages := (stop - start) / pageSize
    let last := s.segs.getLast?
    if last.any fun g => decide (start < g.stop) then some (false, s)
    else if s.pageTotal ≠ 0 ∧ last.any fun g =>
        decide (g.firstPage + g.pageTotal + pages > s.pageTotal) then some (false, s)
    else
      let firstPage := match last with
        | none => 0
        | some g => g.firstPage + g.pageTotal
      let seg : VmPhysSeg := ⟨start, stop, firstPage, pages⟩
      do
        let s ← Loop.forUp (fun i s => do
          s.access (seg.firstPage + i)
          return s.initPage (seg.firstPage + i) (start + i * pageSize) s.segs.length) 0 pages s
        return (true, { s with segs := s.segs ++ [seg] })

/-- The body of the inner loop of `vm_phys_exclude`. -/
def excludePage (seg : VmPhysSeg) (addr : Nat) (s : VmPhys) : Option VmPhys := do
  let i := pageAt seg (addr / pageSize)
  s.access i
  let s ← if (s.flags i).free then s.freeIsolate i else some s
  return { s with
    flags := update s.flags i { excluded := true }
    order := update s.order i freeOrderNone
    refCount := update s.refCount i 0
    wireCount := update s.wireCount i 0 }

/-- The part of `[start, stop)` that falls into one segment. -/
def excludeSeg (start stop : Nat) (s : VmPhys) (seg : VmPhysSeg) : Option VmPhys :=
  let lo := max start seg.start
  let hi := min stop seg.stop
  if hi ≤ lo then some s
  else Loop.forUp (fun i => excludePage seg (lo + i * pageSize)) 0
    ((hi - lo + (pageSize - 1)) / pageSize) s

def exclude (start stop : Nat) : Option VmPhys :=
  let start := pageFloor start
  let stop := pageFloor (u64 (stop + (pageSize - 1)))
  if stop ≤ start then some s
  else s.segs.foldlM (excludeSeg start stop) s

/-- The largest order whose block starts at `pfn` and ends by `endPfn`, from `order` upwards. -/
def rangeOrder (pfn endPfn : Nat) : (left order : Nat) → Nat
  | 0, order => order
  | left + 1, order =>
    let run := 2 ^ (order + 1)
    if pfn % run ≠ 0 ∨ pfn + run > endPfn then order
    else rangeOrder pfn endPfn left (order + 1)

def clearPage (i : Nat) : VmPhys :=
  { s with flags := update s.flags i { s.flags i with excluded := false } }

def clearExcluded (seg : VmPhysSeg) (pfn run : Nat) : Option VmPhys :=
  Loop.forUp (fun i s => do
    s.access (pageAt seg (pfn + i))
    return s.clearPage (pageAt seg (pfn + i))) 0 run s

/-- The loop of `vm_phys_free_range` inside one segment. -/
def freeRun (seg : VmPhysSeg) (endPfn : Nat) : (fuel pfn : Nat) → VmPhys → Option VmPhys
  | 0, pfn, s => if pfn < endPfn then none else some s
  | fuel + 1, pfn, s =>
    if pfn < endPfn then do
      let order := rangeOrder pfn endPfn (nFreeOrder - 1) 0
      let s ← s.clearExcluded seg pfn (2 ^ order)
      let s ← s.freeBlock (pageAt seg pfn) order
      freeRun seg endPfn fuel (pfn + 2 ^ order) s
    else some s

def freeRangeSeg (start stop : Nat) (s : VmPhys) (seg : VmPhysSeg) : Option VmPhys :=
  let lo := max start seg.start
  let hi := min stop seg.stop
  if hi ≤ lo then some s
  else freeRun seg (hi / pageSize) (hi / pageSize - lo / pageSize) (lo / pageSize) s

def freeRange (start stop : Nat) : Option VmPhys :=
  let start := pageFloor start
  let stop := pageFloor stop
  if stop ≤ start then some s
  else s.segs.foldlM (freeRangeSeg start stop) s

def alloc (order : Int) : Option (Option Nat × VmPhys) := s.allocOrder order

def free (s : VmPhys) : Option Nat → Option VmPhys
  | none => some s
  | some page => do
    s.access page
    if (s.flags page).excluded then
      return s
    if (s.flags page).free then
      return s
    s.freeBlock page 0

/-- The number of pages from `page + i` on that are free, up to `count`, plus `i`. -/
def scanFree (s : VmPhys) (page : Nat) : (i count : Nat) → Option Nat
  | i, 0 => some i
  | i, count + 1 => do
    s.access (page + i)
    if !(s.flags (page + i)).free || (s.flags (page + i)).excluded then
      return i
    scanFree s page (i + 1) count

/-- Steal `count` pages from `page + n` on; a failure gives back the ones stolen so far. -/
def stealRun (page : Nat) : (n count : Nat) → VmPhys → Option (Bool × VmPhys)
  | _, 0, s => some (true, s)
  | n, count + 1, s => do
    let (stolen, s) ← s.stealFree (page + n)
    if stolen then stealRun page (n + 1) count s
    else
      let s ← Loop.forUp (fun i s => s.freeBlock (page + i) 0) 0 n s
      return (false, s)

/-- The loop of `vm_phys_alloc_contig_run` inside one segment. The inner `none` falls through to
the next segment, an inner `some` is the function's result. -/
def contigSeg (seg : VmPhysSeg) (pageTotal alignPages low high : Nat) :
    (fuel pfn : Nat) → VmPhys → Option (Option (Option Nat × VmPhys))
  | 0, _, _ => none
  | fuel + 1, pfn, s =>
    if u64 (pfn + pageTotal) ≤ seg.stop / pageSize then
      let base := u64 (pfn * pageSize)
      if base < low ∨ u64 (2 ^ 64 - 1 + (base + u64 (pageTotal * pageSize))) > high then
        contigSeg seg pageTotal alignPages low high fuel (u64 (pfn + alignPages)) s
      else do
        let page := pageAt seg pfn
        let i ← s.scanFree page 0 pageTotal
        if i ≠ pageTotal then
          let pfn := u64 (pfn + i + 1)
          contigSeg seg pageTotal alignPages low high fuel
            (u64 (pfn + alignPages - 1) / alignPages * alignPages) s
        else
          let (stolen, s) ← stealRun page 0 pageTotal s
          return some (if stolen then some page else none, s)
    else some none

def contigSegs (pageTotal alignment low high : Nat) :
    List VmPhysSeg → VmPhys → Option (Option Nat × VmPhys)
  | [], s => some (none, s)
  | seg :: segs, s => do
    let alignPages := if alignment / pageSize = 0 then 1 else alignment / pageSize
    let pfn := u64 (seg.start + alignment - 1) / alignment * alignment / pageSize
    match ← contigSeg seg pageTotal alignPages low high (2 ^ 64) pfn s with
    | some result => return result
    | none => contigSegs pageTotal alignment low high segs s

def allocContigRun (pageTotal alignment low high : Nat) :
    Option (Option Nat × VmPhys) :=
  contigSegs pageTotal alignment low high s.segs s

/-- The least order from `order` on whose block holds `pageTotal` pages. -/
def contigOrder (pageTotal : Nat) : (left order : Nat) → Option Nat
  | 0, _ => none
  | left + 1, order =>
    if 2 ^ order < pageTotal then contigOrder pageTotal left (order + 1) else some order

/-- The walk along one free list for a block that meets the constraints. -/
def searchList (k order pageTotal alignment low high : Nat) :
    (fuel : Nat) → Option Nat → VmPhys → Option (Option (Option Nat × VmPhys))
  | _, none, _ => some none
  | 0, some _, _ => none
  | fuel + 1, some page, s => do
    s.access page
    let base := s.physAddr page
    let run := pageTotal * pageSize
    if base &&& (alignment - 1) ≠ 0 then
      searchList k order pageTotal alignment low high fuel (s.plinksNext page) s
    else if base < low ∨ u64 (2 ^ 64 - 1 + (base + run)) > high then
      searchList k order pageTotal alignment low high fuel (s.plinksNext page) s
    else
      let s ← s.takeBlock page k order
      let s ← Loop.forUp (fun i s => s.freeBlock (page + i) 0) pageTotal (2 ^ order - pageTotal) s
      return some (some page, s)

/-- The search over the orders `k, k + 1, …` (`count` of them). -/
def searchOrders (order pageTotal alignment low high : Nat) :
    (k count : Nat) → VmPhys → Option (Option Nat × VmPhys)
  | _, 0, s => s.allocContigRun pageTotal alignment low high
  | k, count + 1, s => do
    match ← searchList k order pageTotal alignment low high s.pageTotal (s.freelists k) s with
    | some result => return result
    | none => searchOrders order pageTotal alignment low high (k + 1) count s

def allocContig (pageTotal alignment low high : Nat) :
    Option (Option Nat × VmPhys) :=
  if pageTotal = 0 ∨ alignment = 0 ∨ alignment &&& (alignment - 1) ≠ 0 then some (none, s)
  else match contigOrder pageTotal nFreeOrder 0 with
    | none => s.allocContigRun pageTotal alignment low high
    | some order => searchOrders order pageTotal alignment low high order (nFreeOrder - order) s

def freeContig : Option Nat → (pageTotal : Nat) → Option VmPhys
  | none, _ => some s
  | some page, pageTotal => Loop.forUp (fun i s => do
      s.access (page + i)
      if (s.flags (page + i)).free || (s.flags (page + i)).excluded then
        return s
      s.freeBlock (page + i) 0) 0 pageTotal s

def paddrToPageIn (pa : Nat) : List VmPhysSeg → Option Nat
  | [] => none
  | seg :: segs =>
    if pa < seg.start then none
    else if pa < seg.stop then some (pageAt seg (pa / pageSize))
    else paddrToPageIn pa segs

def paddrToPage (pa : Nat) : Option Nat := paddrToPageIn (pageFloor pa) s.segs

end Otsos.VmPhys
