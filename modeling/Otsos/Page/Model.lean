import Otsos.Phys.Runs

/-! The page layer over the physical allocator: paging queues, wiring and reference counts. The
counters of a page are 32-bit and wrap around. -/
namespace Otsos

open Function (update)

-- `PQ_NONE`, `PQ_ACTIVE`, `PQ_INACTIVE` and `PQ_COUNT`
def pqNone : Nat := 0
def pqActive : Nat := 1
def pqInactive : Nat := 2
def pqCount : Nat := 4

/-- The file-scope variables of the page layer over those of the allocator. -/
structure VmPage where
  phys : VmPhys
  (queueHead queueTail : Nat → Option Nat)
  queueCount : Nat → Nat
  wired : Nat

/-- The `VM_ALLOC_*` bits the allocator looks at. -/
structure AllocFlags where
  zero : Bool := false
  wired : Bool := false
deriving DecidableEq

namespace VmPage

variable (s : VmPage)
-- Stores to one member of one page record.
def setFlags (p : Nat) (flags : PageFlags) : VmPage :=
  { s with phys := { s.phys with flags := update s.phys.flags p flags } }

def setWireCount (p n : Nat) : VmPage :=
  { s with phys := { s.phys with wireCount := update s.phys.wireCount p n } }

def setRefCount (p n : Nat) : VmPage :=
  { s with phys := { s.phys with refCount := update s.phys.refCount p n } }

def setOwner (p : Nat) (object : Option Nat) (pindex : Nat) : VmPage :=
  { s with phys := { s.phys with
      object := update s.phys.object p object
      pindex := update s.phys.pindex p pindex } }

def setQueue (p qid : Nat) (next prev : Option Nat) : VmPage :=
  { s with phys := { s.phys with
      queue := update s.phys.queue p qid
      qlinksNext := update s.phys.qlinksNext p next
      qlinksPrev := update s.phys.qlinksPrev p prev } }

def queueInsert (page qid : Nat) : Option VmPage :=
  if qid = pqNone ∨ qid ≥ pqCount then some s
  else do
    s.phys.access page
    let s := s.setQueue page qid none (s.queueTail qid)
    let s ← match s.queueTail qid with
      | some tail => do
        s.phys.access tail
        pure { s with phys := { s.phys with
          qlinksNext := update s.phys.qlinksNext tail (some page) } }
      | none => pure { s with queueHead := update s.queueHead qid (some page) }
    return { s with
      queueTail := update s.queueTail qid (some page)
      queueCount := update s.queueCount qid (s.queueCount qid + 1) }

def queueRemove (page : Nat) : Option VmPage := do
  s.phys.access page
  let qid := s.phys.queue page
  if qid = pqNone ∨ qid ≥ pqCount then
    return s
  let s ← match s.phys.qlinksPrev page with
    | some q => do
      s.phys.access q
      pure { s with phys := { s.phys with
        qlinksNext := update s.phys.qlinksNext q (s.phys.qlinksNext page) } }
    | none => pure { s with queueHead := update s.queueHead qid (s.phys.qlinksNext page) }
  let s ← match s.phys.qlinksNext page with
    | some q => do
      s.phys.access q
      pure { s with phys := { s.phys with
        qlinksPrev := update s.phys.qlinksPrev q (s.phys.qlinksPrev page) } }
    | none => pure { s with queueTail := update s.queueTail qid (s.phys.qlinksPrev page) }
  let s := s.setQueue page pqNone none none
  return { s with queueCount := update s.queueCount qid (s.queueCount qid - 1) }

/-- The stores that give a page record of a new allocation its first values. -/
def claimPage (page wireCount : Nat) : VmPage :=
  (((s.setRefCount page 1).setWireCount page wireCount).setOwner page none 0).setQueue page pqNone
    none none

/-- The contents of the frame are not part of the model, only its mark. -/
def zeroPages (page run : Nat) : Option VmPage :=
  Loop.forUp (fun i s => do
    s.phys.access (page + i)
    return s.setFlags (page + i) { s.phys.flags (page + i) with zero := true }) 0 run s

def wirePages (page run : Nat) : Option VmPage :=
  Loop.forUp (fun i s => do
    s.phys.access (page + i)
    return (s.setWireCount (page + i) 1).setFlags (page + i)
      { s.phys.flags (page + i) with wired := true }) 0 run s

def allocLocked (flags : AllocFlags) (order : Int) : Option (Option Nat × VmPage) := do
  match ← s.phys.alloc order with
  | (none, phys) => return (none, { s with phys := phys })
  | (some page, phys) =>
    let s := { s with phys := phys }
    let run := 2 ^ order.toNat
    let s ← Loop.forUp (fun i s => do
      s.phys.access (page + i)
      return s.claimPage (page + i) 0) 0 run s
    let s ← if flags.zero then s.zeroPages page run else some s
    if flags.wired then
      let s ← s.wirePages page run
      return (some page, { s with wired := s.wired + run })
    else
      let s ← Loop.forUp (fun i s => s.queueInsert (page + i) pqActive) 0 run s
      return (some page, s)

/-- The part of freeing a page that forgets its wiring. -/
def dropWiring (page : Nat) : Option VmPage := do
  s.phys.access page
  if (s.phys.flags page).wired then
    let s := (s.setFlags page { s.phys.flags page with wired := false }).setWireCount page 0
    return { s with wired := s.wired - 1 }
  else return s

/-- Wiring, queue, references and owner of a page that is about to be freed. -/
def retirePage (page : Nat) : Option VmPage := do
  let s ← s.dropWiring page
  let s ← s.queueRemove page
  return (s.setRefCount page 0).setOwner page none 0

def freeLocked (page : Nat) : Option VmPage := do
  let s ← s.retirePage page
  let phys ← s.phys.free (some page)
  return { s with phys := phys }

def alloc (flags : AllocFlags) : Option (Option Nat × VmPage) := s.allocLocked flags 0

def free : Option Nat → Option VmPage
  | none => some s
  | some page => s.freeLocked page

/-- The body of the loop of `vm_page_alloc_contig`. -/
def claimWired (page : Nat) : Option VmPage := do
  s.phys.access page
  let s := s.claimPage page 1
  return s.setFlags page { s.phys.flags page with wired := true }

def allocContig (s : VmPage) (pageTotal alignment low high : Nat) : Option (Nat × VmPage) :=
  if pageTotal = 0 then some (0, s)
  else
    let alignment := if alignment < pageSize then pageSize else alignment
    let high := if high = 0 then 2 ^ 64 - 1 else high
    if low > high then some (0, s)
    else do
      match ← s.phys.allocContig pageTotal alignment low high with
      | (none, phys) => return (0, { s with phys := phys })
      | (some page, phys) =>
        let s := { s with phys := phys }
        let s ← Loop.forUp (fun i s => s.claimWired (page + i)) 0 pageTotal s
        return (s.phys.physAddr page, { s with wired := s.wired + pageTotal })

/-- The flag is `true` when the page has been freed. -/
def freePhys (physAddr : Nat) : Option (Bool × VmPage) :=
  match s.phys.paddrToPage physAddr with
  | none => some (false, s)
  | some page => do
    s.phys.access page
    if !(s.phys.flags page).allocated then
      return (false, s)
    if s.phys.refCount page > 1 then
      return (false, s.setRefCount page (s.phys.refCount page - 1))
    let s ← s.freeLocked page
    return (true, s)

/-- The body of the loop of `vm_page_free_contig`. -/
def retireAllocated (page : Nat) : Option VmPage := do
  s.phys.access page
  if !(s.phys.flags page).allocated then
    return s
  s.retirePage page

def freeContig (s : VmPage) (physAddr pageTotal : Nat) : Option VmPage :=
  if pageTotal = 0 then some s
  else match s.phys.paddrToPage physAddr with
    | none => some s
    | some page => do
      let s ← Loop.forUp (fun i s => s.retireAllocated (page + i)) 0 pageTotal s
      let phys ← s.phys.freeContig (some page) pageTotal
      return { s with phys := phys }

def reserveRange (physStart size : Nat) : Option VmPage :=
  if size = 0 then some s
  else do
    let phys ← s.phys.exclude physStart (u64 (physStart + size))
    return { s with phys := phys }

def ref : Option Nat → Option VmPage
  | none => some s
  | some page => do
    s.phys.access page
    return s.setRefCount page (u32 (s.phys.refCount page + 1))

def unref : Option Nat → Option (Bool × VmPage)
  | none => some (false, s)
  | some page => do
    s.phys.access page
    if s.phys.refCount page > 1 then
      return (false, s.setRefCount page (s.phys.refCount page - 1))
    if s.phys.refCount page = 1 then
      let s ← s.freeLocked page
      return (true, s)
    return (false, s)

def wire : Option Nat → Option VmPage
  | none => some s
  | some page => do
    s.phys.access page
    let s ← if s.phys.wireCount page = 0 then do
        let s ← s.queueRemove page
        let s := s.setFlags page { s.phys.flags page with wired := true }
        pure { s with wired := s.wired + 1 }
      else pure s
    return s.setWireCount page (u32 (s.phys.wireCount page + 1))

def unwire : Option Nat → Option VmPage
  | none => some s
  | some page => do
    s.phys.access page
    let s := if s.phys.wireCount page > 0 then s.setWireCount page (s.phys.wireCount page - 1) else s
    if s.phys.wireCount page = 0 ∧ (s.phys.flags page).wired = true then
      let s := s.setFlags page { s.phys.flags page with wired := false }
      queueInsert { s with wired := s.wired - 1 } page pqInactive
    else return s

/-- `vm_page_activate` and `vm_page_deactivate`, which differ in the queue only. -/
def requeue (qid : Nat) (s : VmPage) : Option Nat → Option VmPage
  | none => some s
  | some page => do
    s.phys.access page
    if (s.phys.flags page).wired then
      return s
    let s ← s.queueRemove page
    s.queueInsert page qid

def activate : VmPage → Option Nat → Option VmPage := requeue pqActive

def deactivate : VmPage → Option Nat → Option VmPage := requeue pqInactive

def dequeue : Option Nat → Option VmPage
  | none => some s
  | some page => s.queueRemove page

end VmPage

end Otsos
