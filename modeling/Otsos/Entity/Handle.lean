import Mathlib.Logic.Function.Basic

/-! The handle table (`entity_handle.c`). A call takes the lock once or several times; what it does
between two releases of the lock is one step, so other threads may come in between. -/
namespace Otsos.Entity
open Function (update)

def entityMaxHandles : Nat := 4096

def errBadHandle : Int := -9
def errNoMemory : Int := -12
def errBadValue : Int := -22
def errHandlesFull : Int := -24

/-- Process ids are given out from 1 on. -/
structure Pid where
  val : UInt32
  pos : val ≠ 0
deriving DecidableEq

/-- The process of a call; `none` is the kernel. -/
abbrev Owner := Option Pid

/-- The owner as a slot stores it. -/
def Owner.pid : Owner → UInt32
  | none => 0
  | some p => p.val

/-- The fields of a process: `none` is -1, both here and for `ENTITY_HANDLE_NONE` below. -/
structure ProcHandles where
  head : Option Nat
  count : Int
deriving DecidableEq

/-- A process record that has been cleared and not set up yet. -/
def ProcHandles.zeroed (r : ProcHandles) : Bool := r.head = some 0 ∧ r.count = 0

structure HandleTable where
  used : Nat → Bool
  pid : Nat → UInt32
  id : Nat → UInt64
  flags : Nat → UInt32
  gen : Nat → Nat
  (next prev : Nat → Option Nat)
  freeHead : Option Nat
  count : Nat
  procs : Pid → ProcHandles

/-- `(int)((gen << 16) | slot)`. -/
def handleOf (gen slot : Nat) : Int := Int.bmod ((gen <<< 16 ||| slot : Nat) : Int) 0x100000000

/-- `(u32)handle`, of which the lower half is the slot and the upper half the generation. -/
def handleWord (handle : Int) : Nat := (handle % 0x100000000).toNat

/-- The generation that follows, in 32 bits and never 0. -/
def succGen (gen : Nat) : Nat := if (gen + 1) % 0x100000000 = 0 then 1 else (gen + 1) % 0x100000000

/-- What `entity_handle_snapshot` records of a handle. -/
structure Snap where
  id : UInt64
  handle : Int
  access : UInt32
deriving DecidableEq

namespace HandleTable
variable (t : HandleTable)

/-- `entity_handle_init`, with all process records cleared. -/
def init : HandleTable where
  used _ := false
  pid _ := 0
  id _ := 0
  flags _ := 0
  gen _ := 0
  next i := if i + 1 < entityMaxHandles then some (i + 1) else none
  prev _ := some 0
  freeHead := some 0
  count := 0
  procs _ := ⟨some 0, 0⟩

/-- The handle of a slot in its present generation. -/
def handleAt (slot : Nat) : Int := handleOf (t.gen slot) slot

def setHead (p : Pid) (head : Option Nat) : HandleTable :=
  { t with procs := update t.procs p { t.procs p with head } }

def unlink (p : Pid) (slot : Nat) : HandleTable :=
  let before := t.prev slot
  let after := t.next slot
  let t :=
    match before with
    | some b => { t with next := update t.next b after }
    | none => if (t.procs p).head = some slot then t.setHead p after else t
  let t :=
    match after with
    | some a => { t with prev := update t.prev a before }
    | none => t
  { t with prev := update t.prev slot none, next := update t.next slot none }

def link (p : Pid) (slot : Nat) : HandleTable :=
  let head := (t.procs p).head
  let t := { t with prev := update t.prev slot none, next := update t.next slot head }
  let t :=
    match head with
    | some h => { t with prev := update t.prev h (some slot) }
    | none => t
  { t with procs := update t.procs p ⟨some slot, (t.procs p).count + 1⟩ }

/-- The checks of `entity_handle_slot`, which `entity_handle_drop_locked` makes as well. -/
def find (p : Owner) (handle : Int) : Option Nat :=
  let slot := handleWord handle % 0x10000
  let gen := handleWord handle / 0x10000
  if handle < 0 then none
  else if slot ≥ entityMaxHandles then none
  else if !t.used slot ∨ t.pid slot ≠ p.pid ∨ t.gen slot ≠ gen then none
  else some slot

def lookup (p : Owner) (handle : Int) : Except Int (UInt64 × UInt32) :=
  match t.find p handle with
  | none => .error errBadHandle
  | some slot => .ok (t.id slot, t.flags slot)

def initProcess (p : Pid) : HandleTable :=
  { t with procs := update t.procs p ⟨none, 0⟩ }

/-- What `entity_handle_alloc` does with the lock held; `none` is an empty free list. -/
def take (p : Owner) (id : UInt64) (access : UInt32) : Option (HandleTable × Nat) :=
  match t.freeHead with
  | none => none
  | some slot =>
    let t := { t with
      freeHead := t.next slot
      used := update t.used slot true
      pid := update t.pid slot p.pid
      id := update t.id slot id
      flags := update t.flags slot access
      gen := update t.gen slot (succGen (t.gen slot))
      count := t.count + 1 }
    match p with
    | none => some (t, slot)
    | some p => some (t.link p slot, slot)

/-- `entity_handle_alloc`, with the answer of `entity_retain_checked`: the value returned, and the
slot if one was taken. -/
def alloc (retained : Bool) (p : Owner) (id : UInt64) (access : UInt32) :
    HandleTable × Int × Option Nat :=
  if id = 0 ∨ access = 0 then (t, errBadValue, none)
  else if !retained then (t, errBadHandle, none)
  else
    match t.take p id access with
    | none => (t, errHandlesFull, none)
    | some (t, slot) => (t, t.handleAt slot, some slot)

/-- `entity_handle_drop_locked`, with the slot whose entity the caller may release. -/
def drop (p : Owner) (handle : Int) : Option (HandleTable × Nat) :=
  match t.find p handle with
  | none => none
  | some slot =>
    let t :=
      match p with
      | none => t
      | some p => t.unlink p slot
    let t := { t with
      used := update t.used slot false
      pid := update t.pid slot 0
      id := update t.id slot 0
      flags := update t.flags slot 0
      next := update t.next slot t.freeHead
      freeHead := some slot
      count := t.count - 1 }
    match p with
    | none => some (t, slot)
    | some p =>
      some ({ t with procs := update t.procs p { t.procs p with count := max ((t.procs p).count - 1) 0 } }, slot)

def snap (slot : Nat) : Snap := ⟨t.id slot, t.handleAt slot, t.flags slot⟩

/-- The loop of `entity_handle_snapshot`, `room` being what `seen` leaves of the table. -/
def snapshotFrom (t : HandleTable) (p : Pid) : Nat → Option Nat → Option Nat → Option (List Snap)
  | _, none, _ => some []
  | 0, some _, _ => none
  | room + 1, some slot, prev =>
    if slot ≥ entityMaxHandles ∨ !t.used slot ∨ t.pid slot ≠ p.val ∨ t.prev slot ≠ prev then none
    else (t.snapshotFrom p room (t.next slot) (some slot)).map (t.snap slot :: ·)

/-- `entity_handle_snapshot` without its cap: all handles, in the order of the list. -/
def snapshot (p : Pid) : Option (List Snap) :=
  if (t.procs p).count < 0 ∨ (t.procs p).count > entityMaxHandles then none
  else (t.snapshotFrom p entityMaxHandles (t.procs p).head none).filter fun all =>
    (all.length : Int) = (t.procs p).count

end HandleTable

/-- Where the rights of a new handle come from: a check of the caller, or a handle that is copied,
with the access that it had when it was looked up and the access asked for. -/
inductive Source where
  | granted
  | copied (p : Owner) (handle : Int) (held asked : UInt32)
deriving DecidableEq

/-- Where a thread is in a call. -/
inductive Pc where
  | alloc (p : Owner) (id : UInt64) (access : UInt32) (src : Source)
  | dup (p : Owner) (handle : Int32) (access : UInt32)
  | free (p : Owner) (handle : Int32)
  | snap (dst src : Pid) (cap tries : Nat)
  | copying (dst src : Pid) (rest : List Snap)
  | releasing (p : Pid) (ret : Int)
  | done (ret : Int)
deriving DecidableEq

inductive Call where
  | initProcess (p : Pid)
  | alloc (p : Owner) (id : UInt64) (access : UInt32)
  | dup (p : Owner) (handle : Int32) (access : UInt32)
  | free (p : Owner) (handle : Int32)
  | copyAll (dst src : Owner)
  | releaseAll (p : Owner)

/-- The answers of `entity_retain_checked` and of `kmem_alloc`. -/
structure Outcome where
  (retained memory : Bool)

/-- A slot taken or given back, with the handle. -/
inductive Happening where
  | took (p : Owner) (slot : Nat) (id : UInt64) (access : UInt32) (handle : Int) (src : Source)
  | gave (p : Owner) (slot : Nat) (handle : Int)
deriving DecidableEq

namespace Call

/-- A process record is set up once, before the process makes calls. -/
def Allowed (t : HandleTable) : Call → Prop
  | initProcess p => (t.procs p).zeroed = true
  | alloc p .. | dup p .. | free p .. => ∀ q, p = some q → (t.procs q).zeroed = false
  | copyAll .. | releaseAll .. => True

/-- A call up to its first use of the lock. -/
def start (t : HandleTable) : Call → HandleTable × Pc
  | initProcess p => (t.initProcess p, .done 0)
  | alloc p id access => (t, .alloc p id access .granted)
  | dup p handle access => (t, .dup p handle access)
  | free p handle => (t, .free p handle)
  | copyAll (some dst) (some src) =>
    (if (t.procs dst).zeroed then t.initProcess dst else t, .snap dst src 16 0)
  | copyAll _ _ => (t, .done errBadValue)
  | releaseAll none => (t, .done 0)
  | releaseAll (some p) =>
    if (t.procs p).zeroed then (t.initProcess p, .done 0) else (t, .releasing p 0)

end Call

namespace Pc

def step (o : Outcome) (t : HandleTable) : Pc → HandleTable × Pc × Option Happening
  | alloc p id access src =>
    match t.alloc o.retained p id access with
    | (t, ret, slot) => (t, .done ret, slot.map fun slot => .took p slot id access ret src)
  | dup p handle access =>
    match t.lookup p handle.toInt with
    | .error e => (t, .done e, none)
    | .ok (id, old) =>
      (t, .alloc p id (if access = 0 then old else access) (.copied p handle.toInt old access), none)
  | free p handle =>
    match t.drop p handle.toInt with
    | none => (t, .done errBadHandle, none)
    | some (t, slot) => (t, .done 0, some (.gave p slot handle.toInt))
  | snap dst src cap tries =>
    if !o.memory then (t, .done errNoMemory, none)
    else
      match t.snapshot src with
      | none => (t, .done errBadHandle, none)
      | some all =>
        if all.length ≤ cap then (t, .copying dst src all, none)
        else if cap ≥ entityMaxHandles ∨ tries + 1 = 8 then (t, .done errNoMemory, none)
        else (t, .snap dst src (min (all.length + 8) entityMaxHandles) (tries + 1), none)
  | copying _ _ [] => (t, .done 0, none)
  | copying dst src (x :: rest) =>
    match t.alloc o.retained (some dst) x.id x.access with
    | (t, ret, slot) =>
      (t, if ret < 0 then .releasing dst ret else .copying dst src rest,
        slot.map fun slot => .took (some dst) slot x.id x.access ret (.copied (some src) x.handle x.access 0))
  | releasing p ret =>
    match (t.procs p).head with
    | none => (t, .done ret, none)
    | some slot =>
      if slot ≥ entityMaxHandles then (t, .done ret, none)
      else
        match t.drop (some p) (t.handleAt slot) with
        | none => (t, .done ret, none)
        | some (t', slot') => (t', .releasing p ret, some (.gave (some p) slot' (t.handleAt slot)))
  | done ret => (t, .done ret, none)

end Pc

/-- The table with the threads that make calls. -/
structure Config where
  table : HandleTable
  threads : Nat → Pc

/-- A thread begins a call, or goes on with it. -/
inductive Event where
  | call (thread : Nat) (c : Call)
  | step (thread : Nat) (o : Outcome)

namespace Config

def init : Config := ⟨.init, fun _ => .done 0⟩

def Allowed (s : Config) : Event → Prop
  | .call thread c => (∃ ret, s.threads thread = .done ret) ∧ c.Allowed s.table
  | .step .. => True

def step (s : Config) : Event → Config × Option Happening
  | .call thread c =>
    let (table, pc) := c.start s.table
    (⟨table, update s.threads thread pc⟩, none)
  | .step thread o =>
    let (table, pc, what) := (s.threads thread).step o s.table
    (⟨table, update s.threads thread pc⟩, what)

end Config

/-- A run, with what happened in it. -/
inductive Run : Config → List Event → List Happening → Config → Prop where
  | nil (s : Config) : Run s [] [] s
  | cons {s' : Config} {e : Event} {es : List Event} {hs : List Happening} (allowed : s.Allowed e)
    (rest : Run (s.step e).1 es hs s') : Run s (e :: es) ((s.step e).2.toList ++ hs) s'

end Otsos.Entity
