import Otsos.Event.Knote

/-! Event queues (`kernel/event/event.c`): the pool of queues with their knotes, the ready lists and
the list of timers. What the callbacks of the filters other than the timer's read from devices,
processes and handles is given from outside. -/
namespace Otsos.Event
open Function (update)

def maxKqueues : Nat := 32
def maxKnotes : Nat := 64

structure Kqueue where
  used : Bool
  owner : Option Nat
  knote : Nat → Knote
  (readyHead readyTail : Option Nat)
  readyCount : Int

def Kqueue.zero : Kqueue := ⟨false, none, fun _ => .zero, none, none, 0⟩

def Kqueue.set (q : Kqueue) (j : Nat) (kn : Knote) : Kqueue :=
  { q with knote := update q.knote j kn }

/-- `kqueue_pool` and `timer_list`, with each knote as the indices of its queue and its place
there. -/
structure Pool where
  kq : Nat → Kqueue
  timers : List (Nat × Nat)
  clock : Clock

namespace Pool

def set (p : Pool) (i : Nat) (q : Kqueue) : Pool := { p with kq := update p.kq i q }

def knote (p : Pool) (i j : Nat) : Knote := (p.kq i).knote j

def setKnote (p : Pool) (i j : Nat) (kn : Knote) : Pool := p.set i ((p.kq i).set j kn)

end Pool

/-- The arguments of `knote_notify_all`. -/
structure Notice where
  filter : Int16
  ident : UInt64
  fflags : UInt32
  data : Int64

/-- What a callback of another filter than the timer's returns and stores in the knote, whether it
makes the knote ready, and the notices that it causes. -/
structure Outcome where
  result : Int
  flags : UInt16
  (fflags sfflags : UInt32)
  data : Int64
  fpriv : UInt64
  input : List UInt8
  ready : Bool
  notices : List Notice

def Outcome.store (o : Outcome) (kn : Knote) : Knote :=
  { kn with
    flags := o.flags, fflags := o.fflags, sfflags := o.sfflags, data := o.data, fpriv :=
    o.fpriv, input := o.input }

/-- `filter_lookup(filter) != NULL`. -/
def filterKnown (filter : Int16) : Bool := -12 ≤ filter && filter ≤ -1 && filter ≠ -8

def knoteAddToReady (q : Kqueue) (j : Nat) : Kqueue :=
  if (q.knote j).pending then q
  else
    { q with
      knote := fun k =>
        let kn := if k = j then { q.knote k with pending := true, next := none } else q.knote k
        if q.readyTail = some k then { kn with next := some j } else kn
      readyHead := if q.readyTail = none then some j else q.readyHead
      readyTail := some j
      readyCount := q.readyCount + 1 }

/-- Where `knote_remove_from_ready` has found the knote, behind `prev`. -/
def Kqueue.cut (q : Kqueue) (j : Nat) (prev : Option Nat) : Kqueue :=
  { q with
    knote := fun k =>
      if k = j then { q.knote k with next := none, pending := false }
      else if prev = some k then { q.knote k with next := (q.knote j).next }
      else q.knote k
    readyHead := if prev = none then (q.knote j).next else q.readyHead
    readyTail := if q.readyTail = some j then prev else q.readyTail
    readyCount := q.readyCount - 1 }

/-- Its loop; none: it does not end. -/
def Kqueue.unlink (q : Kqueue) (j : Nat) : Nat → Option Nat → Option Nat → Option Kqueue
  | 0, _, _ => none
  | _ + 1, _, none => some q
  | n + 1, prev, some cur =>
    if cur = j then some (q.cut j prev) else q.unlink j n (some cur) (q.knote cur).next

/-- `knote_remove_from_ready`. A list of at most `MAX_KNOTES` knotes ends within that many turns. -/
def knoteRemoveFromReady (q : Kqueue) (j : Nat) : Option Kqueue :=
  if (q.knote j).pending then q.unlink j (maxKnotes + 1) none q.readyHead else some q

namespace Pool
variable (p : Pool)

def removeFromReady (i j : Nat) : Option Pool := (knoteRemoveFromReady (p.kq i) j).map (p.set i)

/-- `knote_ready_locked` without the wake-up. -/
def knoteReadyLocked (i j : Nat) : Pool :=
  if (p.knote i j).used && !(p.knote i j).disabled &&
    (p.kq i).used then p.set i (knoteAddToReady (p.kq i) j) else p

/-- What `knote_notify_all` stores in a knote of the filter and the identifier; none: its flags do
not match. -/
def noticed (n : Notice) (kn : Knote) : Option Knote :=
  if n.fflags ≠ 0 ∧ kn.sfflags ≠ 0 ∧ kn.sfflags &&& n.fflags = 0 then none
  else
    some { kn with
      fflags :=
        if n.fflags = 0 then kn.fflags
        else kn.fflags ||| (if kn.sfflags ≠ 0 then n.fflags &&& kn.sfflags else n.fflags)
      data := if n.data ≠ 0 then n.data else kn.data }

def notifyOne (n : Notice) (i : Nat) (p : Pool) (j : Nat) : Pool :=
  let kn := p.knote i j
  if (p.kq i).used && kn.used && kn.filter = n.filter && kn.ident = n.ident then
    match noticed n kn with
    | none => p
    | some kn => (p.setKnote i j kn).knoteReadyLocked i j
  else p

/-- `knote_notify_all`. -/
def knoteNotifyAll (n : Notice) : Pool :=
  (List.range maxKqueues).foldl (fun p i => (List.range maxKnotes).foldl (notifyOne n i) p) p

def notices (l : List Notice) : Pool := l.foldl knoteNotifyAll p

/-- `filt_timer_detach` on the list: the last entry takes the place. -/
def dropTimer (l : List (Nat × Nat)) (x : Nat × Nat) : List (Nat × Nat) :=
  match l.getLast? with
  | none => l
  | some last => if x ∈ l then (l.set (l.idxOf x) last).dropLast else l

/-- The callback `detach`. That of `EVFILT_PROC` releases an entity, which notifies those who watch
it. -/
def detach (i j : Nat) (o : Outcome) : Pool :=
  let kn := p.knote i j
  if kn.filter = evfiltTimer then { p with timers := dropTimer p.timers (i, j) }
  else if kn.filter = evfiltProc ∧ kn.fpriv ≠ 0 then
    (p.setKnote i j { kn with fpriv := 0 }).notices (o.notices.filter (·.filter = evfiltEntity))
  else p

/-- The callback `attach`, with its result. That of `EVFILT_PROC` retains an entity. -/
def attach (i j : Nat) (o : Outcome) : Pool × Int :=
  let kn := p.knote i j
  if kn.filter = evfiltTimer then
    let p := p.setKnote i j (filtTimerAttach p.clock kn)
    (if p.timers.length < maxKqueues * maxKnotes then { p with timers := p.timers ++ [(i, j)] } else p, 0)
  else if o.result ≠ 0 then (p, o.result)
  else
    let p := if kn.filter = evfiltProc then p.notices (o.notices.filter (·.filter = evfiltEntity)) else p
    let p := p.setKnote i j (o.store (p.knote i j))
    (if kn.filter = evfiltProc ∧ o.ready then p.knoteReadyLocked i j else p, 0)

/-- The callback `touch`. That of `EVFILT_USER` can make the knote ready. -/
def touch (i j : Nat) (kev : Kevent) (o : Outcome) : Pool :=
  let kn := p.knote i j
  if kn.filter = evfiltTimer then p.setKnote i j (filtTimerTouch p.clock kev kn)
  else
    let p := p.setKnote i j (o.store kn)
    if kn.filter = evfiltUser ∧ o.ready then p.knoteReadyLocked i j else p

/-- `filt_read_event` polls the terminal for descriptor 0. -/
def polls (kn : Knote) : Bool := kn.filter = evfiltRead && kn.ident.toUInt32 = 0

/-- What the poll can notify: the readers of descriptor 0, and other filters (it can send
signals). -/
def pollNotices (kn : Knote) (o : Outcome) : List Notice :=
  if polls kn then o.notices.filter fun n => n.filter ≠ evfiltRead || n.ident = 0 else []

/-- The callback `event`, with its result. -/
def event (i j : Nat) (o : Outcome) : Pool × Int :=
  let kn := p.knote i j
  if kn.filter = evfiltTimer then
    let (kn, result) := filtTimerEvent p.clock kn
    (p.setKnote i j kn, result)
  else
    let p := p.notices (pollNotices kn o)
    (p.setKnote i j (o.store (p.knote i j)), o.result)

/-- `knote_find`. -/
def find (p : Pool) (i : Nat) (ident : UInt64) (filter : Int16) : Option Nat :=
  (List.range maxKnotes).find? fun j => (p.knote i j).used && (p.knote i j).ident = ident &&
    (p.knote i j).filter = filter

/-- `knote_alloc`. -/
def alloc (i : Nat) : Option Nat := (List.range maxKnotes).find? fun j => !(p.knote i j).used

/-- `kn->disabled = 1` and the removal from the ready list. -/
def disable (i j : Nat) : Option Pool :=
  (p.setKnote i j { p.knote i j with disabled := true }).removeFromReady i j

/-- The call of `event` behind a registration or `EV_ENABLE`. -/
def poll (i j : Nat) (o : Outcome) : Pool :=
  let (p, result) := p.event i j o
  if result > 0 then p.knoteReadyLocked i j else p

/-- `EV_ADD` for a knote that is there. -/
def changeOld (i j : Nat) (kev : Kevent) (o : Outcome) : Option (Pool × Int) :=
  let kn := p.knote i j
  let p := p.setKnote i j
    { kn with
      fflags := kev.fflags, sfflags := kev.fflags, data := kev.data
      udata := if kev.flags &&& evKeepudata = 0 then kev.udata else kn.udata }
  let p := p.touch i j kev o
  if kev.flags &&& evDisable ≠ 0 then (p.disable i j).map (·, 0)
  else if kev.flags &&& evEnable ≠
    0 then some (p.setKnote i j { p.knote i j with disabled := false }, 0)
  else some (p, 0)

/-- The knote of a new registration. -/
def fresh (kev : Kevent) : Knote :=
  { Knote.zero with
    used := true, ident := kev.ident, filter := kev.filter, flags := kev.flags, fflags := kev.fflags
    sfflags := kev.fflags, data := kev.data, udata := kev.udata, disabled := kev.flags &&& evDisable ≠ 0 }

/-- `EV_ADD` for a new knote. -/
def changeNew (i : Nat) (kev : Kevent) (o o' : Outcome) : Pool × Int :=
  match p.alloc i with
  | none => (p, -12)
  | some j =>
    let (p, ret) := (p.setKnote i j (fresh kev)).attach i j o
    if ret ≠ 0 then (p.setKnote i j .zero, ret)
    else if (p.knote i j).disabled then (p, 0)
    else (p.poll i j o', 0)

/-- `process_change`. -/
def processChange (i : Nat) (kev : Kevent) (o o' : Outcome) : Option (Pool × Int) :=
  let kn := p.find i kev.ident kev.filter
  if !filterKnown kev.filter then some (p, -15)
  else if kev.flags &&& evDelete ≠ 0 then
    match kn with
    | none => some (p, -2)
    | some j => do
      let p ← (p.detach i j o).removeFromReady i j
      return (p.setKnote i j .zero, 0)
  else if kev.flags &&& evAdd ≠ 0 then
    match kn with
    | some j => p.changeOld i j kev o
    | none => some (p.changeNew i kev o o')
  else
    match kn with
    | none => some (p, if kev.flags &&& (evEnable ||| evDisable) ≠ 0 then -2 else 0)
    | some j => do
      let p :=
        if kev.flags &&& evEnable ≠ 0 then (p.setKnote i j { p.knote i j with disabled := false }).poll i j o else p
      let p ← if kev.flags &&& evDisable ≠ 0 then p.disable i j else some p
      return (p, 0)

/-- A turn of the loop of `collect_events`, at the knote at the head of the ready list. -/
def collectTurn (i j : Nat) (o o' : Outcome) : Option (Pool × Option Kevent) :=
  let (p, result) := p.event i j o
  if result ≤ 0 then (p.removeFromReady i j).map (·, none)
  else
    let kn := p.knote i j
    if kn.flags &&& evOneshot ≠ 0 then do
      let p ← (p.detach i j o').removeFromReady i j
      return (p.setKnote i j .zero, some kn.report)
    else do
      let p ← (p.setKnote i j kn.delivered).removeFromReady i j
      return (if result > 1 ∧ kn.flags &&& evDispatch = 0 then p.knoteReadyLocked i j else p, some kn.report)

/-- `collect_events` for at most `room` events, in at most `n` turns; none: that is not enough. -/
def collectEvents (i : Nat) : (n : Nat) → Pool → (room : Nat) → (Nat → Outcome × Outcome) →
    List Kevent → Option (Pool × List Kevent)
  | 0, _, _, _, _ => none
  | _ + 1, p, 0, _, events => some (p, events)
  | n + 1, p, room + 1, world, events =>
    match (p.kq i).readyHead with
    | none => some (p, events)
    | some j =>
      match p.collectTurn i j (world 0).1 (world 0).2 with
      | none => none
      | some (p, none) => collectEvents i n p (room + 1) (fun k => world (k + 1)) events
      | some (p, some event) => collectEvents i n p room (fun k => world (k + 1)) (events ++ [event])

/-- The slot that `kqueue_create` takes. -/
def freeSlot : Option Nat := (List.range maxKqueues).find? fun i => !(p.kq i).used

/-- `kqueue_create`, up to the handle; `attached` says that a handle was given out. -/
def create (owner : Option Nat) (attached : Bool) : Pool :=
  match p.freeSlot with
  | none => p
  | some i => p.set i { Kqueue.zero with used := attached, owner }

def destroyTurn (i : Nat) (world : Nat → Outcome) (p : Pool) (j : Nat) : Pool :=
  if (p.knote i j).used then (p.detach i j (world j)).setKnote i j .zero else p

/-- `kqueue_destroy_locked` of a used queue. -/
def destroy (i : Nat) (world : Nat → Outcome) : Pool :=
  ((List.range maxKnotes).foldl (destroyTurn i world) p).set i .zero

/-- A turn of the loop of `filter_timer_tick`. -/
def tickTurn (x : Nat × Nat) : Pool :=
  if (p.knote x.1 x.2).due p.clock then
    (p.setKnote x.1 x.2 ((p.knote x.1 x.2).expire p.clock)).knoteReadyLocked x.1 x.2
  else p

/-- `filter_timer_tick`. -/
def timerTick : Pool := p.timers.foldl tickTurn p

/-- The detach callbacks that `event_cleanup_process` makes for the knotes that watch a process. -/
def detachProc (pid : UInt64) (world : Nat → Nat → Outcome) (i : Nat) (p : Pool) (j : Nat) : Pool :=
  let kn := p.knote i j
  if (p.kq i).used && kn.used && kn.filter = evfiltProc &&
    kn.ident = pid then p.detach i j (world i j) else p

inductive Act where
  | create (owner : Option Nat) (attached : Bool)
  | destroy (i : Nat) (world : Nat → Outcome)
  | change (i : Nat) (kev : Kevent) (o o' : Outcome)
  | notify (n : Notice)
  | clock (now : UInt64)
  | tick
  | collect (i turns room : Nat) (world : Nat → Outcome × Outcome)
  | unwatch (pid : UInt64) (world : Nat → Nat → Outcome)

/-- A queue that a handle leads to. -/
def live (i : Nat) : Bool := i < maxKqueues && (p.kq i).used

def step : Act → Option Pool
  | .create owner attached => some (p.create owner attached)
  | .destroy i world => if p.live i then some (p.destroy i world) else none
  | .change i kev o o' => if p.live i then (p.processChange i kev o o').map (·.1) else none
  | .notify n => some (p.knoteNotifyAll n)
  | .clock now => some { p with clock := { p.clock with ticks := now } }
  | .tick => some p.timerTick
  | .collect i turns room world => if p.live i then (collectEvents i turns p room world []).map (·.1) else none
  | .unwatch pid world =>
    some ((List.range maxKqueues).foldl (fun p i => (List.range maxKnotes).foldl (detachProc pid world i) p) p)

def empty (clock : Clock) : Pool := ⟨fun _ => .zero, [], clock⟩

end Pool
end Otsos.Event
