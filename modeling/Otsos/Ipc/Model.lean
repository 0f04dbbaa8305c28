import Otsos.Foundation.RingBuffer

/-! Message endpoints (`ipc.c`, with the references that `api/ipc.c` holds). Calls run under the
kernel's lock, which is given up only in `proc_sleep`; what a thread does between two sleeps is one
step. A step that touches an endpoint that has been freed is a fault, `none`. -/
namespace Otsos.Ipc
open Function (update)

def ipcMaxServices : Nat := 32
def ipcMaxSessions : Nat := 64
def ipcQueueMessages : Nat := 32
def ipcMaxPayload : Nat := 1024
def ipcMaxHandles : Nat := 8
def ipcCancelSlots : Nat := 16

def ipcMsgRequest : UInt32 := 0x01
def ipcMsgNonblock : UInt32 := 0x08
def ipcMsgTrunc : UInt32 := 0x10

def errNotFound : Int := -2
def errTooBig : Int := -7
def errBadHandle : Int := -9
def errRetry : Int := -11
def errBadAddr : Int := -14
def errInval : Int := -15
def errBusy : Int := -16
def errPipeClosed : Int := -32
def errTimedOut : Int := -110

structure Cred where
  (pid uid gid : UInt32)
deriving DecidableEq

/-- A queued message. The last two fields are not in the source: a number that no other message of a
run has, and for a reply the number of the request that it answers. -/
structure Msg where
  (id replyTo peer : UInt64)
  (opcode flags : UInt32)
  length : Nat
  cred : Option Cred
  handles : List (UInt64 × UInt32)
  data : List UInt8
  stamp : Nat
  answers : Option Nat
deriving DecidableEq

inductive Role where
  | server
  | client
deriving DecidableEq

structure Endpoint where
  refcount : Nat
  role : Role
  (closed nonblock : Bool)
  (peerId nextId : UInt64)
  canceled : Nat → UInt64
  cancelPos : Nat
  service : Option Nat
  queue : RingBuffer Msg

structure Service where
  used : Bool
  server : Option Nat
  clients : Nat → Option Nat
  nextPeerId : UInt64

/-- What a message is built from: the descriptor, the payload, the caller and what the caller's
handles refer to. -/
structure Request where
  (id replyTo peer : UInt64)
  (opcode flags : UInt32)
  length : Nat
  payload : Option (List UInt8)
  handles : List Int
  caller : Option Cred
  lookup : Int → Except Int (UInt64 × UInt32)
  answers : Option Nat

/-- Where a message is received to. -/
structure Space where
  flags : UInt32
  capacity : Nat
  payload : Bool
  handleCapacity : Nat
deriving DecidableEq

/-- What a step finds outside: whether it has a process, the values of `entity_handle_alloc` for the
handles of a message, whether a waiter is free and whether the deadline has passed. -/
structure Outcome where
  caller : Bool
  install : Nat → Int
  (waiter expired : Bool)

namespace Endpoint

def contents (ep : Endpoint) : List Msg := ep.queue.contents ipcQueueMessages

/-- `ipc_endpoint_alloc`. The cells hold zeroes. -/
def alloc (role : Role) (nonblock : Bool) (service : Nat) (peerId : UInt64) : Endpoint where
  refcount := 1
  role := role
  closed := false
  nonblock := nonblock
  peerId := peerId
  nextId := 1
  canceled _ := 0
  cancelPos := 0
  service := some service
  queue := .empty fun _ => ⟨0, 0, 0, 0, 0, 0, none, [], [], 0, none⟩

def cancelAdd (ep : Endpoint) (id : UInt64) : Endpoint :=
  if id = 0 then ep
  else { ep with
    canceled := update ep.canceled ep.cancelPos id
    cancelPos := (ep.cancelPos + 1) % ipcCancelSlots }

/-- `ipc_cancel_take`; `none` if the id is not in the table. -/
def cancelTake (ep : Endpoint) (id : UInt64) : Option Endpoint :=
  if id = 0 then none
  else ((List.range ipcCancelSlots).find? fun i => ep.canceled i = id).map fun i =>
    { ep with canceled := update ep.canceled i 0 }

/-- The endpoint after `ipc_message_build` has taken an id from it. -/
def takeId (ep : Endpoint) (req : Request) : Endpoint :=
  let next := if req.id ≠ 0 then ep.nextId else ep.nextId + 1
  { ep with nextId := if next = 0 then 1 else next }

/-- `ipc_message_build`. An id is taken even if a handle is refused afterwards. -/
def build (ep : Endpoint) (req : Request) (stamp : Nat) : Endpoint × Except Int Msg :=
  if req.length > ipcMaxPayload ∨ req.handles.length > ipcMaxHandles then
    (ep, .error (if req.handles.length > ipcMaxHandles then errTooBig else errInval))
  else if req.length > 0 ∧ req.payload = none then (ep, .error errBadAddr)
  else
    (ep.takeId req,
      if req.caller = none ∧ req.handles ≠ [] then .error errBadHandle
      else (req.handles.mapM req.lookup).map fun handles =>
        { id := if req.id ≠ 0 then req.id else ep.nextId
          replyTo := req.replyTo
          peer := if ep.role = .client then ep.peerId else req.peer
          opcode := req.opcode
          flags := req.flags
          length := req.length
          cred := req.caller
          handles := handles
          data := (req.payload.getD []).take req.length
          stamp := stamp
          answers := req.answers })

end Endpoint

/-- `ipc_message_copyout`: the value returned. -/
def copyout (o : Outcome) (m : Msg) (space : Space) : Int :=
  if m.length > space.capacity ∧ space.flags &&& ipcMsgTrunc = 0 then errTooBig
  else
    let copyLen := min m.length space.capacity
    if copyLen > 0 ∧ !space.payload then errBadAddr
    else if m.handles.length > space.handleCapacity then errTooBig
    else if m.handles ≠ [] ∧ !o.caller then errBadHandle
    else (((List.range m.handles.length).map o.install).find? (· < 0)).getD copyLen

/-- How long a call waits for its reply. -/
inductive Patience where
  | forever
  | none
  | timed
deriving DecidableEq

def Patience.ofTimeout (timeoutMs : Int) : Patience :=
  if timeoutMs < 0 then .forever else if timeoutMs = 0 then .none else .timed

/-- A thread: outside, asleep in a call on the endpoint `own`, or returned from one. A call that has
sent its request carries the id and the number of the request. -/
inductive Pc where
  | idle
  | sending (own target : Nat) (m : Msg) (flags : UInt32)
  | requesting (own target : Nat) (m : Msg) (flags : UInt32) (space : Space) (patience : Patience)
  | receiving (own : Nat) (space : Space) (flags : UInt32)
  | awaiting (own : Nat) (id : UInt64) (request : Nat) (space : Space) (patience : Patience)
  | done (own : Nat) (ret : Int)
deriving DecidableEq

/-- What happens to messages at the endpoint `e`. A message is queued or dropped for a reply that is
no longer wanted; it is received by a plain receive or by the call with this request, or lost, or
put back to the front, with the index that it came from; a call has given up; an endpoint is freed
with what is queued. -/
inductive Happening where
  | queued (e : Nat) (m : Msg)
  | dropped (e : Nat) (m : Msg)
  | received (e : Nat) (m : Msg) (call : Option Nat)
  | lost (e : Nat) (m : Msg)
  | putBack (e : Nat) (m : Msg) (i : Nat)
  | gaveUp (e : Nat) (id : UInt64) (request : Nat)
  | freed (e : Nat) (ms : List Msg)
deriving DecidableEq

/-- The endpoints and services; `held e` says that a handle still refers to the endpoint. -/
structure Mem where
  eps : Nat → Option Endpoint
  services : Nat → Service
  held : Nat → Bool
  (fresh stamps : Nat)

/-- What a step of a thread leads to, with the value returned or the place where the thread
sleeps. -/
structure Progress where
  mem : Mem
  pc : Pc
  what : List Happening

namespace Mem
variable (m : Mem)

def init : Mem where
  eps _ := none
  services _ := ⟨false, none, fun _ => none, 0⟩
  held _ := false
  fresh := 0
  stamps := 0

def set (e : Nat) (ep : Endpoint) : Mem := { m with eps := update m.eps e (some ep) }

def setService (sv : Nat) (service : Service) : Mem :=
  { m with services := update m.services sv service }

/-- The loop of `ipc_service_client` over the sessions. -/
def serviceClient (m : Mem) (peer : UInt64) : List Nat → Option (Option Nat)
  | [] => some none
  | c :: rest =>
    match m.eps c with
    | none => none
    | some ep => if ep.peerId = peer ∧ !ep.closed then some (some c) else m.serviceClient peer rest

def sessions (sv : Nat) : List Nat := (List.range ipcMaxSessions).filterMap (m.services sv).clients

/-- `ipc_endpoint_target`. -/
def target (ep : Endpoint) (sv : Nat) (peer : UInt64) : Option (Option Nat) :=
  if ep.role = .client then some (m.services sv).server
  else if peer = 0 then some none
  else m.serviceClient peer (m.sessions sv)

/-- A turn of `ipc_queue_push`: the value returned, or `none` for a sleep. -/
def push (m : Mem) (target : Nat) (msg : Msg) (flags : UInt32) : Option (Mem × Option Int) :=
  match m.eps target with
  | none => none
  | some ep =>
    if ep.queue.count ≥ ipcQueueMessages then
      if ep.closed then some (m, some errPipeClosed)
      else if flags &&& ipcMsgNonblock ≠ 0 ∨ ep.nonblock then some (m, some errRetry)
      else some (m, none)
    else some (m.set target { ep with queue := ep.queue.push ipcQueueMessages msg }, some 0)

/-- What a turn of `ipc_queue_pop` finds. -/
inductive Popped where
  | got (msg : Msg) (i : Nat)
  | asleep
  | error (ret : Int)

def wants (replyTo : UInt64) (msg : Msg) : Bool := replyTo = 0 ∨ msg.replyTo = replyTo

/-- A turn of `ipc_queue_pop`. -/
def pop (own : Nat) (replyTo : UInt64) (nonblock : Bool) : Option (Mem × Popped) :=
  match m.eps own with
  | none => none
  | some ep =>
    match ep.queue.find ipcQueueMessages (wants replyTo) with
    | some i =>
      some (m.set own { ep with queue := ep.queue.removeAt ipcQueueMessages i },
        .got (ep.queue.get ipcQueueMessages i) i)
    | none =>
      if ep.closed then some (m, .error errPipeClosed)
      else if nonblock ∨ ep.nonblock then some (m, .error errRetry)
      else some (m, .asleep)

/-- A message that was taken from the queue is copied to the receiver. -/
def deliver (o : Outcome) (own : Nat) (msg : Msg) (i : Nat) (space : Space) (call : Option Nat) :
    Option Progress :=
  let ret := copyout o msg space
  if ret = errTooBig then
    match m.eps own with
    | none => none
    | some ep =>
      some ⟨m.set own { ep with queue := ep.queue.unpop ipcQueueMessages msg }, .done own ret, [.putBack own msg i]⟩
  else if ret < 0 then some ⟨m, .done own ret, [.lost own msg]⟩
  else some ⟨m, .done own ret, [.received own msg call]⟩

/-- The call returns; a reply that comes later is not wanted. -/
def giveUp (own : Nat) (id : UInt64) (request : Nat) (ret : Int) : Option Progress :=
  match m.eps own with
  | none => none
  | some ep => some ⟨m.set own (ep.cancelAdd id), .done own ret, [.gaveUp own id request]⟩

def recvTurn (o : Outcome) (own : Nat) (space : Space) (flags : UInt32) : Option Progress := do
  match ← m.pop own 0 ((flags ||| space.flags) &&& ipcMsgNonblock ≠ 0) with
  | (m, .got msg i) => m.deliver o own msg i space none
  | (m, .error ret) => some ⟨m, .done own ret, []⟩
  | (m, .asleep) => some ⟨m, .receiving own space flags, []⟩

/-- A turn of `ipc_endpoint_call` once the request is queued. -/
def callTurn (o : Outcome) (own : Nat) (id : UInt64) (request : Nat) (space : Space)
    (patience : Patience) : Option Progress := do
  match ← m.pop own id (patience ≠ .forever) with
  | (m, .got msg i) => m.deliver o own msg i space (some request)
  | (m, .asleep) => some ⟨m, .awaiting own id request space patience, []⟩
  | (m, .error ret) =>
    if ret ≠ errRetry then some ⟨m, .done own ret, []⟩
    else
      match patience with
      | .forever => some ⟨m, .done own ret, []⟩
      | .none => m.giveUp own id request errRetry
      | .timed =>
        if o.expired then m.giveUp own id request errTimedOut
        else some ⟨m, .awaiting own id request space patience, []⟩

def await (o : Outcome) (own : Nat) (id : UInt64) (request : Nat) (space : Space)
    (patience : Patience) : Option Progress :=
  if patience = .timed ∧ !o.waiter then m.giveUp own id request errBusy
  else m.callTurn o own id request space patience

def sendTurn (own target : Nat) (msg : Msg) (flags : UInt32) : Option Progress := do
  match ← m.push target msg flags with
  | (m, none) => some ⟨m, .sending own target msg flags, []⟩
  | (m, some ret) => some ⟨m, .done own ret, if ret = 0 then [.queued target msg] else []⟩

def requestTurn (o : Outcome) (own target : Nat) (msg : Msg) (flags : UInt32) (space : Space)
    (patience : Patience) : Option Progress := do
  match ← m.push target msg flags with
  | (m, none) => some ⟨m, .requesting own target msg flags space patience, []⟩
  | (m, some ret) =>
    if ret ≠ 0 then some ⟨m, .done own ret, []⟩
    else
      let next ← m.await o own msg.id msg.stamp space patience
      some { next with what := .queued target msg :: next.what }

def send (own : Nat) (req : Request) : Option Progress := do
  let ep ← m.eps own
  match ep.closed, ep.service with
  | true, _ | _, none => some ⟨m, .done own errPipeClosed, []⟩
  | false, some sv =>
    match ep.build req m.stamps with
    | (ep, .error ret) => some ⟨m.set own ep, .done own ret, []⟩
    | (ep, .ok msg) =>
      let m := { m.set own ep with stamps := m.stamps + 1 }
      match ← m.target ep sv msg.peer with
      | none => some ⟨m, .done own errNotFound, []⟩
      | some target =>
        let there ← m.eps target
        if there.closed then some ⟨m, .done own errNotFound, []⟩
        else
          match there.cancelTake msg.replyTo with
          | some there => some ⟨m.set target there, .done own 0, [.dropped target msg]⟩
          | none => m.sendTurn own target msg req.flags

def call (o : Outcome) (own : Nat) (req : Request) (space : Space) (timeoutMs : Int) :
    Option Progress := do
  let ep ← m.eps own
  match ep.role, ep.closed, ep.service with
  | .client, false, some sv =>
    match (m.services sv).server with
    | none => some ⟨m, .done own errInval, []⟩
    | some server =>
      match ep.build req m.stamps with
      | (ep, .error ret) => some ⟨m.set own ep, .done own ret, []⟩
      | (ep, .ok msg) =>
        let m := { m.set own ep with stamps := m.stamps + 1 }
        m.requestTurn o own server { msg with flags := msg.flags ||| ipcMsgRequest } req.flags space
          (.ofTimeout timeoutMs)
  | _, _, _ => some ⟨m, .done own errInval, []⟩

/-- Mark the sessions of a service that goes as closed. -/
def closeSessions (m : Mem) : List Nat → Option Mem
  | [] => some m
  | c :: rest => do
    let ep ← m.eps c
    (m.set c { ep with closed := true, service := none }).closeSessions rest

/-- The session of an endpoint that goes. -/
def dropSession (service : Service) (e : Nat) : Service :=
  match (List.range ipcMaxSessions).find? fun i => service.clients i = some e with
  | none => service
  | some i => { service with clients := update service.clients i none }

/-- The part of `ipc_endpoint_release` about the service: a server closes its sessions, a client
leaves its own, and the generation of its server is counted. -/
def detach (e : Nat) (ep : Endpoint) : Option Mem :=
  match ep.role, ep.service with
  | .server, some sv =>
    (m.closeSessions (m.sessions sv)).map fun m =>
      m.setService sv ⟨false, none, fun _ => none, (m.services sv).nextPeerId⟩
  | .client, some sv =>
    let m := m.setService sv (dropSession (m.services sv) e)
    match (m.services sv).server with
    | none => some m
    | some server => (m.eps server).map fun _ => m
  | _, none => some m

/-- `ipc_endpoint_release`, with what was queued if the endpoint is freed. -/
def release (e : Nat) : Option (Mem × List Happening) := do
  let ep ← m.eps e
  if ep.refcount > 1 then some (m.set e { ep with refcount := ep.refcount - 1 }, [])
  else (m.detach e ep).map fun m => ({ m with eps := update m.eps e none }, [.freed e ep.contents])

/-- `ipc_service_create` without its checks of the name: a service in the first free place. -/
def create (nonblock : Bool) : Mem :=
  match (List.range ipcMaxServices).find? fun i => !(m.services i).used with
  | none => m
  | some sv =>
    { (m.set m.fresh (.alloc .server nonblock sv 0)).setService sv ⟨true, some m.fresh, fun _ => none, 1⟩ with
      held := update m.held m.fresh true
      fresh := m.fresh + 1 }

/-- `ipc_service_connect` without its checks of the name and of the caller. -/
def connect (sv : Nat) (nonblock : Bool) : Option Mem := do
  let service := m.services sv
  match service.used, service.server with
  | true, some server => do
    let there ← m.eps server
    match there.closed, (List.range ipcMaxSessions).find? fun i => service.clients i = none with
    | false, some i =>
      let next := service.nextPeerId + 1
      some { (m.set m.fresh (.alloc .client nonblock sv service.nextPeerId)).setService sv
          { service with clients := update service.clients i (some m.fresh), nextPeerId := if next = 0 then 1 else next } with
        held := update m.held m.fresh true
        fresh := m.fresh + 1 }
    | _, _ => some m
  | _, _ => some m

end Mem

/-- The endpoint that a thread holds a reference to. -/
def Pc.own : Pc → Option Nat
  | .idle => none
  | .sending own .. | .requesting own .. | .receiving own .. | .awaiting own .. | .done own _ =>
    some own

structure Config where
  mem : Mem
  threads : List Pc

inductive Event where
  | create (nonblock : Bool)
  | connect (sv : Nat) (nonblock : Bool)
  | close (e : Nat)
  | send (thread e : Nat) (req : Request)
  | recv (thread e : Nat) (space : Space) (flags : UInt32) (o : Outcome)
  | call (thread e : Nat) (req : Request) (space : Space) (timeoutMs : Int) (o : Outcome)
  | resume (thread : Nat) (o : Outcome)
  | finish (thread : Nat)

namespace Config

def init (threads : Nat) : Config := ⟨.init, List.replicate threads .idle⟩

/-- A call is made on the endpoint of a handle by a thread that is not in one. -/
def Idle (s : Config) (thread e : Nat) : Prop :=
  s.threads[thread]? = some .idle ∧ s.mem.held e = true

def Allowed (s : Config) : Event → Prop
  | .create _ => True
  | .connect sv _ => sv < ipcMaxServices
  | .close e => s.mem.held e = true
  | .send thread e _ | .recv thread e .. | .call thread e .. => s.Idle thread e
  | .resume thread _ => ∃ pc, s.threads[thread]? = some pc ∧ ∀ own ret, pc ≠ .done own ret
  | .finish thread => ∃ own ret, s.threads[thread]? = some (.done own ret)

/-- `ipc_endpoint_retain` at the start of a call. -/
def retain (m : Mem) (e : Nat) : Option Mem :=
  (m.eps e).map fun ep => m.set e { ep with refcount := ep.refcount + 1 }

/-- A thread that goes on after a sleep. -/
def turn (m : Mem) (o : Outcome) : Pc → Option Progress
  | .idle => some ⟨m, .idle, []⟩
  | .sending own target msg flags => m.sendTurn own target msg flags
  | .requesting own target msg flags space patience =>
    m.requestTurn o own target msg flags space patience
  | .receiving own space flags => m.recvTurn o own space flags
  | .awaiting own id request space patience => m.callTurn o own id request space patience
  | .done own ret => some ⟨m, .done own ret, []⟩

def put (s : Config) (thread : Nat) (p : Progress) : Config × List Happening :=
  (⟨p.mem, s.threads.set thread p.pc⟩, p.what)

def step (s : Config) : Event → Option (Config × List Happening)
  | .create nonblock => some (⟨s.mem.create nonblock, s.threads⟩, [])
  | .connect sv nonblock => (s.mem.connect sv nonblock).map fun m => (⟨m, s.threads⟩, [])
  | .close e =>
    (Mem.release { s.mem with held := update s.mem.held e false } e).map fun r => (⟨r.1, s.threads⟩, r.2)
  | .send thread e req => do
    let m ← retain s.mem e
    (m.send e req).map (s.put thread)
  | .recv thread e space flags o => do
    let m ← retain s.mem e
    (m.recvTurn o e space flags).map (s.put thread)
  | .call thread e req space timeoutMs o => do
    let m ← retain s.mem e
    (m.call o e req space timeoutMs).map (s.put thread)
  | .resume thread o => do
    let pc ← s.threads[thread]?
    (turn s.mem o pc).map (s.put thread)
  | .finish thread =>
    match s.threads[thread]? with
    | some (.done own _) => (s.mem.release own).map fun r => (⟨r.1, s.threads.set thread .idle⟩, r.2)
    | _ => some (s, [])

end Config

namespace Config

instance (s : Config) (e : Event) : Decidable (s.Allowed e) :=
  match e with
  | .create _ => inferInstanceAs (Decidable True)
  | .connect sv _ => inferInstanceAs (Decidable (sv < ipcMaxServices))
  | .close e => inferInstanceAs (Decidable (s.mem.held e = true))
  | .send thread e _ | .recv thread e .. | .call thread e .. =>
    inferInstanceAs (Decidable (s.threads[thread]? = some .idle ∧ s.mem.held e = true))
  | .resume thread _ =>
    match here : s.threads[thread]? with
    | none => isFalse fun ⟨_, there, _⟩ => nomatch here.symm.trans there
    | some (.done own ret) => isFalse fun ⟨_, there, asleep⟩ =>
      asleep own ret (Option.some.inj (here.symm.trans there)).symm
    | some .idle | some (.sending ..) | some (.requesting ..) | some (.receiving ..) | some (.awaiting ..) =>
      isTrue ⟨_, here, nofun⟩
  | .finish thread =>
    match here : s.threads[thread]? with
    | some (.done own ret) => isTrue ⟨own, ret, here⟩
    | none | some .idle | some (.sending ..) | some (.requesting ..) | some (.receiving ..) | some (.awaiting ..) =>
      isFalse fun ⟨_, _, there⟩ => nomatch here.symm.trans there

/-- The steps one after the other, as long as they are allowed. -/
def exec (s : Config) : List Event → Option (Config × List Happening)
  | [] => some (s, [])
  | e :: es =>
    if s.Allowed e then do
      let (m, what) ← s.step e
      let (s, hs) ← m.exec es
      return (s, what ++ hs)
    else none

end Config

/-- A run in which no step touches an endpoint that has been freed. -/
inductive Run : Config → List Event → List Happening → Config → Prop where
  | nil (s : Config) : Run s [] [] s
  | cons {m s' : Config} {e : Event} {es : List Event} {what hs : List Happening} (allowed : s.Allowed e)
    (stepped : s.step e = some (m, what)) (rest : Run m es hs s') : Run s (e :: es) (what ++ hs) s'

theorem Run.of_exec (ran : s.exec es = some (s', hs)) :
    Run s es hs s' := by
  induction es generalizing s hs with
  | nil =>
    cases ran
    exact .nil _
  | cons e es ih =>
    rw [Config.exec] at ran
    split at ran
    · next allowed =>
      obtain ⟨⟨m, _⟩, stepped, ran⟩ := Option.bind_eq_some_iff.mp ran
      obtain ⟨⟨_, _⟩, rest, made⟩ := Option.bind_eq_some_iff.mp ran
      cases made
      exact .cons allowed stepped (ih rest)
    · cases ran

theorem Run.exists_of_exec (s : Config) (es : List Event) (p : Config → List Happening → Bool)
    (ran : ((s.exec es).any fun r => p r.1 r.2) = true) :
    ∃ hs s', Run s es hs s' ∧ p s' hs = true := by
  cases there : s.exec es with
  | none =>
    rw [there] at ran
    cases ran
  | some r =>
    rw [there] at ran
    exact ⟨r.2, r.1, .of_exec there, ran⟩

end Otsos.Ipc
