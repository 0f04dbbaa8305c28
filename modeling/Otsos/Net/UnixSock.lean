import Otsos.Foundation.RingBuffer

/-! The pool of local sockets (`kernel/drivers/net/unix_sock.c`): allocation, references, connecting
and accepting. -/
namespace Otsos.Net.UnixSock
open Function (update update_self update_of_ne)

/-- An index of `unix_socks`. -/
abbrev Index := Nat

/-- `UNIX_SOCK_MAX`. -/
def unixSockMax : Nat := 128

/-- `UNIX_SOCK_BACKLOG`. -/
def backlog : Nat := 8

inductive State where
  | free
  | unbound
  | bound
  | listening
  | connected
  | closed
deriving DecidableEq

/-- `struct unix_sock`, as far as stream sockets use it. A pointer to a socket is its index. -/
structure Sock where
  state : State
  refcount : Int
  peer : Option Index
  acceptQueue : Nat → Index
  (acceptHead acceptTail acceptCount : Nat)
  streamBuf : Nat → UInt8
  (streamHead streamTail streamCount : Nat)
  (shutRd shutWr : Bool)

/-- A slot behind `memset`. -/
def Sock.zero : Sock := ⟨.free, 0, none, fun _ => 0, 0, 0, 0, fun _ => 0, 0, 0, 0, false, false⟩

/-- One reference less. -/
def Sock.release (s : Sock) : Sock := { s with refcount := s.refcount - 1 }

/-- One connection less in the backlog. -/
def Sock.popAccept (s : Sock) : Sock :=
  { s with acceptTail := (s.acceptTail + 1) % backlog, acceptCount := s.acceptCount - 1 }

abbrev Pool := Index → Sock

inductive Errno where
  | nomem
  | connrefused
deriving DecidableEq

namespace Pool

/-- Change a socket. -/
def modify (p : Pool) (i : Index) (f : Sock → Sock) : Pool := update p i (f (p i))

/-- The first free slot. -/
def firstFree (p : Pool) : Option Index :=
  (List.range unixSockMax).find? fun i => (p i).state = .free

/-- `unix_sock_alloc`. -/
def alloc (p : Pool) : Option (Pool × Index) :=
  match p.firstFree with
  | none => none
  | some i => some (update p i { Sock.zero with state := .unbound, refcount := 1 }, i)

/-- `unix_sock_hold`. -/
def hold (p : Pool) (i : Index) : Pool := p.modify i fun s => { s with refcount := s.refcount + 1 }

/-- `sock_cleanup`, without its wake-ups. -/
def cleanup (p : Pool) (i : Index) : Pool :=
  match (p i).peer with
  | none => p
  | some j => (p.modify j fun s => { s with peer := none }).modify i fun s =>
    { s with peer := none }

/-- `unix_sock_put`. -/
def put (p : Pool) (i : Index) : Pool :=
  let p := p.modify i Sock.release
  if (p i).refcount > 0 then p else update (p.cleanup i) i Sock.zero

/-- `unix_sock_connect_stream`. -/
def connectStream (p : Pool) (c target : Index) : Pool × Except Errno Unit :=
  match p.alloc with
  | none => (p, .error .nomem)
  | some (p, n) =>
    if (p target).acceptCount ≥ backlog then
      ((p.cleanup n).modify n fun s => { s with state := .free }, .error .connrefused)
    else
      let p := p.modify c fun s => { s with peer := some n }
      let p := p.modify n fun s => { s with peer := some c }
      let p := p.modify c fun s => { s with state := .connected }
      let p := p.modify n fun s => { s with state := .connected }
      let slot := ((p target).acceptHead + (p target).acceptCount) % backlog
      let p := p.modify target fun s =>
        { s with acceptQueue := update s.acceptQueue slot n, acceptCount := s.acceptCount + 1 }
      (p.hold n, .ok ())

/-- What `unix_sock_accept_dequeue` does without sleeping. -/
inductive Dequeued where
  -- not a listening socket
  | refused
  -- nobody waits: it sleeps, or returns if the call does not block
  | nobody
  | accepted (p : Pool) (n : Index)

/-- `unix_sock_accept_dequeue`, up to a sleep. -/
def acceptDequeue (p : Pool) (i : Index) : Dequeued :=
  if (p i).state ≠ .listening then .refused
  else if (p i).acceptCount = 0 then .nobody
  else
    let n := (p i).acceptQueue (p i).acceptTail
    .accepted ((p.modify i Sock.popAccept).put n) n

variable {p : Pool} {f : Sock → Sock}

@[simp] theorem modify_self : p.modify i f i = f (p i) := update_self ..

theorem modify_of_ne (other : j ≠ i) : p.modify i f j = p j := update_of_ne other ..

theorem firstFree_free (found : p.firstFree = some n) : (p n).state = .free := by
  have holds := List.find?_some found
  exact of_decide_eq_true holds

theorem cleanup_alone (alone : (p i).peer = none) : p.cleanup i = p := by
  rw [cleanup, alone]

theorem put_kept (more : 1 < (p i).refcount) : p.put i = p.modify i Sock.release := by
  have left : (p.modify i Sock.release i).refcount > 0 := by
    rw [modify_self]
    exact Int.sub_pos_of_lt more
  exact if_pos left

theorem put_last (last : (p i).refcount ≤ 1) : p.put i i = Sock.zero ∧
    (∀ j, j ≠ i → (p i).peer = some j → p.put i j = { p j with peer := none }) ∧
    ∀ j, j ≠ i → (p i).peer ≠ some j → p.put i j = p j := by
  have gone : ¬(p.modify i Sock.release i).refcount > 0 := by
    rw [modify_self]
    exact fun pos => absurd (Int.lt_of_sub_pos pos) (Int.not_lt.mpr last)
  have freed : p.put i = update ((p.modify i Sock.release).cleanup i) i Sock.zero := if_neg gone
  rw [freed]
  refine ⟨update_self .., ?_, ?_⟩
  · intro j other peer
    rw [update_of_ne other, cleanup, modify_self, Sock.release, peer]
    dsimp only
    rw [modify_of_ne other, modify_self, modify_of_ne other]
  · intro j other apart
    rw [update_of_ne other, cleanup, modify_self, Sock.release]
    rcases found : (p i).peer with _ | k
    · exact modify_of_ne other
    · have distinct : j ≠ k := by
        rintro rfl
        exact apart found
      dsimp only
      rw [modify_of_ne other, modify_of_ne distinct, modify_of_ne other]

/-- What a successful `unix_sock_connect_stream` leaves behind; `n` is the slot of the new
socket. -/
structure Linked (p : Pool) (c target n : Index) (q : Pool) : Prop where
  client : q c = { p c with peer := some n, state := .connected }
  peer : q n = { Sock.zero with state := .connected, refcount := 2, peer := some c }
  queue : q target = { p target with
    acceptQueue :=
    update (p target).acceptQueue (((p target).acceptHead + (p target).acceptCount) % backlog) n
    acceptCount := (p target).acceptCount + 1 }
  others : ∀ i, i ≠ c → i ≠ n → i ≠ target → q i = p i

/-- What `unix_sock_connect_stream` can do. -/
inductive Connects (p : Pool) (c target : Index) : Pool × Except Errno Unit → Prop
  | nomem (full : p.firstFree = none) : Connects p c target (p, .error .nomem)
  | refused (free : p.firstFree = some n) (full : backlog ≤ (p target).acceptCount)
      (slot : (q n).state = .free ∧ (q n).peer = none) (others : ∀ i, i ≠ n → q i = p i) :
      Connects p c target (q, .error .connrefused)
  | linked (free : p.firstFree = some n) (room : (p target).acceptCount < backlog)
      (linked : Linked p c target n q) : Connects p c target (q, .ok ())

theorem connectStream_connects (client : (p c).state ≠ .free) (used : (p target).state ≠ .free)
    (apart : c ≠ target) : Connects p c target (p.connectStream c target) := by
  rw [connectStream, alloc]
  rcases free : p.firstFree with _ | n
  · exact .nomem free
  have empty := firstFree_free free
  have away : ∀ {i}, (p i).state ≠ .free → i ≠ n := by
    rintro i taken rfl
    exact taken empty
  have here : ∀ {s : Sock}, update p n s target = p target := update_of_ne (away used) ..
  dsimp only
  rw [here]
  split
  · next full =>
    rw [cleanup_alone (by rw [update_self]; rfl)]
    refine .refused free full ?_ ?_
    · rw [modify_self, update_self]
      exact ⟨rfl, rfl⟩
    · intro i other
      rw [modify_of_ne other, update_of_ne other]
  · next room =>
    refine .linked free (Nat.lt_of_not_le room) ?_
    have other := away client
    constructor
    · rw [hold, modify_of_ne other, modify_of_ne apart, modify_of_ne other, modify_self,
        modify_of_ne other, modify_self, update_of_ne other]
    · rw [hold, modify_self, modify_of_ne (away used).symm, modify_self, modify_of_ne other.symm,
        modify_self, modify_of_ne other.symm, update_self]
      rfl
    · rw [hold, modify_of_ne (away used), modify_self, modify_of_ne (away used),
        modify_of_ne apart.symm, modify_of_ne (away used), modify_of_ne apart.symm, here]
    · intro i first second third
      rw [hold, modify_of_ne second, modify_of_ne third, modify_of_ne second, modify_of_ne first,
        modify_of_ne second, modify_of_ne first, update_of_ne second]

theorem acceptDequeue_accepted (ran : p.acceptDequeue i = .accepted q n) :
    (p i).acceptCount ≠ 0 ∧ n = (p i).acceptQueue (p i).acceptTail ∧
    q = (p.modify i Sock.popAccept).put n := by
  unfold acceptDequeue at ran
  split at ran
  · cases ran
  · split at ran
    · cases ran
    · next some_ =>
      cases ran
      exact ⟨some_, rfl, rfl⟩

end Pool
end Otsos.Net.UnixSock
