import Otsos.Foundation.Transition
import Otsos.Net.UnixSock

/-! Connections to a listening socket, in the order in which they are accepted. -/
namespace Otsos.Net.UnixSock
open Function (update update_self update_of_ne)
open Transition
open List

/-- The pool, and the connections so far: `connected` has each successful connect with the socket
that became its peer, `accepted` has what `unix_sock_accept_dequeue` returned. -/
structure Watch where
  pool : Pool
  connected : List (Index × Index)
  accepted : List Index

/-- The connections that were not yet accepted. -/
def Watch.waiting (w : Watch) : List (Index × Index) := w.connected.drop w.accepted.length

inductive Act where
  | socket
  | connect (c : Index)
  | accept
  | close (i : Index)

/-- A call on the pool, in which `l` listens. -/
def Watch.step (l : Index) (w : Watch) : Act → Option Watch
  | .socket => w.pool.alloc.map fun made => { w with pool := made.1 }
  | .connect c =>
    match w.pool.connectStream c l with
    | (pool, .error _) => some { w with pool }
    | (pool, .ok ()) =>
      match (pool c).peer with
      | none => none
      | some n => some { w with pool, connected := w.connected ++ [(c, n)] }
  | .accept =>
    match w.pool.acceptDequeue l with
    | .accepted pool n => some { w with pool, accepted := w.accepted ++ [n] }
    | .refused | .nobody => none
  | .close i => some { w with pool := w.pool.put i }

/-- A peer has its peer as peer. -/
def Pool.Paired (p : Pool) : Prop := ∀ i j, (p i).peer = some j → (p j).peer = some i ∧
  (p i).state = .connected

/-- A socket that just listens, in a pool of any sockets. -/
structure Watch.Starts (l : Index) (w : Watch) : Prop where
  listening : (w.pool l).state = .listening
  fresh : (w.pool l).acceptHead = 0 ∧ (w.pool l).acceptTail = 0 ∧ (w.pool l).acceptCount = 0
  paired : w.pool.Paired
  logs : w.connected = [] ∧ w.accepted = []

/-- A client that is not connected connects, with a free slot in the pool and with `accept_tail`
back at the start of the backlog, or the backlog is full; and nobody closes the listener or an end
of a connection that waits. -/
def Watch.InTurn (l : Index) (w : Watch) : Act → Prop
  | .socket | .accept => True
  | .connect c => ((w.pool c).state = .unbound ∨ (w.pool c).state = .bound) ∧
      ((w.pool l).acceptCount < backlog → w.pool.firstFree ≠ none ∧ (w.pool l).acceptTail = 0)
  | .close i => i ≠ l ∧ ∀ e ∈ w.waiting, i ≠ e.1 ∧ i ≠ e.2

instance (l : Index) (w : Watch) : (a : Act) → Decidable (w.InTurn l a)
  | .socket | .accept => .isTrue trivial
  | .connect _ => instDecidableAnd
  | .close _ => instDecidableAnd

/-- The connection is up: each of the two sockets is the peer of the other. -/
structure Pool.Joined (p : Pool) (c n : Index) : Prop where
  client : (p c).peer = some n ∧ (p c).state = .connected
  peer : (p n).peer = some c ∧ (p n).state = .connected

/-- A connection that waits: the backlog has a reference to the new socket besides the one of its
owner to be. -/
def Pool.Waits (p : Pool) (e : Index × Index) : Prop := p.Joined e.1 e.2 ∧ (p e.2).refcount = 2

/-- Connections are accepted in order, each once; those that wait are up; the next accept returns
the first of them, which is then still up; and a connect fails exactly when the backlog is full. -/
structure Watch.Ordered (l : Index) (w : Watch) : Prop where
  order : w.accepted = (w.connected.map Prod.snd).take w.accepted.length
  joined : ∀ e ∈ w.waiting, w.pool.Joined e.1 e.2
  accepts : ∀ e rest, w.waiting = e :: rest → ∃ q, w.pool.acceptDequeue l = .accepted q e.2 ∧
    q.Joined e.1 e.2
  refused : ∀ c, w.InTurn l (.connect c) →
    ((w.pool.connectStream c l).2 ≠ .ok () ↔ w.waiting.length = backlog)

/-- The backlog as a ring: it is read at `accept_tail`. -/
def Sock.ring (s : Sock) : RingBuffer Index :=
  ⟨s.acceptQueue, s.acceptTail, RingBuffer.index backlog s.acceptTail s.acceptCount, s.acceptCount⟩

def Sock.queue (s : Sock) : List Index := s.ring.contents backlog

/-- What holds between the calls. -/
structure Watch.Sound (l : Index) (w : Watch) : Prop where
  listening : (w.pool l).state = .listening
  head : (w.pool l).acceptHead = 0
  ring : (w.pool l).ring.Sound backlog
  order : w.connected.map Prod.snd = w.accepted ++ (w.pool l).queue
  joined : ∀ e ∈ w.waiting, w.pool.Waits e
  distinct : (w.pool l).queue.Nodup
  paired : w.pool.Paired

variable {w : Watch} {p q : Pool} {a : Act}

theorem Pool.Waits.congr (waits : p.Waits e)
    (first : (q e.1).peer = (p e.1).peer ∧ (q e.1).state = (p e.1).state)
    (second : (q e.2).peer = (p e.2).peer ∧ (q e.2).state = (p e.2).state)
    (refs : (q e.2).refcount = (p e.2).refcount) : q.Waits e := by
  refine ⟨⟨?_, ?_⟩, refs.trans waits.2⟩
  · rw [first.1, first.2]
    exact waits.1.client
  · rw [second.1, second.2]
    exact waits.1.peer

theorem Pool.Waits.kept (waits : p.Waits e) (first : q e.1 = p e.1) (second : q e.2 = p e.2) :
    q.Waits e :=
  waits.congr ⟨congrArg Sock.peer first, congrArg Sock.state first⟩
    ⟨congrArg Sock.peer second, congrArg Sock.state second⟩ (congrArg Sock.refcount second)

theorem Watch.Sound.waiting (sound : w.Sound l) : w.waiting.map Prod.snd = (w.pool l).queue := by
  rw [Watch.waiting, map_drop, sound.order, drop_left]

theorem Watch.Sound.count (sound : w.Sound l) : (w.pool l).acceptCount = w.waiting.length := by
  rw [← length_map Prod.snd, sound.waiting, Sock.queue, RingBuffer.length_contents]
  rfl

theorem Watch.Sound.apart (sound : w.Sound l) (other : (w.pool i).state ≠ .connected) :
    ∀ e ∈ w.waiting, e.1 ≠ i ∧ e.2 ≠ i := by
  intro e mem
  obtain ⟨joined, -⟩ := sound.joined e mem
  constructor
  · rintro rfl
    exact other joined.client.2
  · rintro rfl
    exact other joined.peer.2

theorem Sock.queue_cons {s : Sock} (sound : s.ring.Sound backlog) (some_ : s.acceptCount ≠ 0) :
    s.queue = s.acceptQueue s.acceptTail :: s.queue.eraseIdx 0 := by
  have inside : 0 < s.queue.length := by
    rw [queue, RingBuffer.length_contents]
    exact Nat.pos_of_ne_zero some_
  have first : s.queue[0] = s.acceptQueue s.acceptTail := by
    have low : s.acceptTail % backlog = s.acceptTail := Nat.mod_eq_of_lt sound.head
    refine (RingBuffer.getElem_contents inside).trans ?_
    exact congrArg s.acceptQueue low
  rw [← first, eraseIdx_zero]
  exact (cons_head_tail (ne_nil_of_length_pos inside)).symm.trans (by rw [head_eq_getElem])

theorem Pool.modify_keeps (kept : ∀ s, (f s).peer = s.peer ∧ (f s).state = s.state) (j : Index) :
    (p.modify i f j).peer = (p j).peer ∧ (p.modify i f j).state = (p j).state := by
  by_cases own : j = i
  · rw [own, modify_self]
    exact kept _
  · rw [modify_of_ne own]
    exact ⟨rfl, rfl⟩

/-- The pool behind an accept that returns `n`. -/
def Pool.taken (p : Pool) (l n : Index) : Pool := (p.modify l Sock.popAccept).modify n Sock.release

theorem Pool.taken_keeps (i : Index) :
    (p.taken l n i).peer = (p i).peer ∧ (p.taken l n i).state = (p i).state := by
  have before := modify_keeps (p := p) (i := l) (f := Sock.popAccept) (fun _ => ⟨rfl, rfl⟩) i
  have after :=
    modify_keeps (i := n) (f := Sock.release) (p := p.modify l Sock.popAccept) (fun _ => ⟨rfl, rfl⟩) i
  exact ⟨after.1.trans before.1, after.2.trans before.2⟩

/-- The reference that the backlog had is not the last one. -/
theorem Watch.Sound.put_waiting (sound : w.Sound l) (mem : e ∈ w.waiting) :
    e.2 ≠ l ∧ (w.pool.modify l Sock.popAccept).put e.2 = w.pool.taken l e.2 := by
  have listener : (w.pool l).state ≠ .connected := by
    rw [sound.listening]
    nofun
  have other := (sound.apart listener e mem).2
  refine ⟨other, Pool.put_kept ?_⟩
  rw [Pool.modify_of_ne other, (sound.joined e mem).2]
  decide

theorem Watch.Sound.accepts (sound : w.Sound l) (first : w.waiting = e :: rest) :
    w.pool.acceptDequeue l = .accepted (w.pool.taken l e.2) e.2 ∧
    (w.pool.taken l e.2).Joined e.1 e.2 := by
  have mem : e ∈ w.waiting := first ▸ mem_cons_self
  have some_ : (w.pool l).acceptCount ≠ 0 := by
    rw [sound.count, first]
    nofun
  have oldest : (w.pool l).acceptQueue (w.pool l).acceptTail = e.2 := by
    have cons := Sock.queue_cons sound.ring some_
    rw [← sound.waiting, first, map_cons] at cons
    exact (head_eq_of_cons_eq cons).symm
  obtain ⟨joined, -⟩ := sound.joined e mem
  constructor
  · rw [Pool.acceptDequeue, if_neg (not_not.mpr sound.listening), if_neg some_, oldest]
    exact congrArg (Pool.Dequeued.accepted · e.2) (sound.put_waiting mem).2
  · constructor
    · rw [(Pool.taken_keeps e.1).1, (Pool.taken_keeps e.1).2]
      exact joined.client
    · rw [(Pool.taken_keeps e.2).1, (Pool.taken_keeps e.2).2]
      exact joined.peer

theorem Watch.Sound.ordered (sound : w.Sound l) : w.Ordered l := by
  refine ⟨?_, fun e mem => (sound.joined e mem).1, fun _ _ first => ⟨_, sound.accepts first⟩, ?_⟩
  · rw [sound.order, take_left]
  · intro c turn
    obtain ⟨idle, room⟩ := turn
    have client : (w.pool c).state ≠ .free := by
      rintro free
      rcases idle with idle | idle <;> cases idle.symm.trans free
    have used : (w.pool l).state ≠ .free := by simp [sound.listening]
    have apart : c ≠ l := by
      rintro rfl
      rw [sound.listening] at idle
      rcases idle with idle | idle <;> cases idle
    have short : (w.pool l).acceptCount ≤ backlog := sound.ring.count
    rw [← sound.count]
    generalize ran : w.pool.connectStream c l = result
    have connects := Pool.connectStream_connects client used apart
    rw [ran] at connects
    cases connects with
    | nomem full =>
      refine ⟨fun _ => ?_, fun _ => nofun⟩
      by_contra few
      exact (room (by omega)).1 full
    | refused free full => exact ⟨fun _ => by omega, fun _ => nofun⟩
    | linked free room => exact ⟨fun failed => absurd rfl failed, fun full => by omega⟩

/-! ### Steps -/

theorem Watch.Sound.frame (sound : w.Sound l) (here : q l = w.pool l)
    (ends : ∀ e ∈ w.waiting, q e.1 = w.pool e.1 ∧ q e.2 = w.pool e.2) (paired : q.Paired) :
    Watch.Sound l { w with pool := q } := by
  have ring : (q l).ring.Sound backlog := by
    rw [here]
    exact sound.ring
  have queue : (q l).queue = (w.pool l).queue := congrArg Sock.queue here
  constructor
  · exact (congrArg Sock.state here).trans sound.listening
  · exact (congrArg Sock.acceptHead here).trans sound.head
  · exact ring
  · exact sound.order.trans (congrArg (w.accepted ++ ·) queue.symm)
  · exact fun e mem => (sound.joined e mem).kept (ends e mem).1 (ends e mem).2
  · exact queue.symm ▸ sound.distinct
  · exact paired

theorem Pool.Paired.lone (paired : p.Paired) (before : (p n).state ≠ .connected)
    (after : (q n).peer = none) (others : ∀ i, i ≠ n → q i = p i) : q.Paired := by
  intro i j peer
  have first : i ≠ n := by
    rintro rfl
    cases after.symm.trans peer
  rw [others i first] at peer ⊢
  obtain ⟨back, state⟩ := paired i j peer
  have second : j ≠ n := by
    rintro rfl
    exact before (paired j i back).2
  rw [others j second]
  exact ⟨back, state⟩

theorem Watch.Sound.lone (sound : w.Sound l) (before : (w.pool n).state = .free)
    (after : (q n).peer = none) (others : ∀ i, i ≠ n → q i = w.pool i) :
    Watch.Sound l { w with pool := q } := by
  have apart : (w.pool n).state ≠ .connected := by
    rw [before]
    nofun
  apply sound.frame
  · apply others
    rintro rfl
    cases sound.listening.symm.trans before
  · intro e mem
    obtain ⟨first, second⟩ := sound.apart apart e mem
    exact ⟨others _ first, others _ second⟩
  · exact sound.paired.lone apart after others

theorem Pool.Paired.congr (paired : p.Paired)
    (same : ∀ i, (q i).peer = (p i).peer ∧ (q i).state = (p i).state) : q.Paired := by
  intro i j peer
  rw [(same i).1] at peer
  rw [(same j).1, (same i).2]
  exact paired i j peer

theorem Pool.Paired.put (paired : p.Paired) : (p.put i).Paired := by
  rcases lt_or_ge 1 (p i).refcount with more | last
  · rw [put_kept more]
    exact paired.congr (modify_keeps (f := Sock.release) fun _ => ⟨rfl, rfl⟩)
  obtain ⟨own, theirs, rest⟩ := put_last last
  intro j k peer
  have first : j ≠ i := by
    rintro rfl
    rw [own] at peer
    cases peer
  have apart : (p i).peer ≠ some j := by
    intro joined
    rw [theirs j first joined] at peer
    cases peer
  rw [rest j first apart] at peer ⊢
  obtain ⟨back, state⟩ := paired j k peer
  have second : k ≠ i := by
    rintro rfl
    exact apart back
  have other : (p i).peer ≠ some k := by
    intro joined
    have theirs := (paired i k joined).1
    exact first (Option.some.inj (back.symm.trans theirs))
  rw [rest k second other]
  exact ⟨back, state⟩

theorem Pool.put_other (other : j ≠ i) (apart : (p i).peer ≠ some j) : p.put i j = p j := by
  rcases lt_or_ge 1 (p i).refcount with more | last
  · rw [put_kept more, modify_of_ne other]
  · exact (put_last last).2.2 j other apart

theorem Watch.Sound.close (sound : w.Sound l) (turn : w.InTurn l (.close i)) :
    Watch.Sound l { w with pool := w.pool.put i } := by
  obtain ⟨other, away⟩ := turn
  apply sound.frame
  · apply Pool.put_other other.symm
    intro peer
    have back := (sound.paired i l peer).1
    cases sound.listening.symm.trans (sound.paired l i back).2
  · intro e mem
    obtain ⟨first, second⟩ := away e mem
    obtain ⟨joined, -⟩ := sound.joined e mem
    constructor
    · apply Pool.put_other first.symm
      intro peer
      have back := (sound.paired i e.1 peer).1
      exact second (Option.some.inj (back.symm.trans joined.client.1))
    · apply Pool.put_other second.symm
      intro peer
      have back := (sound.paired i e.2 peer).1
      exact first (Option.some.inj (back.symm.trans joined.peer.1))
  · exact sound.paired.put

theorem Pool.Paired.alone (paired : p.Paired) (idle : (p i).state ≠ .connected)
    (peer : (p j).peer = some k) : j ≠ i ∧ k ≠ i := by
  obtain ⟨back, state⟩ := paired j k peer
  constructor
  · rintro rfl
    exact idle state
  · rintro rfl
    exact idle (paired k j back).2

theorem Pool.Paired.linked (paired : p.Paired) (linked : Pool.Linked p c l n q)
    (client : (p c).state ≠ .connected) (slot : (p n).state ≠ .connected)
    (listener : (p l).state ≠ .connected) : q.Paired := by
  intro i j peer
  by_cases first : i = c
  · subst first
    rw [linked.client] at peer ⊢
    cases peer
    rw [linked.peer]
    exact ⟨rfl, rfl⟩
  · by_cases second : i = n
    · subst second
      rw [linked.peer] at peer ⊢
      cases peer
      rw [linked.client]
      exact ⟨rfl, rfl⟩
    · have third : i ≠ l := by
        rintro rfl
        rw [linked.queue] at peer
        exact (paired.alone listener peer).1 rfl
      rw [linked.others i first second third] at peer ⊢
      rw [linked.others j (paired.alone client peer).2 (paired.alone slot peer).2 (paired.alone listener peer).2]
      exact paired i j peer

theorem Watch.Sound.connect (sound : w.Sound l) (client : (w.pool c).state ≠ .connected)
    (free : w.pool.firstFree = some n) (room : (w.pool l).acceptCount < backlog)
    (tail : (w.pool l).acceptTail = 0) (linked : Pool.Linked w.pool c l n q) :
    Watch.Sound l { w with pool := q, connected := w.connected ++ [(c, n)] } := by
  have slot : (w.pool n).state ≠ .connected := by
    rw [Pool.firstFree_free free]
    nofun
  have listener : (w.pool l).state ≠ .connected := by
    rw [sound.listening]
    nofun
  have ring : (q l).ring = (w.pool l).ring.push backlog n := by
    rw [linked.queue, Sock.ring, Sock.ring, RingBuffer.push, RingBuffer.index_succ, tail, sound.head]
    rfl
  have queue : (q l).queue = (w.pool l).queue ++ [n] := by
    rw [Sock.queue, ring, sound.ring.contents_push room]
    rfl
  have longer : w.accepted.length ≤ w.connected.length := by
    rw [← length_map Prod.snd, sound.order, length_append]
    exact Nat.le_add_right ..
  have waiting : (w.connected ++ [(c, n)]).drop w.accepted.length = w.waiting ++ [(c, n)] :=
    drop_append_of_le_length longer
  constructor
  · exact (congrArg Sock.state linked.queue).trans sound.listening
  · exact (congrArg Sock.acceptHead linked.queue).trans sound.head
  · exact ring ▸ sound.ring.push room
  · rw [map_append, sound.order, queue, append_assoc]
    rfl
  · intro e mem
    rw [Watch.waiting, waiting] at mem
    rcases mem_append.mp mem with before | new
    · have ends := fun {i} (idle : (w.pool i).state ≠ .connected) => sound.apart idle e before
      have first := linked.others e.1 (ends client).1 (ends slot).1 (ends listener).1
      have second := linked.others e.2 (ends client).2 (ends slot).2 (ends listener).2
      exact (sound.joined e before).kept first second
    · obtain rfl := mem_singleton.mp new
      have client : (q c).peer = some n ∧ (q c).state = .connected := by
        rw [linked.client]
        exact ⟨rfl, rfl⟩
      have peer : ((q n).peer = some c ∧ (q n).state = .connected) ∧ (q n).refcount = 2 := by
        rw [linked.peer]
        exact ⟨⟨rfl, rfl⟩, rfl⟩
      exact ⟨⟨client, peer.1⟩, peer.2⟩
  · rw [queue, ← sound.waiting]
    refine nodup_append.mpr ⟨sound.waiting ▸ sound.distinct, pairwise_singleton .., ?_⟩
    intro x mem y new
    obtain ⟨e, before, rfl⟩ := mem_map.mp mem
    rw [mem_singleton.mp new]
    exact (sound.apart slot e before).2
  · exact sound.paired.linked linked client slot listener

theorem Watch.Sound.accept {pool : Pool} (sound : w.Sound l)
    (ran : w.pool.acceptDequeue l = .accepted pool n) :
    Watch.Sound l { w with pool, accepted := w.accepted ++ [n] } := by
  obtain ⟨some_, oldest, rfl⟩ := Pool.acceptDequeue_accepted ran
  have pops : 0 < (w.pool l).ring.count := Nat.pos_of_ne_zero some_
  have cons := Sock.queue_cons sound.ring some_
  rw [← oldest] at cons
  -- the socket that is returned is that of the first connection that waits
  obtain ⟨e, first, same⟩ : ∃ e ∈ w.waiting, e.2 = n := by
    have mem : n ∈ w.waiting.map Prod.snd := by
      rw [sound.waiting, cons]
      exact mem_cons_self
    exact mem_map.mp mem
  obtain ⟨other, kept⟩ := sound.put_waiting first
  rw [same] at other kept
  rw [kept]
  have here : w.pool.taken l n l = (w.pool l).popAccept := by
    rw [Pool.taken, Pool.modify_of_ne other.symm, Pool.modify_self]
  have there := Pool.taken_keeps (p := w.pool) (l := l) (n := n)
  have removed := sound.ring.removeAt pops
  have ring : (w.pool l).popAccept.ring = (w.pool l).ring.removeAt backlog 0 := by
    have tail := removed.tail
    exact congrArg (RingBuffer.mk _ _ · _) tail.symm
  have queue : (w.pool l).popAccept.queue = (w.pool l).queue.eraseIdx 0 := by
    rw [Sock.queue, ring, sound.ring.contents_removeAt pops]
    rfl
  have rest : ∀ i, i ≠ n → (w.pool.taken l n i).refcount = (w.pool i).refcount := by
    intro i away
    rw [Pool.taken, Pool.modify_of_ne away]
    by_cases own : i = l
    · rw [own, Pool.modify_self]
      rfl
    · rw [Pool.modify_of_ne own]
  generalize w.pool.taken l n = q at here there rest
  have distinct : n ∉ (w.pool l).queue.eraseIdx 0 ∧ ((w.pool l).queue.eraseIdx 0).Nodup := by
    have all := sound.distinct
    rw [cons] at all
    exact nodup_cons.mp all
  have ringed : (q l).ring.Sound backlog := by
    rw [here, ring]
    exact removed
  have queued : (q l).queue = (w.pool l).queue.eraseIdx 0 := (congrArg Sock.queue here).trans queue
  have waiting : w.connected.drop (w.accepted ++ [n]).length = w.waiting.drop 1 := by
    rw [Watch.waiting, drop_drop, length_append]
    rfl
  constructor
  · exact (there l).2.trans sound.listening
  · exact (congrArg Sock.acceptHead here).trans sound.head
  · exact ringed
  · rw [queued, append_assoc]
    exact sound.order.trans (congrArg (w.accepted ++ ·) cons)
  · intro f mem
    rw [Watch.waiting, waiting] at mem
    have before := mem_of_mem_drop mem
    have later : f.2 ∈ (w.pool l).queue.eraseIdx 0 := by
      rw [← sound.waiting, eraseIdx_zero, ← drop_one, ← map_drop]
      exact mem_map_of_mem mem
    have apart : f.2 ≠ n := by
      intro same
      rw [same] at later
      exact distinct.1 later
    exact (sound.joined f before).congr (there f.1) (there f.2) (rest f.2 apart)
  · exact queued ▸ distinct.2
  · exact sound.paired.congr there

theorem Watch.Sound.step (sound : w.Sound l) (turn : w.InTurn l a) (ran : w.step l a = some w') :
    w'.Sound l := by
  cases a with
  | socket =>
    rw [Watch.step, Pool.alloc] at ran
    rcases free : w.pool.firstFree with _ | n
    · rw [free] at ran
      cases ran
    · rw [free] at ran
      cases ran
      have slot := update_self n { Sock.zero with state := .unbound, refcount := 1 } w.pool
      exact sound.lone (Pool.firstFree_free free) (congrArg Sock.peer slot) (fun i other => update_of_ne other ..)
  | connect c =>
    obtain ⟨idle, room⟩ := turn
    have client : (w.pool c).state ≠ .free ∧ (w.pool c).state ≠ .connected ∧ (w.pool c).state ≠ .listening := by
      rcases idle with idle | idle <;> simp [idle]
    have used : (w.pool l).state ≠ .free := by simp [sound.listening]
    have apart : c ≠ l := by
      rintro rfl
      exact client.2.2 sound.listening
    have connects := Pool.connectStream_connects client.1 used apart
    rw [Watch.step] at ran
    generalize w.pool.connectStream c l = result at connects ran
    cases connects with
    | nomem =>
      cases ran
      exact sound
    | refused free _ slot others =>
      cases ran
      exact sound.lone (Pool.firstFree_free free) slot.2 others
    | linked free few linked =>
      simp only [linked.client] at ran
      cases ran
      exact sound.connect client.2.1 free few (room few).2 linked
  | accept =>
    rw [Watch.step] at ran
    split at ran
    · next dequeued =>
      cases ran
      exact sound.accept dequeued
    · cases ran
    · cases ran
  | close i =>
    cases ran
    exact sound.close turn

theorem Watch.Starts.sound (start : w.Starts l) : w.Sound l := by
  obtain ⟨head, tail, count⟩ := start.fresh
  have ring : (w.pool l).ring = RingBuffer.empty (w.pool l).acceptQueue := by
    rw [Sock.ring, tail, count]
    rfl
  have queue : (w.pool l).queue = [] := by
    rw [Sock.queue, ring, RingBuffer.contents_empty]
  have waiting : w.waiting = [] := by
    rw [Watch.waiting, start.logs.1, drop_nil]
  constructor
  · exact start.listening
  · exact head
  · exact ring ▸ RingBuffer.sound_empty (by decide)
  · rw [queue, start.logs.1, start.logs.2]
    rfl
  · rw [waiting]
    nofun
  · rw [queue]
    exact nodup_nil
  · exact start.paired

/-- In a run of connects, accepts and closes in which every connect that is taken finds
`accept_tail` at 0, a free slot and a client that is not connected, connections are accepted in
order. -/
theorem accepts_ordered (start : w.Starts l) (run : Reaches (Watch.step l) (Watch.InTurn l) w w') :
    w'.Ordered l := by
  have sound : w'.Sound l :=
    run.invariant (I := Watch.Sound l) (fun sound turn ran => sound.step turn ran) start.sound
  exact sound.ordered

/-- Socket 0 listens; sockets 1 and 2 are not connected. -/
def oneListener : Watch where
  pool := fun i =>
    if i = 0 then { Sock.zero with state := .listening, refcount := 1 }
    else if i < 3 then { Sock.zero with state := .unbound, refcount := 1 } else Sock.zero
  connected := []
  accepted := []

theorem oneListener_starts : oneListener.Starts 0 := by
  refine ⟨rfl, ⟨rfl, rfl, rfl⟩, ?_, rfl, rfl⟩
  intro i j peer
  have none : (oneListener.pool i).peer = none := by
    simp only [oneListener]
    split
    · rfl
    · split <;> rfl
  cases none.symm.trans peer

/-- Socket 1 connects and is accepted, then socket 2 connects: its connection is stored in cell 0 of
the backlog again, but the second accept reads cell 1 and returns the listener itself. -/
theorem accepts_crossed : ∃ w, Reaches (Watch.step 0) Free oneListener w ∧
    w.connected = [(1, 3), (2, 4)] ∧ w.accepted = [3, 0] ∧ ¬w.Ordered 0 := by
  have ran : ∃ w, Reaches (Watch.step 0) Free oneListener w ∧ (w.connected = [(1, 3), (2, 4)] && w.accepted = [3, 0]) :=
    Reaches.exists_of_exec [.connect 1, .accept, .connect 2, .accept] (by decide +kernel)
  obtain ⟨w, run, seen⟩ := ran
  obtain ⟨connected, accepted⟩ := Bool.and_eq_true_iff.mp seen
  have connected := of_decide_eq_true connected
  have accepted := of_decide_eq_true accepted
  refine ⟨w, run, connected, accepted, ?_⟩
  intro ordered
  have order := ordered.order
  rw [connected, accepted] at order
  cases order

/-- Both connect before the first is accepted. -/
theorem accepts_ordered_two : ∃ w, Reaches (Watch.step 0) (Watch.InTurn 0) oneListener w ∧
    w.accepted = [3, 4] ∧ w.Ordered 0 := by
  have ran : ∃ w, Reaches (Watch.step 0) (Watch.InTurn 0) oneListener w ∧ (w.accepted = [3, 4] : Bool) :=
    Reaches.exists_of_exec [.connect 1, .connect 2, .accept, .accept] (by decide +kernel)
  obtain ⟨w, run, accepted⟩ := ran
  exact ⟨w, run, of_decide_eq_true accepted, accepts_ordered oneListener_starts run⟩

end Otsos.Net.UnixSock
