import Otsos.Ipc.Delivery

/-! Cancelled calls of one client. A server makes a service and a client connects to it; then both
send and receive, and the client calls. -/
namespace Otsos.Ipc
open Function (update update_of_ne update_self)
open List

def server : Nat := 0
def client : Nat := 1

theorem client_ne_server : client ≠ server := by decide

/-- The client calls, and nothing is made or closed. -/
def Event.Talks : Event → Prop
  | .create .. | .connect .. | .close .. => False
  | .call _ own .. => own = client
  | .send .. | .recv .. | .resume .. | .finish .. => True

namespace Pc

/-- The message that a thread waits to queue, with the endpoint that it comes from. -/
def message : Pc → Option (Nat × Msg)
  | .sending own _ m _ | .requesting own _ m .. => some (own, m)
  | .idle | .receiving .. | .awaiting .. | .done .. => none

/-- The number of the message of the client that a thread waits to queue or to have answered. -/
def number : Pc → Option Nat
  | .sending own _ m _ => if own = client then some m.stamp else none
  | .requesting _ _ m .. => some m.stamp
  | .awaiting _ _ request .. => some request
  | .idle | .receiving .. | .done .. => none

/-- Messages go from one of the two to the other; calls are the client's. -/
def Duo : Pc → Prop
  | .sending own target .. => (own = server ∧ target = client) ∨ (own = client ∧ target = server)
  | .requesting own target .. => own = client ∧ target = server
  | .awaiting own .. => own = client
  | .idle | .receiving .. | .done .. => True

theorem number_of_message {pc : Pc} (has : pc.message = some (client, m)) :
    pc.number = some m.stamp := by
  cases pc with
  | sending own target q flags =>
    cases has
    rw [number, if_pos rfl]
  | requesting own target q flags space patience =>
    cases has
    rfl
  | idle | receiving | awaiting | done => cases has

end Pc

/-- A thread waits to queue the message. -/
def Carried (threads : List Pc) (own : Nat) (m : Msg) : Prop :=
  ∃ (n : Nat) (pc : Pc), threads[n]? = some pc ∧ pc.message = some (own, m)

/-- A message of the client, queued at the server or about to be. -/
def Known (threads : List Pc) (hs : List Happening) (m : Msg) : Prop :=
  .queued server m ∈ hs ∨ Carried threads client m

/-- A message of the server. -/
def Told (threads : List Pc) (hs : List Happening) (m : Msg) : Prop :=
  .queued client m ∈ hs ∨ .dropped client m ∈ hs ∨ Carried threads server m

/-- The server got a message with this id and number. -/
def Asked (hs : List Happening) (id : UInt64) (request : Nat) : Prop :=
  ∃ m, .queued server m ∈ hs ∧ m.stamp = request ∧ m.id = id

/-- What the server sends is a reply to a message that it got, or no reply. -/
def Replies (hs : List Happening) (m : Msg) : Prop :=
  (m.replyTo = 0 ∧ m.answers = none) ∨ ∃ q, .queued server q ∈ hs ∧ m.answers = some q.stamp ∧
    m.replyTo = q.id

/-- What is known of the messages and calls after a history. -/
structure Ledger (threads : List Pc) (v : View) (stamps : Nat) (hs : List Happening) : Prop where
  queue : ∀ e, ∀ m ∈ v.queue e, .queued e m ∈ hs
  received : ∀ e m call, .received e m call ∈ hs → .queued e m ∈ hs
  duo : ∀ (n : Nat) pc, threads[n]? = some pc → pc.Duo
  below : ∀ m, Known threads hs m → m.stamp < stamps ∧ m.id ≠ 0
  same : ∀ m m', Known threads hs m → Known threads hs m' → (m.stamp = m'.stamp ↔ m.id = m'.id)
  unsent : ∀ m q, Carried threads client m → .queued server q ∈ hs → q.stamp ≠ m.stamp
  numbers : ∀ (n n' : Nat) pc pc' k, n ≠ n' → threads[n]? = some pc → threads[n']? = some pc' →
    pc.number = some k → pc'.number ≠ some k
  awaits : ∀ (n : Nat) own id k space patience,
    threads[n]? = some (.awaiting own id k space patience) → Asked hs id k
  gave : ∀ id k, .gaveUp client id k ∈ hs → Asked hs id k
  gone : ∀ id k (n : Nat) pc, .gaveUp client id k ∈ hs → threads[n]? = some pc → pc.number ≠ some k
  replies : ∀ m, Told threads hs m → Replies hs m
  clear : ∀ id k m, .gaveUp client id k ∈ hs → m ∈ v.queue client ∨ Carried threads server m →
    m.answers ≠ some k
  noted : ∀ id k, .gaveUp client id k ∈ hs →
    (∃ i < ipcCancelSlots, (v.table client).canceled i = id) ∨ ∃ m, .dropped client m ∈ hs ∧
    m.answers = some k
  entries : ∀ i < ipcCancelSlots, (v.table client).canceled i ≠ 0 →
    ∃ k, .gaveUp client ((v.table client).canceled i) k ∈ hs
  pos : (v.table client).pos < ipcCancelSlots

namespace Table

variable {t : Table} {id : UInt64}

theorem take_some (taken : t.take id = some t') :
    id ≠ 0 ∧ t'.pos = t.pos ∧ ∃ i < ipcCancelSlots, t.canceled i = id ∧
    t'.canceled = update t.canceled i 0 := by
  rw [take] at taken
  split at taken
  · cases taken
  · next notZero =>
    obtain ⟨i, found, rfl⟩ := Option.map_eq_some_iff.mp taken
    have inside : i < ipcCancelSlots := mem_range.mp (mem_of_find?_eq_some found)
    exact ⟨notZero, rfl, i, inside, by simpa using find?_some found, rfl⟩

theorem take_none (missing : t.take id = none) (inside : i < ipcCancelSlots) (notZero : id ≠ 0) :
    t.canceled i ≠ id := by
  rw [take, if_neg notZero, Option.map_eq_none_iff] at missing
  simpa using find?_eq_none.mp missing i (mem_range.mpr inside)

theorem add_of_ne (notZero : id ≠ 0) :
    t.add id = ⟨update t.canceled t.pos id, (t.pos + 1) % ipcCancelSlots⟩ :=
  if_neg notZero

end Table

section Set

variable {threads : List Pc} {m : Msg}

theorem getElem?_set_some (there : (threads.set n pc')[j]? = some pc) :
    (j = n ∧ pc = pc') ∨ (j ≠ n ∧ threads[j]? = some pc) := by
  by_cases same : j = n
  · subst same
    rw [getElem?_set_self'] at there
    obtain ⟨_, _, rfl⟩ := Option.map_eq_some_iff.mp there
    exact .inl ⟨rfl, rfl⟩
  · rw [getElem?_set_ne (Ne.symm same)] at there
    exact .inr ⟨same, there⟩

theorem forall_set {P : Nat → Pc → Prop} (new : P n pc')
    (old : ∀ (j : Nat) pc, threads[j]? = some pc → P j pc) :
    ∀ (j : Nat) pc, (threads.set n pc')[j]? = some pc → P j pc := by
  intro j pc there
  rcases getElem?_set_some there with ⟨rfl, rfl⟩ | ⟨_, before⟩
  · exact new
  · exact old j pc before

theorem Carried.of_set (carried : Carried (threads.set n pc') own m) :
    pc'.message = some (own, m) ∨ Carried threads own m := by
  obtain ⟨j, pc, there, message⟩ := carried
  rcases getElem?_set_some there with ⟨_, rfl⟩ | ⟨_, before⟩
  · exact .inl message
  · exact .inr ⟨j, pc, before, message⟩

theorem Carried.of_set_none (carried : Carried (threads.set n pc') own m)
    (none_ : pc'.message = none) : Carried threads own m := by
  refine carried.of_set.resolve_left ?_
  rw [none_]
  exact nofun

end Set

namespace Ledger

variable {v : View} {n : Nat} {m : Msg} {id : UInt64} {k : Nat}

theorem known_of_number (ledger : Ledger threads v stamps hs) {j : Nat}
    (there : threads[j]? = some pc) (number : pc.number = some k) :
    ∃ q, Known threads hs q ∧ q.stamp = k := by
  have duo := ledger.duo j pc there
  cases pc with
  | sending own target q flags =>
    rw [Pc.number] at number
    split at number
    · next mine =>
      subst mine
      exact ⟨q, .inr ⟨j, _, there, rfl⟩, Option.some.inj number⟩
    · cases number
  | requesting own target q flags space patience =>
    obtain ⟨rfl, _⟩ := duo
    exact ⟨q, .inr ⟨j, _, there, rfl⟩, Option.some.inj number⟩
  | awaiting own id request space patience =>
    obtain ⟨q, sent, same, _⟩ := ledger.awaits j own id request space patience there
    exact ⟨q, .inl sent, same.trans (Option.some.inj number)⟩
  | idle | receiving | done => cases number

/-- A step of a thread that makes no message of the client. -/
theorem advance (ledger : Ledger threads v stamps hs) (counted : stamps ≤ stamps')
    (asked : ∀ q, .queued server q ∈ what → Known threads hs q ∧ ∀ m, Carried (threads.set n pc') client m → q.stamp ≠ m.stamp)
    (message : ∀ q, pc'.message ≠ some (client, q))
    (number : ∀ k, pc'.number = some k → (∃ pc, threads[n]? = some pc ∧ pc.number = some k) ∧
      ∀ own id space patience, pc' = .awaiting own id k space patience → Asked (hs ++ what) id k) (duo : pc'.Duo)
    (queue : ∀ e, ∀ q ∈ v'.queue e, q ∈ v.queue e ∨ .queued e q ∈ what)
    (received : ∀ e q call, .received e q call ∈ what → q ∈ v.queue e) (gave : ∀ id k, .gaveUp client id k ∈ what →
      Asked hs id k ∧ (∀ (j : Nat) pc, (threads.set n pc')[j]? = some pc → pc.number ≠ some k) ∧
      (∀ q, q ∈ v'.queue client ∨ Carried (threads.set n pc') server q → q.answers ≠ some k) ∧
      ∃ i < ipcCancelSlots, (v'.table client).canceled i = id)
    (replies : ∀ q, .queued client q ∈ what ∨ .dropped client q ∈ what ∨
      pc'.message = some (server, q) → Carried threads server q ∨ Replies hs q)
    (clear : ∀ id k q, .gaveUp client id k ∈ hs → q ∈ v'.queue client ∨ pc'.message = some (server, q) →
      (q ∈ v.queue client ∨ Carried threads server q) ∨ q.answers ≠ some k)
    (noted : ∀ id k, .gaveUp client id k ∈ hs → (∃ i < ipcCancelSlots, (v'.table client).canceled i = id) ∨
      ∃ q, .dropped client q ∈ hs ++ what ∧ q.answers = some k)
    (entries : ∀ i < ipcCancelSlots, (v'.table client).canceled i ≠ 0 →
      ∃ k, .gaveUp client ((v'.table client).canceled i) k ∈ hs ++ what)
    (pos : (v'.table client).pos < ipcCancelSlots) :
    Ledger (threads.set n pc') v' stamps' (hs ++ what) := by
  have grown : ∀ id k, Asked hs id k → Asked (hs ++ what) id k :=
    fun id k ⟨q, there, rest⟩ => ⟨q, mem_append_left _ there, rest⟩
  have carried : ∀ q, Carried (threads.set n pc') client q → Carried threads client q :=
    fun q now => now.of_set.resolve_left (message q)
  have known : ∀ q, Known (threads.set n pc') (hs ++ what) q → Known threads hs q := by
    rintro q (there | now)
    · exact (mem_append.mp there).elim .inl fun now => (asked q now).1
    · exact .inr (carried q now)
  have numbered : ∀ {j : Nat} {pc k}, (threads.set n pc')[j]? = some pc → pc.number = some k →
      ∃ pc, threads[j]? = some pc ∧ pc.number = some k := by
    intro j pc k there has
    rcases getElem?_set_some there with ⟨rfl, rfl⟩ | ⟨_, before⟩
    · exact (number k has).1
    · exact ⟨pc, before, has⟩
  constructor
  · intro e q member
    rcases queue e q member with before | now
    · exact mem_append_left _ (ledger.queue e q before)
    · exact mem_append_right _ now
  · intro e q call member
    refine mem_append_left _ ?_
    rcases mem_append.mp member with before | now
    · exact ledger.received e q call before
    · exact ledger.queue e q (received e q call now)
  · exact forall_set duo ledger.duo
  · intro q now
    obtain ⟨less, notZero⟩ := ledger.below q (known q now)
    exact ⟨Nat.lt_of_lt_of_le less counted, notZero⟩
  · exact fun q q' now now' => ledger.same q q' (known q now) (known q' now')
  · intro q q' now there
    rcases mem_append.mp there with before | new
    · exact ledger.unsent q q' (carried q now) before
    · exact (asked q' new).2 q now
  · intro i j _ _ k other first second has same
    obtain ⟨p₁, before, has'⟩ := numbered first has
    obtain ⟨p₂, before', same'⟩ := numbered second same
    exact ledger.numbers i j p₁ p₂ k other before before' has' same'
  · intro j own id k space patience there
    rcases getElem?_set_some there with ⟨_, rfl⟩ | ⟨_, before⟩
    · exact (number k rfl).2 own id space patience rfl
    · exact grown _ _ (ledger.awaits j own id k space patience before)
  · intro id k there
    rcases mem_append.mp there with before | now
    · exact grown _ _ (ledger.gave id k before)
    · exact grown _ _ (gave id k now).1
  · intro id k j pc there at_ has
    rcases mem_append.mp there with before | now
    · obtain ⟨p, old, has'⟩ := numbered at_ has
      exact ledger.gone id k j p before old has'
    · exact (gave id k now).2.1 j pc at_ has
  · intro q told
    have new := fun now => (replies q now).elim (fun before => ledger.replies q (.inr (.inr before))) id
    have before : Replies hs q := by
      rcases told with there | there | now
      · exact (mem_append.mp there).elim (fun before => ledger.replies q (.inl before)) fun now => new (.inl now)
      · exact (mem_append.mp there).elim (fun before => ledger.replies q (.inr (.inl before))) fun now => new (.inr (.inl now))
      · exact now.of_set.elim (fun now => new (.inr (.inr now))) fun before => ledger.replies q (.inr (.inr before))
    exact before.imp_right fun ⟨q', there, rest⟩ => ⟨q', mem_append_left _ there, rest⟩
  · intro id k q there place
    rcases mem_append.mp there with before | now
    · have old : (q ∈ v.queue client ∨ Carried threads server q) ∨ q.answers ≠ some k := by
        rcases place with queued | carried
        · exact clear id k q before (.inl queued)
        · exact carried.of_set.elim (fun now => clear id k q before (.inr now)) fun before => .inl (.inr before)
      exact old.elim (ledger.clear id k q before) fun other => other
    · exact (gave id k now).2.2.1 q place
  · intro id k there
    rcases mem_append.mp there with before | now
    · exact noted id k before
    · exact .inl (gave id k now).2.2.2
  · exact entries
  · exact pos

/-- Nothing that the ledger is about: messages come out of the queues. -/
def Settles (v : View) : Happening → Prop
  | .received e m _ => m ∈ v.queue e
  | .lost .. | .putBack .. => True
  | .dropped e _ => e = server
  | .queued .. | .gaveUp .. | .freed .. => False

theorem mem_concat {h : Happening} : x ∈ hs ++ [h] ↔ x ∈ hs ∨ x = h := by
  rw [mem_append, mem_singleton]

theorem queue_concat (member : q ∈ (v.setQueue x (v.queue x ++ [m])).queue e) :
    q ∈ v.queue e ∨ .queued e q ∈ [Happening.queued x m] := by
  by_cases same : e = x
  · subst same
    rw [View.setQueue_self, mem_append, mem_singleton] at member
    refine member.imp_right ?_
    rintro rfl
    exact mem_singleton_self _
  · rw [View.setQueue_of_ne same] at member
    exact .inl member

section
variable (ledger : Ledger threads v stamps hs)
include ledger

theorem noted_append (there : .gaveUp client id k ∈ hs) :
    (∃ i < ipcCancelSlots, (v.table client).canceled i = id) ∨ ∃ q, .dropped client q ∈ hs ++ what ∧
    q.answers = some k :=
  (ledger.noted id k there).imp_right fun ⟨q, gone, rest⟩ => ⟨q, mem_append_left _ gone, rest⟩

theorem entries_append (inside : i < ipcCancelSlots) (notZero : (v.table client).canceled i ≠ 0) :
    ∃ k, .gaveUp client ((v.table client).canceled i) k ∈ hs ++ what :=
  (ledger.entries i inside notZero).imp fun _ there => mem_append_left _ there

theorem settle (message : pc'.message = none) (number : pc'.number = none)
    (duo : pc'.Duo) (fewer : ∀ e, ∀ m ∈ v'.queue e, m ∈ v.queue e)
    (table : v'.table client = v.table client) (counted : stamps ≤ stamps')
    (settles : ∀ h ∈ what, Settles v h) : Ledger (threads.set n pc') v' stamps' (hs ++ what) := by
  refine ledger.advance counted (fun q now => False.elim (settles _ now)) (by simp [message])
    (by simp [number]) duo (fun e q member => .inl (fewer e q member))
    (fun e q _ now => settles _ now) (fun id k now => False.elim (settles _ now)) ?_ ?_ ?_ ?_ ?_
  · rintro q (now | now | carries)
    · exact False.elim (settles _ now)
    · exact absurd (settles _ now) client_ne_server
    · rw [message] at carries
      cases carries
  · exact fun id k q _ place => .inl (.inl (fewer client q (place.resolve_right (by simp [message]))))
  · intro id k there
    rw [table]
    exact ledger.noted_append there
  · intro i inside notZero
    rw [table] at notZero ⊢
    exact ledger.entries_append inside notZero
  · rw [table]
    exact ledger.pos

theorem tell (message : pc'.message = some (server, m)) (number : pc'.number = none)
    (duo : pc'.Duo) (replies : Replies hs m) (wanted : ∀ id k, .gaveUp client id k ∈ hs → m.answers ≠ some k) :
    Ledger (threads.set n pc') v (stamps + 1) hs := by
  have mine : ∀ q, pc'.message = some (server, q) → q = m := by
    intro q carries
    rw [message] at carries
    cases carries
    rfl
  have grown : Ledger (threads.set n pc') v (stamps + 1) (hs ++ []) := by
    refine ledger.advance (Nat.le_succ _) (by simp) (by simp [message, client_ne_server.symm]) (by simp [number]) duo
      (fun e q member => .inl member) (by simp) (by simp) ?_ ?_ (fun id k => ledger.noted_append)
      (fun i => ledger.entries_append) ledger.pos
    · rintro q (now | now | carries)
      · cases now
      · cases now
      · exact .inr (mine q carries ▸ replies)
    · rintro id k q there (queued | carries)
      · exact .inl (.inl queued)
      · exact .inr (mine q carries ▸ wanted id k there)
  rwa [append_nil] at grown

theorem ask (message : pc'.message = some (client, m)) (duo : pc'.Duo) (stamp : m.stamp = stamps)
    (notZero : m.id ≠ 0) (unused : ∀ q, Known threads hs q → q.id ≠ m.id) :
    Ledger (threads.set n pc') v (stamps + 1) hs := by
  have number := Pc.number_of_message message
  have carried : ∀ q, Carried (threads.set n pc') client q → q = m ∨ Carried threads client q := by
    intro q now
    have either := now.of_set
    rw [message] at either
    exact either.imp_left fun same => by cases same; rfl
  have told : ∀ q, Carried (threads.set n pc') server q → Carried threads server q := by
    intro q now
    refine now.of_set.resolve_left ?_
    rw [message]
    exact nofun
  have known : ∀ q, Known (threads.set n pc') hs q → q = m ∨ Known threads hs q := by
    rintro q (before | now)
    · exact .inr (.inl before)
    · exact (carried q now).imp_right .inr
  -- no message of the client and no call has the new number
  have fresh : ∀ q, Known threads hs q → q.stamp ≠ m.stamp := by
    intro q before same
    have less := (ledger.below q before).1
    omega
  have unnumbered : ∀ (j : Nat) pc, threads[j]? = some pc → pc.number ≠ some m.stamp := by
    intro j pc there has
    obtain ⟨q, before, same⟩ := ledger.known_of_number there has
    exact fresh q before same
  constructor
  · exact ledger.queue
  · exact ledger.received
  · exact forall_set duo ledger.duo
  · intro q now
    rcases known q now with rfl | before
    · exact ⟨by omega, notZero⟩
    · obtain ⟨less, rest⟩ := ledger.below q before
      exact ⟨by omega, rest⟩
  · intro q q' now now'
    rcases known q now with rfl | before
    · rcases known q' now' with rfl | before'
      · exact ⟨fun _ => rfl, fun _ => rfl⟩
      · exact ⟨fun same => absurd same.symm (fresh q' before'), fun same => absurd same.symm (unused q' before')⟩
    · rcases known q' now' with rfl | before'
      · exact ⟨fun same => absurd same (fresh q before), fun same => absurd same (unused q before)⟩
      · exact ledger.same q q' before before'
  · intro q q' now there
    rcases carried q now with rfl | before
    · exact fresh q' (.inl there)
    · exact ledger.unsent q q' before there
  · intro i j pc₁ pc₂ k other first second has
    rcases getElem?_set_some first with ⟨here, rfl⟩ | ⟨_, before⟩
    · rw [number] at has
      cases has
      rcases getElem?_set_some second with ⟨here', _⟩ | ⟨_, before'⟩
      · exact absurd (here.trans here'.symm) other
      · exact unnumbered j pc₂ before'
    · rcases getElem?_set_some second with ⟨_, rfl⟩ | ⟨_, before'⟩
      · rw [number]
        intro same
        cases same
        exact unnumbered i pc₁ before has
      · exact ledger.numbers i j pc₁ pc₂ k other before before' has
  · intro j own id k space patience there
    rcases getElem?_set_some there with ⟨_, rfl⟩ | ⟨_, before⟩
    · cases message
    · exact ledger.awaits j own id k space patience before
  · exact ledger.gave
  · intro id k j pc₁ there at_
    rcases getElem?_set_some at_ with ⟨_, rfl⟩ | ⟨_, before⟩
    · rw [number]
      intro same
      obtain ⟨q, sent, stamp', _⟩ := ledger.gave id k there
      exact fresh q (.inl sent) (stamp'.trans (Option.some.inj same).symm)
    · exact ledger.gone id k j pc₁ there before
  · intro q now
    refine ledger.replies q ?_
    exact now.imp_right (·.imp_right (told q))
  · exact fun id k q there place => ledger.clear id k q there (place.imp_right (told q))
  · exact ledger.noted
  · exact ledger.entries
  · exact ledger.pos

theorem asked (here : threads[n]? = some pc) (message : pc.message = some (client, m))
    (after : pc'.message = none) (duo : pc'.Duo) (waits : ∀ k, pc'.number = some k → k = m.stamp)
    (awaits : ∀ own id k space patience, pc' = .awaiting own id k space patience → id = m.id) :
    Ledger (threads.set n pc') (v.setQueue server (v.queue server ++ [m])) stamps
    (hs ++ [.queued server m]) := by
  have number := Pc.number_of_message message
  refine ledger.advance (Nat.le_refl _) ?_ (by simp [after]) ?_ duo (fun e q => queue_concat)
    (by simp) (by simp) (by simp [after, client_ne_server])
    (fun id k q _ place => .inl (.inl (place.resolve_right (by simp [after]))))
    (fun id k => ledger.noted_append) (fun i => ledger.entries_append) ledger.pos
  · intro q now
    cases mem_singleton.mp now
    refine ⟨.inr ⟨n, pc, here, message⟩, ?_⟩
    rintro q ⟨j, pc₁, there, has⟩ same
    rcases getElem?_set_some there with ⟨_, rfl⟩ | ⟨other, before⟩
    · rw [after] at has
      cases has
    · -- another thread has another number
      exact ledger.numbers n j pc pc₁ m.stamp other.symm here before number (same ▸ Pc.number_of_message has)
  · intro k has
    cases waits k has
    refine ⟨⟨pc, here, number⟩, ?_⟩
    intro own id space patience same
    cases awaits own id _ space patience same
    exact ⟨m, mem_concat.mpr (.inr rfl), rfl, rfl⟩

theorem told (here : threads[n]? = some pc) (message : pc.message = some (server, m))
    (after : pc'.message = none) (number : pc'.number = none) (duo : pc'.Duo) :
    Ledger (threads.set n pc') (v.setQueue client (v.queue client ++ [m])) stamps
    (hs ++ [.queued client m]) := by
  have mine : Carried threads server m := ⟨n, pc, here, message⟩
  refine ledger.advance (Nat.le_refl _) (by simp [client_ne_server.symm]) (by simp [after])
    (by simp [number]) duo (fun e q => queue_concat) (by simp) (by simp) ?_ ?_
    (fun id k => ledger.noted_append) (fun i => ledger.entries_append) ledger.pos
  · simp [after, mine]
  · intro id k q _ place
    rcases queue_concat (place.resolve_right (by simp [after])) with before | same
    · exact .inl (.inl before)
    · cases mem_singleton.mp same
      exact .inl (.inr mine)

theorem drop (message : pc'.message = none) (number : pc'.number = none)
    (duo : pc'.Duo) (replies : Replies hs m) (taken : (v.table client).take m.replyTo = some t)
    (counted : stamps ≤ stamps') :
    Ledger (threads.set n pc') (v.setTable client t) stamps' (hs ++ [.dropped client m]) := by
  obtain ⟨notZero, samePos, i, _, entry, removed⟩ := Table.take_some taken
  have table : (v.setTable client t).table client = t := View.setTable_self
  refine ledger.advance counted (by simp) (by simp [message]) (by simp [number]) duo
    (fun e q member => .inl member) (by simp) (by simp) (by simp [message, replies])
    (fun id k q _ place => .inl (.inl (place.resolve_right (by simp [message])))) ?_ ?_ ?_
  · intro id k there
    rw [table, removed]
    rcases ledger.noted id k there with ⟨j, inside', entry'⟩ | ⟨q, gone, rest⟩
    · by_cases same : j = i
      · -- the id of the entry is that of the message that the reply answers
        subst same
        obtain ⟨q, sent, stamp, idOf⟩ := ledger.gave id k there
        rcases replies with ⟨zero, _⟩ | ⟨q', sent', answers, replyTo⟩
        · exact absurd zero notZero
        refine .inr ⟨m, mem_concat.mpr (.inr rfl), ?_⟩
        have sameId : q'.id = q.id := by rw [← replyTo, ← entry, entry', idOf]
        rw [answers, (ledger.same q' q (.inl sent') (.inl sent)).mpr sameId, stamp]
      · exact .inl ⟨j, inside', (update_of_ne same _ _).trans entry'⟩
    · exact .inr ⟨q, mem_concat.mpr (.inl gone), rest⟩
  · intro j inside' notZero'
    rw [table, removed] at notZero' ⊢
    have other : j ≠ i := by
      rintro rfl
      exact notZero' (update_self _ _ _)
    rw [update_of_ne other] at notZero' ⊢
    exact ledger.entries_append inside' notZero'
  · rw [table, samePos]
    exact ledger.pos

theorem giveUp (here : threads[n]? = some (.awaiting client id k space patience))
    (message : pc'.message = none) (number : pc'.number = none) (duo : pc'.Duo)
    (vacant : (v.table client).canceled (v.table client).pos = 0)
    (unanswered : ∀ q, q ∈ v.queue client ∨ Carried threads server q → q.answers ≠ some k) :
    Ledger (threads.set n pc') (v.setTable client ((v.table client).add id)) stamps
    (hs ++ [.gaveUp client id k]) := by
  have asks := ledger.awaits n client id k space patience here
  have notZero : id ≠ 0 := by
    obtain ⟨q, sent, _, rfl⟩ := asks
    exact (ledger.below q (.inl sent)).2
  have table : (v.setTable client ((v.table client).add id)).table client =
      ⟨update (v.table client).canceled (v.table client).pos id, ((v.table client).pos + 1) % ipcCancelSlots⟩ := by
    rw [← Table.add_of_ne notZero]
    exact View.setTable_self
  refine ledger.advance (Nat.le_refl _) (by simp) (by simp [message]) (by simp [number]) duo
    (fun e q member => .inl member) (by simp) ?_ (by simp [message])
    (fun id k q _ place => .inl (.inl (place.resolve_right (by simp [message])))) ?_ ?_ ?_
  · intro id' k' now
    cases mem_singleton.mp now
    refine ⟨asks, fun j pc₁ there => ?_, fun q place => unanswered q (place.imp_right (·.of_set_none message)),
      (v.table client).pos, ledger.pos, by rw [table]; exact update_self _ _ _⟩
    rcases getElem?_set_some there with ⟨_, rfl⟩ | ⟨other, before⟩
    · simp [number]
    · exact ledger.numbers n j _ pc₁ k other.symm here before rfl
  · intro id' k' before
    rw [table]
    rcases ledger.noted id' k' before with ⟨j, inside, entry⟩ | ⟨q, gone, rest⟩
    · refine .inl ⟨j, inside, (update_of_ne ?_ _ _).trans entry⟩
      -- the slot that is taken was free
      rintro rfl
      obtain ⟨q, sent, _, idOf⟩ := ledger.gave id' k' before
      refine (ledger.below q (.inl sent)).2 ?_
      rw [idOf, ← entry, vacant]
    · exact .inr ⟨q, mem_concat.mpr (.inl gone), rest⟩
  · intro i inside notZero'
    rw [table] at notZero' ⊢
    dsimp only at notZero' ⊢
    by_cases same : i = (v.table client).pos
    · subst same
      rw [update_self]
      exact ⟨k, mem_concat.mpr (.inr rfl)⟩
    · rw [update_of_ne same] at notZero' ⊢
      exact ledger.entries_append inside notZero'
  · rw [table]
    exact Nat.mod_lt _ (by decide)

theorem wanted (here : threads[n]? = some (.awaiting own id k space patience))
    (queued : m ∈ v.queue client) (answers : m.answers = some k) : Mem.wants id m = true := by
  obtain ⟨q, sent, rfl, rfl⟩ := ledger.awaits n own id k space patience here
  rcases ledger.replies m (.inl (ledger.queue client m queued)) with
    ⟨_, none_⟩ | ⟨q', sent', answers', replyTo⟩
  · rw [none_] at answers
    cases answers
  have same : q'.stamp = q.stamp := Option.some.inj (answers'.symm.trans answers)
  have sameId := (ledger.same q' q (.inl sent') (.inl sent)).mp same
  rw [Mem.wants, replyTo, sameId]
  simp

theorem unanswered (carried : Carried threads client q) (told : Told threads hs m) :
    m.answers ≠ some q.stamp := by
  intro answers
  rcases ledger.replies m told with ⟨_, none_⟩ | ⟨q', sent, answers', _⟩
  · rw [none_] at answers
    cases answers
  · exact ledger.unsent q q' carried sent (Option.some.inj (answers'.symm.trans answers))

end

end Ledger

end Otsos.Ipc
