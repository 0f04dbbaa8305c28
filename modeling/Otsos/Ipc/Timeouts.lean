import Otsos.Ipc.Cancellation

/-! When cancellation is exact: replies to calls that gave up are not received, and replies to calls
that wait are not dropped. -/
namespace Otsos.Ipc
open List Option

section Turns

variable {threads : List Pc} {v : View} {pc : Pc}

theorem Pc.Duo.apart (duo : pc.Duo) : pc.Apart := by
  cases pc with
  | requesting own target q flags space patience =>
    obtain ⟨rfl, rfl⟩ := duo
    exact client_ne_server
  | idle | sending | receiving | awaiting | done => trivial

/-- A turn drops nothing, and receives at its own endpoint. -/
def Pc.MayDo (pc : Pc) : Happening → Prop
  | .dropped .. => False
  | .received own .. => pc.own = some own
  | .queued .. | .lost .. | .putBack .. | .gaveUp .. | .freed .. => True

theorem Turns.mayDo (turns : Turns v pc what pc') : ∀ h ∈ what, pc.MayDo h := by
  induction turns with
  | stays | fails => exact nofun
  | sent | lost | putBack | gaveUp => exact forall_mem_singleton.mpr trivial
  | took expects wanted positive => exact forall_mem_singleton.mpr (Pc.own_of_expects expects)
  | busy => exact forall_mem_cons.mpr ⟨trivial, forall_mem_singleton.mpr trivial⟩
  | requested rest ih => exact forall_mem_cons.mpr ⟨trivial, ih⟩

theorem Turns.received_mem (turns : Turns v pc what pc') (acts : ActsAll v what v')
    (apart : pc.Apart) (member : .received own m call ∈ what) : m ∈ v.queue own := by
  induction turns with
  | stays | fails => cases member
  | sent | lost | putBack | gaveUp => cases mem_singleton.mp member
  | busy =>
    rcases mem_cons.mp member with first | second
    · cases first
    · cases mem_singleton.mp second
  | took expects wanted positive =>
    cases mem_singleton.mp member
    cases acts.of_one with
    | received there first => exact mem_of_getElem? there
  | @requested v own' target q flags space patience what pc rest ih =>
    rcases mem_cons.mp member with first | later
    · cases first
    cases acts with
    | cons act after =>
      have same : own ≠ target → _ := act.queue_other
      cases act
      have inQueue := ih after trivial later
      cases rest.mayDo _ later
      rwa [same apart] at inQueue

theorem mem_of_setQueue (fewer : ∀ q ∈ l, q ∈ v.queue own) :
    ∀ e, ∀ q ∈ (v.setQueue own l).queue e, q ∈ v.queue e := by
  intro e q member
  by_cases same : e = own
  · subst same
    rw [View.setQueue_self] at member
    exact fewer q member
  · rwa [View.setQueue_of_ne same] at member

theorem set_of_getElem? (here : threads[n]? = some pc) : threads.set n pc = threads := by
  obtain ⟨inside, rfl⟩ := List.getElem?_eq_some_iff.mp here
  exact set_getElem_self inside

theorem getElem?_set_here (here : threads[n]? = some pc) : (threads.set n pc')[n]? = some pc' :=
  List.getElem?_set_self (List.getElem?_eq_some_iff.mp here).1

/-- Another thread waits to queue the message. -/
def CarriedBy (threads : List Pc) (n : Nat) (m : Msg) : Prop :=
  ∃ (j : Nat) (pc : Pc), j ≠ n ∧ threads[j]? = some pc ∧ pc.message = some (server, m)

theorem CarriedBy.of_set (carried : CarriedBy (threads.set n pc') n m) : CarriedBy threads n m := by
  obtain ⟨j, pc, other, there, has⟩ := carried
  rw [getElem?_set_ne other.symm] at there
  exact ⟨j, pc, other, there, has⟩

theorem Carried.by_other (carried : Carried threads server m) (here : threads[n]? = some pc)
    (none_ : pc.message = none) : CarriedBy threads n m := by
  obtain ⟨j, pc₁, there, has⟩ := carried
  refine ⟨j, pc₁, ?_, there, has⟩
  rintro rfl
  cases here.symm.trans there
  rw [none_] at has
  cases has

theorem Ledger.request (ledger : Ledger threads v stamps hs)
    (here : threads[n]? = some (.requesting client server m flags space patience)) :
    Ledger (threads.set n (.awaiting client m.id m.stamp space patience))
      (v.setQueue server (v.queue server ++ [m])) stamps (hs ++ [.queued server m]) := by
  refine ledger.asked here rfl rfl rfl ?_ ?_
  · intro k number
    exact (some.inj number).symm
  · intro _ _ k _ _ same
    cases same
    rfl

/-- A turn of a thread keeps the ledger. A call that gives up in it takes a free slot, and no reply
to it is held up. -/
theorem Ledger.turns (ledger : Ledger threads v stamps hs) (here : threads[n]? = some pc)
    (turns : Turns v pc what pc') (acts : ActsAll v what v')
    (slot : ∀ id k, .gaveUp client id k ∈ what → (v.table client).canceled (v.table client).pos = 0)
    (flight : ∀ id k, .gaveUp client id k ∈ what → ∀ q, CarriedBy threads n q → q.answers ≠ some k) :
    Ledger (threads.set n pc') v' stamps (hs ++ what) := by
  have duo := ledger.duo n pc here
  induction turns generalizing threads hs with
  | stays pc =>
    cases acts
    rw [set_of_getElem? here, append_nil]
    exact ledger
  | fails mine negative =>
    cases acts
    exact ledger.settle rfl rfl trivial (fun _ _ => id) rfl (Nat.le_refl _) nofun
  | sent own target q flags =>
    cases acts.of_one
    rcases duo with ⟨rfl, rfl⟩ | ⟨rfl, rfl⟩
    · exact ledger.told here rfl rfl rfl trivial
    · exact ledger.asked here rfl rfl trivial nofun nofun
  | @took v pc own id call q ret expects wanted positive =>
    cases acts.of_one with
    | @received _ i _ _ there first =>
      exact ledger.settle rfl rfl trivial (mem_of_setQueue fun _ => mem_of_mem_eraseIdx) rfl
        (Nat.le_refl _) (forall_mem_singleton.mpr (mem_of_getElem? there))
  | @lost v pc own id call q ret expects negative =>
    cases acts.of_one with
    | @lost i there =>
      exact ledger.settle rfl rfl trivial (mem_of_setQueue fun _ => mem_of_mem_eraseIdx) rfl
        (Nat.le_refl _) (forall_mem_singleton.mpr trivial)
  | @putBack v pc own id call q i expects =>
    cases acts.of_one with
    | putBack there =>
      refine ledger.settle rfl rfl trivial (mem_of_setQueue ?_) rfl (Nat.le_refl _) (forall_mem_singleton.mpr trivial)
      exact forall_mem_cons.mpr ⟨mem_of_getElem? there, fun _ => mem_of_mem_eraseIdx⟩
  | @gaveUp v own id k space patience ret missing negative =>
    cases acts.of_one
    cases duo
    refine ledger.giveUp here rfl rfl trivial (slot id k mem_cons_self) ?_
    rintro q (queued | carried) answers
    · have wanted := ledger.wanted here queued answers
      rw [missing q queued] at wanted
      cases wanted
    · exact flight id k mem_cons_self q (carried.by_other here rfl) answers
  | @busy v own target q flags space patience =>
    obtain ⟨rfl, rfl⟩ := duo
    cases acts with
    | cons act rest =>
      cases act
      cases rest.of_one
      have there : (threads.set n (.awaiting client q.id q.stamp space patience))[n]? =
          some (.awaiting client q.id q.stamp space patience) := getElem?_set_here here
      have gives : Ledger ((threads.set n (.awaiting client q.id q.stamp space patience)).set n (.done client errBusy)) _ _ _ :=
        (ledger.request here).giveUp there rfl rfl trivial (slot _ _ (mem_cons_of_mem _ mem_cons_self)) ?_
      · rw [set_set, append_assoc] at gives
        exact gives
      · intro x place
        refine ledger.unanswered ⟨n, _, here, rfl⟩ ?_
        exact place.elim (fun queued => .inl (ledger.queue client x queued)) fun now => .inr (.inr (now.of_set_none rfl))
  | @requested v own target q flags space patience what pc rest ih =>
    obtain ⟨rfl, rfl⟩ := duo
    cases acts with
    | cons act after =>
      cases act
      have later := ih (ledger.request here) (getElem?_set_here here) after
        (fun id k member => slot id k (mem_cons_of_mem _ member))
        (fun id k member q carried => flight id k (mem_cons_of_mem _ member) q carried.of_set) rfl
      rw [set_set, append_assoc] at later
      exact later

end Turns

/-- What the two take care of in a step. The server answers messages that it received, each once;
the client gives its messages ids of their own; and a call that gives up finds a free slot in the
table and has no reply held up. -/
structure Careful (s : Config) (hs : List Happening) (e : Event) (what : List Happening) :
    Prop where
  replies : ∀ thread req, e = .send thread server req → (req.replyTo = 0 ∧ req.answers = none) ∨
    ∃ q call, .received server q call ∈ hs ∧ req.answers = some q.stamp ∧ req.replyTo = q.id ∧
      ∀ m, Told s.threads hs m → m.answers ≠ some q.stamp
  ids : ∀ thread req isCall, Event.Asks thread client req isCall e → ∀ m, Known s.threads hs m →
    m.id ≠ s.mem.idFor client req
  slot : ∀ id k, .gaveUp client id k ∈ what →
    (s.mem.table client).canceled (s.mem.table client).pos = 0
  flight : ∀ id k, .gaveUp client id k ∈ what → ∀ m, Carried s.threads server m → m.answers ≠ some k

def CarefulRun : Config → List Happening → List Event → Prop
  | _, _, [] => True
  | s, hs, e :: es => ∀ s' what, s.step e = some (s', what) → Careful s hs e what ∧ CarefulRun s' (hs ++ what) es

/-- No reply is received once its call has given up, and none is dropped while its call waits. -/
structure Exact (s : Config) (hs what : List Happening) : Prop where
  late : ∀ m call k, .received client m call ∈ what → m.answers = some k →
    ∀ id, .gaveUp client id k ∉ hs
  kept : ∀ m k, .dropped client m ∈ what → m.answers = some k →
    ∀ (n : Nat) id space patience, s.threads[n]? ≠ some (.awaiting client id k space patience)

def ExactRun : Config → List Happening → List Event → Prop
  | _, _, [] => True
  | s, hs, e :: es => ∀ s' what, s.step e = some (s', what) → Exact s hs what ∧ ExactRun s' (hs ++ what) es

namespace Mem

variable {m : Mem} {target : Nat}

theorem alive_two (inv : m.Inv refs) (fresh : m.fresh = 2) (alive : m.Alive own) :
    own = server ∨ own = client := by
  have less : own < 2 := by
    by_contra above
    obtain ⟨_, here⟩ := alive
    rw [(inv.fresh own (by omega)).1] at here
    cases here
  simp only [server, client]
  omega

theorem peer_pair (inv : m.Inv refs) (fresh : m.fresh = 2) (peer : m.Peer own target) :
    (own = server ∧ target = client) ∨ (own = client ∧ target = server) := by
  have other := inv.peer_ne peer
  obtain ⟨ep, sv, here, _, found⟩ := peer
  have alive : m.Alive target := by
    rcases found with ⟨_, at_⟩ | ⟨_, session⟩
    · obtain ⟨ep', there, _⟩ := inv.server sv target at_
      exact ⟨ep', there⟩
    · obtain ⟨i, at_⟩ := mem_sessions session
      obtain ⟨_, ep', there, _⟩ := inv.client sv i target at_
      exact ⟨ep', there⟩
  rcases alive_two inv fresh ⟨ep, here⟩ with rfl | rfl
  · rcases alive_two inv fresh alive with rfl | rfl
    · exact absurd rfl other
    · exact .inl ⟨rfl, rfl⟩
  · rcases alive_two inv fresh alive with rfl | rfl
    · exact .inr ⟨rfl, rfl⟩
    · exact absurd rfl other

end Mem

namespace Config

variable {s : Config} {m : Mem} {n : Nat}

/-- A server and its client, and their handles. -/
structure Paired (s : Config) : Prop where
  good : s.Good
  fresh : s.mem.fresh = 2
  held : s.mem.held server = true ∧ s.mem.held client = true

theorem Paired.held_of_alive (paired : s.Paired) (alive : s.mem.Alive own) :
    s.mem.held own = true := by
  rcases Mem.alive_two paired.good.inv paired.fresh alive with rfl | rfl
  · exact paired.held.1
  · exact paired.held.2

theorem Paired.finish (paired : s.Paired) (here : s.threads[n]? = some (.done own ret))
    (ran : s.step (.finish n) = some (s', what)) :
    what = [] ∧ s'.threads = s.threads.set n .idle ∧ s'.mem.view = s.mem.view ∧
      s'.mem.stamps = s.mem.stamps ∧ s'.mem.fresh = s.mem.fresh ∧ s'.mem.held = s.mem.held := by
  have positive := refs_pos here rfl
  have alive := paired.good.inv.alive own (Nat.lt_of_lt_of_le positive (Nat.le_add_right _ _))
  have held := paired.held_of_alive alive
  obtain ⟨ep, at_⟩ := alive
  have count := paired.good.inv.count own ep at_
  have more : ep.refcount > 1 := by
    rw [count, held, Bool.toNat_true]
    omega
  rw [step, here] at ran
  dsimp only at ran
  rw [Mem.release, at_, bind_eq_bind, bind_some, if_pos more] at ran
  cases ran
  exact ⟨rfl, rfl, Mem.view_set_same at_ rfl rfl, rfl, rfl, rfl⟩

theorem enter_same {f : Mem → Option Progress} (inv : s.Inv) (idle : s.Idle n own)
    (goes : ∀ (m : Mem) refs, m.Inv refs → m.Alive own → m.Goes own (f m))
    (ran : ((retain s.mem own).bind fun m => (f m).map (s.put n)) = some (s', what)) :
    s'.mem.fresh = s.mem.fresh ∧ s'.mem.held = s.mem.held := by
  obtain ⟨m, retained, inv', alive⟩ := retain_inv inv idle.2
  obtain ⟨p, went, like, _⟩ := goes m _ inv' alive
  rw [retained, bind_some, went] at ran
  cases ran
  obtain ⟨_, _, rfl⟩ := map_eq_some_iff.mp retained
  exact ⟨like.fresh, like.held⟩

theorem Paired.step (paired : s.Paired) (allowed : s.Allowed e) (talks : e.Talks)
    (ran : s.step e = some (s', what)) : s'.Paired := by
  have good := paired.good
  have same : s'.mem.fresh = s.mem.fresh ∧ s'.mem.held = s.mem.held := by
    cases e with
    | create | connect | close => exact absurd talks id
    | send n own req => exact enter_same good.inv allowed (fun m refs inv alive => Mem.send_goes inv alive) ran
    | recv n own space flags o => exact enter_same good.inv allowed (fun m refs inv alive => Mem.recvTurn_goes alive) ran
    | call n own req space timeoutMs o =>
      exact enter_same good.inv allowed (fun m refs inv alive => Mem.call_goes inv alive) ran
    | resume n o =>
      obtain ⟨pc, here, turned⟩ := bind_eq_some_iff.mp ran
      obtain ⟨p, went, like, _⟩ := turn_goes o good.inv here fun target => step_finds ran pc target here
      rw [went] at turned
      cases turned
      exact ⟨like.fresh, like.held⟩
    | finish n =>
      obtain ⟨own, _, here⟩ := allowed
      exact (paired.finish here ran).2.2.2.2
  refine ⟨step_good good allowed ran, same.1.trans paired.fresh, ?_⟩
  rw [same.2]
  exact paired.held

def LedgerOf (s : Config) (hs : List Happening) : Prop :=
  Ledger s.threads s.mem.view s.mem.stamps hs

theorem exact_of_turns (ledger : s.LedgerOf hs) (duo : pc.Duo)
    (turns : Turns s.mem.view pc what pc') (acts : ActsAll s.mem.view what v') :
    Exact s hs what := by
  constructor
  · intro m _ k member answers id gave
    exact ledger.clear id k m gave (.inl (turns.received_mem acts duo.apart member)) answers
  · exact fun m k member => absurd (turns.mayDo _ member) id

theorem exact_nil : Exact s hs [] := ⟨nofun, nofun⟩

variable {id : UInt64}

section
variable (ledger : s.LedgerOf hs) (made : m.Made own req msg)
    (careful : (req.replyTo = 0 ∧ req.answers = none) ∨ ∃ q call, .received server q call ∈ hs ∧
      req.answers = some q.stamp ∧ req.replyTo = q.id ∧
      ∀ m, Told s.threads hs m → m.answers ≠ some q.stamp)
include ledger made careful

theorem replies_of_careful : Replies hs msg := by
  rw [Replies, made.replyTo, made.answers]
  refine careful.imp_right ?_
  rintro ⟨q, call, received, answers, replyTo, _⟩
  exact ⟨q, ledger.received server q call received, answers, replyTo⟩

theorem wanted_of_kept (kept : (s.mem.table client).take msg.replyTo = none)
    (gave : .gaveUp client id k ∈ hs) : msg.answers ≠ some k := by
  rw [made.answers]
  rcases careful with ⟨_, none_⟩ | ⟨q, call, received, answers, replyTo, once⟩
  · rw [none_]
    exact nofun
  intro same
  have stamp : q.stamp = k := some.inj (answers.symm.trans same)
  obtain ⟨q', sent, stamp', idOf⟩ := ledger.gave id k gave
  have sent' := ledger.received server q call received
  have sameId : q.id = id := by
    rw [← idOf]
    exact (ledger.same q q' (.inl sent') (.inl sent)).mp (stamp.trans stamp'.symm)
  rcases ledger.noted id k gave with ⟨i, inside, entry⟩ | ⟨r, dropped, answered⟩
  · -- the call is in the table
    have notZero : msg.replyTo ≠ 0 := by
      rw [made.replyTo, replyTo]
      exact (ledger.below q (.inl sent')).2
    refine Table.take_none kept inside notZero ?_
    rw [made.replyTo, replyTo, sameId]
    exact entry
  · exact once r (.inr (.inl dropped)) (stamp ▸ answered)

end

theorem kept_of_dropped (ledger : s.LedgerOf hs) (replies : Replies hs msg)
    (taken : (s.mem.table client).take msg.replyTo = some t) (answers : msg.answers = some k)
    : s.threads[n]? ≠ some (.awaiting client id k space patience) := by
  intro here
  obtain ⟨notZero, _, i, inside, entry, _⟩ := Table.take_some taken
  rcases replies with ⟨zero, _⟩ | ⟨q, sent, answers', replyTo⟩
  · exact notZero zero
  have notFree : (s.mem.table client).canceled i ≠ 0 := entry ▸ notZero
  obtain ⟨k', gave⟩ := ledger.entries i inside notFree
  obtain ⟨q', sent', stamp', idOf⟩ := ledger.gave _ k' gave
  have sameId : q.id = q'.id := by rw [idOf, ← replyTo, ← entry]; rfl
  have stamp : q.stamp = k := some.inj (answers'.symm.trans answers)
  have same : k' = k := by
    rw [← stamp', ← stamp]
    exact ((ledger.same q q' (.inl sent) (.inl sent')).mpr sameId).symm
  exact ledger.gone _ k' n _ gave here (congrArg some same.symm)

theorem idFor_ne_zero (sound : m.Sound) (alive : m.Alive own) : m.idFor own req ≠ 0 := by
  obtain ⟨ep, here⟩ := alive
  rw [Mem.idFor, here]
  split
  · assumption
  · exact sound.ids own ep here

theorem turns_ledger (ledger : Ledger (s.threads.set n pc) s.mem.view stamps hs)
    (inside : n < s.threads.length) (turns : Turns s.mem.view pc what pc')
    (acts : ActsAll s.mem.view what v') (careful : Careful s hs e what) :
    Ledger (s.threads.set n pc') v' stamps (hs ++ what) := by
  have grown := ledger.turns (getElem?_set_self inside) turns acts careful.slot ?_
  · rwa [set_set] at grown
  · intro id k member q carried
    obtain ⟨j, pc₁, _, there, has⟩ := carried.of_set
    exact careful.flight id k member q ⟨j, pc₁, there, has⟩

theorem sends_exact {next : Nat} (paired : s.Paired)
    (ledger : s.LedgerOf hs) (allowed : s.Allowed e) (talks : e.Talks)
    (careful : Careful s hs e what) (asks : Event.Asks n own req isCall e)
    (retained : retain s.mem own = some m) (acts : ActsAll s.mem.view what v')
    (begins : m.Begins own req isCall next what pc) :
    Exact s hs what ∧ Ledger (s.threads.set n pc) v' next (hs ++ what) := by
  have idle := idle_of_asks allowed asks
  obtain ⟨_, again, inv, alive⟩ := retain_inv paired.good.inv idle.2
  cases retained.symm.trans again
  obtain ⟨view, sound, stamps⟩ := retain_view paired.good.sound retained
  have inside : n < s.threads.length := (List.getElem?_eq_some_iff.mp idle.1).1
  have fresh : m.fresh = 2 := by
    obtain ⟨_, _, rfl⟩ := map_eq_some_iff.mp retained
    exact paired.fresh
  have isSend : ∀ thread req isCall, Event.Asks thread server req isCall e → e = .send thread server req := by
    intro thread req isCall asks
    cases asks with
    | send => rfl
    | call space timeoutMs o => exact absurd talks client_ne_server.symm
  -- a message of the client has a number and an id of its own
  have clientAsks : ∀ {msg pc}, m.Made client req msg → own = client → pc.message = some (client, msg) → pc.Duo →
      Ledger (s.threads.set n pc) s.mem.view (m.stamps + 1) hs := by
    intro msg pc made mine message duo
    subst mine
    rw [stamps]
    refine ledger.ask message duo (made.stamp.trans stamps) ?_ ?_
    · rw [made.id]
      exact idFor_ne_zero sound alive
    · intro q known
      rw [made.id, idFor_retain retained]
      exact careful.ids n req _ asks q known
  cases begins with
  | refused counted ret =>
    cases acts
    exact ⟨exact_nil, ledger.settle rfl rfl trivial (fun _ _ => id) rfl (stamps ▸ counted) nofun⟩
  | @dropped msg target made peer =>
    cases acts.of_one with
    | @dropped _ t _ taken =>
      rcases Mem.peer_pair inv fresh peer with ⟨rfl, rfl⟩ | ⟨rfl, rfl⟩
      · have replies := replies_of_careful ledger made (careful.replies n req (isSend n req _ asks))
        refine ⟨⟨by simp, ?_⟩, ledger.drop rfl rfl trivial replies taken (stamps ▸ Nat.le_succ _)⟩
        intro q k member answers j id space patience
        cases mem_singleton.mp member
        exact kept_of_dropped ledger replies taken answers
      · exact ⟨⟨by simp, by simp [client_ne_server]⟩, ledger.settle rfl rfl trivial (fun _ _ => id)
          (View.setTable_of_ne client_ne_server) (stamps ▸ Nat.le_succ _) (forall_mem_singleton.mpr rfl)⟩
  | @sends msg _ target flags _ made peer kept turns =>
    rw [view] at turns
    rcases Mem.peer_pair inv fresh peer with ⟨rfl, rfl⟩ | ⟨rfl, rfl⟩
    · have care := careful.replies n req (isSend n req _ asks)
      have table : m.table client = s.mem.table client := congrArg (View.table · client) view
      rw [table] at kept
      have duo : (Pc.sending server client msg flags).Duo := .inl ⟨rfl, rfl⟩
      refine ⟨exact_of_turns ledger duo turns acts, turns_ledger ?_ inside turns acts careful⟩
      rw [stamps]
      exact ledger.tell rfl rfl duo (replies_of_careful ledger made care) fun id k => wanted_of_kept ledger made care kept
    · have duo : (Pc.sending client server msg flags).Duo := .inr ⟨rfl, rfl⟩
      exact ⟨exact_of_turns ledger duo turns acts, turns_ledger (clientAsks made rfl rfl duo) inside turns acts careful⟩
  | @calls msg space patience target flags _ _ made peer turns =>
    rw [view] at turns
    rcases Mem.peer_pair inv fresh peer with ⟨rfl, rfl⟩ | ⟨rfl, rfl⟩
    · cases asks with
      | call space' timeoutMs o => exact absurd talks client_ne_server.symm
    · have duo : (Pc.requesting client server msg flags space patience).Duo := ⟨rfl, rfl⟩
      exact ⟨exact_of_turns ledger duo turns acts, turns_ledger (clientAsks made rfl rfl duo) inside turns acts careful⟩

theorem step_exact (paired : s.Paired) (ledger : s.LedgerOf hs) (allowed : s.Allowed e)
    (talks : e.Talks) (careful : Careful s hs e what) (ran : s.step e = some (s', what)) :
    Exact s hs what ∧ s'.LedgerOf (hs ++ what) := by
  obtain ⟨does, acts, _⟩ := step_does paired.good.sound allowed ran
  cases does with
  | manages kind freed =>
    cases e with
    | create | connect | close => exact absurd talks id
    | send | recv | call | resume | finish => exact absurd kind id
  | sends asks retained enters =>
    exact sends_exact paired ledger allowed talks careful asks retained acts enters.begins
  | @receives own m o space flags p thread retained moves =>
    obtain ⟨view, _, stamps⟩ := retain_view paired.good.sound retained
    have turns := moves.turns
    rw [view] at turns
    have inside : thread < s.threads.length := (List.getElem?_eq_some_iff.mp allowed.1).1
    have duo : (Pc.receiving own space flags).Duo := trivial
    have started : Ledger (s.threads.set thread (.receiving own space flags)) s.mem.view s.mem.stamps (hs ++ []) :=
      ledger.settle rfl rfl duo (fun _ _ => id) rfl (Nat.le_refl _) nofun
    rw [append_nil] at started
    refine ⟨exact_of_turns ledger duo turns acts, ?_⟩
    rw [LedgerOf, moves.stamps, stamps]
    exact turns_ledger started inside turns acts careful
  | @resumes thread pc o p here moves =>
    refine ⟨exact_of_turns ledger (ledger.duo thread pc here) moves.turns acts, ?_⟩
    rw [LedgerOf, moves.stamps]
    refine ledger.turns here moves.turns acts careful.slot ?_
    rintro id k member q ⟨j, pc₁, _, there, has⟩
    exact careful.flight id k member q ⟨j, pc₁, there, has⟩
  | leaves here freed =>
    obtain ⟨none_, _, view, stamps, _⟩ := paired.finish here ran
    subst none_
    refine ⟨exact_nil, ledger.settle rfl rfl trivial ?_ ?_ (Nat.le_of_eq stamps.symm) nofun⟩
    · rw [view]
      exact fun _ _ => id
    · rw [view]

/-- A service with one client. -/
def duo (threads : Nat) (serverNonblock clientNonblock : Bool) : Config :=
  ⟨((Mem.init.create serverNonblock).connect server clientNonblock).getD .init,
    replicate threads .idle⟩

variable {threads : Nat}

theorem duo_run : Run (init threads) [.create a, .connect server b] [] (duo threads a b) := by
  have created : (init threads).Allowed (.create a) := trivial
  have connected : (⟨Mem.init.create a, replicate threads .idle⟩ : Config).Allowed (.connect server b) :=
    (by decide : server < ipcMaxServices)
  exact .cons created rfl (.cons connected rfl (.nil _))

theorem duo_paired : (duo threads a b).Paired := ⟨duo_run.good (init_good threads), rfl, rfl, rfl⟩

theorem duo_ledger : (duo threads a b).LedgerOf [] := by
  have view : (duo threads a b).mem.view = (init threads).mem.view := by
    obtain ⟨acts, _⟩ := (@duo_run threads a b).moves (init_sound threads)
    exact (ActsAll.eq_of_nil acts).symm
  have idle : ∀ (n : Nat) pc, (duo threads a b).threads[n]? = some pc → pc = .idle :=
    fun n pc there => eq_of_mem_replicate (mem_of_getElem? there)
  have nothing : ∀ own m, ¬ Carried (duo threads a b).threads own m := by
    rintro own m ⟨n, pc, there, has⟩
    cases idle n pc there
    cases has
  have unknown : ∀ m, ¬ Known (duo threads a b).threads [] m := by
    rintro m (there | carried)
    · cases there
    · exact nothing _ _ carried
  rw [LedgerOf, view]
  refine ⟨nofun, nofun, ?_, ?_, ?_, ?_, ?_, ?_, nofun, nofun, ?_, nofun, nofun, ?_,
    (by decide : 0 < ipcCancelSlots)⟩
  · intro n pc there
    cases idle n pc there
    trivial
  · exact fun m known => absurd known (unknown m)
  · exact fun m _ known => absurd known (unknown m)
  · exact fun m q carried => absurd carried (nothing _ m)
  · intro i j pc _ k _ there _ number
    cases idle i pc there
    cases number
  · intro n own _ k _ _ there
    cases idle n _ there
  · rintro m (there | there | carried)
    · cases there
    · cases there
    · exact absurd carried (nothing _ m)
  · exact fun i _ notZero => absurd rfl notZero

end Config

theorem Run.exact (run : Run s es hs' s') (paired : s.Paired)
    (ledger : s.LedgerOf hs) (talks : ∀ e ∈ es, e.Talks) (careful : CarefulRun s hs es) :
    ExactRun s hs es := by
  induction run generalizing hs with
  | nil s => trivial
  | cons allowed stepped rest ih =>
    intro _ _ again
    cases stepped.symm.trans again
    obtain ⟨care, later⟩ := careful _ _ stepped
    have talk := talks _ mem_cons_self
    obtain ⟨now, ledger'⟩ := Config.step_exact paired ledger allowed talk care stepped
    refine ⟨now, ih (paired.step allowed talk stepped) ledger' ?_ later⟩
    exact fun e member => talks e (mem_cons_of_mem _ member)

/-- In every run in which both take care, cancellation is exact. -/
theorem cancellation_exact {serverNonblock : Bool}
    (run : Run (.duo threads serverNonblock clientNonblock) es hs s) (talks : ∀ e ∈ es, e.Talks)
    (careful : CarefulRun (.duo threads serverNonblock clientNonblock) [] es) :
    ExactRun (.duo threads serverNonblock clientNonblock) [] es :=
  run.exact Config.duo_paired Config.duo_ledger talks careful

/-- A call that does not wait for its reply. -/
def hastyCall : Event := .call 1 client (.plain 0) roomy 0 plainOutcome

/-- The messages that threads of an endpoint are about to queue. -/
def carried (threads : List Pc) (own : Nat) : List Msg :=
  threads.filterMap fun pc => pc.message.bind fun x => if x.1 = own then some x.2 else none

theorem Carried.mem (here : Carried threads own m) : m ∈ carried threads own := by
  obtain ⟨n, pc, there, has⟩ := here
  refine mem_filterMap.mpr ⟨pc, mem_of_getElem? there, ?_⟩
  rw [has, Option.bind_some, if_pos rfl]

/-- A check that both take care in a step. -/
def careful (s : Config) (hs : List Happening) (e : Event) (what : List Happening) : Bool :=
  let told := acceptedAt client hs ++ carried s.threads server
  let known := acceptedAt server hs ++ carried s.threads client
  (match e with
    | .send _ own req =>
      if own = client then known.all (·.id ≠ s.mem.idFor client req)
      else req.replyTo = 0 ∧ req.answers = none ∨ ∃ q ∈ receivedAt server hs,
        req.answers = some q.stamp ∧ req.replyTo = q.id ∧ ∀ m ∈ told, m.answers ≠ some q.stamp
    | .call _ _ req _ _ _ => known.all (·.id ≠ s.mem.idFor client req)
    | _ => true) && what.all fun
    | .gaveUp _ _ k => (s.mem.table client).canceled (s.mem.table client).pos = 0 ∧
      ∀ m ∈ carried s.threads server, m.answers ≠ some k
    | _ => true

theorem Told.mem (told : Told threads hs m) :
    m ∈ acceptedAt client hs ++ carried threads server := by
  rw [mem_append, mem_ofKind]
  rcases told with queued | dropped | carried
  · exact .inl ⟨_, queued, rfl⟩
  · exact .inl ⟨_, dropped, rfl⟩
  · exact .inr carried.mem

theorem Known.mem (known : Known threads hs m) :
    m ∈ acceptedAt server hs ++ carried threads client := by
  rw [mem_append, mem_ofKind]
  rcases known with queued | carried
  · exact .inl ⟨_, queued, rfl⟩
  · exact .inr carried.mem

theorem Careful.of_check (checked : careful s hs e what) : Careful s hs e what := by
  obtain ⟨asks, gives⟩ := Bool.and_eq_true_iff.mp checked
  have gaveUp :=
    fun id k member => of_decide_eq_true (all_eq_true.mp gives (.gaveUp client id k) member)
  refine ⟨?_, ?_, fun id k member => (gaveUp id k member).1,
    fun id k member m carried => (gaveUp id k member).2 m carried.mem⟩
  · rintro thread req rfl
    refine (of_decide_eq_true asks).imp_right ?_
    rintro ⟨q, member, answers, replyTo, once⟩
    obtain ⟨h, there, kind⟩ := mem_ofKind.mp member
    cases h with
    | received e m call =>
      cases kind
      exact ⟨q, call, there, answers, replyTo, fun m told => once m told.mem⟩
    | _ => cases kind
  · rintro thread req isCall (_ | _) m known
    · exact of_decide_eq_true (all_eq_true.mp asks m known.mem)
    · exact of_decide_eq_true (all_eq_true.mp asks m known.mem)

def carefulRun : Config → List Happening → List Event → Bool
  | _, _, [] => true
  | s, hs, e :: es => (s.step e).all fun r => careful s hs e r.2 && carefulRun r.1 (hs ++ r.2) es

theorem CarefulRun.of_check (checked : carefulRun s hs es) : CarefulRun s hs es := by
  induction es generalizing s hs with
  | nil => trivial
  | cons e es ih =>
    intro s' what stepped
    rw [carefulRun, stepped] at checked
    obtain ⟨here, rest⟩ := Bool.and_eq_true_iff.mp checked
    exact ⟨.of_check here, ih rest⟩

/-- The reply of the server to the client's first message. -/
def lateReply : Request := { Request.plain 1 with replyTo := 1, answers := some 0 }

/-- The reply to a call that gave up is dropped, that to the next call is received. -/
def twoCalls : List Event :=
  [hastyCall, .finish 1, .recv 0 server roomy 0 plainOutcome, .finish 0, .send 0 server lateReply,
    .finish 0, .call 1 client (.plain 0) roomy (-1) plainOutcome,
    .recv 0 server roomy 0 plainOutcome, .finish 0, .send 0 server { lateReply with replyTo := 2, answers := some 2 }, .resume 1 plainOutcome]

theorem twoCalls_exact : ∃ hs s, Run (.duo 2 false false) twoCalls hs s ∧ .gaveUp client 1 0 ∈ hs ∧
    (droppedAt client hs).map (·.answers) = [some 0] ∧
    (receivedAt client hs).map (·.answers) = [some 2] ∧ ExactRun (.duo 2 false false) [] twoCalls := by
  obtain ⟨hs, s, run, seen⟩ := Run.exists_of_exec (.duo 2 false false) twoCalls
    (fun _ hs => decide (.gaveUp client 1 0 ∈ hs ∧ (droppedAt client hs).map (·.answers) = [some 0] ∧
      (receivedAt client hs).map (·.answers) = [some 2])) (by decide +kernel)
  obtain ⟨gave, dropped, received⟩ := of_decide_eq_true seen
  have talks : ∀ e ∈ twoCalls, e.Talks := by simp [twoCalls, hastyCall, Event.Talks]
  exact ⟨hs, s, run, gave, dropped, received,
    cancellation_exact run talks (.of_check (by decide +kernel))⟩

theorem ExactRun.last (run : Run s es hs' s')
    (exact_ : ExactRun s hs (es ++ [e])) (stepped : s'.step e = some (s'', what)) :
    Exact s' (hs ++ hs') what := by
  induction run generalizing hs with
  | nil s =>
    rw [append_nil]
    exact (exact_ s'' what stepped).1
  | cons allowed first rest ih =>
    have later := ih (exact_ _ _ first).2 stepped
    rwa [append_assoc] at later

/-- Seventeen calls give up before the server answers the first one. -/
def manyTimeouts : List Event :=
  (replicate (ipcCancelSlots + 1) [hastyCall, .finish 1]).flatten ++
    [.recv 0 server roomy 0 plainOutcome, .finish 0, .send 0 server lateReply]

/-- The client receives the reply to a call that gave up. -/
theorem manyTimeouts_late : ∃ hs s, Run (.duo 2 false false) manyTimeouts hs s ∧
      ¬ ExactRun (.duo 2 false false) [] (manyTimeouts ++ [.recv 1 client roomy 0 plainOutcome]) := by
  obtain ⟨hs, s, run, late⟩ := Run.exists_of_exec (.duo 2 false false) manyTimeouts
    (fun s hs => decide (Happening.gaveUp client 1 0 ∈ hs) &&
      (s.step (.recv 1 client roomy 0 plainOutcome)).any fun r => r.2.any fun h =>
        h.received?.any fun x => x.1 = client ∧ x.2.answers = some 0) (by decide +kernel)
  rw [Bool.and_eq_true, decide_eq_true_iff, Option.any_eq_true] at late
  obtain ⟨gave, ⟨_, _⟩, stepped, some_⟩ := late
  obtain ⟨h, member, kind⟩ := any_eq_true.mp some_
  refine ⟨hs, s, run, fun exact_ => ?_⟩
  have last := exact_.last run stepped
  cases h with
  | received e m call =>
    obtain ⟨rfl, answers⟩ := of_decide_eq_true kind
    exact last.late m call 0 member answers 1 gave
  | queued | dropped | lost | putBack | gaveUp | freed => cases kind

end Otsos.Ipc
