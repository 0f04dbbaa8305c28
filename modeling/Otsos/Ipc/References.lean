import Otsos.Ipc.Services

/-! Which endpoints are there. A thread holds a reference to the endpoint that it made its call on,
and a handle holds one; a thread asleep in `ipc_queue_push` has none to the endpoint that it sends
to. -/
namespace Otsos.Ipc
open Function (update update_of_ne update_self)
open List Option

/-- What references and services depend on. -/
def Endpoint.shape (ep : Endpoint) : Nat × Role × Option Nat := (ep.refcount, ep.role, ep.service)

namespace Mem

variable {m : Mem} {target : Nat} {ep : Endpoint} {flags : UInt32} {id : UInt64} {call : Option Nat}
  {refs : Nat → Nat}

/-- Only queues, ids and numbers differ. -/
structure Like (m m' : Mem) : Prop where
  services : m'.services = m.services
  held : m'.held = m.held
  fresh : m'.fresh = m.fresh
  shape : ∀ e, (m'.eps e).map Endpoint.shape = (m.eps e).map Endpoint.shape

namespace Like

theorem refl (m : Mem) : Like m m := ⟨rfl, rfl, rfl, fun _ => rfl⟩

theorem trans (first : Like m m') (second : Like m' m'') : Like m m'' :=
  ⟨second.services.trans first.services, second.held.trans first.held,
    second.fresh.trans first.fresh, fun e => (second.shape e).trans (first.shape e)⟩

theorem set (here : m.eps e = some ep) (same : ep'.shape = ep.shape) : Like m (m.set e ep') := by
  refine ⟨rfl, rfl, rfl, fun x => ?_⟩
  by_cases at_ : x = e
  · subst at_
    rw [set_self, here, map_some, map_some, same]
  · rw [set_of_ne at_]

theorem some_of (like : Like m m') (here : m.eps e = some ep) :
    ∃ ep', m'.eps e = some ep' ∧ ep'.shape = ep.shape := by
  have same := like.shape e
  rw [here] at same
  exact map_eq_some_iff.mp same

theorem of_some (like : Like m m') (here : m'.eps e = some ep') :
    ∃ ep, m.eps e = some ep ∧ ep'.shape = ep.shape := by
  have same := (like.shape e).symm
  rw [here] at same
  obtain ⟨ep, here', shape⟩ := map_eq_some_iff.mp same
  exact ⟨ep, here', shape.symm⟩

theorem alive (like : Like m m') (alive : m.Alive e) : m'.Alive e := by
  obtain ⟨_, here⟩ := alive
  obtain ⟨ep', here', _⟩ := like.some_of here
  exact ⟨ep', here'⟩

end Like

/-- What a thread in a call on `own` comes to without touching what has been freed. -/
def Goes (m : Mem) (own : Nat) (r : Option Progress) : Prop :=
  ∃ p, r = some p ∧ Like m p.mem ∧ p.pc.own = some own

theorem Goes.of_like (like : Like m m') (goes : m'.Goes own r) : m.Goes own r := by
  obtain ⟨p, ran, rest, own⟩ := goes
  exact ⟨p, ran, like.trans rest, own⟩

theorem push_goes (msg : Msg) (flags : UInt32) (alive : m.Alive target) :
    ∃ m' ret, m.push target msg flags = some (m', ret) ∧ Like m m' := by
  obtain ⟨_, here⟩ := alive
  rw [push, here]
  dsimp only
  split
  · split
    · exact ⟨m, _, rfl, .refl m⟩
    split
    · exact ⟨m, _, rfl, .refl m⟩
    · exact ⟨m, _, rfl, .refl m⟩
  · exact ⟨_, _, rfl, .set here rfl⟩

theorem pop_goes (replyTo : UInt64) (nonblock : Bool) (alive : m.Alive own) :
    ∃ m' popped, m.pop own replyTo nonblock = some (m', popped) ∧ Like m m' := by
  obtain ⟨_, here⟩ := alive
  rw [pop, here]
  dsimp only
  split
  · exact ⟨_, _, rfl, .set here rfl⟩
  split
  · exact ⟨m, _, rfl, .refl m⟩
  split
  · exact ⟨m, _, rfl, .refl m⟩
  · exact ⟨m, _, rfl, .refl m⟩

section
variable (alive : m.Alive own)
include alive

theorem deliver_goes : m.Goes own (m.deliver o own msg i space call) := by
  obtain ⟨_, here⟩ := alive
  rw [deliver]
  split
  · rw [here]
    exact ⟨_, rfl, .set here rfl, rfl⟩
  split
  · exact ⟨_, rfl, .refl m, rfl⟩
  · exact ⟨_, rfl, .refl m, rfl⟩

theorem giveUp_goes : m.Goes own (m.giveUp own id request ret) := by
  obtain ⟨ep, here⟩ := alive
  have same : (ep.cancelAdd id).shape = ep.shape := by
    rw [Endpoint.cancelAdd]
    split <;> rfl
  rw [giveUp, here]
  exact ⟨_, rfl, .set here same, rfl⟩

theorem recvTurn_goes : m.Goes own (m.recvTurn o own space flags) := by
  rw [recvTurn]
  obtain ⟨_, popped, ran, like⟩ := pop_goes 0 ((flags ||| space.flags) &&& ipcMsgNonblock ≠ 0) alive
  rw [ran]
  cases popped with
  | got msg i => exact .of_like like (deliver_goes (like.alive alive))
  | asleep => exact ⟨_, rfl, like, rfl⟩
  | error ret => exact ⟨_, rfl, like, rfl⟩

theorem callTurn_goes : m.Goes own (m.callTurn o own id request space patience) := by
  rw [callTurn]
  obtain ⟨_, popped, ran, like⟩ := pop_goes id (patience ≠ .forever) alive
  rw [ran]
  have alive' := like.alive alive
  cases popped with
  | got msg i => exact .of_like like (deliver_goes alive')
  | asleep => exact ⟨_, rfl, like, rfl⟩
  | error ret =>
    dsimp only [bind_eq_bind, bind_some]
    split
    · exact ⟨_, rfl, like, rfl⟩
    split
    · exact ⟨_, rfl, like, rfl⟩
    · exact .of_like like (giveUp_goes alive')
    split
    · exact .of_like like (giveUp_goes alive')
    · exact ⟨_, rfl, like, rfl⟩

theorem await_goes : m.Goes own (m.await o own id request space patience) := by
  rw [await]
  split
  · exact giveUp_goes alive
  · exact callTurn_goes alive

end

theorem sendTurn_goes (alive : m.Alive target) : m.Goes own (m.sendTurn own target msg flags) := by
  rw [sendTurn]
  obtain ⟨_, ret, ran, like⟩ := push_goes msg flags alive
  rw [ran]
  cases ret with
  | none => exact ⟨_, rfl, like, rfl⟩
  | some ret => exact ⟨_, rfl, like, rfl⟩

theorem requestTurn_goes (alive : m.Alive own) (there : m.Alive target) :
    m.Goes own (m.requestTurn o own target msg flags space patience) := by
  rw [requestTurn]
  obtain ⟨m', ret, ran, like⟩ := push_goes msg flags there
  rw [ran]
  cases ret with
  | none => exact ⟨_, rfl, like, rfl⟩
  | some ret =>
    dsimp only [bind_eq_bind, bind_some]
    split
    · exact ⟨_, rfl, like, rfl⟩
    · have awaits : m'.Goes own (m'.await o own msg.id msg.stamp space patience) := await_goes (like.alive alive)
      obtain ⟨p, awaited, rest, owns⟩ := awaits
      rw [awaited]
      exact ⟨_, rfl, like.trans rest, owns⟩

theorem Inv.like (inv : m.Inv refs) (like : Like m m') : m'.Inv refs := by
  refine inv.relink like.services like.fresh (fun e => ?_) (fun e above => ?_) (fun e _ here' => ?_)
    fun e some_ => ?_
  · have same := congrArg (Option.map Prod.snd) (like.shape e)
    rw [Option.map_map, Option.map_map] at same
    exact same
  · rw [like.held]
    exact (inv.fresh e above).2
  · obtain ⟨ep, here, same⟩ := like.of_some here'
    rw [like.held, ← inv.count e ep here]
    exact congrArg Prod.fst same
  · rw [like.held] at some_
    exact inv.alive e some_

theorem build_shape : (ep.build req stamp).1.shape = ep.shape := by
  rw [Endpoint.build]
  split
  · rfl
  split <;> rfl

theorem cancelTake_shape (taken : ep.cancelTake id = some ep') : ep'.shape = ep.shape := by
  rw [Endpoint.cancelTake] at taken
  split at taken
  · cases taken
  · obtain ⟨i, _, rfl⟩ := map_eq_some_iff.mp taken
    rfl

theorem Inv.target_alive (inv : m.Inv refs) (ep : Endpoint) (sv : Nat) (peer : UInt64) :
    ∃ found, m.target ep sv peer = some found ∧ ∀ x, found = some x → m.Alive x := by
  rw [Mem.target]
  split
  · refine ⟨_, rfl, fun x here => ?_⟩
    obtain ⟨ep, at_, _⟩ := inv.server sv x here
    exact ⟨ep, at_⟩
  split
  · exact ⟨none, rfl, by simp⟩
  have all : ∀ c ∈ m.sessions sv, m.Alive c := by
    intro c member
    obtain ⟨i, here⟩ := mem_sessions member
    obtain ⟨_, ep, at_, _⟩ := inv.client sv i c here
    exact ⟨ep, at_⟩
  generalize m.sessions sv = cs at all
  induction cs with
  | nil => exact ⟨none, rfl, by simp⟩
  | cons c rest ih =>
    obtain ⟨epc, at_⟩ := all c mem_cons_self
    rw [serviceClient, at_]
    dsimp only
    split
    · refine ⟨some c, rfl, fun x here => ?_⟩
      cases here
      exact ⟨epc, at_⟩
    · exact ih fun x member => all x (mem_cons_of_mem _ member)

theorem Like.built (here : m.eps own = some ep) (same : ep'.shape = ep.shape) :
    Like m (m.built own ep') :=
  have like := Like.set here same
  ⟨like.services, like.held, like.fresh, like.shape⟩

theorem send_goes (inv : m.Inv refs) (alive : m.Alive own) : m.Goes own (m.send own req) := by
  obtain ⟨ep, here⟩ := alive
  have shape := @build_shape ep req m.stamps
  rw [send, here]
  dsimp only [bind_eq_bind, bind_some]
  split
  · exact ⟨_, rfl, .refl m, rfl⟩
  · exact ⟨_, rfl, .refl m, rfl⟩
  next sv _ _ =>
  split
  · next builds =>
    rw [builds] at shape
    exact ⟨_, rfl, .set here shape, rfl⟩
  next ep' msg builds =>
  rw [builds] at shape
  have like := Like.built here shape
  refine .of_like like ?_
  obtain ⟨found, ran, there⟩ := (inv.like like).target_alive ep' sv msg.peer
  change (m.built own ep').Goes own (((m.built own ep').target ep' sv msg.peer).bind _)
  rw [ran]
  cases found with
  | none => exact ⟨_, rfl, .refl _, rfl⟩
  | some x =>
    obtain ⟨epx, at_⟩ := there x rfl
    change (m.built own ep').Goes own (((m.built own ep').eps x).bind _)
    rw [at_, bind_some]
    split
    · exact ⟨_, rfl, .refl _, rfl⟩
    split
    · next taken => exact ⟨_, rfl, .set at_ (cancelTake_shape taken), rfl⟩
    · exact sendTurn_goes ⟨epx, at_⟩

theorem call_goes (inv : m.Inv refs) (alive : m.Alive own) :
    m.Goes own (m.call o own req space timeoutMs) := by
  obtain ⟨ep, here⟩ := alive
  have shape := @build_shape ep req m.stamps
  rw [Mem.call, here]
  dsimp only [bind_eq_bind, bind_some]
  split
  · split
    · exact ⟨_, rfl, .refl m, rfl⟩
    next x server =>
    split
    · next builds =>
      rw [builds] at shape
      exact ⟨_, rfl, .set here shape, rfl⟩
    next builds =>
    rw [builds] at shape
    have like := Like.built here shape
    obtain ⟨epx, at_, _⟩ := inv.server _ x server
    exact .of_like like (requestTurn_goes (like.alive ⟨ep, here⟩) (like.alive ⟨epx, at_⟩))
  · exact ⟨_, rfl, .refl m, rfl⟩

end Mem

/-- The endpoint whose queue a thread waits for room in. -/
def Pc.target : Pc → Option Nat
  | .sending _ target .. | .requesting _ target .. => some target
  | .idle | .receiving .. | .awaiting .. | .done .. => none

namespace Config

variable {s : Config} {n : Nat} {pc : Pc}

/-- The threads in a call on the endpoint. -/
def refs (s : Config) (x : Nat) : Nat := s.threads.countP fun pc => pc.own = some x

def Inv (s : Config) : Prop := s.mem.Inv s.refs

/-- A thread that goes on to send finds the endpoint that it waits for. -/
def Finds (s : Config) : Event → Prop
  | .resume thread _ => ∀ pc target, s.threads[thread]? = some pc → pc.target = some target → s.mem.Alive target
  | _ => True

theorem refs_set (m : Mem) (pc' : Pc) (at_ : s.threads[n]? = some pc) (x : Nat) :
    refs ⟨m, s.threads.set n pc'⟩ x + (if pc.own = some x then 1 else 0) =
      s.refs x + (if pc'.own = some x then 1 else 0) := by
  obtain ⟨inside, here⟩ := List.getElem?_eq_some_iff.mp at_
  have count := @countP_set _ (fun pc => decide (pc.own = some x)) s.threads n pc' inside
  have counted : pc.own = some x → 0 < s.refs x := fun own =>
    countP_pos_iff.mpr ⟨pc, mem_of_getElem? at_, by simpa using own⟩
  rw [here] at count
  simp only [decide_eq_true_eq] at count
  rw [refs, count, ← refs]
  split <;> rename_i own
  · have positive := counted own
    omega
  · omega

theorem refs_same (at_ : s.threads[n]? = some pc) (own : pc'.own = pc.own) :
    refs ⟨m, s.threads.set n pc'⟩ = s.refs := by
  funext x
  have sum := refs_set m pc' at_ x
  rw [own] at sum
  exact Nat.add_right_cancel sum

theorem refs_enter (at_ : s.threads[n]? = some .idle) (own : pc'.own = some x) :
    refs ⟨m, s.threads.set n pc'⟩ = update s.refs x (s.refs x + 1) := by
  funext y
  have sum := refs_set m pc' at_ y
  have idle : Pc.own .idle = none := rfl
  rw [own, idle] at sum
  by_cases same : y = x
  · subst same
    simpa using sum
  · rw [update_of_ne same]
    simpa [Ne.symm same] using sum

theorem refs_leave (at_ : s.threads[n]? = some (.done x ret)) :
    s.refs = update (refs ⟨m, s.threads.set n .idle⟩) x (refs ⟨m, s.threads.set n .idle⟩ x + 1) := by
  funext y
  have sum := refs_set m .idle at_ y
  have idle : Pc.own .idle = none := rfl
  have own : (Pc.done x ret).own = some x := rfl
  rw [own, idle] at sum
  by_cases same : y = x
  · subst same
    simpa using sum.symm
  · rw [update_of_ne same]
    simpa [Ne.symm same] using sum.symm

theorem refs_pos (at_ : s.threads[n]? = some pc) (own : pc.own = some x) : 0 < s.refs x :=
  countP_pos_iff.mpr ⟨pc, mem_of_getElem? at_, by simpa using own⟩

theorem retain_inv {refs : Nat → Nat} (inv : m.Inv refs) (held : m.held x = true) :
    ∃ m', retain m x = some m' ∧ m'.Inv (update refs x (refs x + 1)) ∧ m'.Alive x := by
  have positive : 0 < refs x + (m.held x).toNat := by
    rw [held]
    exact Nat.succ_pos _
  obtain ⟨ep, here⟩ := inv.alive x positive
  refine ⟨_, by rw [retain, here]; rfl, ?_, ⟨_, Mem.set_self⟩⟩
  refine inv.recount here (fun y other => update_of_ne other _ _) ?_
  rw [update_self, inv.count x ep here]
  omega

theorem enter_inv {f : Mem → Option Progress} (inv : s.Inv) (idle : s.Idle n x)
    (goes : ∀ (m : Mem) refs, m.Inv refs → m.Alive x → m.Goes x (f m)) :
    ∃ s' hs, ((retain s.mem x).bind fun m => (f m).map (s.put n)) = some (s', hs) ∧ s'.Inv := by
  obtain ⟨m, retained, inv', alive⟩ := retain_inv inv idle.2
  obtain ⟨p, ran, like, own⟩ := goes m _ inv' alive
  refine ⟨⟨p.mem, s.threads.set n p.pc⟩, p.what, ?_, ?_⟩
  · rw [retained, bind_some, ran]
    rfl
  · rw [Inv, refs_enter idle.1 own]
    exact inv'.like like

theorem turn_goes (o : Outcome) (inv : s.Inv) (at_ : s.threads[n]? = some pc)
    (finds : ∀ target, pc.target = some target → s.mem.Alive target) :
    ∃ p, turn s.mem o pc = some p ∧ Mem.Like s.mem p.mem ∧ p.pc.own = pc.own := by
  have mine : ∀ own, pc.own = some own → s.mem.Alive own :=
    fun own here => inv.alive own (Nat.lt_of_lt_of_le (refs_pos at_ here) (Nat.le_add_right _ _))
  cases pc with
  | idle => exact ⟨_, rfl, .refl _, rfl⟩
  | sending own target msg flags => exact Mem.sendTurn_goes (finds target rfl)
  | requesting own target msg flags space patience => exact Mem.requestTurn_goes (mine own rfl) (finds target rfl)
  | receiving own space flags => exact Mem.recvTurn_goes (mine own rfl)
  | awaiting own id request space patience => exact Mem.callTurn_goes (mine own rfl)
  | done own ret => exact ⟨_, rfl, .refl _, rfl⟩

theorem step_inv (inv : s.Inv) (allowed : s.Allowed e) (finds : s.Finds e) :
    ∃ s' hs, s.step e = some (s', hs) ∧ s'.Inv := by
  cases e with
  | create nonblock => exact ⟨_, _, rfl, Mem.create_inv inv⟩
  | connect sv nonblock =>
    obtain ⟨m, connected, inv'⟩ := Mem.connect_inv sv nonblock inv
    exact ⟨⟨m, s.threads⟩, [], by rw [step, connected]; rfl, inv'⟩
  | close x =>
    obtain ⟨m, hs, released, inv'⟩ := Mem.release_inv (Mem.Inv.unheld inv allowed)
    exact ⟨⟨m, s.threads⟩, hs, by rw [step, released]; rfl, inv'⟩
  | send thread x req => exact enter_inv inv allowed fun m refs inv' alive => Mem.send_goes inv' alive
  | recv thread x space flags o => exact enter_inv inv allowed fun m refs _ alive => Mem.recvTurn_goes alive
  | call thread x req space timeoutMs o => exact enter_inv inv allowed fun m refs inv' alive => Mem.call_goes inv' alive
  | resume thread o =>
    obtain ⟨pc, at_, _⟩ := allowed
    obtain ⟨p, ran, like, own⟩ := turn_goes o inv at_ fun target => finds pc target at_
    refine ⟨⟨p.mem, s.threads.set thread p.pc⟩, p.what, ?_, ?_⟩
    · rw [step, at_, bind_eq_bind, bind_some, ran]
      rfl
    · rw [Inv, refs_same at_ own]
      exact Mem.Inv.like inv like
  | finish thread =>
    obtain ⟨own, _, at_⟩ := allowed
    have owed : s.mem.Owed (refs ⟨s.mem, s.threads.set thread .idle⟩) own := by
      rw [Mem.Owed, ← refs_leave at_]
      exact inv
    obtain ⟨m, hs, released, inv'⟩ := Mem.release_inv owed
    refine ⟨⟨m, s.threads.set thread .idle⟩, hs, ?_, inv'⟩
    rw [step, at_]
    dsimp only
    rw [released]
    rfl

theorem step_finds (ran : s.step e = some (s', hs)) : s.Finds e := by
  cases e with
  | resume thread o =>
    intro pc target at_ waits
    obtain ⟨_, at', ran⟩ := bind_eq_some_iff.mp ran
    cases at_.symm.trans at'
    obtain ⟨p, turned, _⟩ := map_eq_some_iff.mp ran
    cases there : s.mem.eps target with
    | some ep => exact ⟨ep, there⟩
    | none =>
      have pushed : ∀ msg flags, s.mem.push target msg flags = none := by
        intro msg flags
        rw [Mem.push, there]
      cases pc with
      | sending own target' msg flags =>
        cases waits
        rw [turn, Mem.sendTurn, pushed] at turned
        cases turned
      | requesting own target' msg flags space patience =>
        cases waits
        rw [turn, Mem.requestTurn, pushed] at turned
        cases turned
      | idle | receiving | awaiting | done => cases waits
  | _ => trivial

theorem init_inv (threads : Nat) : (init threads).Inv := by
  have none_ : ∀ x, (init threads).refs x = 0 := by
    intro x
    refine countP_eq_zero.mpr fun _ member => ?_
    cases eq_of_mem_replicate member
    simp [Pc.own]
  refine ⟨fun x _ => ⟨rfl, rfl, none_ x⟩, nofun, fun x some_ => ?_, fun _ _ => ⟨rfl, fun _ => rfl⟩,
    nofun, nofun, nofun, nofun, nofun⟩
  rw [none_ x] at some_
  cases some_

end Config

theorem Run.inv (run : Run s es hs s') (inv : s.Inv) : s'.Inv := by
  induction run with
  | nil s => exact inv
  | cons allowed stepped rest ih =>
    obtain ⟨_, _, again, inv'⟩ := Config.step_inv inv allowed (Config.step_finds stepped)
    cases stepped.symm.trans again
    exact ih inv'

/-- A step touches an endpoint that has been freed if and only if a thread goes on that slept for
room in its queue. -/
theorem freed_untouched_iff
    (run : Run (.init threads) es hs s) (allowed : s.Allowed e) : s.step e ≠ none ↔ s.Finds e := by
  constructor
  · intro touches
    obtain ⟨⟨s', hs'⟩, stepped⟩ := ne_none_iff_exists'.mp touches
    exact Config.step_finds stepped
  · intro finds
    obtain ⟨s', hs', stepped, _⟩ := Config.step_inv (run.inv (Config.init_inv threads)) allowed finds
    rw [stepped]
    exact nofun

/-- A message without payload and handles to the client with this id. -/
def Request.plain (peer : UInt64) : Request where
  id := 0
  replyTo := 0
  peer := peer
  opcode := 0
  flags := 0
  length := 0
  payload := none
  handles := []
  caller := none
  lookup _ := .error errBadHandle
  answers := none

/-- A server fills the queue of its client and sleeps in the next send. -/
def fullQueue : List Event :=
  [.create false, .connect 0 false] ++
    (replicate ipcQueueMessages [Event.send 0 0 (.plain 1), .finish 0]).flatten ++
    [.send 0 0 (.plain 1)]

def plainOutcome : Outcome := ⟨true, fun _ => 0, true, false⟩

theorem waitingSender_untouched :
    ∃ hs s, Run (.init 1) fullQueue hs s ∧ s.Allowed (.resume 0 plainOutcome) ∧
    s.step (.resume 0 plainOutcome) ≠ none := by
  obtain ⟨hs, s, run, asleep⟩ := Run.exists_of_exec (.init 1) fullQueue
    (fun s _ => decide (s.Allowed (.resume 0 plainOutcome)) &&
      (s.threads[0]?.bind Pc.target).all fun x => (s.mem.eps x).isSome) (by decide +kernel)
  rw [Bool.and_eq_true, decide_eq_true_iff] at asleep
  obtain ⟨allowed, there⟩ := asleep
  refine ⟨hs, s, run, allowed, (freed_untouched_iff run allowed).mpr fun _ _ at_ waits => ?_⟩
  rw [at_, bind_some, waits] at there
  exact isSome_iff_exists.mp there

/-- The client goes, with its queue; the server writes into it. -/
theorem blockedSender_touches :
    ∃ hs s, Run (.init 1) (fullQueue ++ [.close 1]) hs s ∧ s.Allowed (.resume 0 plainOutcome) ∧
      s.step (.resume 0 plainOutcome) = none := by
  obtain ⟨hs, s, run, gone⟩ := Run.exists_of_exec (.init 1) (fullQueue ++ [.close 1])
    (fun s _ => decide (s.Allowed (.resume 0 plainOutcome)) && (s.step (.resume 0 plainOutcome)).isNone)
    (by decide +kernel)
  rw [Bool.and_eq_true, decide_eq_true_iff, isNone_iff_eq_none] at gone
  exact ⟨hs, s, run, gone⟩

end Otsos.Ipc
