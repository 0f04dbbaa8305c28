import Otsos.Event.QueueRuns

/-! Calls of `kevent_process` (`kernel/event/event.c`) that sleep while queues are destroyed and
created. Each call runs under the big kernel lock up to its sleep and from its wake-up on. -/
namespace Otsos.Event
open Function (update update_self update_of_ne)
open Transition
open Option

/-- A call that sleeps in `kevent_process` or was woken there. -/
structure Wait where
  (queue room : Nat)
  start : UInt64
  timeout : Option UInt64
  asleep : Bool
  /-- The queue was destroyed since the call began to sleep. -/
  gone : Bool

inductive Verdict where
  | returned (ret : Int) (events : List Kevent)
  | sleeps

def Verdict.events : Verdict → List Kevent
  | returned _ events => events
  | sleeps => []

namespace Pool

/-- A turn of the loop of `kevent_process`, with its second look at the clock. -/
def turn (p : Pool) (w : Wait) (turns : Nat) (world : Nat → Outcome × Outcome) :
    Option (Pool × Verdict) :=
  if !(p.kq w.queue).used then some (p, .returned (-9) [])
  else if (p.kq w.queue).readyCount > 0 then do
    let (p, events) ← collectEvents w.queue turns p w.room world []
    return (p, .returned events.length events)
  else if w.timeout.any (p.clock.ticks - w.start ≥ ·) then some (p, .returned 0 [])
  else some (p, .sleeps)

def timeoutTicks (p : Pool) (timeoutMs : Int64) : Option UInt64 :=
  let frequency := if p.clock.frequency = 0 then 1000 else p.clock.frequency
  if timeoutMs > 0 then some (max ((timeoutMs.toUInt64 * frequency + 999) / 1000) 1) else none

/-- `kevent_process` behind its changes, up to the first sleep. -/
def enter (p : Pool) (i room : Nat) (timeoutMs : Int64) (turns : Nat)
    (world world' : Nat → Outcome × Outcome) : Option (Pool × Wait × Verdict) :=
  let w : Wait := ⟨i, room, p.clock.ticks, p.timeoutTicks timeoutMs, true, false⟩
  if room = 0 then some (p, w, .returned 0 [])
  else do
    let (p, events) ← collectEvents i turns p room world []
    if events ≠ [] then return (p, w, .returned events.length events)
    else if timeoutMs = 0 then return (p, w, .returned 0 [])
    else
      let (p, verdict) ← p.turn w turns world'
      return (p, w, verdict)

end Pool

/-- The pool, the calls that wait and which process registered each knote. -/
structure Waits where
  pool : Pool
  call : Nat → Option Wait
  registrant : Nat → Nat → Nat

namespace Waits

inductive Act where
  | create (t : Nat) (attached : Bool)
  | destroy (i : Nat) (world : Nat → Outcome)
  | change (t i : Nat) (kev : Kevent) (o o' : Outcome)
  | enter (t i room : Nat) (timeoutMs : Int64) (turns : Nat)
      (world world' : Nat → Outcome × Outcome)
  | resume (t turns : Nat) (world : Nat → Outcome × Outcome)
  | rouse (t : Nat)
  | notify (n : Notice)
  | clock (now : UInt64)
  | tick
  | unwatch (pid : UInt64) (world : Nat → Nat → Outcome)

variable (process : Nat → Nat)

/-- `kqueue_get` and the check of the owner. -/
def opens (s : Waits) (t i : Nat) : Bool :=
  (s.call t).isNone && s.pool.live i && (s.pool.kq i).owner = some (process t)

/-- The end of a section of thread `t`. -/
def finish (s : Waits) (t : Nat) (w : Wait) (p : Pool) : Verdict → Waits
  | .returned .. => { s with pool := p, call := update s.call t none }
  | .sleeps => { s with pool := p, call := update s.call t (some { w with asleep := true }) }

/-- `proc_wakeup` on the channel of a queue that is destroyed. -/
def lose (i : Nat) (w : Wait) : Wait := if w.queue = i then { w with asleep := false, gone := true }
  else w

def step (s : Waits) : Act → Option Waits
  | .create t attached =>
    if (s.call t).isNone then some { s with pool := s.pool.create (some (process t)) attached }
      else none
  | .destroy i world =>
    if s.pool.live i then some { s with pool := s.pool.destroy i world, call := fun t => (s.call t).map (lose i) } else none
  | .change t i kev o o' =>
    if s.opens process t i then
      (s.pool.processChange i kev o o').map fun (p, _) =>
        { s with
          pool := p
          registrant := fun k j =>
            if k = i ∧ (p.knote k j).used ∧ !(s.pool.knote k j).used then process t else s.registrant k j }
    else none
  | .enter t i room timeoutMs turns world world' =>
    if s.opens process t i then
      (s.pool.enter i room timeoutMs turns world world').map fun (p, w, verdict) => s.finish t w p verdict
    else none
  | .resume t turns world =>
    match s.call t with
    | none => none
    | some w => if w.asleep then none else (s.pool.turn w turns world).map fun (p, verdict) =>
      s.finish t w p verdict
  | .rouse t =>
    some { s with call := update s.call t ((s.call t).map ({ · with asleep := false })) }
  | .notify n => some { s with pool := s.pool.knoteNotifyAll n }
  | .clock now =>
    some { s with pool := { s.pool with clock := { s.pool.clock with ticks := now } } }
  | .tick => some { s with pool := s.pool.timerTick }
  | .unwatch pid world => (s.pool.step (.unwatch pid world)).map ({ s with pool := · })

def boot (clock : Clock) : Waits := ⟨.empty clock, fun _ => none, fun _ _ => 0⟩

/-- No call waits for the queue that was in the slot that is taken. -/
def Clear (s : Waits) : Act → Prop
  | .create .. => ∀ t w, s.call t = some w → s.pool.freeSlot ≠ some w.queue
  | _ => True

/-- The event is of a knote that the process registered. -/
def Registered (s : Waits) (pid i : Nat) (e : Kevent) : Prop :=
  ∃ j, j < maxKnotes ∧ (s.pool.knote i j).used ∧ (s.pool.knote i j).ident = e.ident ∧
    (s.pool.knote i j).filter = e.filter ∧ s.registrant i j = pid

instance (s : Waits) (pid i : Nat) (e : Kevent) : Decidable (s.Registered pid i e) :=
  inferInstanceAs (Decidable (∃ j, j < maxKnotes ∧ _))

end Waits

namespace Pool

variable {p : Pool} {kev : Kevent}

/-- What the sections of a call do to the pool, and what they report. -/
structure Collects (i : Nat) (p p' : Pool) (verdict : Verdict) : Prop where
  good : p'.WellFormed
  shrinks : Shrinks p p'
  lists : ∀ e ∈ verdict.events, p.Lists i e

section
variable (good : p.WellFormed)
include good

theorem Collects.of_collect (live : p.live i)
    (is : collectEvents i n p room world [] = some (p', events)) :
    Collects i p p' (.returned ret events) := by
  obtain ⟨good', shrinks, lists⟩ := good.collectEvents live is
  exact ⟨good', shrinks, fun e mem => (lists e mem).resolve_left List.not_mem_nil⟩

theorem Collects.idle (none_ : verdict.events = []) : Collects i p p verdict :=
  ⟨good, .refl, fun e mem => by rw [none_] at mem; cases mem⟩

theorem turn_collects (bound : w.queue < maxKqueues)
    (is : p.turn w n world = some (p', verdict)) : Collects w.queue p p' verdict := by
  rw [turn] at is
  split at is
  · cases is
    exact .idle good rfl
  next used =>
  split at is
  · obtain ⟨⟨_, _⟩, found, last⟩ := bind_eq_some_iff.mp is
    cases last
    exact .of_collect good (by simpa [Pool.live, bound] using used) found
  · split at is <;> cases is <;> exact .idle good rfl

theorem enter_collects {world' : Nat → Outcome × Outcome}
    (live : p.live i) (is : p.enter i room timeoutMs n world world' = some (p', w, verdict)) :
    Collects i p p' verdict ∧ w.queue = i ∧ w.gone = false := by
  rw [enter] at is
  dsimp only at is
  split at is
  · cases is
    exact ⟨.idle good rfl, rfl, rfl⟩
  obtain ⟨⟨p₁, events⟩, found, last⟩ := bind_eq_some_iff.mp is
  have first : Collects i p p₁ (.returned events.length events) := .of_collect good live found
  split at last
  · cases last
    exact ⟨first, rfl, rfl⟩
  split at last
  · cases last
    exact ⟨⟨first.good, first.shrinks, nofun⟩, rfl, rfl⟩
  obtain ⟨⟨_, verdict⟩, second, last⟩ := bind_eq_some_iff.mp last
  cases last
  have bound : i < maxKqueues := of_decide_eq_true (Bool.and_eq_true_iff.mp live).1
  have rest := turn_collects first.good bound second
  exact ⟨⟨rest.good, first.shrinks.trans rest.shrinks,
    fun e mem => .of_shrinks first.shrinks (rest.lists e mem)⟩, rfl, rfl⟩

theorem WellFormed.destroy_others (live : p.live i) (world : Nat → Outcome) (other : k ≠ i) :
    ((p.destroy i world).kq k).used = (p.kq k).used ∧
      ((p.destroy i world).kq k).owner = (p.kq k).owner ∧
      ∀ l, ((p.destroy i world).knote k l).used →
      ((p.destroy i world).knote k l).core = (p.knote k l).core := by
  have looped := (good.dying.destroyed live world maxKnotes).2.2.1
  rw [Pool.destroy]
  generalize (List.range maxKnotes).foldl (destroyTurn i world) p = p₁ at looped
  simp only [knote, set_of_ne other]
  exact ⟨(looped.same k).1, (looped.same k).2, fun l => looped.core k l⟩

end

end Pool

namespace Waits

variable {s : Waits} {w : Wait}

structure Inv (process : Nat → Nat) (s : Waits) : Prop where
  good : s.pool.WellFormed
  own : ∀ i j, s.pool.live i → (s.pool.knote i j).used →
    (s.pool.kq i).owner = some (s.registrant i j)
  bound : ∀ t w, s.call t = some w → w.queue < maxKqueues
  here : ∀ t w, s.call t = some w → w.gone = false → s.pool.live w.queue ∧
    (s.pool.kq w.queue).owner = some (process t)
  gone : ∀ t w, s.call t = some w → w.gone → (s.pool.kq w.queue).used = false ∧ w.asleep = false

theorem Inv.shrunk (inv : Inv process s) (good : p.WellFormed) (shrinks : Pool.Shrinks s.pool p) :
    Inv process { s with pool := p } := by
  have same := shrinks.same
  refine ⟨good, fun i j live used => ?_, inv.bound, fun t w call fine => ?_,
    fun t w call lost => ?_⟩
  · have was := shrinks.core i j used
    rw [(same i).2]
    exact inv.own i j (same.live.symm.trans live) ((Knote.used_of_core was).symm.trans used)
  · rw [same.live, (same _).2]
    exact inv.here t w call fine
  · rw [(same _).1]
    exact inv.gone t w call lost

theorem Inv.finish (inv : Inv process { s with pool := p }) (bound : w.queue < maxKqueues)
    (here : w.gone = false → p.live w.queue ∧ (p.kq w.queue).owner = some (process t))
    (gone : verdict = .sleeps → w.gone = false) : Inv process (s.finish t w p verdict) := by
  have fresh : ∀ c : Option Wait, (∀ w', c = some w' → w' = { w with asleep := true } ∧
      w.gone = false) → Inv process { s with pool := p, call := update s.call t c } := by
    intro c is
    -- a call is the one of `t`, or one from before
    have calls : ∀ {t' w'}, update s.call t c t' = some w' →
        t' = t ∧ w' = { w with asleep := true } ∧ w.gone = false ∨ s.call t' = some w' := by
      intro t' w' call
      by_cases own : t' = t
      · subst own
        rw [update_self] at call
        exact .inl ⟨rfl, is w' call⟩
      · rw [update_of_ne own] at call
        exact .inr call
    refine ⟨inv.good, inv.own, fun t' w' call => ?_, fun t' w' call fine => ?_,
      fun t' w' call lost => ?_⟩
    · rcases calls call with ⟨rfl, rfl, -⟩ | before
      · exact bound
      · exact inv.bound t' w' before
    · rcases calls call with ⟨rfl, rfl, fine⟩ | before
      · exact here fine
      · exact inv.here t' w' before fine
    · rcases calls call with ⟨rfl, rfl, fine⟩ | before
      · cases fine.symm.trans lost
      · exact inv.gone t' w' before lost
  cases verdict with
  | returned ret events => exact fresh none nofun
  | sleeps => exact fresh _ fun w' is => ⟨(some.inj is).symm, gone rfl⟩

section
variable (inv : Inv process s)
include inv

theorem Inv.create (clear : ∀ t w, s.call t = some w → s.pool.freeSlot ≠ some w.queue) :
    Inv process { s with pool := s.pool.create (some (process t)) attached } := by
  have good : (s.pool.create (some (process t)) attached).WellFormed := inv.good.create
  rw [Pool.create] at good ⊢
  cases slot : s.pool.freeSlot with
  | none => exact inv
  | some i =>
    rw [slot] at good
    have unused : (s.pool.kq i).used = false := by simpa using List.find?_some slot
    have other : ∀ {k}, k ≠ i →
      (s.pool.set i { Kqueue.zero with used := attached, owner := some (process t) }).kq k =
      s.pool.kq k := Pool.set_of_ne
    refine ⟨good, fun k j live used => ?_, inv.bound, fun u w call fine => ?_,
      fun u w call lost => ?_⟩
    · by_cases own : k = i
      · subst own
        rw [Pool.knote, Pool.set_self] at used
        cases used
      · simp only [Pool.live, Pool.knote, other own] at live used ⊢
        exact inv.own k j live used
    · obtain ⟨live, owner⟩ := inv.here u w call fine
      have own : w.queue ≠ i := by
        intro same
        rw [Pool.live, same, unused, Bool.and_false] at live
        cases live
      simp only [Pool.live, other own]
      exact ⟨live, owner⟩
    · have own : w.queue ≠ i := fun same => clear u w call (same ▸ slot)
      simp only [other own]
      exact inv.gone u w call lost

theorem Inv.destroy (live : s.pool.live i) :
    Inv process { s with pool := s.pool.destroy i world, call := fun t => (s.call t).map (lose i) } := by
  have idle : ((s.pool.destroy i world).kq i).used = false := by
    rw [Pool.destroy, Pool.set_self]
    rfl
  refine ⟨inv.good.destroy live, fun k j here used => ?_, fun u w call => ?_,
    fun u w call fine => ?_, fun u w call lost => ?_⟩
  · by_cases own : k = i
    · subst own
      rw [Pool.live, idle, Bool.and_false] at here
      cases here
    · obtain ⟨same, owner, core⟩ := inv.good.destroy_others live world own
      rw [Pool.live, same] at here
      rw [owner]
      exact inv.own k j here ((Knote.used_of_core (core j used)).symm.trans used)
  all_goals
    obtain ⟨w, before, rfl⟩ := map_eq_some_iff.mp call
    by_cases own : w.queue = i
  · simpa [lose, own] using inv.bound u w before
  · simpa [lose, own] using inv.bound u w before
  · simp [lose, own] at fine
  · simp only [lose, own, if_false] at fine ⊢
    obtain ⟨same, owner, -⟩ := inv.good.destroy_others live world own
    rw [Pool.live, same, owner]
    exact inv.here u w before fine
  · simp only [lose, own, if_true]
    exact ⟨idle, trivial⟩
  · simp only [lose, own, if_false] at lost ⊢
    rw [(inv.good.destroy_others live world own).1]
    exact inv.gone u w before lost

theorem Inv.change (opened : s.opens process t i)
    (is : s.pool.processChange i kev o o' = some (p, ret)) :
    Inv process { s with
      pool := p
      registrant := fun k j =>
        if k = i ∧ (p.knote k j).used ∧ !(s.pool.knote k j).used then process t else s.registrant k j } := by
  simp only [opens, Bool.and_eq_true, decide_eq_true_eq] at opened
  obtain ⟨r, is', good, l, only⟩ := inv.good.processChange opened.1.2 kev o o'
  cases is.symm.trans is'
  refine ⟨good, fun k j live used => ?_, inv.bound, fun u w call fine => ?_,
    fun u w call lost => ?_⟩
  · rw [only.same.live] at live
    rw [(only.same k).2]
    dsimp only
    split
    · next new => rw [new.1, opened.2]
    next old =>
    refine inv.own k j live ?_
    by_cases own : k = i
    · by_contra unused
      exact old ⟨own, used, by simpa using unused⟩
    · exact (Knote.used_of_core (only.core k j fun eq => own (congrArg Prod.fst eq))).symm.trans used
  · rw [only.same.live, (only.same _).2]
    exact inv.here u w call fine
  · rw [(only.same _).1]
    exact inv.gone u w call lost

theorem Inv.rouse :
    Inv process { s with call := update s.call t ((s.call t).map ({ · with asleep := false }))
      } := by
  have was : ∀ {u w}, update s.call t ((s.call t).map ({ · with asleep := false })) u = some w →
      ∃ w', s.call u = some w' ∧ w.queue = w'.queue ∧ w.gone = w'.gone ∧ (w'.asleep = false → w.asleep = false) := by
    intro u w call
    by_cases own : u = t
    · subst own
      rw [update_self] at call
      obtain ⟨w', before, rfl⟩ := map_eq_some_iff.mp call
      exact ⟨w', before, rfl, rfl, fun _ => rfl⟩
    · rw [update_of_ne own] at call
      exact ⟨w, call, rfl, rfl, id⟩
  refine ⟨inv.good, inv.own, fun u w call => ?_, fun u w call fine => ?_, fun u w call lost => ?_⟩
  all_goals obtain ⟨w', before, queue, gone, asleep⟩ := was call
  · rw [queue]
    exact inv.bound u w' before
  · rw [queue]
    exact inv.here u w' before (gone ▸ fine)
  · rw [queue]
    exact (inv.gone u w' before (gone ▸ lost)).imp_right asleep

theorem Inv.keeps (keeps : Pool.Keeps ⟨none, none, none⟩ s.pool p) :
    Inv process { s with pool := p } :=
  inv.shrunk (keeps.good inv.good) keeps.shrinks

theorem Inv.step (clear : Clear s a) (is : step process s a = some s') : Inv process s' := by
  cases a with
  | create t attached =>
    obtain ⟨-, rfl⟩ := by simpa [Waits.step] using is
    exact inv.create clear
  | destroy i world =>
    obtain ⟨live, rfl⟩ := by simpa [Waits.step] using is
    exact inv.destroy live
  | change t i kev o o' =>
    rw [Waits.step] at is
    split at is
    · next opened =>
      obtain ⟨⟨p, _⟩, done, rfl⟩ := map_eq_some_iff.mp is
      exact inv.change opened done
    · cases is
  | enter t i room timeoutMs turns world world' =>
    rw [Waits.step] at is
    split at is
    · next opened =>
      obtain ⟨⟨p, w, verdict⟩, done, rfl⟩ := map_eq_some_iff.mp is
      simp only [opens, Bool.and_eq_true, decide_eq_true_eq] at opened
      obtain ⟨collects, rfl, fine⟩ := Pool.enter_collects inv.good opened.1.2 done
      refine (inv.shrunk collects.good collects.shrinks).finish ?_ (fun _ => ?_) fun _ => fine
      · exact of_decide_eq_true (Bool.and_eq_true_iff.mp opened.1.2).1
      · rw [collects.shrinks.same.live, (collects.shrinks.same _).2]
        exact ⟨opened.1.2, opened.2⟩
    · cases is
  | resume t turns world =>
    rw [Waits.step] at is
    split at is
    · cases is
    next w call =>
    split at is
    · cases is
    obtain ⟨⟨p, verdict⟩, done, rfl⟩ := map_eq_some_iff.mp is
    have collects := Pool.turn_collects inv.good (inv.bound t w call) done
    refine (inv.shrunk collects.good collects.shrinks).finish (inv.bound t w call) (fun fine => ?_)
      fun sleeps => ?_
    · rw [collects.shrinks.same.live, (collects.shrinks.same _).2]
      exact inv.here t w call fine
    · by_contra lost
      have idle := (inv.gone t w call (by simpa using lost)).1
      simp [Pool.turn, idle, sleeps] at done
  | rouse t =>
    cases is
    exact inv.rouse
  | notify n =>
    exact some.inj is ▸ inv.keeps .notifyAll
  | clock now =>
    cases is
    exact inv.shrunk (inv.good.step (a := .clock now) rfl) ⟨fun _ => ⟨rfl, rfl⟩, fun _ _ _ => rfl⟩
  | tick =>
    cases is
    exact inv.keeps inv.good.timerTick
  | unwatch pid world =>
    rw [Waits.step] at is
    obtain ⟨p, done, rfl⟩ := map_eq_some_iff.mp is
    exact inv.keeps (some.inj done ▸ .loop fun _ => .detachProc)

theorem Inv.registered (live : s.pool.live i)
    (owner : (s.pool.kq i).owner = some (process t)) (lists : s.pool.Lists i e) :
    s.Registered (process t) i e := by
  obtain ⟨j, here, used, ident, filter⟩ := lists
  exact ⟨j, here, used, ident, filter, some.inj ((inv.own i j live used).symm.trans owner)⟩

end

/-- As long as no slot is given out that a call still waits for: a call whose queue was destroyed
has been woken and returns `-API_ERR_BAD_HANDLE`, and every event that a call returns, at once or
after a sleep, is of a knote that its own process registered. -/
theorem events_own (run : Reaches (step process) Clear (boot clock) s) :
    (∀ t w, s.call t = some w → w.gone → w.asleep = false ∧
      ∀ turns world, s.pool.turn w turns world = some (s.pool, .returned (-9) [])) ∧
    (∀ t w turns world p verdict, s.call t = some w →
      s.pool.turn w turns world = some (p, verdict) → ∀ e ∈ verdict.events,
      s.Registered (process t) w.queue e) ∧
    ∀ t i room timeoutMs turns world world' p w verdict, s.opens process t i →
      s.pool.enter i room timeoutMs turns world world' = some (p, w, verdict) →
      ∀ e ∈ verdict.events, s.Registered (process t) i e := by
  have inv : Inv process s := by
    refine run.invariant (I := Inv process) (fun inv clear is => inv.step clear is) ⟨.empty, ?_,
      nofun, nofun, nofun⟩
    intro i j live
    cases (Bool.and_eq_true_iff.mp live).2
  have lost : ∀ t w, s.call t = some w → w.gone → ∀ turns world,
      s.pool.turn w turns world = some (s.pool, .returned (-9) []) := by
    intro t w call lost turns world
    rw [Pool.turn, (inv.gone t w call lost).1]
    rfl
  refine ⟨fun t w call gone => ⟨(inv.gone t w call gone).2, lost t w call gone⟩, ?_, ?_⟩
  · intro t w turns world p verdict call done e mem
    cases gone : w.gone with
    | true =>
      cases done.symm.trans (lost t w call gone turns world)
      cases mem
    | false =>
      obtain ⟨live, owner⟩ := inv.here t w call gone
      exact inv.registered live owner ((Pool.turn_collects inv.good (inv.bound t w call) done).lists e mem)
  · intro t i room timeoutMs turns world world' p w verdict opened done e mem
    simp only [opens, Bool.and_eq_true, decide_eq_true_eq] at opened
    exact inv.registered opened.1.2 opened.2
      ((Pool.enter_collects inv.good opened.1.2 done).1.lists e mem)

/-- Thread 0 waits for a queue without events, and the queue is closed. -/
def closed : List Act :=
  [.enter 0 0 1 (-1) 2 (fun _ => (Pool.quiet, Pool.quiet)) (fun _ => (Pool.quiet, Pool.quiet)),
    .destroy 0 fun _ => Pool.quiet]

def Act.isCreate : Act → Bool
  | create .. => true
  | _ => false

/-- Without a new queue in its slot, the call returns `-API_ERR_BAD_HANDLE`. -/
theorem events_own_closed : ∃ s w, Reaches (step id) Clear (boot ⟨0, 1000⟩) s ∧ s.call 0 = some w ∧
    s.pool.turn w 0 (fun _ => (Pool.quiet, Pool.quiet)) = some (s.pool, .returned (-9) []) := by
  have ran : ∃ s, Reaches (step id) (fun _ a => a.isCreate = false)
      { boot ⟨0, 1000⟩ with pool := (Pool.empty ⟨0, 1000⟩).create (some 0) true } s ∧
      (s.call 0).any (·.gone) := Reaches.exists_of_exec closed (by decide +kernel)
  obtain ⟨s, rest, seen⟩ := ran
  have clear : ∀ (s : Waits) (a : Act), a.isCreate = false → Clear s a := by
    intro s a other
    cases a
    case create => cases other
    all_goals trivial
  have run : Reaches (step id) Clear (boot ⟨0, 1000⟩) s :=
    .cons (a := .create 0 true) nofun rfl (rest.mono clear)
  cases call : s.call 0 with
  | none => simp [call] at seen
  | some w =>
    have gone : w.gone := by simpa [call] using seen
    exact ⟨s, w, run, call, ((events_own run).1 0 w call gone).2 _ _⟩

/-- The slot is then given to process 1, which registers a user event that is triggered. -/
def reused : List Act :=
  [.create 0 true] ++ closed ++
    [.create 1 true, .change 1 0 ⟨8, evfiltUser, evAdd, 0, 0, 0, []⟩ Pool.quiet Pool.quiet,
      .notify ⟨evfiltUser, 8, 0, 0⟩]

/-- What the callback of a triggered user event returns. -/
def triggered : Outcome := { Pool.quiet with result := 1 }

/-- Thread 0 is about to return such an event of process 1. -/
def steals (s : Waits) : Bool :=
  match s.call 0 with
  | none => false
  | some w => w.gone && match s.pool.turn w 2 (fun _ => (triggered, Pool.quiet)) with
    | some (_, .returned 1 [e]) => s.Registered 1 w.queue e && !decide (s.Registered 0 w.queue e)
    | _ => false

set_option maxRecDepth 20000 in
/-- The first call wakes to the event of the other process. -/
theorem events_stolen : ∃ s w p e, Reaches (step id) Free (boot ⟨0, 1000⟩) s ∧ s.call 0 = some w ∧
    w.gone ∧ s.pool.turn w 2 (fun _ => (triggered, Pool.quiet)) = some (p, .returned 1 [e]) ∧
    s.Registered 1 w.queue e ∧ ¬s.Registered 0 w.queue e := by
  obtain ⟨s, run, seen⟩ : ∃ s, Reaches (step id) Free (boot ⟨0, 1000⟩) s ∧ s.steals :=
    Reaches.exists_of_exec reused (by decide +kernel)
  rw [steals] at seen
  split at seen
  · cases seen
  next w call =>
  obtain ⟨gone, seen⟩ := Bool.and_eq_true_iff.mp seen
  split at seen
  · next p e told =>
    obtain ⟨theirs, ours⟩ := Bool.and_eq_true_iff.mp seen
    exact ⟨s, w, p, e, run, call, gone, told, of_decide_eq_true theirs, by simpa using ours⟩
  · cases seen

end Waits
end Otsos.Event
