import Otsos.Foundation.Transition
import Otsos.Sched.Threads

/-! The adaptive mutex (`kernel/sync/mutex.c`): `mtx_lock`, `mtx_trylock` and `mtx_unlock` of any
number of threads, one step for each access to memory that others see, with `signal_send` as the
source of spurious wake-ups. -/
namespace Otsos.Sync
open Function (update update_self update_of_ne)
open Sched Transition

def mtxSpinTries : Nat := 2048

/-- `mtx_t`; the interlock is a spin lock, with the thread that holds it. -/
structure Mtx where
  lock : Bool
  owner : Option Tid
  waiters : UInt32
  interlock : Option Tid
deriving DecidableEq

/-- Where a thread is in one of the calls. -/
inductive Pc where
  | idle
  | panicked
  -- `mtx_lock`
  | recursionOwner
  | recursionLock
  | exchange
  | own
  | spin (spins : Nat)
  | spinLoad (spins : Nat)
  | load
  | interlock
  | reload
  | retry
  | count
  | sleep (at_ : SleepPc)
  -- `mtx_trylock`
  | tryExchange
  -- `mtx_unlock`
  | unlockLock
  | unlockOwner
  | disown
  | clear
  | collect
  | take
  | release (wake : UInt32)
  | wake (at_ : WakePc)
  -- `signal_send`, for one thread of the process
  | signalState (target : Tid)
  | signalRunnable (target : Tid)
  | signalClear (target : Tid)
deriving DecidableEq

/-- The memory that the threads share. `holds` marks the threads whose exchange found 0 and whose
store of 0 has not come: no step reads it, but only such a thread calls `mtx_unlock`. -/
structure Shared where
  mtx : Mtx
  threads : Threads
  holds : Tid → Bool

section Step
variable (n : Nat) (mp : Chan)

/-- One step of thread `t`. `running` is what `mtx_owner_running` finds in the owner's state and
CPU. -/
def Pc.step (t : Tid) (running : Bool) (s : Shared) : Pc → Option (Shared × Pc)
  | idle | panicked => none
  | recursionOwner => some (s, if s.mtx.owner = some t then recursionLock else exchange)
  | recursionLock => some (s, if s.mtx.lock then panicked else exchange)
  | exchange =>
    if s.mtx.lock then some (s, spin 0)
    else some ({ s with mtx.lock := true, holds := update s.holds t true }, own)
  | own => some ({ s with mtx.owner := some t }, idle)
  | spin spins => some (s, if running ∧ spins < mtxSpinTries then spinLoad (spins + 1) else load)
  | spinLoad spins => some (s, if s.mtx.lock then spin spins else load)
  | load => some (s, if s.mtx.lock then interlock else exchange)
  | interlock => if s.mtx.interlock = none then some ({ s with mtx.interlock := some t }, reload)
      else none
  | reload => some (s, if s.mtx.lock then count else retry)
  | retry => some ({ s with mtx.interlock := none }, exchange)
  | count => some ({ s with mtx.waiters := s.mtx.waiters + 1 }, sleep .channel)
  | sleep at_ =>
    let (threads, next) := at_.step mp t s.threads
    let mtx := if at_ = .drop then { s.mtx with interlock := none } else s.mtx
    some ({ s with threads, mtx }, next.elim exchange sleep)
  | tryExchange =>
    if s.mtx.lock then some (s, idle)
    else some ({ s with mtx.lock := true, holds := update s.holds t true }, own)
  | unlockLock => some (s, if s.mtx.lock then unlockOwner else panicked)
  | unlockOwner => some (s, if s.mtx.owner = some t then disown else panicked)
  | disown => some ({ s with mtx.owner := none }, clear)
  | clear => some ({ s with mtx.lock := false, holds := update s.holds t false }, collect)
  | collect => if s.mtx.interlock = none then some ({ s with mtx.interlock := some t }, take)
      else none
  -- the load and the store of 0 are both under the interlock, as every other access to `waiters`
  | take => some ({ s with mtx.waiters := 0 }, release s.mtx.waiters)
  | release wakes => some ({ s with mtx.interlock := none }, if wakes = 0 then idle else wake .lock)
  | wake at_ =>
    match at_.step n mp false s.threads with
    | none => none
    | some (threads, next) => some ({ s with threads }, next.elim idle wake)
  | signalState u =>
    some (s, if (s.threads.td u).used ∧ (s.threads.td u).state = .sleeping then signalRunnable u
      else idle)
  | signalRunnable u => some ({ s with threads := s.threads.setState u .runnable }, signalClear u)
  | signalClear u => some ({ s with threads := s.threads.setChannel u none }, idle)

/-- The shared memory and where each thread is. -/
@[ext]
structure State extends Shared where
  pc : Tid → Pc

inductive Op where
  | lock
  | trylock
  | unlock
  | signal (target : Tid)
deriving DecidableEq

inductive Act where
  | call (t : Tid) (op : Op)
  | run (t : Tid) (running : Bool)
deriving DecidableEq

def Op.start : Op → Pc
  | lock => .recursionOwner
  | trylock => .tryExchange
  | unlock => .unlockLock
  | signal u => .signalState u

/-- A thread of the table begins a call, or takes a step of the one it is in. Only the holder
unlocks. -/
def State.step (s : State) : Act → Option State
  | .call t op =>
    if t < n ∧ (s.threads.td t).used ∧ s.pc t = .idle ∧ (op = .unlock → s.holds t) then
      some { s with pc := update s.pc t op.start }
    else none
  | .run t running =>
    match (s.pc t).step n mp t running s.toShared with
    | none => none
    | some (shared, pc) => some { toShared := shared, pc := update s.pc t pc }

/-- Behind `mtx_init`, with nobody asleep on the mutex yet. -/
structure State.Initial (s : State) : Prop where
  mtx : s.mtx = ⟨false, none, 0, none⟩
  idle : ∀ t, s.pc t = .idle
  unheld : ∀ t, s.holds t = false
  awake : ∀ t, ¬s.threads.SleepsOn t mp

/-- A thread about to count itself does not wrap the count. -/
def NoWrap (s : State) : Act → Prop
  | .call _ _ => True
  | .run t _ => s.pc t = .count → s.mtx.waiters ≠ 0xFFFFFFFF

instance (s : State) : (a : Act) → Decidable (NoWrap s a)
  | .call _ _ => .isTrue trivial
  | .run t _ => inferInstanceAs (Decidable (s.pc t = .count → s.mtx.waiters ≠ 0xFFFFFFFF))

end Step

namespace Pc

/-- The thread holds the interlock. -/
def inside : Pc → Bool
  | reload | retry | count | take | release _ => true
  | sleep .channel | sleep .state | sleep .drop => true
  | _ => false

/-- The thread has the mutex and is inside a call. -/
def possesses : Pc → Bool
  | own | unlockLock | unlockOwner | disown | clear => true
  | _ => false

/-- The thread has found the mutex locked under the interlock, which it still holds. -/
def committed : Pc → Bool
  | count | sleep .channel | sleep .state | sleep .drop => true
  | _ => false

/-- The thread has counted itself and holds the interlock. -/
def counted : Pc → Bool
  | sleep .channel | sleep .state | sleep .drop => true
  | _ => false

/-- An unlock between its store and its wake-up. -/
def unlocking : Pc → Bool
  | collect | take | release _ | wake _ => true
  | _ => false

/-- An unlock that has still to look at the count. -/
def collecting : Pc → Bool
  | collect | take => true
  | _ => false

/-- An unlock that will wake the thread. -/
def Wakes (t : Tid) : Pc → Prop
  | release wakes => wakes ≠ 0
  | wake at_ => at_.Before t
  | _ => False

end Pc

variable {s : State} {act : Act}

/-! ### What a step can do -/

/-- What a step does to the lock word, the owner and the holder. -/
inductive Holding (t : Tid) (w w' : Shared) : Pc → Pc → Prop
  | quiet (word : w'.mtx.lock = w.mtx.lock) (owner : w'.mtx.owner = w.mtx.owner)
      (holds : w'.holds = w.holds) (keeps : p'.possesses → p.possesses)
      (behind : p' ≠ .own ∧ p' ≠ .clear)
      (before : p ≠ .own ∧ p ≠ .clear) : Holding t w w' p p'
  | took (free : w.mtx.lock = false) (word : w'.mtx.lock = true)
      (owner : w'.mtx.owner = w.mtx.owner) (holds : w'.holds = update w.holds t true) :
      Holding t w w' p .own
  | owned (word : w'.mtx.lock = w.mtx.lock) (owner : w'.mtx.owner = some t)
      (holds : w'.holds = w.holds) : Holding t w w' .own .idle
  | disowned (word : w'.mtx.lock = w.mtx.lock) (owner : w'.mtx.owner = none)
      (holds : w'.holds = w.holds) : Holding t w w' .disown .clear
  | cleared (word : w'.mtx.lock = false) (owner : w'.mtx.owner = w.mtx.owner)
      (holds : w'.holds = update w.holds t false) : Holding t w w' .clear .collect

theorem Pc.step_holding (ran : pc.step n mp t running w = some (w', pc')) :
    Holding t w w' pc pc' := by
  cases pc with
  | idle | panicked => cases ran
  | own =>
    cases ran
    exact .owned rfl rfl rfl
  | disown =>
    cases ran
    exact .disowned rfl rfl rfl
  | clear =>
    cases ran
    exact .cleared rfl rfl rfl
  | exchange | tryExchange =>
    rw [Pc.step] at ran
    split at ran
    · cases ran
      apply Holding.quiet <;> simp [possesses]
    · next free =>
      cases ran
      exact .took (by simpa using free) rfl rfl rfl
  | interlock | collect =>
    rw [Pc.step] at ran
    split at ran
    · cases ran
      apply Holding.quiet <;> simp [possesses]
    · cases ran
  | sleep at_ =>
    cases at_
    all_goals
      cases ran
      apply Holding.quiet <;> simp [possesses]
  | wake at_ =>
    rw [Pc.step] at ran
    split at ran
    · cases ran
    · next threads next _ =>
      cases ran
      cases next with
      | none => apply Holding.quiet <;> simp [possesses]
      | some at_ => apply Holding.quiet <;> simp [possesses]
  | retry | count | take | signalRunnable u | signalClear u =>
    cases ran
    apply Holding.quiet <;> simp [possesses]
  | release wakes =>
    cases ran
    split <;> apply Holding.quiet <;> simp [possesses]
  | _ =>
    cases ran
    split <;> apply Holding.quiet <;> simp [possesses]

/-- Who may sleep on the mutex behind a step: who did, and a thread that has counted itself. -/
def NewSleepers (mp : Chan) (t : Tid) (w w' : Shared) (pc : Pc) : Prop :=
  ∀ u, w'.threads.SleepsOn u mp → w.threads.SleepsOn u mp ∨ u = t ∧ pc.counted

/-- What a step does to the interlock, the count and the sleepers. -/
inductive Waiting (n : Nat) (mp : Chan) (t : Tid) (w w' : Shared) : Pc → Pc → Prop
  | quiet (word : w.mtx.lock → w'.mtx.lock) (interlock : w'.mtx.interlock = w.mtx.interlock)
      (waiters : w'.mtx.waiters = w.mtx.waiters) (sleepers : NewSleepers mp t w w' p)
      (inside : p'.inside = p.inside)
      (committed : p'.committed → p.committed ∨ w'.mtx.lock) (counted : p'.counted → p.counted)
      (collecting : p.collecting = false)
      (wakes : ∀ u, p.Wakes u → u < n → (w.threads.td u).used → w'.threads.SleepsOn u mp → p'.Wakes u) :
      Waiting n mp t w w' p p'
  | cleared (interlock : w'.mtx.interlock = w.mtx.interlock)
      (waiters : w'.mtx.waiters = w.mtx.waiters) (threads : w'.threads = w.threads) :
      Waiting n mp t w w' .clear .collect
  | entered (free : w.mtx.interlock = none) (same : w' = { w with mtx.interlock := some t })
      (which : p = .interlock ∧ p' = .reload ∨ p = .collect ∧ p' = .take) : Waiting n mp t w w' p p'
  | left (same : w' = { w with mtx.interlock := none }) (inside : p.inside)
      (outside : p'.inside = false) (collecting : p.collecting = false)
      (wakes : ∀ u, p.Wakes u → p'.Wakes u) : Waiting n mp t w w' p p'
  | counted (same : w' = { w with mtx.waiters := w.mtx.waiters + 1 }) :
      Waiting n mp t w w' .count (.sleep .channel)
  | taken (same : w' = { w with mtx.waiters := 0 }) :
      Waiting n mp t w w' .take (.release w.mtx.waiters)

theorem NewSleepers.of_eq (same : w'.threads = w.threads) : NewSleepers mp t w w' pc := by
  intro u sleeps
  rw [same] at sleeps
  exact .inl sleeps

theorem Pc.step_waiting (ran : pc.step n mp t running w = some (w', pc')) :
    Waiting n mp t w w' pc pc' := by
  have never : ∀ {q : Prop}, false = true → q := Not.elim Bool.false_ne_true
  cases pc with
  | idle | panicked => cases ran
  | clear =>
    cases ran
    exact .cleared rfl rfl rfl
  | interlock =>
    rw [Pc.step] at ran
    split at ran
    · next free =>
      cases ran
      exact .entered free rfl (.inl ⟨rfl, rfl⟩)
    · cases ran
  | collect =>
    rw [Pc.step] at ran
    split at ran
    · next free =>
      cases ran
      exact .entered free rfl (.inr ⟨rfl, rfl⟩)
    · cases ran
  | retry =>
    cases ran
    exact .left rfl rfl rfl rfl fun _ => id
  | release wakes =>
    cases ran
    apply Waiting.left rfl rfl
    · split <;> rfl
    · rfl
    · intro u wake
      rw [if_neg wake]
      trivial
  | count =>
    cases ran
    exact .counted rfl
  | take =>
    cases ran
    exact .taken rfl
  | exchange | tryExchange =>
    rw [Pc.step] at ran
    split at ran
    all_goals
      cases ran
      refine Waiting.quiet (fun _ => by simp_all) rfl rfl (.of_eq rfl) rfl never never rfl (fun _ none_ => none_.elim)
  | sleep at_ =>
    cases at_ with
    | channel | state =>
      cases ran
      refine Waiting.quiet id rfl rfl ?_ rfl (fun _ => .inl rfl) (fun _ => rfl) rfl (fun _ none_ => none_.elim)
      intro u sleeps
      by_cases same : u = t
      · exact .inr ⟨same, rfl⟩
      · simp only [Threads.SleepsOn, Threads.setChannel_ne same, Threads.setState_ne same] at sleeps
        exact .inl sleeps
    | drop =>
      cases ran
      exact .left rfl rfl rfl rfl fun _ none_ => none_.elim
    | wait =>
      cases ran
      by_cases woken : (w.threads.td t).waitChannel = none
      · rw [if_pos woken]
        exact .quiet id rfl rfl (.of_eq rfl) rfl never never rfl (fun _ none_ => none_.elim)
      · rw [if_neg woken]
        exact .quiet id rfl rfl (.of_eq rfl) rfl never never rfl (fun _ none_ => none_.elim)
    | running =>
      cases ran
      refine Waiting.quiet id rfl rfl ?_ rfl never never rfl (fun _ none_ => none_.elim)
      intro u sleeps
      exact .inl (Threads.SleepsOn.of_setState (by decide) sleeps).1
  | wake at_ =>
    rw [Pc.step] at ran
    split at ran
    · cases ran
    next threads next stepped =>
    cases ran
    have sleepers : NewSleepers mp t w { w with threads } (.wake at_) := fun u sleeps =>
      .inl (WakePc.step_sleeps stepped sleeps)
    have wakes : ∀ u, (Pc.wake at_).Wakes u → u < n → (w.threads.td u).used →
        threads.SleepsOn u mp → (next.elim idle wake).Wakes u := by
      intro u before here used sleeps
      obtain ⟨at', rfl, before'⟩ := WakePc.step_before stepped before here used sleeps
      exact before'
    cases next with
    | none => exact .quiet id rfl rfl sleepers rfl never never rfl wakes
    | some at' => exact .quiet id rfl rfl sleepers rfl never never rfl wakes
  | signalRunnable v =>
    cases ran
    refine Waiting.quiet id rfl rfl ?_ rfl never never rfl (fun _ none_ => none_.elim)
    intro u sleeps
    exact .inl (Threads.SleepsOn.of_setState (by decide) sleeps).1
  | signalClear v =>
    cases ran
    refine Waiting.quiet id rfl rfl ?_ rfl never never rfl (fun _ none_ => none_.elim)
    intro u sleeps
    exact .inl (Threads.SleepsOn.of_setChannel sleeps).1
  | own | disown =>
    cases ran
    exact .quiet id rfl rfl (.of_eq rfl) rfl never never rfl (fun _ none_ => none_.elim)
  | _ =>
    cases ran
    split
    all_goals
      refine Waiting.quiet id rfl rfl (.of_eq rfl) rfl ?_ never rfl (fun _ none_ => none_.elim)
      simp_all [committed]

theorem State.step_cases (ran : s.step n mp act = some s') :
    (∃ t, ∃ op : Op, t < n ∧ (s.threads.td t).used ∧ s.pc t = .idle ∧ (op = .unlock → s.holds t) ∧
        s' = { s with pc := update s.pc t op.start }) ∨
      ∃ t running w pc', act = .run t running ∧ (s.pc t).step n mp t running s.toShared = some (w,
        pc') ∧ s' = { toShared := w, pc := update s.pc t pc' } := by
  cases act with
  | call t op =>
    rw [State.step] at ran
    split at ran
    · next enabled =>
      cases ran
      exact .inl ⟨t, op, enabled.1, enabled.2.1, enabled.2.2.1, enabled.2.2.2, rfl⟩
    · cases ran
  | run t running =>
    rw [State.step] at ran
    split at ran
    · cases ran
    · next w pc' stepped =>
      cases ran
      exact .inr ⟨t, running, w, pc', rfl, stepped, rfl⟩

end Otsos.Sync
