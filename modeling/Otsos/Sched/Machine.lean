import Otsos.Foundation.Transition
import Otsos.Sched.Switch

/-! CPUs that run threads: the code of a thread (sleeping, waking, signals, killing and destroying,
as in `kernel/event/event.c`, `kernel/api/signal.c`, `kernel/thread.c` and `kernel/process.c`) runs
on the CPU whose current thread it is, while that CPU is not in `scheduler_switch`. -/
namespace Otsos.Sched
open Function (update update_self update_of_ne)

/-- Where a thread is in `thread_mark_dead`, or in the part of `thread_kill_all` that is the
same. -/
inductive MarkPc where
  | store
  | load
  | inc
deriving DecidableEq

/-- One step of `thread_mark_dead(x)`; none behind it: it returned. -/
def MarkPc.step (x : Tid) (k : Kernel) : MarkPc → Write × Option MarkPc
  | store => (.state x .terminated, some load)
  | load => (.none, if k.runningCpu x = none then none else some inc)
  | inc => (.pendingInc, none)

/-- Where a thread is: in user mode, in the kernel outside of the functions of the model, or in one
of them. -/
inductive Code where
  | user
  | kernel
  | sleep (ch : Chan) (at_ : SleepPc)
  | wake (ch : Chan) (one : Bool) (at_ : WakePc)
  -- the loop of `signal_send` over the threads of a process
  | signal (p : Proc) (i : Tid)
  | signalStore (p : Proc) (i : Tid)
  | signalClear (p : Proc) (i : Tid)
  -- `thread_kill_all`, called by `process_exit` for the own process or by `process_kill` for
  -- another
  | killLock (p : Proc) (own : Bool)
  | killScan (p : Proc) (own : Bool) (i : Tid)
  | kill (p : Proc) (own : Bool) (i : Tid) (at_ : MarkPc)
  | killUnlock (p : Proc) (own : Bool)
  -- the loop of `process_kill` over the threads of the process
  | markScan (p : Proc) (i : Tid)
  | mark (p : Proc) (i : Tid) (at_ : MarkPc)
  -- the end of the own thread in `process_exit`, or in `thread_exit`
  | exitCpu (p : Option Proc)
  | markSelf (p : Option Proc) (at_ : MarkPc)
  | setReapable (p : Proc)
  | destroy (x : Tid) (at_ : DestroyPc)

/-- One step of thread `t` on CPU `c` outside `proc_sleep` and `proc_wakeup`. -/
def Code.step (cfg : Config) (c : Cpu) (t : Tid) (k : Kernel) : Code → Option (Write × Code)
  | signal p i =>
    if i ≥ cfg.maxThreads then some (.none, kernel)
    else if k.listed i = some p ∧ k.used i ∧
      k.state i = .sleeping then some (.none, signalStore p i)
    else some (.none, signal p (i + 1))
  | signalStore p i => some (.state i .runnable, signalClear p i)
  | signalClear p i => some (.channel i none, signal p (i + 1))
  | killLock p own => some (.threadLock, killScan p own 0)
  | killScan p own i =>
    if i ≥ cfg.maxThreads then some (.none, killUnlock p own)
    else if k.listed i = some p ∧ k.curThread p ≠ some i then some (.none, kill p own i .store)
    else some (.none, killScan p own (i + 1))
  | kill p own i at_ =>
    let (w, next) := at_.step i k
    some (w, next.elim (killScan p own (i + 1)) (kill p own i))
  | killUnlock p own => some (.threadUnlock, if own then exitCpu (some p) else markScan p 0)
  | markScan p i =>
    if i ≥ cfg.maxThreads then some (.none, setReapable p)
    else if k.listed i = some p then some (.none, mark p i .store)
    else some (.none, markScan p (i + 1))
  | mark p i at_ =>
    let (w, next) := at_.step i k
    some (w, next.elim (markScan p (i + 1)) (mark p i))
  | exitCpu p => some (.running t (some c), markSelf p .store)
  | markSelf p at_ =>
    let (w, next) := at_.step t k
    some (w, next.elim (p.elim kernel setReapable) (markSelf p))
  | setReapable p => some (.reapable p, kernel)
  | destroy x at_ =>
    let (w, next) := at_.step c x k
    some (w, next.elim kernel (destroy x))
  | user | kernel | sleep _ _ | wake _ _ _ => none

/-- What a thread in the kernel can call: `proc_sleep`, `proc_wakeup`, `signal_send`,
`process_kill`, `process_exit`, `thread_exit`, `thread_destroy`. -/
def Code.isEntry (k : Kernel) (t : Tid) : Code → Bool
  | sleep _ .channel | wake _ _ .lock | signal _ 0 | exitCpu none | destroy _ .test => true
  | killLock p own => own = (k.proc t = some p)
  | _ => false

/-- Interrupts are not disabled there. -/
def Code.interruptible : Code → Bool
  | sleep _ .running => false
  | wake _ _ .lock => true
  | wake _ _ _ => false
  | killScan _ _ _ | kill _ _ _ _ | killUnlock _ _ => false
  | destroy _ .clear | destroy _ .unlock => false
  | _ => true

structure Machine where
  mem : Kernel
  code : Tid → Code
  cpu : Cpu → SwitchPc

inductive Act where
  -- the current thread of a CPU takes a step
  | run (c : Cpu)
  -- it enters or leaves the kernel, or calls a function of the kernel
  | call (c : Cpu) (l : Code)
  -- a timer tick, or the software interrupt of a yield
  | interrupt (c : Cpu) (voluntary : Bool)
  -- the CPU takes a step in `scheduler_switch`
  | switch (c : Cpu)

namespace Machine

/-- The thread whose code the CPU runs. -/
def runs (v : Machine) (c : Cpu) : Option Tid :=
  match v.cpu c with
  | .out => v.mem.current c
  | _ => none

/-- A call, a return to user mode or an entry to the kernel. -/
def mayCall (v : Machine) (t : Tid) (l : Code) : Bool :=
  match v.code t, l with
  | .user, .kernel | .kernel, .user => true
  | .kernel, l => l.isEntry v.mem t
  | _, _ => false

/-- One step of the code of `t`, which runs on CPU `c`. -/
def runThread (cfg : Config) (v : Machine) (c : Cpu) (t : Tid) : Option Machine :=
  match v.code t with
  | .sleep ch at_ =>
    let (threads, next) := at_.step ch t v.mem.threads
    some { v with mem := { v.mem with threads }, code := update v.code t (next.elim .kernel (.sleep ch)) }
  | .wake ch one at_ =>
    match at_.step cfg.maxThreads ch one v.mem.threads with
    | none => none
    | some (threads, next) =>
      some { v with mem := { v.mem with threads }, code := update v.code t (next.elim .kernel (.wake ch one)) }
  | l =>
    match l.step cfg c t v.mem with
    | none => none
    | some (w, l') => if v.mem.free w then some { v with mem := v.mem.write w, code := update v.code t l' } else none

def step (cfg : Config) (v : Machine) : Act → Option Machine
  | .run c =>
    match v.runs c with
    | none => none
    | some t => v.runThread cfg c t
  | .call c l =>
    match v.runs c with
    | none => none
    | some t => if v.mayCall t l then some { v with code := update v.code t l } else none
  | .interrupt c voluntary =>
    match v.cpu c with
    | .out =>
      match v.mem.current c with
      | none => some { v with cpu := update v.cpu c (.start voluntary true) }
      | some t =>
        if (v.code t).interruptible then
          some { v with cpu := update v.cpu c (.start voluntary !(v.code t matches .user)) }
        else none
    | _ => none
  | .switch c =>
    match (v.cpu c).step cfg c v.mem with
    | none => none
    | some (w, pc) => if v.mem.free w then some { v with mem := v.mem.write w, cpu := update v.cpu c pc } else none

end Machine

/-- What a step of thread `t` on CPU `c` can be: from a place, with a store, to a place. -/
inductive Code.Steps (cfg : Config) (c : Cpu) (t : Tid) (k : Kernel) : Code → Write → Code → Prop
  | sleepChannel : Steps cfg c t k (sleep ch .channel) (.channel t (some ch)) (sleep ch .state)
  | sleepState : Steps cfg c t k (sleep ch .state) (.state t .sleeping) (sleep ch .drop)
  | sleepDrop : Steps cfg c t k (sleep ch .drop) .none (sleep ch .wait)
  | sleepWoken (woken : k.channel t = none) :
      Steps cfg c t k (sleep ch .wait) .none (sleep ch .running)
  | sleepWait : Steps cfg c t k (sleep ch .wait) .none (sleep ch .wait)
  | sleepRunning : Steps cfg c t k (sleep ch .running) (.state t .running) kernel
  | wakeLock : Steps cfg c t k (wake ch one .lock) .threadLock (wake ch one (.scan 0))
  | wakeEnd : Steps cfg c t k (wake ch one (.scan i)) .threadUnlock kernel
  | wakeFound (sleeps : k.state i = .sleeping) :
      Steps cfg c t k (wake ch one (.scan i)) .none (wake ch one (.test i))
  | wakeNext : Steps cfg c t k (wake ch one (.scan i)) .none (wake ch one (.scan (i + 1)))
  | wakeTest : Steps cfg c t k (wake ch one (.test i)) .none (wake ch one (.runnable i))
  | wakePass : Steps cfg c t k (wake ch one (.test i)) .none (wake ch one (.scan (i + 1)))
  | wakeRunnable :
      Steps cfg c t k (wake ch one (.runnable i)) (.state i .runnable) (wake ch one (.clear i))
  | wakeClear : Steps cfg c t k (wake ch one (.clear i)) (.channel i none) (wake ch one (.scan j))
  | signalEnd : Steps cfg c t k (signal p i) .none kernel
  | signalFound (sleeps : k.state i = .sleeping) :
      Steps cfg c t k (signal p i) .none (signalStore p i)
  | signalNext : Steps cfg c t k (signal p i) .none (signal p (i + 1))
  | signalStore : Steps cfg c t k (signalStore p i) (.state i .runnable) (signalClear p i)
  | signalClear : Steps cfg c t k (signalClear p i) (.channel i none) (signal p (i + 1))
  | killLock : Steps cfg c t k (killLock p own) .threadLock (killScan p own 0)
  | killEnd : Steps cfg c t k (killScan p own i) .none (killUnlock p own)
  | killFound : Steps cfg c t k (killScan p own i) .none (kill p own i .store)
  | killNext : Steps cfg c t k (killScan p own i) .none (killScan p own (i + 1))
  | killStore : Steps cfg c t k (kill p own i .store) (.state i .terminated) (kill p own i .load)
  | killOff (off : k.runningCpu i = none) :
      Steps cfg c t k (kill p own i .load) .none (killScan p own (i + 1))
  | killOn : Steps cfg c t k (kill p own i .load) .none (kill p own i .inc)
  | killInc : Steps cfg c t k (kill p own i .inc) .pendingInc (killScan p own (i + 1))
  | killUnlockOwn : Steps cfg c t k (killUnlock p true) .threadUnlock (exitCpu (some p))
  | killUnlockOther : Steps cfg c t k (killUnlock p false) .threadUnlock (markScan p 0)
  | markEnd : Steps cfg c t k (markScan p i) .none (setReapable p)
  | markFound : Steps cfg c t k (markScan p i) .none (mark p i .store)
  | markNext : Steps cfg c t k (markScan p i) .none (markScan p (i + 1))
  | markStore : Steps cfg c t k (mark p i .store) (.state i .terminated) (mark p i .load)
  | markOff (off : k.runningCpu i = none) :
      Steps cfg c t k (mark p i .load) .none (markScan p (i + 1))
  | markOn : Steps cfg c t k (mark p i .load) .none (mark p i .inc)
  | markInc : Steps cfg c t k (mark p i .inc) .pendingInc (markScan p (i + 1))
  | exitCpu : Steps cfg c t k (exitCpu p) (.running t (some c)) (markSelf p .store)
  | selfStore : Steps cfg c t k (markSelf p .store) (.state t .terminated) (markSelf p .load)
  | selfOff (off : k.runningCpu t = none) :
      Steps cfg c t k (markSelf p .load) .none (p.elim kernel setReapable)
  | selfOn : Steps cfg c t k (markSelf p .load) .none (markSelf p .inc)
  | selfInc : Steps cfg c t k (markSelf p .inc) .pendingInc (p.elim kernel setReapable)
  | setReapable : Steps cfg c t k (setReapable p) (.reapable p) kernel
  | destroyRefuse : Steps cfg c t k (destroy x .test) .none kernel
  | destroyTest : Steps cfg c t k (destroy x .test) .none (destroy x .lock)
  | destroyLock : Steps cfg c t k (destroy x .lock) .threadLock (destroy x .clear)
  | destroyKeep : Steps cfg c t k (destroy x .clear) .none (destroy x .unlock)
  | destroyClear (idle : k.runningCpu x = none) :
      Steps cfg c t k (destroy x .clear) (.destroy x) (destroy x .unlock)
  | destroyUnlock : Steps cfg c t k (destroy x .unlock) .threadUnlock kernel

/-- What a step of the machine can be. -/
inductive Machine.Steps (cfg : Config) (v : Machine) : Act → Machine → Prop
  | run (runs : v.runs c = some t) (steps : Code.Steps cfg c t v.mem (v.code t) w l)
      (free : v.mem.free w) :
      Steps cfg v (.run c) { v with mem := v.mem.write w, code := update v.code t l }
  | call (runs : v.runs c = some t) (may : v.mayCall t l) :
      Steps cfg v (.call c l) { v with code := update v.code t l }
  | interrupt (out : v.cpu c = .out) :
      Steps cfg v (.interrupt c voluntary) { v with cpu := update v.cpu c (.start voluntary kernelMode) }
  | switch (steps : SwitchPc.Steps cfg c v.mem (v.cpu c) w pc)
      (free : v.mem.free w) :
      Steps cfg v (.switch c) { v with mem := v.mem.write w, cpu := update v.cpu c pc }

variable {v : Machine}

theorem Code.step_steps (ran : l.step cfg c t k = some (w, l')) : Code.Steps cfg c t k l w l' := by
  cases l with
  | user | kernel | sleep | wake => cases ran
  | signal p i =>
    rw [Code.step] at ran
    split at ran
    · cases ran
      exact .signalEnd
    split at ran
    · next found =>
      cases ran
      exact .signalFound found.2.2
    · cases ran
      exact .signalNext
  | killScan p own i | markScan p i =>
    rw [Code.step] at ran
    split at ran
    · cases ran
      constructor
    · split at ran <;> cases ran <;> constructor
  | kill p own i at_ | mark p i at_ | markSelf p at_ =>
    cases at_ with
    | load =>
      cases ran
      split
      · next off => first | exact .killOff off | exact .markOff off | exact .selfOff off
      · first | exact .killOn | exact .markOn | exact .selfOn
    | store | inc =>
      cases ran
      constructor
  | killUnlock p own =>
    cases own with
    | true =>
      cases ran
      exact .killUnlockOwn
    | false =>
      cases ran
      exact .killUnlockOther
  | destroy x at_ =>
    cases at_ with
    | test =>
      cases ran
      split <;> constructor
    | lock | unlock =>
      cases ran
      constructor
    | clear =>
      cases ran
      split
      · exact .destroyKeep
      · next found => exact .destroyClear (not_not.mp fun busy => found (.inr busy))
  | _ =>
    cases ran
    constructor

theorem SleepPc.step_store (cfg : Config) (c : Cpu) (t : Tid) (k : Kernel) (ch : Chan)
    (at_ : SleepPc) : ∃ w, Code.Steps cfg c t k (.sleep ch at_) w
      ((at_.step ch t k.threads).2.elim .kernel (.sleep ch)) ∧
      { k with threads := (at_.step ch t k.threads).1 } = k.write w ∧ k.free w := by
  cases at_ with
  | channel => exact ⟨_, .sleepChannel, rfl, rfl⟩
  | state => exact ⟨_, .sleepState, rfl, rfl⟩
  | drop => exact ⟨_, .sleepDrop, rfl, rfl⟩
  | running => exact ⟨_, .sleepRunning, rfl, rfl⟩
  | wait =>
    refine ⟨.none, ?_, rfl, rfl⟩
    simp only [SleepPc.step]
    split
    · next woken => exact .sleepWoken woken
    · exact .sleepWait

theorem WakePc.step_store {next : Option WakePc}
    (ran : at_.step cfg.maxThreads ch one k.threads = some (threads, next)) :
    ∃ w, Code.Steps cfg c t k (.wake ch one at_) w (next.elim .kernel (.wake ch one)) ∧
      { k with threads } = k.write w ∧ k.free w := by
  cases at_ with
  | lock =>
    rw [WakePc.step] at ran
    split at ran
    · cases ran
    · next unlocked =>
      cases ran
      exact ⟨_, .wakeLock, rfl, Bool.not_eq_true' _ ▸ Bool.eq_false_iff.mpr unlocked⟩
  | scan i =>
    rw [WakePc.step] at ran
    split at ran
    · cases ran
      exact ⟨_, .wakeEnd, rfl, rfl⟩
    · cases ran
      refine ⟨.none, ?_, rfl, rfl⟩
      split
      · next sleeps => exact .wakeFound sleeps.2
      · exact .wakeNext
  | test i =>
    cases ran
    refine ⟨.none, ?_, rfl, rfl⟩
    split
    · exact .wakeTest
    · exact .wakePass
  | runnable i =>
    cases ran
    exact ⟨_, .wakeRunnable, rfl, rfl⟩
  | clear i =>
    cases ran
    exact ⟨_, .wakeClear, rfl, rfl⟩

theorem Machine.runThread_steps (runs : v.runs c = some t) (ran : v.runThread cfg c t = some v') :
    Machine.Steps cfg v (.run c) v' := by
  unfold runThread at ran
  split at ran
  · next ch at_ here =>
    cases ran
    obtain ⟨w, steps, wrote, free⟩ := SleepPc.step_store cfg c t v.mem ch at_
    have result := Steps.run runs (by rw [here]; exact steps) free
    rw [← wrote] at result
    exact result
  · next ch one at_ here =>
    split at ran
    · cases ran
    next threads next stepped =>
    cases ran
    obtain ⟨w, steps, wrote, free⟩ := WakePc.step_store (c := c) (t := t) stepped
    have result := Steps.run runs (by rw [here]; exact steps) free
    rw [← wrote] at result
    exact result
  · split at ran
    · cases ran
    · next w l stepped =>
      split at ran
      · next free =>
        cases ran
        exact .run runs (Code.step_steps stepped) free
      · cases ran

theorem Machine.step_steps (ran : v.step cfg a = some v') : Machine.Steps cfg v a v' := by
  cases a with
  | run c =>
    rw [step] at ran
    split at ran
    · cases ran
    · next runs => exact runThread_steps runs ran
  | call c l =>
    rw [step] at ran
    split at ran
    · cases ran
    next runs =>
    split at ran
    · next may =>
      cases ran
      exact .call runs may
    · cases ran
  | interrupt c voluntary =>
    rw [step] at ran
    split at ran
    · next out =>
      split at ran
      · cases ran
        exact .interrupt out
      · split at ran
        · cases ran
          exact .interrupt out
        · cases ran
    · cases ran
  | switch c =>
    rw [step] at ran
    split at ran
    · cases ran
    next w pc moves =>
    split at ran
    · next free =>
      cases ran
      exact .switch (SwitchPc.step_steps moves) free
    · cases ran

theorem Machine.runs_eq (runs : v.runs c = some t) : v.cpu c = .out ∧ v.mem.current c = some t := by
  unfold Machine.runs at runs
  split at runs
  · next out => exact ⟨out, runs⟩
  · cases runs

end Otsos.Sched
