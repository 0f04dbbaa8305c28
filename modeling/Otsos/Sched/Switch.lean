import Otsos.Sched.Kernel

/-! `scheduler_switch` (`kernel/scheduler.c`) as one CPU runs it, with `scheduler_retire_dead`,
`process_reap`, `pick_next_thread`, `pick_any_runnable_thread` and `thread_set_current`, one step
for each access that other CPUs see. -/
namespace Otsos.Sched

/-- Where a CPU is in `thread_destroy`. -/
inductive DestroyPc where
  | test
  | lock
  | clear
  | unlock
deriving DecidableEq

/-- One step of `thread_destroy` on CPU `c`; none behind it: it returned. -/
def DestroyPc.step (c : Cpu) (x : Tid) (k : Kernel) : DestroyPc → Write × Option DestroyPc
  | test => (.none, if !k.used x ∨ k.current c = some x ∨
      k.runningCpu x ≠ none then none else some lock)
  | lock => (.threadLock, some clear)
  | clear => (if !k.used x ∨ k.runningCpu x ≠ none then .none else .destroy x, some unlock)
  | unlock => (.threadUnlock, none)

/-- The three ways through `scheduler_switch`: no current thread, a current thread that sleeps, and
the rest; there `left` says that `running_cpu` of the current thread was set to `-1`. -/
inductive Branch where
  | boot
  | sleep
  | main (left : Bool)
deriving DecidableEq

/-- Where a CPU is in `scheduler_switch`; `out`: it runs the code of its current thread. Behind
`smp_set_current_thread`, `prev` is the thread that the CPU leaves. -/
inductive SwitchPc where
  | out
  | start (voluntary kernelMode : Bool)
  | asleep
  | spin (b : Branch)
  | hasDead
  | retireLock
  | retireScan (i : Tid)
  | retireStore (i : Tid)
  | retireDec (i : Tid)
  | retireUnlock
  | reap
  | reapScan (p : Proc)
  | reapBusy (p : Proc) (i : Tid)
  | reapDestroy (p : Proc) (i : Tid)
  | destroy (p : Proc) (i : Tid) (at_ : DestroyPc)
  | reapDone (p : Proc)
  | lock (b : Branch)
  | leave (b : Branch)
  | mainState
  | mainStore
  | mainOther
  | snapshot (b : Branch)
  | pick (b : Branch) (loads : Cpu → Nat) (i : Nat)
  | pickCpu (b : Branch) (loads : Cpu → Nat) (i : Nat)
  | nobody (b : Branch)
  | pickAny (left : Bool) (i : Nat)
  | pickAnyCpu (left : Bool) (i : Nat)
  | stay (left : Bool)
  | stayDead (left : Bool)
  | stayState (left : Bool)
  | stayCpu (left : Bool)
  | release
  | releaseSpin
  | bootTest (next : Tid)
  | setCurrent (prev : Option Tid) (next : Tid)
  | setState (prev : Option Tid) (next : Tid)
  | setCpu (prev : Option Tid) (next : Tid)
  | setProc (prev : Option Tid) (next : Tid)
  | unlock (prev : Option Tid) (next : Tid)
  | unspin (prev : Option Tid) (next : Tid)
  -- `trace_sched_switch`, `pmap_load`
  | address (prev : Option Tid) (next : Tid)
  -- `thread_load_context`
  | load (prev : Option Tid) (next : Tid)

/-- The slot that the `i`-th turn of a scan looks at: the first is behind the current thread. -/
def candidate (cfg : Config) (k : Kernel) (c : Cpu) (i : Nat) : Tid :=
  ((k.current c).elim 0 (· + 1) + i) % cfg.maxThreads

/-- Where the CPU is on with the thread that was picked. -/
def Branch.picked (k : Kernel) (c : Cpu) (next : Tid) : Branch → SwitchPc
  | boot => .bootTest next
  | b => if k.current c = some next then .nobody b else .setCurrent (k.current c) next

/-- The step of a CPU whose current thread is `t`. -/
def SwitchPc.stepCurrent (cfg : Config) (c : Cpu) (k : Kernel) (t : Tid) :
    SwitchPc → Option (Write × SwitchPc)
  | start voluntary kernelMode =>
    if !voluntary ∧ kernelMode ∧ k.state t = .running then some (.none, out)
      else some (.none, asleep)
  | asleep => if k.state t = .sleeping then some (.none, spin .sleep)
      else some (.none, spin (.main false))
  | leave .sleep => some (.running t none, snapshot .sleep)
  | leave (.main _) => some (.running t none, snapshot (.main true))
  | mainState => if k.state t = .running then some (.none, mainStore) else some (.none, mainOther)
  | mainStore => some (.state t .runnable, leave (.main true))
  | mainOther =>
    if k.state t = .terminated then some (.none, snapshot (.main false))
      else some (.none, leave (.main true))
  | nobody .sleep => some (.running t (some c), release)
  | nobody (.main left) =>
    if k.state t = .terminated then some (.none, pickAny left 0) else some (.none, stay left)
  | pickAny left i =>
    let x := candidate cfg k c i
    if i ≥ cfg.maxThreads then some (.none, stay left)
    else if k.used x ∧ k.state x = .runnable then some (.none, pickAnyCpu left i)
    else some (.none, pickAny left (i + 1))
  | pickAnyCpu left i =>
    let x := candidate cfg k c i
    if k.runningCpu x ≠ none ∧ k.runningCpu x ≠ some c then some (.none, pickAny left (i + 1))
    else if x = t then some (.none, stay left)
    else some (.none, setCurrent (some t) x)
  | stay left => if k.state t = .terminated then some (.none, stayDead left)
      else some (.none, stayState left)
  | stayDead _ => some (.running t (some c), release)
  | stayState left => some (.state t .running, stayCpu left)
  | stayCpu _ => some (.running t (some c), release)
  | _ => none

/-- One step of `scheduler_switch` on CPU `c`: the store that it makes, and where the CPU is on. -/
def SwitchPc.step (cfg : Config) (c : Cpu) (k : Kernel) (pc : SwitchPc) :
    Option (Write × SwitchPc) :=
  match pc with
  | out => none
  | start voluntary kernelMode =>
    match k.current c with
    | none => some (.none, spin .boot)
    | some t => (start voluntary kernelMode).stepCurrent cfg c k t
  | spin (.main _) => some (.spinLock, hasDead)
  | spin b => some (.spinLock, lock b)
  | hasDead => if k.deadPending = 0 then some (.none, reap) else some (.none, retireLock)
  | retireLock => some (.threadLock, retireScan 0)
  | retireScan i =>
    if i ≥ cfg.maxThreads then some (.none, retireUnlock)
    else if k.used i ∧ k.current c ≠ some i ∧ k.state i = .terminated ∧ k.runningCpu i = some c then
      some (.none, retireStore i)
    else some (.none, retireScan (i + 1))
  | retireStore i => some (.running i none, retireDec i)
  | retireDec i => some (.pendingDec, retireScan (i + 1))
  | retireUnlock => some (.threadUnlock, reap)
  | reap => if k.reapablePending = 0 then some (.none, lock (.main false))
      else some (.none, reapScan 0)
  | reapScan p =>
    if p ≥ cfg.maxProcesses then some (.none, lock (.main false))
    else if k.reapable p then some (.none, reapBusy p 0)
    else some (.none, reapScan (p + 1))
  | reapBusy p i =>
    if i ≥ cfg.maxThreads then some (.none, reapDestroy p 0)
    else if k.listed i = some p ∧ k.runningCpu i ≠ none then some (.none, reapScan (p + 1))
    else some (.none, reapBusy p (i + 1))
  | reapDestroy p i =>
    if i ≥ cfg.maxThreads then some (.none, reapDone p)
    else if k.listed i = some p then some (.none, destroy p i .test)
    else some (.none, reapDestroy p (i + 1))
  | destroy p i at_ =>
    let (w, next) := at_.step c i k
    some (w, next.elim (reapDestroy p (i + 1)) (destroy p i))
  | reapDone p => some (.reaped p, reapScan (p + 1))
  | lock .boot => some (.threadLock, snapshot .boot)
  | lock .sleep => some (.threadLock, leave .sleep)
  | lock (.main _) => some (.threadLock, mainState)
  | snapshot b => some (.none, pick b (k.loadSnapshot cfg) 0)
  | pick b loads i =>
    let x := candidate cfg k c i
    if i ≥ cfg.maxThreads then some (.none, nobody b)
    else if k.used x ∧ k.state x = .runnable then some (.none, pickCpu b loads i)
    else some (.none, pick b loads (i + 1))
  | pickCpu b loads i =>
    let x := candidate cfg k c i
    if k.canRunOn cfg x c loads then some (.none, b.picked k c x)
      else some (.none, pick b loads (i + 1))
  | nobody .boot => some (.none, release)
  | release => some (.threadUnlock, releaseSpin)
  | releaseSpin => some (.spinUnlock, out)
  | bootTest next => if k.state next = .runnable then some (.none, setCurrent none next)
      else some (.none, release)
  | setCurrent prev next => some (.current c next, setState prev next)
  | setState prev next => some (.state next .running, setCpu prev next)
  | setCpu prev next => some (.running next (some c), setProc prev next)
  | setProc prev next => some (.curThread next c, unlock prev next)
  | unlock prev next => some (.threadUnlock, unspin prev next)
  | unspin prev next => some (.spinUnlock, address prev next)
  | address prev next => some (.none, load prev next)
  | load _ _ => some (.none, out)
  | pc =>
    match k.current c with
    | none => none
    | some t => pc.stepCurrent cfg c k t

/-- The CPU holds `sched_spin`. -/
def SwitchPc.holds : SwitchPc → Bool
  | out | start _ _ | asleep | spin _ | address _ _ | load _ _ => false
  | _ => true

/-- The thread on whose kernel stack the CPU still runs although it is no longer the current one. -/
def SwitchPc.leaving : SwitchPc → Option Tid
  | setState prev _ | setCpu prev _ | setProc prev _ | unlock prev _ | unspin prev _ => prev
  | address prev _ | load prev _ => prev
  | _ => none

/-- No other CPU has the thread in `running_cpu`. -/
def Kernel.Idle (k : Kernel) (c : Cpu) (x : Tid) : Prop :=
  k.runningCpu x = none ∨ k.runningCpu x = some c

/-- What a step of a CPU in `scheduler_switch` can be: from a place, with a store, to a place. -/
inductive SwitchPc.Steps (cfg : Config) (c : Cpu) (k : Kernel) : SwitchPc → Write → SwitchPc → Prop
  | boot (idle : k.current c = none) : Steps cfg c k (start voluntary kernelMode) .none (spin .boot)
  | resume : Steps cfg c k (start voluntary kernelMode) .none out
  | look : Steps cfg c k (start voluntary kernelMode) .none asleep
  | sleeps (here : k.current c = some t) (sleeps : k.state t = .sleeping) :
      Steps cfg c k asleep .none (spin .sleep)
  | wakes : Steps cfg c k asleep .none (spin (.main false))
  | spinBoot : Steps cfg c k (spin .boot) .spinLock (lock .boot)
  | spinSleep : Steps cfg c k (spin .sleep) .spinLock (lock .sleep)
  | spinMain : Steps cfg c k (spin (.main left)) .spinLock hasDead
  | noDead : Steps cfg c k hasDead .none reap
  | someDead : Steps cfg c k hasDead .none retireLock
  | retireLock : Steps cfg c k retireLock .threadLock (retireScan 0)
  | retireEnd : Steps cfg c k (retireScan i) .none retireUnlock
  | retireFound (other : k.current c ≠ some i) (dead : k.state i = .terminated)
      (placed : k.runningCpu i = some c) : Steps cfg c k (retireScan i) .none (retireStore i)
  | retireNext : Steps cfg c k (retireScan i) .none (retireScan (i + 1))
  | retireStore : Steps cfg c k (retireStore i) (.running i none) (retireDec i)
  | retireDec : Steps cfg c k (retireDec i) .pendingDec (retireScan (i + 1))
  | retireUnlock : Steps cfg c k retireUnlock .threadUnlock reap
  | reapNone : Steps cfg c k reap .none (lock (.main false))
  | reapSome : Steps cfg c k reap .none (reapScan 0)
  | reapEnd : Steps cfg c k (reapScan p) .none (lock (.main false))
  | reapFound : Steps cfg c k (reapScan p) .none (reapBusy p 0)
  | reapNext : Steps cfg c k (reapScan p) .none (reapScan (p + 1))
  | busyEnd : Steps cfg c k (reapBusy p i) .none (reapDestroy p 0)
  | busyFound : Steps cfg c k (reapBusy p i) .none (reapScan (p + 1))
  | busyNext : Steps cfg c k (reapBusy p i) .none (reapBusy p (i + 1))
  | listEnd : Steps cfg c k (reapDestroy p i) .none (reapDone p)
  | listFound : Steps cfg c k (reapDestroy p i) .none (destroy p i .test)
  | listNext : Steps cfg c k (reapDestroy p i) .none (reapDestroy p (i + 1))
  | destroyRefuse : Steps cfg c k (destroy p i .test) .none (reapDestroy p (i + 1))
  | destroyTest : Steps cfg c k (destroy p i .test) .none (destroy p i .lock)
  | destroyLock : Steps cfg c k (destroy p i .lock) .threadLock (destroy p i .clear)
  | destroyKeep : Steps cfg c k (destroy p i .clear) .none (destroy p i .unlock)
  | destroyClear (idle : k.runningCpu i = none) :
      Steps cfg c k (destroy p i .clear) (.destroy i) (destroy p i .unlock)
  | destroyUnlock : Steps cfg c k (destroy p i .unlock) .threadUnlock (reapDestroy p (i + 1))
  | reapDone : Steps cfg c k (reapDone p) (.reaped p) (reapScan (p + 1))
  | lockBoot : Steps cfg c k (lock .boot) .threadLock (snapshot .boot)
  | lockSleep : Steps cfg c k (lock .sleep) .threadLock (leave .sleep)
  | lockMain : Steps cfg c k (lock (.main left)) .threadLock mainState
  | leaveSleep (here : k.current c = some t) :
      Steps cfg c k (leave .sleep) (.running t none) (snapshot .sleep)
  | leaveMain (here : k.current c = some t) :
      Steps cfg c k (leave (.main left)) (.running t none) (snapshot (.main true))
  | mainRunning (here : k.current c = some t) (running : k.state t = .running) :
      Steps cfg c k mainState .none mainStore
  | mainElse : Steps cfg c k mainState .none mainOther
  | mainStore (here : k.current c = some t) :
      Steps cfg c k mainStore (.state t .runnable) (leave (.main true))
  | mainDead : Steps cfg c k mainOther .none (snapshot (.main false))
  | mainAlive (here : k.current c = some t) (alive : k.state t ≠ .terminated) :
      Steps cfg c k mainOther .none (leave (.main true))
  | snapshot : Steps cfg c k (snapshot b) .none (pick b loads 0)
  | pickEnd : Steps cfg c k (pick b loads i) .none (nobody b)
  | pickFound (runnable : k.state (candidate cfg k c i) = .runnable) :
      Steps cfg c k (pick b loads i) .none (pickCpu b loads i)
  | pickNext : Steps cfg c k (pick b loads i) .none (pick b loads (i + 1))
  | pickRefuse : Steps cfg c k (pickCpu b loads i) .none (pick b loads (i + 1))
  | pickBoot (idle : k.Idle c (candidate cfg k c i)) :
      Steps cfg c k (pickCpu .boot loads i) .none (bootTest (candidate cfg k c i))
  | pickSelf : Steps cfg c k (pickCpu b loads i) .none (nobody b)
  | pickOther (idle : k.Idle c (candidate cfg k c i)) :
      Steps cfg c k (pickCpu b loads i) .none (setCurrent (k.current c) (candidate cfg k c i))
  | nobodyBoot : Steps cfg c k (nobody .boot) .none release
  | nobodySleep (here : k.current c = some t) :
      Steps cfg c k (nobody .sleep) (.running t (some c)) release
  | nobodyDead : Steps cfg c k (nobody (.main left)) .none (pickAny left 0)
  | nobodyAlive : Steps cfg c k (nobody (.main left)) .none (stay left)
  | anyEnd : Steps cfg c k (pickAny left i) .none (stay left)
  | anyFound (runnable : k.state (candidate cfg k c i) = .runnable) :
      Steps cfg c k (pickAny left i) .none (pickAnyCpu left i)
  | anyNext : Steps cfg c k (pickAny left i) .none (pickAny left (i + 1))
  | anyRefuse : Steps cfg c k (pickAnyCpu left i) .none (pickAny left (i + 1))
  | anySelf : Steps cfg c k (pickAnyCpu left i) .none (stay left)
  | anyOther (here : k.current c = some t) (idle : k.Idle c (candidate cfg k c i)) :
      Steps cfg c k (pickAnyCpu left i) .none (setCurrent (some t) (candidate cfg k c i))
  | stayTerminated : Steps cfg c k (stay left) .none (stayDead left)
  | stayAlive (here : k.current c = some t) (alive : k.state t ≠ .terminated) :
      Steps cfg c k (stay left) .none (stayState left)
  | stayDead (here : k.current c = some t) :
      Steps cfg c k (stayDead left) (.running t (some c)) release
  | stayState (here : k.current c = some t) :
      Steps cfg c k (stayState left) (.state t .running) (stayCpu left)
  | stayCpu (here : k.current c = some t) :
      Steps cfg c k (stayCpu left) (.running t (some c)) release
  | release : Steps cfg c k release .threadUnlock releaseSpin
  | releaseSpin : Steps cfg c k releaseSpin .spinUnlock out
  | bootFound (runnable : k.state next = .runnable) :
      Steps cfg c k (bootTest next) .none (setCurrent none next)
  | bootGone : Steps cfg c k (bootTest next) .none release
  | setCurrent : Steps cfg c k (setCurrent prev next) (.current c next) (setState prev next)
  | setState : Steps cfg c k (setState prev next) (.state next .running) (setCpu prev next)
  | setCpu : Steps cfg c k (setCpu prev next) (.running next (some c)) (setProc prev next)
  | setProc : Steps cfg c k (setProc prev next) (.curThread next c) (unlock prev next)
  | unlock : Steps cfg c k (unlock prev next) .threadUnlock (unspin prev next)
  | unspin : Steps cfg c k (unspin prev next) .spinUnlock (address prev next)
  | address : Steps cfg c k (address prev next) .none (load prev next)
  | load : Steps cfg c k (load prev next) .none out

variable {k : Kernel} {w : Write}

theorem Kernel.idle_of_near (near : ¬(k.runningCpu x ≠ none ∧ k.runningCpu x ≠ some c)) :
    k.Idle c x := by
  by_cases idle : k.runningCpu x = none
  · exact .inl idle
  · exact .inr (not_not.mp fun far => near ⟨idle, far⟩)

theorem Kernel.idle_of_canRunOn (can : k.canRunOn cfg x c loads) : k.Idle c x := by
  rw [Kernel.canRunOn] at can
  split at can
  · cases can
  · split at can
    · cases can
    · next near => exact Kernel.idle_of_near near

theorem SwitchPc.stepCurrent_steps (here : k.current c = some t)
    (ran : pc.stepCurrent cfg c k t = some (w, pc')) : SwitchPc.Steps cfg c k pc w pc' := by
  cases pc with
  | start voluntary kernelMode =>
    rw [SwitchPc.stepCurrent] at ran
    split at ran
    · cases ran
      exact .resume
    · cases ran
      exact .look
  | asleep =>
    rw [SwitchPc.stepCurrent] at ran
    split at ran
    · next sleeps =>
      cases ran
      exact .sleeps here sleeps
    · cases ran
      exact .wakes
  | leave b =>
    cases b with
    | boot => cases ran
    | sleep =>
      cases ran
      exact .leaveSleep here
    | main left =>
      cases ran
      exact .leaveMain here
  | mainState =>
    rw [SwitchPc.stepCurrent] at ran
    split at ran
    · next running =>
      cases ran
      exact .mainRunning here running
    · cases ran
      exact .mainElse
  | mainStore =>
    cases ran
    exact .mainStore here
  | mainOther =>
    rw [SwitchPc.stepCurrent] at ran
    split at ran
    · cases ran
      exact .mainDead
    · next alive =>
      cases ran
      exact .mainAlive here alive
  | nobody b =>
    cases b with
    | boot => cases ran
    | sleep =>
      cases ran
      exact .nobodySleep here
    | main left =>
      rw [SwitchPc.stepCurrent] at ran
      split at ran
      · cases ran
        exact .nobodyDead
      · cases ran
        exact .nobodyAlive
  | pickAny left i =>
    simp only [SwitchPc.stepCurrent] at ran
    split at ran
    · cases ran
      exact .anyEnd
    split at ran
    · next found =>
      cases ran
      exact .anyFound found.2
    · cases ran
      exact .anyNext
  | pickAnyCpu left i =>
    simp only [SwitchPc.stepCurrent] at ran
    split at ran
    · cases ran
      exact .anyRefuse
    next near =>
    split at ran
    · cases ran
      exact .anySelf
    · cases ran
      exact .anyOther here (Kernel.idle_of_near near)
  | stay left =>
    rw [SwitchPc.stepCurrent] at ran
    split at ran
    · cases ran
      exact .stayTerminated
    · next alive =>
      cases ran
      exact .stayAlive here alive
  | stayDead left =>
    cases ran
    exact .stayDead here
  | stayState left =>
    cases ran
    exact .stayState here
  | stayCpu left =>
    cases ran
    exact .stayCpu here
  | _ => cases ran

theorem SwitchPc.step_steps (ran : pc.step cfg c k = some (w, pc')) :
    SwitchPc.Steps cfg c k pc w pc' := by
  cases pc with
  | out => cases ran
  | start voluntary kernelMode =>
    rw [SwitchPc.step] at ran
    split at ran
    · next idle =>
      cases ran
      exact .boot idle
    · next here => exact stepCurrent_steps here ran
  | spin b | lock b => cases b <;> cases ran <;> constructor
  | hasDead | reap =>
    rw [SwitchPc.step] at ran
    split at ran <;> cases ran <;> constructor
  | retireScan i =>
    rw [SwitchPc.step] at ran
    split at ran
    · cases ran
      exact .retireEnd
    split at ran
    · next found =>
      cases ran
      exact .retireFound found.2.1 found.2.2.1 found.2.2.2
    · cases ran
      exact .retireNext
  | reapScan p | reapBusy p i | reapDestroy p i =>
    rw [SwitchPc.step] at ran
    split at ran
    · cases ran
      constructor
    · split at ran <;> cases ran <;> constructor
  | destroy p i at_ =>
    cases at_ with
    | test =>
      cases ran
      split <;> constructor
    | lock | unlock =>
      cases ran
      constructor
    | clear =>
      cases ran
      split
      · exact .destroyKeep
      · next found => exact .destroyClear (not_not.mp fun busy => found (.inr busy))
  | pick b loads i =>
    simp only [SwitchPc.step] at ran
    split at ran
    · cases ran
      exact .pickEnd
    split at ran
    · next found =>
      cases ran
      exact .pickFound found.2
    · cases ran
      exact .pickNext
  | pickCpu b loads i =>
    simp only [SwitchPc.step] at ran
    split at ran
    · next can =>
      cases ran
      have idle := Kernel.idle_of_canRunOn can
      cases b with
      | boot => exact .pickBoot idle
      | sleep | main =>
        simp only [Branch.picked]
        split
        · exact .pickSelf
        · exact .pickOther idle
    · cases ran
      exact .pickRefuse
  | bootTest next =>
    rw [SwitchPc.step] at ran
    split at ran
    · next runnable =>
      cases ran
      exact .bootFound runnable
    · cases ran
      exact .bootGone
  | nobody b =>
    cases b with
    | boot =>
      cases ran
      exact .nobodyBoot
    | sleep | main =>
      simp only [SwitchPc.step] at ran
      split at ran
      · cases ran
      · next here => exact stepCurrent_steps here ran
  | asleep | leave | mainState | mainStore | mainOther | pickAny | pickAnyCpu | stay | stayDead | stayState | stayCpu =>
    simp only [SwitchPc.step] at ran
    split at ran
    · cases ran
    · next here => exact stepCurrent_steps here ran
  | _ =>
    cases ran
    constructor

end Otsos.Sched
