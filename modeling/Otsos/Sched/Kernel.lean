import Otsos.Sched.Threads

/-! The memory that the CPUs share in `kernel/scheduler.c`, `kernel/thread.c` and
`kernel/process.c`, as far as switching, killing and reaping read it, and the single stores to
it. -/
namespace Otsos.Sched
open Function (update update_self update_of_ne)

/-- An index of `smp_cpu_map`. -/
abbrev Cpu := Nat

/-- An index of `process_table`. -/
abbrev Proc := Nat

/-- The sizes of the tables and the settings of the scheduler. -/
structure Config where
  (maxThreads maxProcesses maxCpus : Nat)
  (strictProcessSeparation smartMigration : Bool)
  migrationThreshold : Nat

/-- A CPU that is not set is `-1` in the source. `listed` is the process whose `thread_list` holds
the thread. -/
structure Kernel where
  threads : Threads
  runningCpu : Tid → Option Cpu
  (proc listed : Tid → Option Proc)
  curThread : Proc → Option Tid
  (preferredCpu lastCpu : Proc → Option Cpu)
  reapable : Proc → Bool
  reapablePending : Nat
  current : Cpu → Option Tid
  schedSpin : Bool
  deadPending : Nat

/-- One store, or one locked operation. -/
inductive Write where
  | none
  | spinLock
  | spinUnlock
  | threadLock
  | threadUnlock
  | state (x : Tid) (s : ProcState)
  | channel (x : Tid) (ch : Option Chan)
  | running (x : Tid) (cpu : Option Cpu)
  | current (c : Cpu) (x : Tid)
  -- `td->proc->cur_thread` and `td->proc->last_cpu`
  | curThread (x : Tid) (c : Cpu)
  | pendingInc
  -- `thread_retired_dead`
  | pendingDec
  -- the locked part of `thread_destroy`
  | destroy (x : Tid)
  | reapable (p : Proc)
  | reaped (p : Proc)

namespace Kernel

def state (k : Kernel) (x : Tid) : ProcState := (k.threads.td x).state

def used (k : Kernel) (x : Tid) : Bool := (k.threads.td x).used

def channel (k : Kernel) (x : Tid) : Option Chan := (k.threads.td x).waitChannel

/-- A spin lock that is held makes its caller wait. -/
def free (k : Kernel) : Write → Bool
  | .spinLock => !k.schedSpin
  | .threadLock => !k.threads.locked
  | _ => true

def write (k : Kernel) : Write → Kernel
  | .none => k
  | .spinLock => { k with schedSpin := true }
  | .spinUnlock => { k with schedSpin := false }
  | .threadLock => { k with threads := { k.threads with locked := true } }
  | .threadUnlock => { k with threads := { k.threads with locked := false } }
  | .state x s => { k with threads := k.threads.setState x s }
  | .channel x ch => { k with threads := k.threads.setChannel x ch }
  | .running x cpu => { k with runningCpu := update k.runningCpu x cpu }
  | .current c x => { k with current := update k.current c (some x) }
  | .curThread x c =>
    match k.proc x with
    | none => k
    | some p => { k with curThread := update k.curThread p (some x), lastCpu := update k.lastCpu p (some c) }
  | .pendingInc => { k with deadPending := k.deadPending + 1 }
  | .pendingDec => { k with deadPending := k.deadPending - 1 }
  | .destroy x =>
    { k with
      threads := { k.threads with td := update k.threads.td x ⟨false, .unused, none⟩ }
      runningCpu := update k.runningCpu x none
      proc := update k.proc x none
      listed := update k.listed x none }
  | .reapable p =>
    { k with reapable := update k.reapable p true, reapablePending := k.reapablePending + 1 }
  | .reaped p =>
    { k with
      reapable := update k.reapable p false
      reapablePending := k.reapablePending - 1
      listed := fun x => if k.listed x = some p then none else k.listed x
      curThread := update k.curThread p none }

/-- `scheduler_load_snapshot`. -/
def loadSnapshot (cfg : Config) (k : Kernel) (c : Cpu) : Nat :=
  if c < cfg.maxCpus then
    let live := (List.range cfg.maxThreads).filter fun x =>
      k.used x && (k.proc x).isSome && k.state x ≠ .terminated && k.state x ≠ .unused
    let preferred x := (k.proc x).bind k.preferredCpu
    live.countP (fun x => preferred x = some c) +
      live.countP (fun x => k.runningCpu x = some c ∧ k.runningCpu x ≠ preferred x)
  else 0

/-- `scheduler_thread_can_run_on`. -/
def canRunOn (cfg : Config) (k : Kernel) (x : Tid) (cpu : Cpu) (load : Cpu → Nat) : Bool :=
  match k.proc x with
  | none => false
  | some p =>
    if k.runningCpu x ≠ none ∧ k.runningCpu x ≠ some cpu then false
    else
      match k.preferredCpu p with
      | none => true
      | some preferred =>
        if cfg.strictProcessSeparation then preferred = cpu
        else if !cfg.smartMigration then true
        else if k.lastCpu p = some cpu ∨ preferred = cpu then true
        else if cpu ≥ cfg.maxCpus ∨ preferred ≥ cfg.maxCpus then false
        else load cpu + cfg.migrationThreshold < load preferred

end Kernel
end Otsos.Sched
