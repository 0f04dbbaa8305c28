import Otsos.Sched.BigLock

/-! Waiting for a child (`kernel/api/wait.c`): `api_proc_wait` looks through the records of the
processes and sleeps when no child of the caller has exited; `process_exit` and `process_kill` write
the record and wake the parent. A process that a signal ends runs `process_exit` without the big
kernel lock. -/
namespace Otsos.Sync.ChildWait
open Function (update)
open Sched

def maxProcesses : Nat := 256
def procWaitPasses : Nat := 4096

/-- The record of a process, kept in its entity. -/
structure Record where
  parentId : UInt64
  code : Int
  (exited killed reaped : Bool)
  (pid ppid : UInt32)

/-- The entities of the processes with their records, and the pid and parent in each slot of the
table. -/
structure Mem where
  record : Nat → Option (UInt64 × Record)
  table : Nat → UInt32 × UInt32

/-- A record that `process_record_find_child` returns for the parent `me`. -/
def Mem.ready (m : Mem) (me : UInt64) (i : Nat) : Bool :=
  (m.record i).any fun (id, r) => id ≠ 0 && id ≠ me && r.parentId = me && r.exited && !r.reaped

/-- `process_record_find_child(me, 0)`. -/
def Mem.findChild (m : Mem) (me : UInt64) : Option Nat :=
  (List.range maxProcesses).find? (m.ready me)

def Mem.setRecord (m : Mem) (i : Nat) (f : Record → Record) : Mem :=
  { m with record := update m.record i ((m.record i).map fun (id, r) => (id, f r)) }

/-- `process_child_count`. -/
def Mem.childCount (m : Mem) (pid : UInt32) : Nat :=
  if pid = 0 then 0
  else ((List.range maxProcesses).filter fun i => (m.table i).1 ≠ 0 && (m.table i).2 = pid).length

/-- The process that `process_ref` finds. -/
def Mem.known (m : Mem) (pid : UInt32) : Bool :=
  (List.range maxProcesses).any fun i => (m.table i).1 = pid

inductive Call where
  /-- `api_proc_wait` from its loop on, in the given pass -/
  | wait (pass : Nat)
  /-- `process_record_finish` for the process in slot `i`, which is all that the end of a process
  does before it gives the lock up or notifies -/
  | finish (i : Nat) (code : Int) (killed : Bool)
  /-- `process_notify_parent` for the process in slot `i` -/
  | notifyParent (i : Nat)

/-- The process in slot `i` has the parent `pid`, as far as `process_notify_parent` sees. -/
def Mem.notifies (m : Mem) (pid : UInt32) (i : Nat) : Bool :=
  (m.table i).2 ≠ 0 && m.known (m.table i).2 && (m.table i).2 = pid

/-- The calls of a process with entity `me` and number `pid`, which sleeps at `chan`, and the ends
of processes. A child of another parent wakes on another channel. -/
def calls (me : UInt64) (pid : UInt32) (chan : Chan) (n : Nat) : Calls where
  Mem := Mem
  Call := Call
  entry := fun c => c matches .wait 0 | .finish _ _ _ | .notifyParent _
  User := Empty
  user := nofun
  run := fun _ c m threads =>
    match c with
    | .wait pass =>
      if pass ≥ procWaitPasses then ⟨m, threads, none⟩
      else
        match m.findChild me with
        | some i => ⟨m.setRecord i ({ · with reaped := true }), threads, none⟩
        | none => if m.childCount pid = 0 then ⟨m, threads, none⟩ else ⟨m, threads, some (chan, .wait (pass + 1))⟩
    | .finish i code killed =>
      ⟨m.setRecord i fun r =>
        { r with code, pid := (m.table i).1, ppid := (m.table i).2, exited := true, killed := r.killed || killed },
        threads, none⟩
    | .notifyParent i => ⟨m, if m.notifies pid i then threads.wakeup n chan else threads, none⟩

/-- Waiting in `api_proc_wait`. -/
def wait (me : UInt64) (pid : UInt32) (chan : Chan) (n : Nat) (waiter : Tid) :
    Wait (calls me pid chan n) where
  waiter := waiter
  cond := fun m => (Mem.findChild m me).isSome
  notifies := fun c m =>
    match c with
    | .notifyParent i => Mem.notifies m pid i
    | _ => false
  calls := fun t c => t = waiter → c matches .wait _

variable {n : Nat} {w : Tid}

theorem wait_lawful (here : w < n) :
    (wait me pid chan n w).Lawful fun s => Wait.OnChannel w chan s.threads := by
  apply Wait.Lawful.of_channel (W := wait me pid chan n w)
  · intro t c m th _ c' called slept mine
    have waits := called mine
    cases c with
    | wait pass =>
      simp only [calls] at slept
      split at slept
      · cases slept
      · split at slept
        · cases slept
        · split at slept <;> cases slept
          rfl
    | finish i code killed => cases waits
    | notifyParent i => cases waits
  · intro t c m th
    cases c with
    | wait pass =>
      simp only [calls]
      split
      · exact .refl
      · split
        · exact .refl
        · split <;> exact .refl
    | finish i code killed => exact .refl
    | notifyParent i =>
      simp only [calls]
      split
      · exact Threads.wakeup_rouses
      · exact .refl
  · intro c m th _ c' called slept
    have waits := called rfl
    cases c with
    | wait pass =>
      simp only [calls] at slept ⊢
      split at slept
      · cases slept
      next going =>
      split at slept
      · cases slept
      next missed =>
      split at slept
      · cases slept
      · next children =>
        cases slept
        refine ⟨rfl, ?_⟩
        simp [going, missed, children, wait]
    | finish i code killed => cases waits
    | notifyParent i => cases waits
  · intro t c m th _ _ notifies on
    cases c with
    | notifyParent i =>
      simp only [wait] at notifies
      simp only [calls, notifies]
      exact Threads.wakeup_wakes here on.1 on.2
    | wait pass => cases notifies
    | finish i code killed => cases notifies

end Otsos.Sync.ChildWait
