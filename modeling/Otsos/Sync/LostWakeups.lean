import Otsos.Sync.Apc
import Otsos.Sync.ChildWait
import Otsos.Sync.FutexWait
import Otsos.Sync.Pipe

/-! The condition waits of the kernel: the test of the condition and the sleep are one section under
the big kernel lock, so none of them misses a wake-up by code that holds the lock. -/
namespace Otsos.Sync
open Sched Transition

inductive CondWait where
  | pipeRead (chan : Chan)
  | pipeWrite (chan : Chan)
  | futexWait (isUser : UInt64 → Bool) (space : Tid → Nat) (uaddr : UInt64) (expected : UInt32)
  | procWait (me : UInt64) (pid : UInt32) (chan : Chan)
  | apcAlert (chan : Chan)

namespace CondWait

def calls (n : Nat) (w : Tid) : CondWait → Calls
  | pipeRead chan | pipeWrite chan => Pipes.calls chan n
  | futexWait isUser space _ _ => Futex.calls isUser space n
  | procWait me pid chan => ChildWait.calls me pid chan n
  | apcAlert chan => Apcs.calls w chan

/-- Thread `w` of `n` is the one that waits. -/
def wait (n : Nat) (w : Tid) : (k : CondWait) → Wait (k.calls n w)
  | pipeRead chan => Pipes.wait chan n w true
  | pipeWrite chan => Pipes.wait chan n w false
  | futexWait isUser space uaddr expected => FutexWait.wait isUser space uaddr expected n w
  | procWait me pid chan => ChildWait.wait me pid chan n w
  | apcAlert chan => Apcs.wait chan w

/-- Nobody has begun to wait for the futex. -/
def Begins (n : Nat) (w : Tid) : (k : CondWait) → (k.calls n w).Mem → Prop
  | futexWait _ _ uaddr _, m => ∀ i, ¬Futex.Mem.matches m uaddr i
  | pipeRead _, _ | pipeWrite _, _ | procWait _ _ _, _ | apcAlert _, _ => True

/-- All threads are in user mode. -/
structure Starts (k : CondWait) (n : Nat) (w : Tid) (v : Wait.Paused (k.calls n w)) : Prop where
  here : w < n
  pending : v.pending = none
  used : (v.threads.td w).used
  awake : ∀ t, ¬v.threads.Asleep t
  idle : ∀ t, v.call t = none
  mem : k.Begins n w v.mem

variable {k : CondWait} {w : Tid}

theorem Starts.good (start : k.Starts n w v) (holds : inv v.toState) :
    (k.wait n w).Good inv v.behind := by
  rw [Wait.Paused.behind_of_none start.pending]
  refine ⟨holds, fun t c going => ?_, fun asleep => absurd asleep (start.awake _)⟩
  cases (start.idle t).symm.trans going

theorem Starts.onChannel (start : k.Starts n w v) : Wait.OnChannel w ch v.threads :=
  ⟨start.used, fun asleep => absurd asleep (start.awake w)⟩

/-- As long as every section runs under the lock: once a notifier has made its wake-up call under
the condition, and while the condition holds, the waiter does not sleep. -/
theorem condition_waits_woken (start : k.Starts n w v)
    (run : Reaches (Wait.Paused.step (k.wait n w)) (Wait.Paused.Locked (k.wait n w)) v v')
    (announced : v'.announced) : ¬v'.threads.Asleep w := by
  cases k with
  | pipeRead chan => exact Wait.Paused.woken (Pipes.wait_lawful start.here) (start.good start.onChannel) run announced
  | pipeWrite chan => exact Wait.Paused.woken (Pipes.wait_lawful start.here) (start.good start.onChannel) run announced
  | futexWait isUser space uaddr expected =>
    have held : FutexWait.Held uaddr w v.toState := by
      refine ⟨start.used, fun u _ => start.awake u, fun c going => ?_, fun _ => start.mem, fun _ going => ?_⟩
      · cases (start.idle w).symm.trans going
      · cases (start.idle w).symm.trans going
    exact Wait.Paused.woken (FutexWait.wait_lawful start.here) (start.good held) run announced
  | procWait me pid chan => 
    exact Wait.Paused.woken (ChildWait.wait_lawful start.here) (start.good start.onChannel) run
      announced
  | apcAlert chan =>
    have alertable : Apcs.Alertable w v.toState := fun going => absurd (start.idle w) going
    exact Wait.Paused.woken Apcs.wait_lawful (start.good alertable) run announced

end CondWait

/-- All threads in user mode. -/
def atEase (k : CondWait) (n : Nat) (w : Tid) (mem : (k.calls n w).Mem) :
    Wait.Paused (k.calls n w) where
  mem
  threads := ⟨fun _ => ⟨true, .running, none⟩, false⟩
  call := fun _ => none
  announced := false
  pending := none

theorem atEase_starts {k : CondWait} {mem : (k.calls n w).Mem} (here : w < n)
    (begins : k.Begins n w mem) :  k.Starts n w (atEase k n w mem) :=
  ⟨here, rfl, rfl, fun _ asleep => (nomatch asleep.1), fun _ => rfl, begins⟩

/-- An empty pipe with a reader and a writer. -/
def emptyPipe : Wait.Paused ((CondWait.pipeRead 0x1000).calls 2 0) :=
  atEase (.pipeRead 0x1000) 2 0 (⟨fun _ => 0, 0, 0, 0, 1, 1⟩ : Pipes.Pipe)

/-- The reader sleeps before the writer looks, and is woken. -/
theorem reader_woken : ∃ v, Reaches (Wait.Paused.step ((CondWait.pipeRead 0x1000).wait 2 0))
    (Wait.Paused.Locked ((CondWait.pipeRead 0x1000).wait 2 0)) emptyPipe v ∧ v.announced ∧
    ¬v.threads.Asleep 0 := by
  have run : ∃ v, Reaches (Wait.Paused.step ((CondWait.pipeRead 0x1000).wait 2 0))
      (Wait.Paused.Locked ((CondWait.pipeRead 0x1000).wait 2 0)) emptyPipe v ∧ v.announced :=
    ⟨_, .cons (a := .locked (.enter 0 (.read 1))) (fun _ => rfl) rfl
      (.cons (a := .sleep) trivial rfl
        (.cons (a := .locked (.enter 1 (.write [0x41]))) nofun rfl .refl)), by decide +kernel⟩
  obtain ⟨v, run, announced⟩ := run
  exact ⟨v, run, announced, CondWait.condition_waits_woken (atEase_starts Nat.zero_lt_two trivial)
    run announced⟩

/-- Process 1 with its child, process 2. -/
def parentAndChild : Wait.Paused ((CondWait.procWait 10 1 0x1000).calls 2 0) :=
  atEase (.procWait 10 1 0x1000) 2 0
    (⟨fun i => if i = 1 then some (20, ⟨10, 0, false, false, false, 2, 1⟩) else none,
      fun i => if i = 0 then (1, 0) else if i = 1 then (2, 1) else (0, 0)⟩ : ChildWait.Mem)

/-- The parent has found no child that has exited. A signal ends the child, which writes its record
and wakes the parent without the lock; then the parent goes to sleep. -/
theorem child_end_missed : (CondWait.procWait 10 1 0x1000).Starts 2 0 parentAndChild ∧
    ∃ v, Reaches (Wait.Paused.step ((CondWait.procWait 10 1 0x1000).wait 2 0)) Free parentAndChild
      v ∧ v.announced ∧ v.threads.Asleep 0 := by
  refine ⟨atEase_starts Nat.zero_lt_two trivial, ?_⟩
  obtain ⟨v, run, missed⟩ : ∃ v,
      Reaches (Wait.Paused.step ((CondWait.procWait 10 1 0x1000).wait 2 0)) Free parentAndChild v ∧
      decide (v.announced ∧ v.threads.Asleep 0) :=
    Reaches.exists_of_exec [.locked (.enter 0 (.wait 0)), .bare 1 (.finish 1 0 true),
      .bare 1 (.notifyParent 1), .sleep] (by decide +kernel)
  exact ⟨v, run, of_decide_eq_true missed⟩

end Otsos.Sync
