import Mathlib.Algebra.Ring.Nat
import Mathlib.Logic.Function.Basic

/-! The thread table (`kernel/thread.h`) as far as sleeping and waking read it, and the steps of
`proc_sleep_interlock`, `proc_wakeup` and `proc_wakeup_one` (`kernel/event/event.c`), one for each
access to memory that other CPUs see. -/
namespace Otsos.Sched
open Function (update)

inductive ProcState where
  | unused | embryo | runnable | running | sleeping | terminated
deriving DecidableEq

/-- An index of `thread_table`. -/
abbrev Tid := Nat

/-- An address slept on. -/
abbrev Chan := Nat

structure Thread where
  used : Bool
  state : ProcState
  waitChannel : Option Chan
deriving DecidableEq

/-- The threads and the lock over their table. -/
structure Threads where
  td : Tid → Thread
  locked : Bool

namespace Threads

def setState (s : Threads) (t : Tid) (state : ProcState) : Threads :=
  { s with td := update s.td t { s.td t with state } }

def setChannel (s : Threads) (t : Tid) (waitChannel : Option Chan) : Threads :=
  { s with td := update s.td t { s.td t with waitChannel } }

/-- The thread waits to be woken on the channel. -/
def SleepsOn (s : Threads) (t : Tid) (ch : Chan) : Prop :=
  (s.td t).state = .sleeping ∧ (s.td t).waitChannel = some ch

instance (s : Threads) (t : Tid) (ch : Chan) : Decidable (s.SleepsOn t ch) := instDecidableAnd

variable {s : Threads} {ch : Chan}

@[simp] theorem setState_used : ((s.setState u state).td t).used = (s.td t).used := by
  unfold setState
  by_cases same : t = u <;> simp [same]

@[simp] theorem setChannel_used : ((s.setChannel u channel).td t).used = (s.td t).used := by
  unfold setChannel
  by_cases same : t = u <;> simp [same]

@[simp] theorem setState_self : ((s.setState t state).td t).state = state := by simp [setState]

@[simp] theorem setChannel_self : ((s.setChannel t channel).td t).waitChannel = channel := by
  simp [setChannel]

@[simp] theorem setState_waitChannel :
    ((s.setState u state).td t).waitChannel = (s.td t).waitChannel := by
  unfold setState
  by_cases same : t = u <;> simp [same]

theorem setState_ne (other : t ≠ u) : (s.setState u state).td t = s.td t := by
  simp [setState, other]

theorem setChannel_ne (other : t ≠ u) : (s.setChannel u channel).td t = s.td t := by
  simp [setChannel, other]

theorem SleepsOn.of_setState (awake : state ≠ .sleeping)
    (sleeps : (s.setState u state).SleepsOn t ch) : s.SleepsOn t ch ∧ t ≠ u := by
  by_cases same : t = u
  · subst same
    exact absurd (setState_self.symm.trans sleeps.1) awake
  · rw [SleepsOn, setState_ne same] at sleeps
    exact ⟨sleeps, same⟩

theorem SleepsOn.of_setChannel (sleeps : (s.setChannel u none).SleepsOn t ch) :
    s.SleepsOn t ch ∧ t ≠ u := by
  by_cases same : t = u
  · subst same
    cases setChannel_self.symm.trans sleeps.2
  · rw [SleepsOn, setChannel_ne same] at sleeps
    exact ⟨sleeps, same⟩

end Threads

/-- Where a thread is in `proc_sleep_interlock`. -/
inductive SleepPc where
  | channel
  | state
  | drop
  | wait
  | running
deriving DecidableEq

/-- One step of `proc_sleep_interlock(ch, …)` by `t`; none behind it: it returned. The lock of the
caller is dropped in the step at `drop`. -/
def SleepPc.step (ch : Chan) (t : Tid) (s : Threads) : SleepPc → Threads × Option SleepPc
  | channel => (s.setChannel t (some ch), some state)
  | state => (s.setState t .sleeping, some drop)
  | drop => (s, some wait)
  | wait => (s, some (if (s.td t).waitChannel = none then running else wait))
  | running => (s.setState t .running, none)

/-- Where a thread is in `proc_wakeup` or `proc_wakeup_one`. -/
inductive WakePc where
  | lock
  | scan (i : Tid)
  | test (i : Tid)
  | runnable (i : Tid)
  | clear (i : Tid)
deriving DecidableEq

/-- One step of `proc_wakeup(ch)` over a table of `n` threads, or of `proc_wakeup_one(ch)`, which
leaves the loop behind the first thread that it woke. -/
def WakePc.step (n : Nat) (ch : Chan) (one : Bool) (s : Threads) :
    WakePc → Option (Threads × Option WakePc)
  | lock => if s.locked then none else some ({ s with locked := true }, some (scan 0))
  | scan i =>
    if n ≤ i then some ({ s with locked := false }, none)
    else some (s, some (if (s.td i).used ∧ (s.td i).state = .sleeping then test i else scan (i + 1)))
  | test i => some (s, some (if (s.td i).waitChannel = some ch then runnable i else scan (i + 1)))
  | runnable i => some (s.setState i .runnable, some (clear i))
  | clear i => some (s.setChannel i none, some (scan (if one then n else i + 1)))

/-- The scan has still to look at the thread. -/
def WakePc.Before (t : Tid) : WakePc → Prop
  | lock => True
  | scan i | test i | runnable i | clear i => i ≤ t

variable {w : WakePc}

theorem WakePc.step_sleeps (ran : w.step n ch one s = some (s', next)) (sleeps : s'.SleepsOn t c) :
    s.SleepsOn t c := by
  cases w with
  | lock =>
    rw [step] at ran
    split at ran
    · cases ran
    · cases ran
      exact sleeps
  | scan i =>
    rw [step] at ran
    split at ran
    all_goals
      cases ran
      exact sleeps
  | test i =>
    cases ran
    exact sleeps
  | runnable i =>
    cases ran
    exact (sleeps.of_setState (by decide)).1
  | clear i =>
    cases ran
    exact sleeps.of_setChannel.1

theorem WakePc.step_used (ran : w.step n ch one s = some (s', next)) :
    (s'.td t).used = (s.td t).used := by
  cases w with
  | lock =>
    rw [step] at ran
    split at ran
    · cases ran
    · cases ran
      rfl
  | scan i =>
    rw [step] at ran
    split at ran
    all_goals
      cases ran
      rfl
  | test i =>
    cases ran
    rfl
  | runnable i =>
    cases ran
    exact Threads.setState_used
  | clear i =>
    cases ran
    exact Threads.setChannel_used

/-- A thread that is still asleep on the channel has still to be looked at: `proc_wakeup` passes
nobody. -/
theorem WakePc.step_before (ran : w.step n ch false s = some (s', next)) (before : w.Before t)
    (here : t < n) (used : (s.td t).used = true) (sleeps : s'.SleepsOn t ch) :
    ∃ w', next = some w' ∧ w'.Before t := by
  have slept := WakePc.step_sleeps ran sleeps
  cases w with
  | lock =>
    rw [step] at ran
    split at ran
    · cases ran
    · cases ran
      exact ⟨_, rfl, Nat.zero_le t⟩
  | scan i =>
    have near : i ≤ t := before
    rw [step, if_neg (Nat.not_le.mpr (Nat.lt_of_le_of_lt near here))] at ran
    cases ran
    refine ⟨_, rfl, ?_⟩
    split
    · exact near
    · next passed =>
      have other : i ≠ t := by
        rintro rfl
        exact passed ⟨used, slept.1⟩
      exact Nat.lt_of_le_of_ne near other
  | test i =>
    have near : i ≤ t := before
    cases ran
    refine ⟨_, rfl, ?_⟩
    split
    · exact near
    · next passed =>
      have other : i ≠ t := by
        rintro rfl
        exact passed slept.2
      exact Nat.lt_of_le_of_ne near other
  | runnable i =>
    cases ran
    exact ⟨_, rfl, before⟩
  | clear i =>
    cases ran
    have other := sleeps.of_setChannel.2
    exact ⟨_, rfl, Nat.lt_of_le_of_ne before other.symm⟩

end Otsos.Sched
