import Otsos.Sched.BigLock

/-! Waiting for a queued call (`kernel/apc.c`): `api_apc_alert` sleeps until a procedure call is
queued for its thread; `apc_queue_kernel` and `apc_queue_user` queue one and wake the thread if it
is alertable. -/
namespace Otsos.Sync.Apcs
open Function (update update_self update_of_ne)
open Sched

def apcAlertMaxSpins : Nat := 1000000
def threadMaxApcs : Nat := 16

def apcAtSyscall : UInt32 := 0x1
def apcAtAlertable : UInt32 := 0x2
def apcAtUserReturn : UInt32 := 0x4

inductive ApcType where
  | kernel
  | userNormal
  | userSpecial
deriving DecidableEq

structure Apc where
  type : ApcType
  (handler arg1 arg2 arg3 : UInt64)
deriving DecidableEq

def apcDeliverable (type : ApcType) (context : UInt32) (inUserApc : Bool) : Bool :=
  match type with
  | .kernel => true
  | .userNormal => !inUserApc && context &&& apcAtAlertable ≠ 0
  | .userSpecial => !inUserApc && context &&& (apcAtSyscall ||| apcAtAlertable ||| apcAtUserReturn) ≠ 0

/-- The calls queued for the waiting thread, from `apc_head` on, the free entries of the pool and
the thread's alertable count; `signals` is what `signal_pending` finds. -/
structure Mem where
  queue : List Apc
  (free alertable : Nat)
  (inUser signals : Bool)

/-- What `apc_pending` looks for at an alertable wait. -/
def Mem.pending (m : Mem) : Bool :=
  m.queue.any fun a => apcDeliverable a.type apcAtAlertable m.inUser

inductive Call where
  | alert (spins : Nat)
  /-- `api_apc_alert` from its loop on -/
  | alertLoop (pass spins : Nat)
  /-- `apc_queue_kernel` or `apc_queue_user`, behind the checks of the arguments -/
  | queue (apc : Apc)
  /-- `signal_send` and the delivery of signals, for the answer of `signal_pending` -/
  | signals (pending : Bool)

/-- The loop of `api_apc_alert`: one test, and the sleep behind it. -/
def alertLoop (chan : Chan) (pass spins : Nat) (m : Mem) (threads : Threads) : Section Mem Call :=
  if pass < spins ∧ !m.pending ∧
    !m.signals then ⟨m, threads, some (chan, .alertLoop (pass + 1) spins)⟩
  else ⟨{ m with alertable := m.alertable - 1 }, threads, none⟩

/-- `apc_wake`. -/
def apcWake (td : Tid) (m : Mem) (threads : Threads) : Threads :=
  if m.alertable = 0 then threads
  else if (threads.td td).state = .sleeping then threads.rouse td
  else threads

/-- The call is queued. -/
def Mem.appends (m : Mem) : Bool := m.free ≠ 0 && m.queue.length < threadMaxApcs

/-- The calls of thread `td` that waits at `chan`, and of those that queue for it. A full list gives
the pool entry back. -/
def calls (td : Tid) (chan : Chan) : Calls where
  Mem := Mem
  Call := Call
  entry := fun c => !(c matches .alertLoop _ _)
  User := Empty
  user := nofun
  run := fun _ c m threads =>
    match c with
    | .alert spins =>
      let spins := if spins = 0 ∨ spins > apcAlertMaxSpins then apcAlertMaxSpins else spins
      alertLoop chan 0 spins { m with alertable := m.alertable + 1 } threads
    | .alertLoop pass spins => alertLoop chan pass spins m threads
    | .queue apc =>
      if (threads.td td).state = .terminated ∨ !m.appends then ⟨m, threads, none⟩
      else
        let m := { m with queue := m.queue ++ [apc], free := m.free - 1 }
        ⟨m, apcWake td m threads, none⟩
    | .signals pending => ⟨{ m with signals := pending }, threads, none⟩

/-- Waiting in `api_apc_alert`. -/
def wait (chan : Chan) (waiter : Tid) : Wait (calls waiter chan) where
  waiter := waiter
  cond := Mem.pending
  notifies := fun c m => c matches .queue _ && m.appends
  calls := fun t c => t = waiter ↔ (c matches .alert _ | .alertLoop _ _)

variable {chan : Chan} {pass : Nat} {threads : Threads}

theorem apcWake_rouses : threads.Rouses (apcWake w m threads) := by
  rw [apcWake]
  split
  · exact .refl
  · split
    · exact Threads.rouse_rouses
    · exact .refl

theorem apcWake_wakes (alertable : m.alertable ≠ 0) : ¬(apcWake w m threads).Asleep w := by
  rw [apcWake, if_neg alertable]
  split
  · exact Threads.rouse_self
  · next up => exact fun asleep => up asleep.1

theorem alertLoop_threads : (alertLoop chan pass spins m threads).threads = threads := by
  rw [alertLoop]
  split <;> rfl

variable {c : Call}

theorem alertLoop_sleeps (slept : (alertLoop chan pass spins m threads).sleeps = some (ch, c)) :
    m.pending = false ∧ (alertLoop chan pass spins m threads).mem = m ∧
    c = .alertLoop (pass + 1) spins := by
  rw [alertLoop] at slept ⊢
  split at slept
  · next again =>
    cases slept
    rw [if_pos again]
    exact ⟨by simpa using again.2.1, rfl, rfl⟩
  · cases slept

/-- The waiting thread is alertable as long as its call lasts. -/
def Alertable (w : Tid) (s : Calls.State (calls w chan)) : Prop :=
  s.call w ≠ none → Mem.alertable s.mem ≠ 0

theorem Alertable.own {r : Section Mem Call}
    (kept : ∀ ch c, r.sleeps = some (ch, c) → Mem.alertable r.mem ≠ 0) :
    Alertable w (Calls.State.finish (P := calls w chan) s w r) := by
  intro inside
  rcases Calls.State.finish_self (s := s) (t := w) (r := r) with ⟨-, -, out⟩ | ⟨ch, c, slept, -, -⟩
  · exact absurd out inside
  · have same := Calls.State.finish_mem (s := s) (t := w) (r := r)
    exact fun zero => kept ch c slept ((congrArg Mem.alertable same).symm.trans zero)

theorem Alertable.section (good : Alertable w s) (called : (wait chan w).calls t c)
    (mine : ∀ pass spins, t = w → c = .alertLoop pass spins → s.call w = some (.alertLoop pass spins)) :
    Alertable w (s.finish t ((calls w chan).run t c s.mem th)) := by
  have others (apart : t ≠ w) (kept : Mem.alertable ((calls w chan).run t c s.mem th).mem = Mem.alertable s.mem) :
      Alertable w (s.finish t ((calls w chan).run t c s.mem th)) := by
    intro inside
    rw [(Calls.State.finish_other (Ne.symm apart)).2] at inside
    rw [Calls.State.finish_mem, kept]
    exact good inside
  cases c with
  | alert spins =>
    obtain rfl := called.mpr rfl
    refine Alertable.own fun ch c slept zero => ?_
    exact Nat.succ_ne_zero _ ((congrArg Mem.alertable (alertLoop_sleeps slept).2.1).symm.trans zero)
  | alertLoop pass spins =>
    obtain rfl := called.mpr rfl
    refine Alertable.own fun ch c slept zero => ?_
    refine good (by rw [mine pass spins rfl rfl]; nofun) ?_
    exact (congrArg Mem.alertable (alertLoop_sleeps slept).2.1).symm.trans zero
  | queue apc =>
    apply others (fun own => by cases called.mp own)
    simp only [calls]
    split <;> rfl
  | signals pending => exact others (fun own => by cases called.mp own) rfl

theorem wait_lawful : (wait chan w).Lawful (Alertable w) := by
  constructor
  · intro s a _ good calls new steps
    cases steps with
    | @enter t c idle entry =>
      refine good.section (new _ _ rfl) ?_
      rintro pass spins - rfl
      cases entry
    | @resume t c call =>
      refine good.section (calls _ _ call) ?_
      rintro pass spins rfl rfl
      exact call
    | @user u => cases u
  · intro t c m th ch c' called slept
    cases c with
    | alert spins =>
      rw [(alertLoop_sleeps slept).2.2]
      exact ⟨fun _ => rfl, fun _ => called.mpr rfl⟩
    | alertLoop pass spins =>
      rw [(alertLoop_sleeps slept).2.2]
      exact called
    | queue apc =>
      simp only [calls] at slept
      split at slept <;> cases slept
    | signals pending => cases slept
  · intro t c m th
    cases c with
    | alert spins =>
      refine Eq.mpr (congrArg _ alertLoop_threads) .refl
    | alertLoop pass spins =>
      refine Eq.mpr (congrArg _ alertLoop_threads) .refl
    | queue apc =>
      simp only [calls]
      split
      · exact .refl
      · exact apcWake_rouses
    | signals pending => exact .refl
  · intro c m th called slept
    obtain ⟨⟨ch, c'⟩, slept⟩ := Option.ne_none_iff_exists'.mp slept
    cases c with
    | alert spins =>
      obtain ⟨none, mem, -⟩ := alertLoop_sleeps slept
      exact (congrArg Mem.pending mem).trans none
    | alertLoop pass spins =>
      obtain ⟨none, mem, -⟩ := alertLoop_sleeps slept
      exact (congrArg Mem.pending mem).trans none
    | queue apc => cases called.mp rfl
    | signals pending => cases called.mp rfl
  · intro s t c th good inside _ _ _ notifies
    cases c with
    | queue apc =>
      have appends : Mem.appends s.mem := notifies
      simp only [calls, appends]
      split
      · next dead =>
        rintro ⟨sleeping, -⟩
        cases sleeping.symm.trans (dead.resolve_right nofun)
      · exact apcWake_wakes (good inside)
    | alert spins => cases notifies
    | alertLoop pass spins => cases notifies
    | signals pending => cases notifies

end Otsos.Sync.Apcs
