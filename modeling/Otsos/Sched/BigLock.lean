import Otsos.Foundation.Transition
import Otsos.Sched.Threads

/-! System calls under the big kernel lock. `syscall_entry` and the interrupt entries take the lock
(`smp_lock`, `kernel/smp/smp.c`) before any C code runs and release it behind it;
`proc_sleep_interlock` stores the channel and the state of the thread first, then gives the lock up
(`smp_lock_release_all`), and takes it again when the thread was woken. So the code of a call from
one of these points to the next is one step for all code that holds the lock; between them, and in
user mode, anything may happen. -/
namespace Otsos.Sched
open Function (update update_self update_of_ne)
open Transition
open List

namespace Threads

/-- The thread waits to be woken, on whatever channel. -/
def Asleep (s : Threads) (t : Tid) : Prop :=
  (s.td t).state = .sleeping ∧ (s.td t).waitChannel ≠ none

instance (s : Threads) (t : Tid) : Decidable (s.Asleep t) := instDecidableAnd

/-- A thread is made runnable. -/
def rouse (s : Threads) (t : Tid) : Threads := (s.setState t .runnable).setChannel t none

/-- The test in the loop of `proc_wakeup`. -/
def waitsOn (s : Threads) (ch : Chan) (t : Tid) : Bool :=
  (s.td t).used && (s.td t).state = .sleeping && (s.td t).waitChannel = some ch

/-- One turn of that loop. -/
def wakeTurn (ch : Chan) (s : Threads) (t : Tid) : Threads :=
  if s.waitsOn ch t then s.rouse t else s

/-- `proc_wakeup(ch)` over a table of `n` threads. -/
def wakeup (n : Nat) (ch : Chan) (s : Threads) : Threads := (range n).foldl (wakeTurn ch) s

/-- `proc_wakeup_one(ch)`: the first thread that waits is woken. -/
def wakeupOne (n : Nat) (ch : Chan) (s : Threads) : Threads :=
  match (range n).find? (s.waitsOn ch) with
  | none => s
  | some t => s.rouse t

/-- A thread in `proc_sleep_interlock`, up to the release of the lock. -/
def sleep (s : Threads) (t : Tid) (ch : Chan) : Threads :=
  (s.setChannel t (some ch)).setState t .sleeping

variable {s : Threads} {t u : Tid} {ch : Chan} {n : Nat}

theorem rouse_self : ¬(s.rouse t).Asleep t := fun asleep => asleep.2 setChannel_self

theorem rouse_of_ne (other : u ≠ t) : (s.rouse t).td u = s.td u := by
  rw [rouse, setChannel_ne other, setState_ne other]

theorem sleep_of_ne (other : u ≠ t) : (s.sleep t ch).td u = s.td u := by
  rw [sleep, setState_ne other, setChannel_ne other]

/-- The other threads are as they were, or were woken. -/
def Rouses (s s' : Threads) : Prop :=
  ∀ u, s'.td u = s.td u ∨ ¬s'.Asleep u ∧ (s'.td u).used = (s.td u).used

theorem Rouses.refl : s.Rouses s := fun _ => .inl rfl

theorem Rouses.trans {s' s'' : Threads} (first : s.Rouses s') (second : s'.Rouses s'') :
    s.Rouses s'' := by
  intro u
  rcases second u with same | ⟨up, used⟩
  · rcases first u with before | ⟨up, used⟩
    · exact .inl (same.trans before)
    · refine .inr ⟨?_, same ▸ used⟩
      rw [Asleep, same]
      exact up
  · rcases first u with before | ⟨-, kept⟩
    · exact .inr ⟨up, used.trans (congrArg Thread.used before)⟩
    · exact .inr ⟨up, used.trans kept⟩

theorem Rouses.asleep {s' : Threads} (rouses : s.Rouses s') (asleep : s'.Asleep u) :
    s'.td u = s.td u :=
  (rouses u).resolve_right fun woken => woken.1 asleep

theorem rouse_rouses : s.Rouses (s.rouse t) := by
  intro u
  by_cases own : u = t
  · subst own
    exact .inr ⟨rouse_self, by rw [rouse, setChannel_used, setState_used]⟩
  · exact .inl (rouse_of_ne own)

theorem setState_rouses : s.Rouses (s.setState t .running) := by
  intro u
  by_cases own : u = t
  · subst own
    refine .inr ⟨fun asleep => ?_, setState_used⟩
    cases setState_self.symm.trans asleep.1
  · exact .inl (setState_ne own)

theorem wakeupOne_rouses : s.Rouses (s.wakeupOne n ch) := by
  rw [wakeupOne]
  split
  · exact .refl
  · exact rouse_rouses

theorem waitsOn_iff : s.waitsOn ch t ↔ (s.td t).used ∧ s.Asleep t ∧
    (s.td t).waitChannel = some ch := by
  simp only [waitsOn, Bool.and_eq_true, decide_eq_true_eq]
  constructor
  · rintro ⟨⟨used, sleeping⟩, on⟩
    exact ⟨used, ⟨sleeping, by rw [on]; nofun⟩, on⟩
  · rintro ⟨used, asleep, on⟩
    exact ⟨⟨used, asleep.1⟩, on⟩

theorem wakeTurn_rouses : s.Rouses (s.wakeTurn ch t) := by
  rw [wakeTurn]
  split
  · exact rouse_rouses
  · exact .refl

theorem wakeTurn_self : ¬(s.wakeTurn ch t).waitsOn ch t := by
  rw [wakeTurn]
  split
  · exact fun waits => rouse_self (waitsOn_iff.mp waits).2.1
  · next missed => exact missed

theorem Rouses.waitsOn {s' : Threads} (rouses : s.Rouses s') (waits : s'.waitsOn ch t) :
    s.waitsOn ch t := by
  have same := rouses.asleep (waitsOn_iff.mp waits).2.1
  rw [← waits]
  exact congrArg (fun td : _ => td.used && td.state = .sleeping &&
    td.waitChannel = some ch) same.symm

theorem wakeup_loop (l : List Tid) :
    s.Rouses (l.foldl (wakeTurn ch) s) ∧ ∀ t ∈ l, ¬(l.foldl (wakeTurn ch) s).waitsOn ch t := by
  induction l generalizing s with
  | nil => exact ⟨.refl, nofun⟩
  | cons a l ih =>
    obtain ⟨rouses, none⟩ := ih (s := s.wakeTurn ch a)
    refine ⟨wakeTurn_rouses.trans rouses, ?_⟩
    intro t mem waits
    rcases mem_cons.mp mem with rfl | later
    · exact wakeTurn_self (rouses.waitsOn waits)
    · exact none t later waits

theorem wakeup_rouses : s.Rouses (s.wakeup n ch) := (wakeup_loop _).1

theorem wakeup_wakes (here : t < n) (used : (s.td t).used)
    (on : s.Asleep t → (s.td t).waitChannel = some ch) : ¬(s.wakeup n ch).Asleep t := by
  intro asleep
  have same := wakeup_rouses.asleep asleep
  have channel := on (by rw [Asleep, ← same]; exact asleep)
  rw [← same] at used channel
  exact (wakeup_loop (range n)).2 t (mem_range.mpr here) (waitsOn_iff.mpr ⟨used, asleep, channel⟩)

theorem wakeupOne_wakes (here : t < n) (used : (s.td t).used)
    (on : s.Asleep t → (s.td t).waitChannel = some ch) (alone : ∀ u, u ≠ t → ¬s.Asleep u) :
    ¬(s.wakeupOne n ch).Asleep t := by
  intro after
  have same := wakeupOne_rouses.asleep after
  have asleep : s.Asleep t := by
    rw [Asleep, ← same]
    exact after
  rw [wakeupOne] at after
  split at after
  · next missed =>
    exact find?_eq_none.mp missed t (mem_range.mpr here) (waitsOn_iff.mpr ⟨used, asleep, on asleep⟩)
  next u found =>
  have own : u = t := by
    by_contra other
    exact alone u other (waitsOn_iff.mp (find?_some found)).2.1
  rw [own] at after
  exact rouse_self after

end Threads

/-- What a call does from one point where it takes the lock to the next where it gives it up: it
ends, or it sleeps on a channel, to go on with another part. -/
structure Section (Mem Call : Type) where
  mem : Mem
  threads : Threads
  sleeps : Option (Chan × Call)

/-- System calls, and what code in user mode does to the memory; `entry` tells the parts that a call
begins with. -/
structure Calls where
  (Mem Call : Type)
  entry : Call → Bool
  User : Type
  user : User → Mem → Mem
  run : Tid → Call → Mem → Threads → Section Mem Call

namespace Calls
variable {P : Calls}

/-- `call t` is the part of its call that a thread goes on with when it is woken; none: it is in
user mode. -/
structure State (P : Calls) where
  mem : P.Mem
  threads : Threads
  call : Tid → Option P.Call

inductive Act (P : Calls) where
  | enter (t : Tid) (c : P.Call)
  | resume (t : Tid)
  | user (u : P.User)

def State.finish (s : State P) (t : Tid) (run : Section P.Mem P.Call) : State P :=
  match run.sleeps with
  | none => ⟨run.mem, run.threads, update s.call t none⟩
  | some (ch, c) => ⟨run.mem, run.threads.sleep t ch, update s.call t (some c)⟩

def State.step (s : State P) : Act P → Option (State P)
  | .enter t c =>
    match s.call t with
    | none => if P.entry c then some (s.finish t (P.run t c s.mem s.threads)) else none
    | some _ => none
  | .resume t =>
    match s.call t with
    | none => none
    | some c =>
      if (s.threads.td t).waitChannel = none then
        some (s.finish t (P.run t c s.mem (s.threads.setState t .running)))
      else none
  | .user u => some { s with mem := P.user u s.mem }

variable {s s' : State P} {t u : Tid} {a : Act P}

/-- What a step can be: a section of a thread that was in user mode or that was woken, or user
code. -/
inductive Steps (s : State P) : Act P → State P → Prop
  | enter {t : Tid} {c : P.Call} (idle : s.call t = none) (entry : P.entry c) :
      Steps s (.enter t c) (s.finish t (P.run t c s.mem s.threads))
  | resume {t : Tid} {c : P.Call} (call : s.call t = some c) :
      Steps s (.resume t) (s.finish t (P.run t c s.mem (s.threads.setState t .running)))
  | user {u : P.User} : Steps s (.user u) { s with mem := P.user u s.mem }

theorem State.step_steps (ran : s.step a = some s') : Steps s a s' := by
  cases a with
  | enter t c =>
    rw [step] at ran
    split at ran
    · next idle =>
      split at ran
      · next entry =>
        cases ran
        exact .enter idle entry
      · cases ran
    · cases ran
  | resume t =>
    rw [step] at ran
    split at ran
    · cases ran
    · next call =>
      split at ran
      · cases ran
        exact .resume call
      · cases ran
  | user u =>
    cases ran
    exact .user

theorem State.finish_of_none {r : Section P.Mem P.Call} (ends : r.sleeps = none) :
    s.finish t r = ⟨r.mem, r.threads, update s.call t none⟩ := by
  rw [finish, ends]

theorem State.finish_of_some {r : Section P.Mem P.Call} {c : P.Call}
    (sleeps : r.sleeps = some (ch, c)) :
    s.finish t r = ⟨r.mem, r.threads.sleep t ch, update s.call t (some c)⟩ := by
  rw [finish, sleeps]

theorem State.finish_mem {r : Section P.Mem P.Call} : (s.finish t r).mem = r.mem := by
  rw [finish]
  split <;> rfl

theorem State.finish_other {r : Section P.Mem P.Call} (other : u ≠ t) :
    (s.finish t r).threads.td u = r.threads.td u ∧ (s.finish t r).call u = s.call u := by
  rw [finish]
  split
  · exact ⟨rfl, update_of_ne other ..⟩
  · exact ⟨Threads.sleep_of_ne other, update_of_ne other ..⟩

theorem State.finish_self {r : Section P.Mem P.Call} :
    r.sleeps = none ∧ (s.finish t r).threads = r.threads ∧ (s.finish t r).call t = none ∨
      ∃ ch c, r.sleeps = some (ch, c) ∧ (s.finish t r).threads = r.threads.sleep t ch ∧
        (s.finish t r).call t = some c := by
  rw [finish]
  rcases r.sleeps with _ | ⟨ch, c⟩
  · exact .inl ⟨rfl, rfl, update_self ..⟩
  · exact .inr ⟨ch, c, rfl, rfl, update_self ..⟩

end Calls

/-- One thread that waits for a condition on the memory. `calls` says who makes which calls, and
`notifies` which sections make the wake-up call for the condition. -/
structure Wait (P : Calls) where
  waiter : Tid
  cond : P.Mem → Bool
  notifies : P.Call → P.Mem → Bool
  calls : Tid → P.Call → Prop

namespace Wait
open Calls
variable {P : Calls} (W : Wait P)

/-- `announced`: a notifier has made its wake-up call under the condition, which has held since. -/
structure Watch extends State P where
  announced : Bool

/-- The action is a wake-up call by another thread. -/
def signals (s : State P) : Act P → Bool
  | .enter t c => t ≠ W.waiter && W.notifies c s.mem
  | .resume t => t ≠ W.waiter && (s.call t).any (W.notifies · s.mem)
  | .user _ => false

def Watch.step (v : Watch (P := P)) (a : Act P) : Option (Watch (P := P)) :=
  (v.toState.step a).map fun s => ⟨s, W.cond s.mem && (v.announced || W.signals v.toState a)⟩

/-- The threads make their own calls. -/
def Allowed (_ : Watch (P := P)) : Act P → Prop
  | .enter t c => W.calls t c
  | _ => True

/-- What makes the waiter woken: it sleeps only while the condition is false, and a wake-up call
finds it. -/
structure Lawful (inv : State P → Prop) : Prop where
  keeps : ∀ {s a s'}, inv s → (∀ t c, s.call t = some c → W.calls t c) →
    (∀ t c, a = .enter t c → W.calls t c) → Steps s a s' → inv s'
  closed : ∀ {t c mem th ch c'}, W.calls t c → (P.run t c mem th).sleeps = some (ch, c') →
    W.calls t c'
  rouses : ∀ {t c mem} {th : Threads}, th.Rouses (P.run t c mem th).threads
  sleeps : ∀ {c mem th}, W.calls W.waiter c → (P.run W.waiter c mem th).sleeps ≠ none →
    W.cond (P.run W.waiter c mem th).mem = false
  wakes : ∀ {s t c th}, inv s → s.call W.waiter ≠ none → s.threads.Rouses th → t ≠ W.waiter →
    W.calls t c → W.notifies c s.mem → ¬(P.run t c s.mem th).threads.Asleep W.waiter

structure Good (inv : State P → Prop) (v : Watch (P := P)) : Prop where
  inv : inv v.toState
  calls : ∀ t c, v.call t = some c → W.calls t c
  asleep : v.threads.Asleep W.waiter → v.announced = false ∧ v.call W.waiter ≠ none

variable {W} {inv : State P → Prop} {v v' : Watch (P := P)} {a : Act P} {th : Threads}

theorem Good.run {c : P.Call} {announced : Bool} (good : W.Good inv v)
    (lawful : W.Lawful inv) (calls : W.calls t c) (same : v.threads.Rouses th)
    (own : t = W.waiter → ¬th.Asleep t) (keeps : inv (v.toState.finish t (P.run t c v.mem th)))
    (fair : announced → W.cond (P.run t c v.mem th).mem ∧ (v.announced ∨ t ≠ W.waiter ∧ W.notifies c v.mem)) :
    W.Good inv ⟨v.toState.finish t (P.run t c v.mem th), announced⟩ := by
  have self := State.finish_self (s := v.toState) (t := t) (r := P.run t c v.mem th)
  have other :=
    fun {u} => State.finish_other (s := v.toState) (t := t) (u := u) (r := P.run t c v.mem th)
  refine ⟨keeps, ?_, ?_⟩
  · intro u d call
    by_cases mine : u = t
    · subst mine
      rcases self with ⟨-, -, none⟩ | ⟨ch, c', sleeps, -, some_⟩
      · cases none.symm.trans call
      · cases some_.symm.trans call
        exact lawful.closed calls sleeps
    · exact good.calls u d ((other mine).2.symm.trans call)
  · intro asleep
    by_cases mine : t = W.waiter
    · subst mine
      rcases self with ⟨-, threads, -⟩ | ⟨ch, c', sleeps, -, some_⟩
      · have down : (P.run W.waiter c v.mem th).threads.Asleep W.waiter := threads ▸ asleep
        have before := lawful.rouses.asleep down
        rw [Threads.Asleep, before] at down
        exact absurd down (own rfl)
      · have false_ := lawful.sleeps calls (by rw [sleeps]; nofun)
        refine ⟨Bool.eq_false_iff.mpr fun new => ?_, by rw [some_]; nofun⟩
        cases (fair new).1.symm.trans false_
    · have apart : W.waiter ≠ t := fun same => mine same.symm
      have down : (P.run t c v.mem th).threads.Asleep W.waiter := by
        rw [Threads.Asleep, ← (other apart).1]
        exact asleep
      have before : v.threads.Asleep W.waiter := by
        rw [Threads.Asleep, ← (same.trans lawful.rouses).asleep down]
        exact down
      obtain ⟨quiet, call⟩ := good.asleep before
      refine ⟨Bool.eq_false_iff.mpr fun new => ?_, by rw [(other apart).2]; exact call⟩
      obtain ⟨-, old | ⟨-, notifies⟩⟩ := fair new
      · cases quiet.symm.trans old
      · exact lawful.wakes good.inv call same mine calls notifies down

theorem Good.step (good : W.Good inv v) (lawful : W.Lawful inv) (allowed : W.Allowed v a)
    (ran : v.step W a = some v') : W.Good inv v' := by
  obtain ⟨s, stepped, rfl⟩ := Option.map_eq_some_iff.mp ran
  have steps := State.step_steps stepped
  have keeps := lawful.keeps good.inv good.calls (by rintro t c rfl; exact allowed) steps
  cases steps with
  | @enter t c idle =>
    refine good.run lawful allowed .refl ?_ keeps ?_
    · rintro rfl asleep
      exact (good.asleep asleep).2 idle
    · simp [signals, State.finish_mem]
  | @resume t c call =>
    refine good.run lawful (good.calls t c call) Threads.setState_rouses ?_ keeps ?_
    · rintro - asleep
      cases Threads.setState_self.symm.trans asleep.1
    · simp [signals, State.finish_mem, call]
  | user =>
    refine ⟨keeps, good.calls, ?_⟩
    intro asleep
    obtain ⟨quiet, call⟩ := good.asleep asleep
    refine ⟨?_, call⟩
    simp [quiet, signals]

/-- The waiter sleeps on the one channel. -/
def OnChannel (w : Tid) (ch : Chan) (threads : Threads) : Prop :=
  (threads.td w).used ∧ (threads.Asleep w → (threads.td w).waitChannel = some ch)

theorem OnChannel.rouses {w : Tid} {ch : Chan} {th' : Threads} (on : OnChannel w ch th)
    (rouses : th.Rouses th') : OnChannel w ch th' := by
  constructor
  · rcases rouses w with same | ⟨-, used⟩
    · exact same ▸ on.1
    · exact used.trans on.1
  · intro asleep
    have same := rouses.asleep asleep
    rw [Threads.Asleep, same] at asleep
    rw [same]
    exact on.2 asleep

theorem OnChannel.finish {s : State P} {w : Tid} {ch : Chan} {r : Section P.Mem P.Call}
    (on : OnChannel w ch r.threads) (mine : t = w → ∀ ch' c, r.sleeps = some (ch', c) → ch' = ch) :
    OnChannel w ch (s.finish t r).threads := by
  by_cases own : t = w
  · subst own
    rcases State.finish_self (s := s) (t := t) (r := r) with ⟨-, threads, -⟩ | ⟨ch', c, sleeps, threads, -⟩
    · rw [threads]
      exact on
    · rw [threads, mine rfl ch' c sleeps]
      refine ⟨?_, fun _ => ?_⟩
      · rw [Threads.sleep, Threads.setState_used, Threads.setChannel_used]
        exact on.1
      · rw [Threads.sleep, Threads.setState_waitChannel, Threads.setChannel_self]
  · have same := (State.finish_other (s := s) (r := r) (fun h : w = t => own h.symm)).1
    rw [OnChannel, Threads.Asleep, same]
    exact on

theorem Lawful.of_channel {ch : Chan}
    (closed : ∀ {t c mem th ch c'}, W.calls t c → (P.run t c mem th).sleeps = some (ch, c') → W.calls t c')
    (rouses : ∀ {t c mem} {th : Threads}, th.Rouses (P.run t c mem th).threads)
    (sleeps : ∀ {c mem th ch' c'}, W.calls W.waiter c → (P.run W.waiter c mem th).sleeps = some (ch', c') →
      ch' = ch ∧ W.cond (P.run W.waiter c mem th).mem = false)
    (wakes : ∀ {t c mem th}, t ≠ W.waiter → W.calls t c → W.notifies c mem →
      OnChannel W.waiter ch th → ¬(P.run t c mem th).threads.Asleep W.waiter) :
    W.Lawful fun s => OnChannel W.waiter ch s.threads := by
  constructor
  · intro s a _ on calls new steps
    have runs : ∀ {t c th}, W.calls t c → s.threads.Rouses th →
        OnChannel W.waiter ch (s.finish t (P.run t c s.mem th)).threads := by
      intro t c th called same
      apply OnChannel.finish (on.rouses (same.trans rouses))
      rintro rfl ch' c' slept
      exact (sleeps called slept).1
    cases steps with
    | enter => exact runs (new _ _ rfl) .refl
    | resume call => exact runs (calls _ _ call) Threads.setState_rouses
    | user => exact on
  · exact closed
  · exact rouses
  · intro c mem th called slept
    obtain ⟨⟨ch', c'⟩, slept⟩ := Option.ne_none_iff_exists'.mp slept
    exact (sleeps called slept).2
  · intro s t c th on _ same other called notifies
    exact wakes other called notifies (on.rouses same)

/-- In every run, a waiter for whose condition a wake-up call was made, and which still holds, does
not sleep. -/
theorem Lawful.woken (lawful : W.Lawful inv) (start : W.Good inv v)
    (run : Reaches (Watch.step W) W.Allowed v v') (announced : v'.announced) :
    ¬v'.threads.Asleep W.waiter := by
  have good : W.Good inv v' :=
    run.invariant (I := W.Good inv) (fun good allowed ran => good.step lawful allowed ran) start
  intro asleep
  cases (good.asleep asleep).1.symm.trans announced

/-! ### Code that does not hold the lock

Between its test and the stores of `proc_sleep_interlock` a call is seen by code that runs without
the lock: `process_exit` does when a signal ends the process, as `scheduler_user_return_work` lets
the interrupt return to it. -/

/-- `pending`: the thread that holds the lock is about to make the stores. -/
structure Paused (P : Calls) extends Watch (P := P) where
  pending : Option (Tid × Chan × P.Call)

inductive Move (P : Calls) where
  -- a section up to these stores, or user code
  | locked (a : Act P)
  -- the stores
  | sleep
  -- a section of a thread that does not hold the lock
  | bare (t : Tid) (c : P.Call)

namespace Paused
variable (W)

/-- The state once the stores are made. -/
def behind (v : Paused P) : Watch (P := P) :=
  match v.pending with
  | none => v.toWatch
  | some (t, ch, c) =>
    { v.toWatch with threads := v.threads.sleep t ch, call := update v.call t (some c) }

/-- A section that leads to `w` is run up to the stores. -/
def before (v : Paused P) (t : Tid) (r : Section P.Mem P.Call) (w : Watch (P := P)) : Paused P :=
  match r.sleeps with
  | none => ⟨w, none⟩
  | some (ch, c) => ⟨⟨⟨r.mem, r.threads, v.call⟩, w.announced⟩, some (t, ch, c)⟩

def step (v : Paused P) : Move P → Option (Paused P)
  | .locked (.user u) => (v.toWatch.step W (.user u)).map fun w => { v with toWatch := w }
  | .locked (.enter t c) =>
    match v.pending with
    | none => (v.toWatch.step W (.enter t c)).map (v.before t (P.run t c v.mem v.threads))
    | some _ => none
  | .locked (.resume t) =>
    match v.pending, v.call t with
    | none, some c =>
      (v.toWatch.step W (.resume t)).map (v.before t (P.run t c v.mem (v.threads.setState t .running)))
    | _, _ => none
  | .sleep => v.pending.map fun _ => ⟨v.behind, none⟩
  | .bare t c => (v.toWatch.step W (.enter t c)).map fun w => { v with toWatch := w }

/-- Every section is run under the lock. -/
def Locked (_ : Paused P) : Move P → Prop
  | .locked (.enter t c) => W.calls t c
  | .locked _ | .sleep => True
  | .bare _ _ => False

variable {W} {v v' : Paused P}

theorem behind_before (r : Section P.Mem P.Call) (announced : Bool) :
    (v.before t r ⟨v.toState.finish t r, announced⟩).behind = ⟨v.toState.finish t r, announced⟩ := by
  obtain ⟨mem, threads, sleeps⟩ := r
  rcases sleeps with _ | ⟨ch, c⟩ <;> rfl

theorem behind_of_none (none_ : v.pending = none) : v.behind = v.toWatch := by
  rw [behind, none_]

/-- The stores are no step for others that hold the lock. -/
theorem step_behind {m : Move P} (locked : Locked W v m) (ran : v.step W m = some v') :
    v'.behind = v.behind ∨ ∃ b, W.Allowed v.behind b ∧ v.behind.step W b = some v'.behind := by
  cases m with
  | sleep =>
    obtain ⟨_, _, rfl⟩ := Option.map_eq_some_iff.mp ran
    exact .inl rfl
  | bare t c => exact locked.elim
  | locked a =>
    refine .inr ⟨a, by cases a <;> trivial, ?_⟩
    cases a with
    | user u =>
      obtain ⟨⟨⟨mem, threads, call⟩, announced⟩, pending⟩ := v
      rcases pending with _ | ⟨t, ch, c⟩ <;> cases ran <;> rfl
    | enter t c =>
      rw [step] at ran
      split at ran
      · next none_ =>
        obtain ⟨w, stepped, rfl⟩ := Option.map_eq_some_iff.mp ran
        rw [behind_of_none none_, stepped]
        obtain ⟨s, moved, rfl⟩ := Option.map_eq_some_iff.mp stepped
        cases State.step_steps moved
        rw [behind_before]
      · cases ran
    | resume t =>
      rw [step] at ran
      split at ran
      · next c none_ going =>
        obtain ⟨w, stepped, rfl⟩ := Option.map_eq_some_iff.mp ran
        rw [behind_of_none none_, stepped]
        obtain ⟨s, moved, rfl⟩ := Option.map_eq_some_iff.mp stepped
        cases State.step_steps moved with
        | resume call =>
          cases going.symm.trans call
          rw [behind_before]
      · cases ran

theorem reaches_behind (run : Reaches (step W) (Locked W) v v') :
    Reaches (Watch.step W) W.Allowed v.behind v'.behind := by
  induction run with
  | refl => exact .refl
  | tail _ next ih =>
    obtain ⟨a, locked, ran⟩ := next
    rcases step_behind locked ran with same | ⟨b, allowed, stepped⟩
    · rw [same]
      exact ih
    · exact ih.trans (.cons allowed stepped .refl)

theorem asleep_behind (asleep : v.threads.Asleep u) : v.behind.threads.Asleep u := by
  rw [behind]
  split
  · exact asleep
  next t ch c _ =>
  by_cases own : u = t
  · subst own
    refine ⟨Threads.setState_self, ?_⟩
    rw [Threads.sleep, Threads.setState_waitChannel, Threads.setChannel_self]
    nofun
  · rw [Threads.Asleep, Threads.sleep_of_ne own]
    exact asleep

/-- The same for runs in which every section is run under the lock. -/
theorem woken (lawful : W.Lawful inv) (start : W.Good inv v.behind)
    (run : Reaches (step W) (Locked W) v v') (announced : v'.announced) :
    ¬v'.threads.Asleep W.waiter := by
  have same : v'.behind.announced = v'.announced := by
    rw [behind]
    split <;> rfl
  exact fun asleep => lawful.woken start (reaches_behind run) (same.trans announced)
    (asleep_behind asleep)

end Paused
end Wait
end Otsos.Sched
