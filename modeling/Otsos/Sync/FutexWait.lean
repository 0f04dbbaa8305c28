import Otsos.Sync.Futex

/-! Waiting for a futex word to change, for one thread that waits and any that store to the word and
wake. -/
namespace Otsos.Sync.FutexWait
open Function (update update_self update_of_ne)
open Sched Futex
open List

/-- Waiting in `futex_wait` for the word at `uaddr` to change from `expected`. -/
def wait (isUser : UInt64 → Bool) (space : Tid → Nat) (uaddr : UInt64) (expected : UInt32) (n : Nat)
    (waiter : Tid) : Wait (calls isUser space n) where
  waiter := waiter
  cond := fun m => Mem.word m (space waiter) uaddr ≠ expected
  notifies := fun c _ =>
    match c with
    | .wake a maxWaiters => a = uaddr && 0 < maxWaiters.toInt32.toInt
    | .wakeAll a => a = uaddr
    | _ => false
  calls := fun t c =>
    match c with
    | .wait a e => t = waiter ∧ a = uaddr ∧ e = expected
    | .waitRest a _ => t = waiter ∧ a = uaddr
    | _ => t ≠ waiter

/-- The one entry of the address, with one thread counted. -/
structure Taken (m : Mem) (uaddr : UInt64) (fe : Nat) : Prop where
  entry : m.entry fe = ⟨true, uaddr, 1⟩
  here : fe < maxFutexEntries
  alone : ∀ i, i ≠ fe → ¬m.matches uaddr i

theorem Taken.find (taken : Taken m uaddr fe) : m.find uaddr = some fe := by
  cases found : m.find uaddr with
  | none =>
    have missed := find?_eq_none.mp found fe (mem_range.mpr taken.here)
    simp [Mem.matches, taken.entry] at missed
  | some i =>
    by_contra other
    exact taken.alone i (fun same => other (congrArg some same)) (find?_some found)

theorem Taken.rest (taken : Taken m uaddr fe) (i : Nat) : ¬(waitRest m fe).matches uaddr i := by
  have freed : waitRest m fe = m.set fe .zero := by
    rw [waitRest, taken.entry]
    rfl
  rw [freed]
  by_cases own : i = fe
  · simp [Mem.matches, Mem.set, own, Entry.zero]
  · simpa [Mem.matches, Mem.set, own] using taken.alone i own

theorem futexWait_sleeps (is : futexWait isUser space uaddr expected m threads = r) :
    r.threads = threads ∧
      ∀ ch c, r.sleeps = some (ch, c) → (∃ fe, c = .waitRest uaddr fe) ∧ r.mem.word space uaddr = expected := by
  subst is
  rcases futexWait_cases isUser space uaddr expected m threads with out | ⟨same, fe, _, is, which⟩
  · rw [out]
    exact ⟨rfl, nofun⟩
  · rw [is]
    refine ⟨rfl, fun ch c slept => ?_⟩
    cases slept
    rcases which with ⟨-, rfl⟩ | ⟨-, -, rfl⟩ <;> exact ⟨⟨fe, rfl⟩, same⟩

theorem futexWait_free (free : ∀ i, ¬m.matches uaddr i)
    (is : futexWait isUser space uaddr expected m threads = r) :
    r.sleeps = none ∧ r.mem = m ∨ ∃ fe, r.sleeps = some (futexChan fe, .waitRest uaddr fe) ∧
    Taken r.mem uaddr fe := by
  subst is
  rcases futexWait_cases isUser space uaddr expected m threads with out | ⟨-, fe, _, is, which⟩
  · rw [out]
    exact .inl ⟨rfl, rfl⟩
  rw [is]
  rcases which with ⟨found, -⟩ | ⟨-, found, rfl⟩
  · exact absurd (find?_some found) (free fe)
  · refine .inr ⟨fe, rfl, ?_, mem_range.mp (mem_of_find?_eq_some found), ?_⟩
    · simp [waitOn, Mem.set]
    · intro i other
      simpa [waitOn, Mem.matches, Mem.set, other] using free i

section Lawful
variable {isUser : UInt64 → Bool} {space : Tid → Nat} {w : Tid}

/-- The waiter alone sleeps, on the entry of the address while its call lasts. -/
structure Held (uaddr : UInt64) (w : Tid) (s : Calls.State (calls isUser space n)) : Prop where
  used : (s.threads.td w).used
  others : ∀ u, u ≠ w → ¬s.threads.Asleep u
  inside : ∀ c, s.call w = some c → ∃ fe, c = .waitRest uaddr fe
  free : s.call w = none → ∀ i, ¬Mem.matches s.mem uaddr i
  taken : ∀ fe, s.call w = some (.waitRest uaddr fe) → Taken s.mem uaddr fe ∧
    (s.threads.Asleep w → (s.threads.td w).waitChannel = some (futexChan fe))

variable {s : Calls.State (calls isUser space n)}

theorem Held.others_of_rouses (held : Held uaddr w s)
    (rouses : s.threads.Rouses th) (u : Tid) (other : u ≠ w) : ¬th.Asleep u := by
  intro asleep
  have same := rouses.asleep asleep
  rw [Threads.Asleep, same] at asleep
  exact held.others u other asleep

theorem Held.used_of_rouses (held : Held uaddr w s) (rouses : s.threads.Rouses th) :
    (th.td w).used := by
  rcases rouses w with same | ⟨-, used⟩
  · exact same ▸ held.used
  · exact used.trans held.used

theorem Held.waker (held : Held uaddr w s)
    (apart : t ≠ w) (mem : r.mem = s.mem) (ends : r.sleeps = none)
    (rouses : s.threads.Rouses r.threads) : Held uaddr w (s.finish t r) := by
  have call : update s.call t none w = s.call w := update_of_ne (Ne.symm apart) ..
  rw [Calls.State.finish_of_none ends]
  refine ⟨held.used_of_rouses rouses, held.others_of_rouses rouses, ?_, ?_, ?_⟩
  · exact fun c going => held.inside c (call.symm.trans going)
  · intro out
    rw [mem]
    exact held.free (call ▸ out)
  · intro fe inside
    obtain ⟨taken, on⟩ := held.taken fe (call.symm.trans inside)
    rw [mem]
    refine ⟨taken, fun asleep => ?_⟩
    have same := rouses.asleep asleep
    rw [Threads.Asleep, same] at asleep
    exact (congrArg Thread.waitChannel same).trans (on asleep)

theorem Held.own (held : Held uaddr w s)
    (rouses : s.threads.Rouses r.threads)
    (leaves : r.sleeps = none → ∀ i, ¬Mem.matches r.mem uaddr i)
    (waits : ∀ ch c, r.sleeps = some (ch, c) → ∃ fe, ch = futexChan fe ∧ c = .waitRest uaddr fe ∧ Taken r.mem uaddr fe) :
    Held uaddr w (s.finish w r) := by
  rcases next : r.sleeps with _ | ⟨ch, c⟩
  · rw [Calls.State.finish_of_none next]
    refine ⟨held.used_of_rouses rouses, held.others_of_rouses rouses, ?_, fun _ => leaves next, ?_⟩
    all_goals
      intro fe inside
      cases (update_self ..).symm.trans inside
  · obtain ⟨fe, on, rest, taken⟩ := waits ch c next
    rw [Calls.State.finish_of_some next, on, rest]
    refine ⟨?_, ?_, ?_, ?_, ?_⟩
    · rw [Threads.sleep, Threads.setState_used, Threads.setChannel_used]
      exact held.used_of_rouses rouses
    · intro u other
      rw [Threads.Asleep, Threads.sleep_of_ne other]
      exact held.others_of_rouses rouses u other
    · intro c going
      cases (update_self ..).symm.trans going
      exact ⟨fe, rfl⟩
    · intro out
      cases (update_self ..).symm.trans out
    · intro _ inside
      cases (update_self ..).symm.trans inside
      refine ⟨taken, fun _ => ?_⟩
      rw [Threads.sleep, Threads.setState_waitChannel, Threads.setChannel_self]

theorem Held.section {c : Call}
    (held : Held uaddr w s) (called : (wait isUser space uaddr expected n w).calls t c)
    (same : s.threads.Rouses th)
    (inside : ∀ fe, c = .waitRest uaddr fe → s.call w = some (.waitRest uaddr fe))
    (outside : ∀ a e, c = .wait a e → s.call w = none) :
    Held uaddr w (s.finish t ((calls isUser space n).run t c s.mem th)) := by
  cases c with
  | wait a e =>
    obtain ⟨rfl, rfl, rfl⟩ := called
    have free := held.free (outside a e rfl)
    have ended := futexWait_free (r := futexWait isUser (space t) a e s.mem th) free rfl
    refine held.own (Eq.mpr (congrArg _ (futexWait_sleeps rfl).1) same) ?_ ?_
    · intro out i
      rcases ended with ⟨-, mem⟩ | ⟨fe, slept, -⟩
      · exact Eq.mpr (congrArg (fun m => ¬Mem.matches m a i) mem) (free i)
      · cases out.symm.trans slept
    · intro _ c slept
      rcases ended with ⟨out, -⟩ | ⟨fe, slept', taken⟩
      · cases out.symm.trans slept
      · cases slept'.symm.trans slept
        exact ⟨fe, rfl, rfl, taken⟩
  | waitRest a fe =>
    obtain ⟨rfl, rfl⟩ := called
    exact held.own same (fun _ => (held.taken fe (inside fe rfl)).1.rest) nofun
  | wake a maxWaiters => exact held.waker called rfl rfl (same.trans futexWake_rouses)
  | wakeAll a => exact held.waker called rfl rfl (same.trans futexWakeAll_rouses)

theorem Taken.wakes (taken : Taken m uaddr fe) (here : w < n)
    (used : (th.td w).used) (on : th.Asleep w → (th.td w).waitChannel = some (futexChan fe))
    (alone : ∀ u, u ≠ w → ¬th.Asleep u) (some_ : 0 < maxWaiters.toInt32.toInt) :
    ¬(futexWake n uaddr maxWaiters m th).Asleep w := by
  have turns : ∃ k, futexWoken uaddr maxWaiters m = k + 1 := by
    have one : (m.entry fe).refcount = 1 := by rw [taken.entry]
    rw [futexWoken, taken.find]
    exact ⟨0, by dsimp only; omega⟩
  obtain ⟨k, turns⟩ := turns
  rw [futexWake, taken.find, turns]
  dsimp only
  rw [wakeLoop]
  intro asleep
  have same := wakeLoop_rouses.asleep asleep
  rw [Threads.Asleep, same] at asleep
  exact Threads.wakeupOne_wakes here used on alone asleep

theorem wait_lawful (here : w < n) :
    (wait isUser space uaddr expected n w).Lawful (Held uaddr w) := by
  constructor
  · intro s a _ held calls new steps
    cases steps with
    | @enter t c idle entry =>
      refine held.section (new _ _ rfl) .refl ?_ ?_
      · rintro fe rfl
        cases entry
      · rintro a e rfl
        obtain ⟨rfl, -⟩ := new _ _ rfl
        exact idle
    | @resume t c call =>
      refine held.section (calls _ _ call) Threads.setState_rouses ?_ ?_
      · rintro fe rfl
        obtain ⟨rfl, -⟩ := calls _ _ call
        exact call
      · rintro a e rfl
        obtain ⟨rfl, -⟩ := calls _ _ call
        obtain ⟨fe, rest⟩ := held.inside _ call
        cases rest
    | user =>
      refine ⟨held.used, held.others, held.inside, held.free, fun fe inside => ?_⟩
      obtain ⟨taken, on⟩ := held.taken fe inside
      exact ⟨⟨taken.entry, taken.here, taken.alone⟩, on⟩
  · intro t c m th ch c' called slept
    cases c with
    | wait a e =>
      obtain ⟨⟨fe, rfl⟩, -⟩ := (futexWait_sleeps rfl).2 ch c' slept
      exact ⟨called.1, called.2.1⟩
    | waitRest a fe => cases slept
    | wake a maxWaiters => cases slept
    | wakeAll a => cases slept
  · intro t c m th
    cases c with
    | wait a e => exact Eq.mpr (congrArg _ (futexWait_sleeps rfl).1) .refl
    | waitRest a fe => exact .refl
    | wake a maxWaiters => exact futexWake_rouses
    | wakeAll a => exact futexWakeAll_rouses
  · intro c m th called slept
    obtain ⟨⟨ch, c'⟩, slept⟩ := Option.ne_none_iff_exists'.mp slept
    cases c with
    | wait a e =>
      obtain ⟨-, rfl, rfl⟩ := called
      exact decide_eq_false (not_not.mpr ((futexWait_sleeps rfl).2 ch c' slept).2)
    | waitRest a fe => cases slept
    | wake a maxWaiters => cases slept
    | wakeAll a => cases slept
  · intro s t c th held inside same _ called notifies
    have used := held.used_of_rouses same
    have alone := held.others_of_rouses same
    obtain ⟨c', going⟩ := Option.ne_none_iff_exists'.mp inside
    obtain ⟨fe, rfl⟩ := held.inside c' going
    obtain ⟨taken, on⟩ := held.taken fe going
    have on' : th.Asleep w → (th.td w).waitChannel = some (futexChan fe) := by
      intro asleep
      have kept := same.asleep asleep
      rw [Threads.Asleep, kept] at asleep
      exact (congrArg Thread.waitChannel kept).trans (on asleep)
    cases c with
    | wake a maxWaiters =>
      obtain ⟨rfl, some_⟩ := by simpa [wait] using notifies
      exact taken.wakes here used on' alone some_
    | wakeAll a =>
      obtain rfl : a = uaddr := by simpa [wait] using notifies
      have whole : futexWakeAll n a s.mem th = th.wakeup n (futexChan fe) := by simp only [futexWakeAll, taken.find]
      exact Eq.mpr (congrArg (fun th : Threads => ¬th.Asleep w) whole) (Threads.wakeup_wakes here used on')
    | wait a e => cases notifies
    | waitRest a fe => cases notifies

end Lawful
end Otsos.Sync.FutexWait
