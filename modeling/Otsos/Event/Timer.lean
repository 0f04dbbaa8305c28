import Otsos.Event.Knote
import Otsos.Foundation.Transition

/-! Whether periodic timers keep their period: `kn->data` holds both the period that was asked for
and, behind the first expiry, the number of expirations. -/
namespace Otsos.Event
open Transition

/-- A timer knote of a used queue, with what was registered: `period` is the period in ticks, `last`
the time of the registration or of the last expiry. `kept` says that at each expiry so far the next
deadline was set one period ahead and the whole periods since `last` were reported, `fits` that each
met the condition of the theorem. -/
structure Timed where
  kn : Knote
  clock : Clock
  (period last : UInt64)
  (kept fits : Bool)

inductive TimerAct where
  | clock
  -- `filter_timer_tick`
  | tick
  -- the turn of the knote in `collect_events`
  | collect
  -- `process_change` with `EV_ENABLE`, and with `EV_DISABLE`
  | enable
  | disable
  -- `process_change` with `EV_ADD` for the knote, which registers another period
  | touch (kev : Kevent)

namespace Timed

/-- The condition: the fields of the knote still give the period, and the deadline was one period
ahead. -/
def Fits (v : Timed) : Prop :=
  periodTicks v.clock v.kn.data v.kn.fflags = v.period ∧ v.period ≤ v.clock.ticks - v.last

instance (v : Timed) : Decidable v.Fits := instDecidableAnd

/-- The next deadline is a period ahead, and the knote tells the whole periods that have passed. -/
def Keeps (v : Timed) (kn : Knote) : Prop :=
  kn.fpriv = v.clock.ticks + v.period ∧ kn.data = ((v.clock.ticks - v.last) / v.period).toInt64

instance (v : Timed) (kn : Knote) : Decidable (v.Keeps kn) := instDecidableAnd

/-- The timer expires and becomes ready. -/
def expire (v : Timed) : Timed :=
  let kn := v.kn.expire v.clock
  { v with
    kn := { kn with pending := true }
    last := v.clock.ticks
    kept := v.kept && v.Keeps kn
    fits := v.fits && v.Fits }

def step (v : Timed) : TimerAct → Option Timed
  | .clock => some { v with clock := { v.clock with ticks := v.clock.ticks + 1 } }
  | .tick => if v.kn.due v.clock then some v.expire else some v
  | .collect => if v.kn.pending then some { v with kn := { v.kn.delivered with pending := false } } else none
  | .enable =>
    let v := { v with kn := { v.kn with disabled := false } }
    -- a pending knote is on the ready list already
    if !v.kn.pending && v.kn.expired v.clock then some v.expire else some v
  | .disable => some { v with kn := { v.kn with disabled := true, pending := false } }
  | .touch kev =>
    if 0 < kev.data then
      some { v with
        kn := filtTimerTouch v.clock kev v.kn
        period := periodTicks v.clock kev.data kev.fflags
        last := v.clock.ticks }
    else none

/-- A timer that `process_change` has just registered. -/
def register (clock : Clock) (kn : Knote) : Timed where
  kn := filtTimerAttach clock kn
  clock := clock
  period := periodTicks clock kn.data kn.fflags
  last := clock.ticks
  kept := true
  fits := true

/-- As long as the period was kept the deadline is a period behind the last expiry. -/
structure Steady (v : Timed) : Prop where
  periodic : v.kn.flags &&& evOneshot = 0
  positive : v.period ≠ 0
  same : v.kept = v.fits
  deadline : v.fits → v.kn.fpriv = v.last + v.period

variable {v : Timed} {clock : Clock} {kn : Knote}

theorem periodTicks_ne_zero : periodTicks clock data fflags ≠ 0 := by
  rw [periodTicks]
  split
  · decide
  · next positive => exact positive

theorem register_steady (positive : 0 < kn.data) (periodic : kn.flags &&& evOneshot = 0) :
    (register clock kn).Steady := by
  have kept : ¬kn.data ≤ 0 := Int64.not_le.mpr positive
  refine ⟨?_, periodTicks_ne_zero, rfl, fun _ => ?_⟩
  · rw [register, filtTimerAttach, if_neg kept]
    exact periodic
  · rw [register, filtTimerAttach, if_neg kept]

theorem one_le_div_iff {e : UInt64} (positive : p ≠ 0) : ¬e / p < 1 ↔ p ≤ e := by
  have some_ : 0 < p.toNat := Nat.pos_of_ne_zero fun zero => positive (UInt64.toNat_inj.mp zero)
  rw [UInt64.lt_iff_toNat_lt, Nat.not_lt]
  exact Nat.div_pos_iff.trans (and_iff_right some_)

theorem keeps_iff (periodic : v.kn.flags &&& evOneshot = 0) (positive : v.period ≠ 0)
    (deadline : v.kn.fpriv = v.last + v.period) : v.Keeps (v.kn.expire v.clock) ↔ v.Fits := by
  rw [Fits, Knote.expire, if_pos periodic, deadline]
  generalize periodTicks v.clock v.kn.data v.kn.fflags = p
  constructor
  · rintro ⟨ahead, told⟩
    obtain rfl : p = v.period := (UInt64.add_right_inj _).mp ahead
    refine ⟨rfl, (one_le_div_iff positive).mp fun few => ?_⟩
    rw [UInt64.add_sub_cancel, if_pos few] at told
    have one : 1 = (v.clock.ticks - v.last) / v.period := congrArg Int64.toUInt64 told
    rw [← one] at few
    exact absurd few (by decide)
  · rintro ⟨rfl, passed⟩
    refine ⟨rfl, ?_⟩
    rw [UInt64.add_sub_cancel, if_neg ((one_le_div_iff positive).mpr passed)]

theorem Steady.expire (steady : v.Steady) : v.expire.Steady := by
  refine ⟨steady.periodic, steady.positive, ?_, ?_⟩
  · rw [Timed.expire]
    dsimp only
    cases fits : v.fits with
    | false => rw [steady.same, fits, Bool.false_and, Bool.false_and]
    | true =>
      rw [steady.same, fits, Bool.true_and, Bool.true_and]
      exact decide_eq_decide.mpr (keeps_iff steady.periodic steady.positive (steady.deadline fits))
  · intro fits
    obtain ⟨before, fit⟩ := Bool.and_eq_true_iff.mp fits
    exact ((keeps_iff steady.periodic steady.positive (steady.deadline before)).mpr (of_decide_eq_true fit)).1

theorem Steady.keep (steady : v.Steady) (flags : kn.flags = v.kn.flags)
    (fpriv : kn.fpriv = v.kn.fpriv) : Steady { v with kn } :=
  ⟨flags ▸ steady.periodic, steady.positive, steady.same,
    fun fits => fpriv.trans (steady.deadline fits)⟩

theorem delivered_same : v.kn.delivered.flags = v.kn.flags ∧ v.kn.delivered.fpriv = v.kn.fpriv := by
  rw [Knote.delivered]
  split <;> split <;> exact ⟨rfl, rfl⟩

theorem Steady.step (steady : v.Steady) (ran : v.step a = some v') : v'.Steady := by
  cases a with
  | clock =>
    cases ran
    exact ⟨steady.periodic, steady.positive, steady.same, steady.deadline⟩
  | tick =>
    rw [Timed.step] at ran
    split at ran <;> cases ran
    · exact steady.expire
    · exact steady
  | collect =>
    rw [Timed.step] at ran
    split at ran <;> cases ran
    exact steady.keep delivered_same.1 delivered_same.2
  | enable =>
    rw [Timed.step] at ran
    split at ran <;> cases ran
    · have enabled : Steady { v with kn := { v.kn with disabled := false } } := steady.keep rfl rfl
      exact enabled.expire
    · exact steady.keep rfl rfl
  | disable =>
    cases ran
    exact steady.keep rfl rfl
  | touch kev =>
    rw [Timed.step] at ran
    split at ran <;> cases ran
    exact ⟨steady.periodic, periodTicks_ne_zero, steady.same, fun _ => rfl⟩

/-- In every run of a periodic timer, each expiry sets the next deadline one registered period ahead
and reports the whole periods passed, if and only if at each of them the fields of the knote, which
hold what was last reported, give the registered period, and no deadline has wrapped around. -/
theorem period_kept_iff (positive : 0 < kn.data) (periodic : kn.flags &&& evOneshot = 0)
    (run : Reaches step Free (register clock kn) v) : v.kept = true ↔ v.fits = true := by
  have steady : v.Steady := run.invariant (I := Steady) (fun steady _ ran => steady.step ran)
    (register_steady positive periodic)
  rw [steady.same]

/-- A timer of 10 ms at 1000 ticks a second. -/
def everyTenTicks : Knote :=
  { Knote.zero with used := true, filter := evfiltTimer, flags := evAdd, data := 10, fflags := 0 }

/-- Ticks of the clock, each with the work of the timer interrupt. -/
def ticks (n : Nat) : List TimerAct := (List.replicate n [TimerAct.clock, .tick]).flatten

/-- A timer of one tick expires on time again and again: what it reports is its period. -/
theorem period_kept_once :
    ∃ v, Reaches step Free (register ⟨0, 1000⟩ { everyTenTicks with data := 1 }) v ∧
    v.clock.ticks = 5 ∧ v.kn.fpriv = 6 ∧ v.kept = true := by
  have ran : ∃ v, Reaches step Free (register ⟨0, 1000⟩ { everyTenTicks with data := 1 }) v ∧
      (v.clock.ticks = 5 && v.kn.fpriv = 6 && v.fits) := Reaches.exists_of_exec (ticks 5) (by decide +kernel)
  obtain ⟨v, run, seen⟩ := ran
  obtain ⟨front, fits⟩ := Bool.and_eq_true_iff.mp seen
  obtain ⟨time, deadline⟩ := Bool.and_eq_true_iff.mp front
  exact ⟨v, run, of_decide_eq_true time, of_decide_eq_true deadline,
    (period_kept_iff (by decide) (by decide) run).mpr fits⟩

/-- From the second expiry on, a timer of ten ticks expires at every tick. -/
theorem period_lost : ∃ v, Reaches step Free (register ⟨0, 1000⟩ everyTenTicks) v ∧
    v.clock.ticks = 20 ∧ v.kn.fpriv = 21 ∧ v.kept = false := by
  have ran : ∃ v, Reaches step Free (register ⟨0, 1000⟩ everyTenTicks) v ∧
      (v.clock.ticks = 20 && v.kn.fpriv = 21 && !v.kept) := Reaches.exists_of_exec (ticks 20) (by decide +kernel)
  obtain ⟨v, run, seen⟩ := ran
  obtain ⟨front, lost⟩ := Bool.and_eq_true_iff.mp seen
  obtain ⟨time, deadline⟩ := Bool.and_eq_true_iff.mp front
  exact ⟨v, run, of_decide_eq_true time, of_decide_eq_true deadline, by simpa using lost⟩

end Timed
end Otsos.Event
