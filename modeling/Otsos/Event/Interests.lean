import Otsos.Event.QueueRuns
import Otsos.Foundation.Loop

/-! A condition that holds already when a change enables its knote. `process_change` asks the filter
when it makes the knote and for `EV_ENABLE`, but not for `EV_ADD` of a knote that is there. -/
namespace Otsos.Event.Pool
open Transition
open Intrusive List

/-- The knote that a change is about. -/
def subject (p : Pool) (i : Nat) (kev : Kevent) : Option Nat :=
  (p.find i kev.ident kev.filter).or (if kev.flags &&& evAdd ≠ 0 then p.alloc i else none)

/-- The changes that can enable it. -/
def Enables (kev : Kevent) : Prop :=
  kev.flags &&& evDelete = 0 ∧ (kev.flags &&& evAdd ≠ 0 ∨ kev.flags &&& evEnable ≠ 0)

/-- What the callback `event` reports when the change returns. Where the change has called it, the
world answers as it did there. -/
def Holds (p : Pool) (i j : Nat) (kev : Kevent) (o o' : Outcome) : Prop :=
  0 < (p.event i j (if kev.flags &&& evAdd ≠ 0 then o' else o)).2

def OnReadyList (p : Pool) (i j : Nat) : Prop := ∃ l, Chain (p.kq i).next (p.kq i).readyHead l ∧
  j ∈ l

variable {p p' : Pool} {o : Outcome}

theorem WellFormed.onReadyList_iff (good : p.WellFormed) (live : p.live i) (here : j < maxKnotes)
    (used : (p.knote i j).used) : p.OnReadyList i j ↔ (p.knote i j).pending := by
  obtain ⟨l, linked, -⟩ := good.ready i live nofun
  constructor
  · rintro ⟨l', chain, member⟩
    rw [← linked.chain.unique chain] at member
    exact ((linked.mem j).mp member).2.2
  · intro pending
    exact ⟨l, linked.chain, (linked.mem j).mpr ⟨here, used, pending⟩⟩

theorem event_core : ((p.event i j o).1.knote i j).core = (p.knote i j).core :=
  (Keeps.event (m := ⟨none, none, none⟩)).core i j

theorem filtTimerEvent_none (none_ : (filtTimerEvent now c).2 ≤ 0) :
    filtTimerEvent now c = (c, 0) := by
  rw [filtTimerEvent] at none_ ⊢
  split at none_
  · contradiction
  split at none_
  · contradiction
  next idle early => rw [if_neg idle, if_neg early]

theorem event_timer (timer : (p.knote i j).filter = evfiltTimer) : p.event i j o =
    (p.setKnote i j (filtTimerEvent p.clock (p.knote i j)).1,
      (filtTimerEvent p.clock (p.knote i j)).2) := by
  rw [event, if_pos timer]

/-- Asked again, a filter that has reported nothing reports nothing. -/
theorem event_again (none_ : (p.event i j o).2 ≤ 0) : ((p.event i j o).1.event i j o).2 ≤ 0 := by
  by_cases timer : (p.knote i j).filter = evfiltTimer
  · rw [event_timer timer] at none_ ⊢
    have again := filtTimerEvent_none none_
    rw [again, event_timer (by rwa [setKnote_self]), setKnote_self]
    exact none_
  · have filter : ((p.event i j o).1.knote i j).filter = (p.knote i j).filter :=
      congrArg (·.2.2) event_core
    rw [event.eq_1 (p.event i j o).1, filter, if_neg timer]
    rwa [event, if_neg timer] at none_

theorem poll_pending (live : p.live i) (used : (p.knote i j).used)
    (enabled : ((p.poll i j o).knote i j).disabled = false)
    (holds : 0 < ((p.poll i j o).event i j o).2) : ((p.poll i j o).knote i j).pending := by
  have keeps : Keeps ⟨none, none, none⟩ p (p.event i j o).1 := .event
  rw [poll] at enabled holds ⊢
  dsimp only at enabled holds ⊢
  split at enabled
  · next positive =>
    rw [if_pos positive]
    rw [readied_disabled] at enabled
    exact (readied_pending (keeps.live.trans live) ((Knote.used_of_core event_core).trans used)).mpr
      (.inr enabled)
  · next positive =>
    rw [if_neg positive] at holds
    exact absurd holds (Int.not_lt.mpr (event_again (Int.not_lt.mp positive)))

variable {kev : Kevent}

theorem WellFormed.changeNew_pending (good : p.WellFormed) (live : p.live i)
    (missed : p.find i kev.ident kev.filter = none) (free : p.alloc i = some j)
    (changed : p.changeNew i kev o o' = (p', 0)) (enabled : (p'.knote i j).disabled = false) :
    (p'.knote i j).used ∧ (0 < (p'.event i j o').2 → (p'.knote i j).pending) := by
  obtain ⟨low, filled⟩ := good.filled live missed free
  obtain ⟨p₁, ret, is, same, core, -⟩ := filled.attached (Same.setKnote.live.trans live) low
    (by rw [setKnote_self]; rfl) (by rw [setKnote_self]; rfl) o
  have used : (p₁.knote i j).used := by
    rw [Knote.used_of_core (core i j), setKnote_self]
    rfl
  rw [Pool.changeNew, free] at changed
  dsimp only at changed
  rw [is] at changed
  dsimp only at changed
  split at changed
  · next failed => exact absurd (congrArg Prod.snd changed) failed
  split at changed
  · next off =>
    cases changed
    cases enabled.symm.trans off
  cases changed
  have polls : Keeps ⟨none, none, none⟩ p₁ (p₁.poll i j o') := .poll low
  exact ⟨(Knote.used_of_core (polls.core i j)).trans used,
    poll_pending (same.live.trans (Same.setKnote.live.trans live)) used enabled⟩

/-- A condition that holds is missed exactly by `EV_ADD` for a knote that is there, off the ready
list, and not a user event that is enabled and made ready by the change. -/
theorem enabled_change_iff (run : Reaches Pool.step Free (Pool.empty start) p) (live : p.live i)
    (enables : Enables kev) (changed : p.processChange i kev o o' = some (p', 0))
    (about : p.subject i kev = some j) (enabled : (p'.knote i j).disabled = false) :
      (p'.Holds i j kev o o' → p'.OnReadyList i j) ↔
      (kev.flags &&& evAdd ≠ 0 → p.find i kev.ident kev.filter = some j → p'.Holds i j kev o o' →
        (p.knote i j).pending ∨ (p.knote i j).filter = evfiltUser ∧ o.ready ∧ (p.knote i j).disabled = false) := by
  have good : p.WellFormed := run.invariant (fun good _ is => good.step is) WellFormed.empty
  obtain ⟨r, is, good', j', only⟩ := good.processChange live kev o o'
  cases is.symm.trans changed
  have live' : p'.live i := only.same.live.trans live
  have listed := good'.onReadyList_iff (j := j) live'
  rw [subject] at about
  rw [Pool.processChange] at changed
  dsimp only at changed
  split at changed
  · cases changed
  rw [if_neg (not_not.mpr enables.1)] at changed
  cases found : p.find i kev.ident kev.filter with
  | none =>
    rw [found, Option.none_or] at about
    split at about
    · next add =>
      rw [if_pos add, found] at changed
      obtain ⟨used, pending⟩ := good.changeNew_pending live found about (Option.some.inj changed) enabled
      refine iff_of_true (fun holds => ?_) (by simp)
      rw [Holds, if_pos add] at holds
      exact (listed (mem_range.mp (mem_of_find?_eq_some about)) used).mpr (pending holds)
    · cases about
  | some k =>
    rw [found, Option.some_or, Option.some.injEq] at about
    subst about
    obtain ⟨here, used⟩ := find_used found
    rw [found] at changed
    split at changed
    · next add =>
      obtain ⟨_, is', -, -, kept⟩ := good.changeOld live here used (o := o)
      cases is'.symm.trans changed
      obtain ⟨used', pending⟩ := kept enabled
      rw [listed here used', pending]
      exact ⟨fun missed _ _ => missed, fun missed => missed add rfl⟩
    · next add =>
      have enable := enables.2.resolve_left add
      refine iff_of_true (fun holds => ?_) fun is => absurd is add
      rw [Holds, if_neg add] at holds
      have woken : Keeps ⟨none, none, none⟩ p (p.setKnote i k { p.knote i k with disabled := false }) := .enabled
      have keeps := woken.trans (.poll here (i := i) (o := o))
      have used₁ := (Knote.used_of_core (keeps.core i k)).trans used
      dsimp only at changed
      rw [if_pos enable] at changed
      split at changed
      · obtain ⟨_, off, -, -, set⟩ := WellFormed.disable (keeps.good good) (keeps.live.trans live) here used₁
        rw [off] at changed
        cases changed
        cases enabled.symm.trans set
      · cases changed
        exact (listed here used₁).mpr (poll_pending (woken.live.trans live)
          ((Knote.used_of_core (woken.core i k)).trans used) enabled holds)

/-- A change for descriptor 3, a pipe. -/
def pipe (flags : UInt16) : Kevent := ⟨3, evfiltRead, flags, 0, 0, 0, []⟩

/-- It is watched, and then left alone for a while. -/
def watched : List Act :=
  [.create (some 1) true, .change 0 (pipe evAdd) quiet quiet,
    .change 0 (pipe evDisable) quiet quiet]

/-- What its filter reports once there is something to read. -/
def readable : Outcome := { quiet with result := 1, data := 1 }

/-- A change leaves the knote enabled, with its condition true. -/
def Changed (flags : UInt16) (p p' : Pool) : Prop :=
  p.live 0 ∧ p.subject 0 (pipe flags) = some 0 ∧ (p'.knote 0 0).disabled = false ∧
    p'.Holds 0 0 (pipe flags) readable readable

instance : Decidable (Changed flags p p') := inferInstanceAs (Decidable (_ ∧ _ ∧ _ ∧ (0 : Int) < _))

theorem enabled_change_pipe : ∃ p p', Reaches Pool.step Free (Pool.empty ⟨0, 1000⟩) p ∧
    p.processChange 0 (pipe evEnable) readable readable = some (p', 0) ∧ p'.OnReadyList 0 0 := by
  obtain ⟨p, run, seen⟩ : ∃ p, Reaches Pool.step Free (Pool.empty ⟨0, 1000⟩) p ∧
      (p.processChange 0 (pipe evEnable) readable readable).any fun r =>
        r.2 = 0 ∧ Changed evEnable p r.1 := Reaches.exists_of_exec watched (by decide +kernel)
  obtain ⟨⟨p', _⟩, changed, rfl, live, about, enabled, holds⟩ := Loop.exists_of_any seen
  have listed := enabled_change_iff run live ⟨rfl, .inr (by decide)⟩ changed about enabled
  exact ⟨p, p', run, changed, listed.mpr (fun add => absurd rfl add) holds⟩

/-- Something comes while the knote is disabled. Added again and enabled, it stays off the ready
list. -/
theorem readable_pipe_missed : ∃ p p', Reaches Pool.step Free (Pool.empty ⟨0, 1000⟩) p ∧
    p.processChange 0 (pipe (evAdd ||| evEnable)) readable readable = some (p', 0) ∧
    Changed (evAdd ||| evEnable) p p' ∧ ¬p'.OnReadyList 0 0 := by
  obtain ⟨p, run, seen⟩ : ∃ p, Reaches Pool.step Free (Pool.empty ⟨0, 1000⟩) p ∧
      (p.processChange 0 (pipe (evAdd ||| evEnable)) readable readable).any fun r =>
        r.2 = 0 ∧ Changed (evAdd ||| evEnable) p r.1 ∧ (r.1.kq 0).readyHead = none :=
    Reaches.exists_of_exec watched (by decide +kernel)
  obtain ⟨⟨p', _⟩, done, rfl, changed, head⟩ := Loop.exists_of_any seen
  refine ⟨p, p', run, done, changed, ?_⟩
  rintro ⟨l, chain, member⟩
  rw [head] at chain
  cases l with
  | nil => cases member
  | cons => cases chain.1

end Otsos.Event.Pool
