import Mathlib.Algebra.BigOperators.Ring.Finset
import Mathlib.Algebra.Order.BigOperators.Group.Finset
import Otsos.Event.Queues

/-! Runs of the event queues: every operation ends and keeps the representation. -/
namespace Otsos.Event.Pool
open Transition
open List

variable {p p' : Pool} {m : Mid} {c : Knote} {a : Act}

theorem find_used {filter : Int16} (found : p.find i ident filter = some j) :
    j < maxKnotes ∧ (p.knote i j).used := by
  have is := find?_some found
  simp only [Bool.and_eq_true] at is
  exact ⟨mem_range.mp (mem_of_find?_eq_some found), is.1.1⟩

theorem Keeps.enabled : Keeps m p (p.setKnote i j { p.knote i j with disabled := false }) :=
  .stored (c := { p.knote i j with disabled := false }) ⟨rfl, rfl, rfl, fun set => nomatch set⟩

theorem readied_disabled :
    ((p.knoteReadyLocked i j).knote i j).disabled = (p.knote i j).disabled := by
  rw [knoteReadyLocked]
  split
  · rw [knote, set_self]
    exact (Kqueue.add_alike j j).disabled
  · rfl

theorem readied_pending (live : p.live i) (used : (p.knote i j).used) :
    ((p.knoteReadyLocked i j).knote i j).pending ↔ (p.knote i j).pending ∨
    (p.knote i j).disabled = false := by
  have queue : (p.kq i).used := (Bool.and_eq_true_iff.mp live).2
  rw [knoteReadyLocked, used, queue]
  cases enabled : (p.knote i j).disabled with
  | true => simp
  | false =>
    refine iff_of_true ?_ (.inr rfl)
    show ((p.set i (knoteAddToReady (p.kq i) j)).knote i j).pending
    rw [knote, set_self, knoteAddToReady]
    split
    · assumption
    · simp only [if_true]
      split <;> rfl

theorem touch_pending (live : p.live i) (used : (p.knote i j).used) :
    ((p.touch i j kev o).knote i j).pending ↔ (p.knote i j).pending ∨
    (p.knote i j).filter = evfiltUser ∧ o.ready ∧ (p.knote i j).disabled = false := by
  rw [touch]
  split
  · next timer =>
    rw [setKnote_self, timer]
    exact (or_iff_left fun is => absurd is.1 (by decide)).symm
  dsimp only
  split
  · next user =>
    rw [readied_pending (Same.setKnote.live.trans live) (by rwa [setKnote_self]), setKnote_self]
    exact or_congr_right ⟨fun enabled => ⟨user.1, user.2, enabled⟩, fun is => is.2.2⟩
  · next other =>
    rw [setKnote_self]
    exact (or_iff_left fun is => other ⟨is.1, is.2.1⟩).symm

/-- A knote that is there stays on the ready list or off it, whatever its filter would say. -/
theorem WellFormed.changeOld (good : p.WellFormed) (live : p.live i) (here : j < maxKnotes)
    (used : (p.knote i j).used) : ∃ r, p.changeOld i j kev o = some r ∧ r.1.WellFormed ∧
      Only i j p r.1 ∧ ((r.1.knote i j).disabled = false →
      (r.1.knote i j).used ∧ ((r.1.knote i j).pending ↔ (p.knote i j).pending ∨
        (p.knote i j).filter = evfiltUser ∧ o.ready ∧ (p.knote i j).disabled = false)) := by
  rw [Pool.changeOld]
  generalize eq : { p.knote i j with
      fflags := kev.fflags, sfflags := kev.fflags, data := kev.data
      udata := if kev.flags &&& evKeepudata = 0 then kev.udata else (p.knote i j).udata } = c
  have stored : Keeps ⟨none, none, none⟩ p (p.setKnote i j c) := .stored (eq ▸ ⟨rfl, rfl, rfl, id⟩)
  have touched : Keeps ⟨none, none, none⟩ (p.setKnote i j c) ((p.setKnote i j c).touch i j kev o) :=
    .touch here
  have keeps := stored.trans touched
  have pending : (((p.setKnote i j c).touch i j kev o).knote i j).pending ↔ _ :=
    touch_pending (stored.live.trans live) ((Knote.used_of_core (stored.core i j)).trans used)
  have same : c.pending = (p.knote i j).pending ∧ c.filter = (p.knote i j).filter ∧
      c.disabled = (p.knote i j).disabled := eq ▸ ⟨rfl, rfl, rfl⟩
  rw [setKnote_self, same.1, same.2.1, same.2.2] at pending
  generalize (p.setKnote i j c).touch i j kev o = p₁ at keeps pending
  have good₁ : p₁.WellFormed := keeps.good good
  have used₁ := (Knote.used_of_core (keeps.core i j)).trans used
  split
  · obtain ⟨p', is, good', only, set⟩ := good₁.disable (keeps.live.trans live) here used₁
    exact ⟨(p', 0), by rw [is]; rfl, good', keeps.only.trans only,
      fun unset => nomatch set.symm.trans unset⟩
  · split
    · refine ⟨_, rfl, Keeps.enabled.good good₁, (keeps.trans .enabled).only, fun _ => ?_⟩
      rw [setKnote_self]
      exact ⟨used₁, pending⟩
    · exact ⟨_, rfl, good₁, keeps.only, fun _ => ⟨used₁, pending⟩⟩

theorem WellFormed.processChange (good : p.WellFormed) (live : p.live i) (kev : Kevent)
    (o o' : Outcome) : ∃ r, p.processChange i kev o o' = some r ∧ r.1.WellFormed ∧ ∃ j,
    Only i j p r.1 := by
  rw [Pool.processChange]
  dsimp only
  split
  · exact ⟨_, rfl, good, 0, .refl⟩
  split
  · split
    · exact ⟨_, rfl, good, 0, .refl⟩
    · next j found =>
      obtain ⟨here, used⟩ := find_used found
      obtain ⟨p', is, good', only⟩ := good.delete live here used (o := o)
      exact ⟨_, by rw [is]; rfl, good', j, only⟩
  · split
    · split
      · next j found =>
        obtain ⟨here, used⟩ := find_used found
        obtain ⟨r, is, good', only, -⟩ := good.changeOld live here used
        exact ⟨r, is, good', j, only⟩
      · next missed => exact ⟨_, rfl, good.changeNew live missed⟩
    · split
      · exact ⟨_, rfl, good, 0, .refl⟩
      · next j found =>
        obtain ⟨here, used⟩ := find_used found
        have keeps : Keeps ⟨none, none, none⟩ p (if kev.flags &&& evEnable ≠ 0 then
            (p.setKnote i j { p.knote i j with disabled := false }).poll i j o else p) := by
          split
          · exact Keeps.enabled.trans (.poll here)
          · exact .refl
        generalize (if kev.flags &&& evEnable ≠ 0 then
            (p.setKnote i j { p.knote i j with disabled := false }).poll i j o else p) = p₁ at keeps
        have good₁ : p₁.WellFormed := keeps.good good
        split
        · have used₁ := (Knote.used_of_core (keeps.core i j)).trans used
          obtain ⟨p', is, good', only, -⟩ := good₁.disable (keeps.live.trans live) here used₁
          exact ⟨_, by rw [is]; rfl, good', j, keeps.only.trans only⟩
        · exact ⟨_, rfl, good₁, j, keeps.only⟩

theorem delivered_same : c.delivered.core = c.core ∧ c.delivered.pending = c.pending ∧
    c.delivered.next = c.next := by
  rw [Knote.delivered]
  split <;> split <;> exact ⟨rfl, rfl, rfl⟩

/-- Nothing is registered, and the owners stay. -/
structure Shrinks (p p' : Pool) : Prop where
  same : Same p p'
  core : ∀ k l, (p'.knote k l).used → (p'.knote k l).core = (p.knote k l).core

theorem Keeps.shrinks (keeps : Keeps m p p') : Shrinks p p' :=
  ⟨keeps.same, fun k l _ => keeps.core k l⟩

theorem Shrinks.refl : Shrinks p p := ⟨fun _ => ⟨rfl, rfl⟩, fun _ _ _ => rfl⟩

theorem Shrinks.trans (first : Shrinks p p') (second : Shrinks p' p'') : Shrinks p p'' := by
  refine ⟨first.same.trans second.same, fun k l used => ?_⟩
  have same := second.core k l used
  exact same.trans (first.core k l ((Knote.used_of_core same).symm.trans used))

theorem Only.shrinks (only : Only i j p p')
    (own : (p'.knote i j).used → (p'.knote i j).core = (p.knote i j).core) : Shrinks p p' := by
  refine ⟨only.same, fun k l used => ?_⟩
  by_cases same : (k, l) = (i, j)
  · cases same
    exact own used
  · exact only.core k l same

/-- A turn of `collect_events` ends, keeps the lists and registers nothing. An event is of the
knote; without one, the knote has left the ready list, and the others are as the callback left
them. -/
theorem WellFormed.collectTurn (good : p.WellFormed) (live : p.live i) (here : j < maxKnotes)
    (used : (p.knote i j).used) (o o' : Outcome) :
    ∃ r, p.collectTurn i j o o' = some r ∧ r.1.WellFormed ∧ Shrinks p r.1 ∧
      (∀ e, r.2 = some e → e.ident = (p.knote i j).ident ∧ e.filter = (p.knote i j).filter) ∧
      (r.2 = none → (∀ k, (r.1.knote i k).core = (p.knote i k).core) ∧ (r.1.knote i j).pending = false ∧
        ∀ k, k ≠ j → (r.1.knote i k).pending = ((p.event i j o).1.knote i k).pending) := by
  have keeps : Keeps ⟨none, none, none⟩ p (p.event i j o).1 := .event
  rw [Pool.collectTurn]
  generalize p.event i j o = r at keeps
  obtain ⟨p₁, result⟩ := r
  have good₁ : p₁.WellFormed := keeps.good good
  have live₁ : p₁.live i := keeps.live.trans live
  have used₁ := (Knote.used_of_core (keeps.core i j)).trans used
  have told : (p₁.knote i j).report.ident = (p.knote i j).ident ∧
      (p₁.knote i j).report.filter = (p.knote i j).filter :=
    ⟨congrArg (·.2.1) (keeps.core i j), congrArg (·.2.2) (keeps.core i j)⟩
  dsimp only
  split
  · obtain ⟨p', is, good', idle, same, alike, others⟩ := good₁.removed live₁ nofun here used₁ nofun
    have core : ∀ k l, (p'.knote k l).core = (p.knote k l).core :=
      fun k l => (alike k l).core.trans (keeps.core k l)
    exact ⟨(p', none), by rw [is]; rfl, good', ⟨keeps.same.trans same, fun k l _ => core k l⟩,
      nofun, fun _ => ⟨core i, idle, others⟩⟩
  · split
    · obtain ⟨p', is, good', only⟩ := good₁.delete live₁ here used₁ (o := o')
      refine ⟨_, by rw [is]; rfl, good', keeps.shrinks.trans (only.shrinks fun used => ?_),
        fun e same => by cases same; exact told, fun no => by cases no⟩
      rw [setKnote_self] at used
      cases used
    · obtain ⟨p', is, good', only, core, -⟩ := good₁.edit_removed live₁ here used₁ (c := (p₁.knote i j).delivered)
        delivered_same.1 delivered_same.2.1 delivered_same.2.2
      have keeps' : Keeps ⟨none, none, none⟩ p' (if result > 1 ∧ (p₁.knote i j).flags &&& evDispatch = 0 then
          p'.knoteReadyLocked i j else p') := by
        split
        · exact .readied here
        · exact .refl
      exact ⟨_, by rw [is]; rfl, keeps'.good good', (keeps.shrinks.trans (only.shrinks fun _ => core)).trans keeps'.shrinks,
        fun e same => by cases same; exact told, fun no => by cases no⟩

theorem WellFormed.head (good : p.WellFormed) (live : p.live i) (is : (p.kq i).readyHead = some j) :
    j < maxKnotes ∧ (p.knote i j).used ∧ (p.knote i j).pending := by
  obtain ⟨l, linked, -⟩ := good.ready i live nofun
  have mem : j ∈ l := mem_of_head? (linked.chain.head_eq.symm.trans is)
  exact (linked.mem j).mp mem

/-- Only knotes whose registration is in `P` become ready. -/
def Rises (P : Bool × UInt64 × Int16 → Prop) (p p' : Pool) : Prop :=
  ∀ i k, (p'.knote i k).core = (p.knote i k).core ∧
    ((p'.knote i k).pending → (p.knote i k).pending ∨ P (p.knote i k).core)

theorem Rises.refl : Rises P p p := fun _ _ => ⟨rfl, .inl⟩

theorem Rises.trans (first : Rises P p p') (second : Rises P p' p'') : Rises P p p'' := by
  intro i k
  refine ⟨(second i k).1.trans (first i k).1, fun pending => ?_⟩
  rcases (second i k).2 pending with old | may
  · exact (first i k).2 old
  · exact .inr ((first i k).1 ▸ may)

theorem Rises.stored (stored : Knote.Stored (p.knote i j) c) : Rises P p (p.setKnote i j c) := by
  intro i' k
  by_cases own : (i', k) = (i, j)
  · cases own
    rw [setKnote_self, stored.core, stored.pending]
    exact ⟨rfl, .inl⟩
  · rw [setKnote_of_ne own]
    exact ⟨rfl, .inl⟩

theorem Rises.readied (may : (p.knote i j).used → P (p.knote i j).core) :
    Rises P p (p.knoteReadyLocked i j) := by
  rw [knoteReadyLocked]
  split
  · next fine =>
    have used : (p.knote i j).used := (Bool.and_eq_true_iff.mp (Bool.and_eq_true_iff.mp fine).1).1
    intro i' k
    by_cases own : i' = i
    · subst own
      rw [knote, set_self]
      refine ⟨(Kqueue.add_alike j k).core, fun pending => ?_⟩
      by_cases same : k = j
      · subst same
        exact .inr (may used)
      left
      rw [knoteAddToReady] at pending
      split at pending
      · exact pending
      · dsimp only at pending
        split at pending <;> exact pending
    · rw [knote, set_of_ne own]
      exact ⟨rfl, .inl⟩
  · exact .refl

theorem Rises.notices (may : ∀ n ∈ l, P (true, n.ident, n.filter)) : Rises P p (p.notices l) := by
  refine foldlRecOn (motive := Rises P p) _ _ .refl fun p₁ first n mem => ?_
  refine foldlRecOn (motive := Rises P p) _ _ first fun p₁ first i _ => ?_
  refine foldlRecOn (motive := Rises P p) _ _ first fun p₁ first j _ => first.trans ?_
  rw [notifyOne]
  split
  · next fits =>
    simp only [Bool.and_eq_true, decide_eq_true_eq] at fits
    split
    · exact .refl
    · next c found =>
      have stored := noticed_stored found
      refine (Rises.stored stored).trans (.readied fun _ => ?_)
      rw [setKnote_self, stored.core, Knote.core, fits.1.1.2, fits.1.2, fits.2]
      exact may n mem
  · exact .refl

/-- What the callback `event` of a knote can make ready. -/
def pollable (c c' : Bool × UInt64 × Int16) : Prop :=
  c.2.2 = evfiltRead ∧ c.2.1.toUInt32 = 0 ∧ c'.1 ∧ (c'.2.2 = evfiltRead → c'.2.1 = 0)

theorem Rises.event : Rises (pollable (p.knote i j).core) p (p.event i j o).1 := by
  rw [Pool.event]
  split
  · exact .stored event_stored
  refine (Rises.notices fun n mem => ?_).trans (.stored store_stored)
  rw [pollNotices] at mem
  split at mem
  · next polled =>
    have poll := Bool.and_eq_true_iff.mp polled
    obtain ⟨-, fine⟩ := mem_filter.mp mem
    refine ⟨of_decide_eq_true poll.1, of_decide_eq_true poll.2, rfl, fun read => ?_⟩
    simpa [show n.filter = evfiltRead from read] using fine
  · cases mem

/-- How often a ready knote can put off the end of `collect_events`: a reader of descriptor 0 can
make all knotes ready that are not such readers, one of another identifier with its low half 0 all
but those of its own kind. -/
def weight (c : Knote) : Nat :=
  if !c.pending then 0
  else if c.filter = evfiltRead ∧ c.ident.toUInt32 = 0 then if c.ident = 0 then 65 else 65 * 65
  else 1

theorem weight_pos (pending : c.pending) : 0 < weight c := by
  rw [weight, pending]
  split
  · contradiction
  · split
    · split <;> decide
    · decide

theorem weight_le (core : c'.core = c.core) (pending : d.pending) (used : d.used)
    (rises : c'.pending → c.pending ∨ pollable d.core c.core) (apart : c.core ≠ d.core) :
    65 * weight c' ≤ 65 * weight c + weight d := by
  have ident : c'.ident = c.ident := congrArg (·.2.1) core
  have filter : c'.filter = c.filter := congrArg (·.2.2) core
  cases after : c'.pending with
  | false => simp [weight, after]
  | true =>
    rcases rises after with before | ⟨read, low, uses, only⟩
    · have same : weight c' = weight c := by rw [weight, weight, after, before, ident, filter]
      omega
    have read : d.filter = evfiltRead := read
    have low : d.ident.toUInt32 = 0 := low
    have only : c.filter = evfiltRead → c.ident = 0 := only
    have heavy : weight d = if d.ident = 0 then 65 else 65 * 65 := by
      simp [weight, pending, read, low]
    have light : weight c' = if c.filter = evfiltRead ∧ c.ident.toUInt32 = 0 then 65 else 1 := by
      simp only [weight, after, ident, filter, Bool.not_true, Bool.false_eq_true, if_false]
      split
      · next is => rw [if_pos (only is.1)]
      · rfl
    rw [heavy, light]
    split
    · next is =>
      have other : d.ident ≠ 0 := by
        intro zero
        refine apart ?_
        rw [Knote.core, Knote.core, show c.used = true from uses, show d.used = true from used,
          only is.1, zero, is.1, read]
      rw [if_neg other]
      omega
    · split <;> omega

/-- What the ready knotes of a queue weigh. -/
def load (p : Pool) (i : Nat) : Nat := ∑ k ∈ Finset.range maxKnotes, weight (p.knote i k)

theorem load_lt (here : j < maxKnotes) (heavy : 0 < weight (p.knote i j))
    (gone : weight (p'.knote i j) = 0) (others : ∀ k, k < maxKnotes → k ≠ j →
      65 * weight (p'.knote i k) ≤ 65 * weight (p.knote i k) + weight (p.knote i j)) :
      p'.load i < p.load i := by
  have mem : j ∈ Finset.range maxKnotes := Finset.mem_range.mpr here
  have sum : 65 * ∑ k ∈ (Finset.range maxKnotes).erase j, weight (p'.knote i k) ≤
      65 * (∑ k ∈ (Finset.range maxKnotes).erase j, weight (p.knote i k)) + 63 * weight
      (p.knote i j) := by
    rw [Finset.mul_sum, Finset.mul_sum]
    calc ∑ k ∈ (Finset.range maxKnotes).erase j, 65 * weight (p'.knote i k)
        ≤ ∑ k ∈ (Finset.range maxKnotes).erase j, (65 * weight (p.knote i k) + weight (p.knote i j)) := by
          refine Finset.sum_le_sum fun k mem => ?_
          obtain ⟨other, low⟩ := Finset.mem_erase.mp mem
          exact others k (Finset.mem_range.mp low) other
      _ = _ := by
          rw [Finset.sum_add_distrib, Finset.sum_const, Finset.card_erase_of_mem mem]
          rfl
  rw [load, load, ← Finset.add_sum_erase _ _ mem, ← Finset.add_sum_erase _ _ mem]
  omega

theorem WellFormed.collect_ends (room : Nat) (good : p.WellFormed) (live : p.live i)
    (world : Nat → Outcome × Outcome) (events : List Kevent) :
    ∃ n r, collectEvents i n p room world events = some r := by
  -- the room shrinks with each event, and without one the load does
  induction room generalizing p world events with
  | zero => exact ⟨1, _, rfl⟩
  | succ room rooms =>
    induction weighs : p.load i using Nat.strong_induction_on generalizing p world with
    | _ n loads =>
      cases head : (p.kq i).readyHead with
      | none => exact ⟨1, (p, events), by rw [collectEvents, head]⟩
      | some j =>
        obtain ⟨here, used, pending⟩ := good.head live head
        obtain ⟨⟨p', event⟩, is, good', shrinks, -, idle⟩ := good.collectTurn live here used (world 0).1 (world 0).2
        have live' : p'.live i := shrinks.same.live.trans live
        cases event with
        | some event =>
          obtain ⟨turns, r, rest⟩ := rooms good' live' (fun k => world (k + 1)) (events ++ [event])
          exact ⟨turns + 1, r, by rw [collectEvents, head]; simp only [is]; exact rest⟩
        | none =>
          obtain ⟨core, gone, others⟩ := idle rfl
          have lighter : p'.load i < p.load i := by
            refine load_lt here (weight_pos pending) (by rw [weight, gone]; rfl) fun k low other => ?_
            refine weight_le (core k) pending used (fun after => ?_) fun same => other ?_
            · exact (Rises.event i k).2 ((others k other).symm.trans after)
            · exact good.unique i j k live here low used same
          obtain ⟨turns, r, rest⟩ := loads _ (weighs ▸ lighter) good' live' (fun k => world (k + 1)) rfl
          exact ⟨turns + 1, r, by rw [collectEvents, head]; simp only [is]; exact rest⟩

/-- The queue has a knote of the event. -/
def Lists (p : Pool) (i : Nat) (e : Kevent) : Prop :=
  ∃ j, j < maxKnotes ∧ (p.knote i j).used ∧ (p.knote i j).ident = e.ident ∧
    (p.knote i j).filter = e.filter

theorem Lists.of_shrinks (shrinks : Shrinks p p') (lists : p'.Lists i e) : p.Lists i e := by
  obtain ⟨j, here, used, ident, filter⟩ := lists
  have same := shrinks.core i j used
  exact ⟨j, here, (Knote.used_of_core same).symm.trans used,
    (congrArg (·.2.1) same).symm.trans ident, (congrArg (·.2.2) same).symm.trans filter⟩

theorem WellFormed.collectEvents {events : List Kevent} (good : p.WellFormed) (live : p.live i)
    (is : Pool.collectEvents i n p room world events = some r) :
    r.1.WellFormed ∧ Shrinks p r.1 ∧ ∀ e ∈ r.2, e ∈ events ∨ p.Lists i e := by
  induction n generalizing p room world events with
  | zero => cases is
  | succ n ih =>
    cases room with
    | zero =>
      cases is
      exact ⟨good, .refl, fun _ => .inl⟩
    | succ room =>
      rw [Pool.collectEvents] at is
      cases head : (p.kq i).readyHead with
      | none =>
        rw [head] at is
        cases is
        exact ⟨good, .refl, fun _ => .inl⟩
      | some j =>
        obtain ⟨here, used, -⟩ := good.head live head
        obtain ⟨⟨p', event⟩, turn, good', shrinks, told, -⟩ := good.collectTurn live here used (world 0).1 (world 0).2
        rw [head] at is
        simp only [turn] at is
        cases event with
        | none =>
          obtain ⟨last, shrinks', from_⟩ := ih good' (shrinks.same.live.trans live) is
          exact ⟨last, shrinks.trans shrinks', fun e mem => (from_ e mem).imp_right (.of_shrinks shrinks)⟩
        | some event =>
          obtain ⟨last, shrinks', from_⟩ := ih good' (shrinks.same.live.trans live) is
          refine ⟨last, shrinks.trans shrinks', fun e mem => ?_⟩
          rcases from_ e mem with old | new
          · rcases mem_append.mp old with old | own
            · exact .inl old
            · rw [mem_singleton.mp own]
              exact .inr ⟨j, here, used, (told event rfl).1.symm, (told event rfl).2.symm⟩
          · exact .inr (.of_shrinks shrinks new)

theorem Good.replace (good : Good ⟨none, none, m.dying⟩ p)
    (dying : m.dying = none ∨ m.dying = some i)
    (unused : ∀ j, j < maxKnotes → (p.knote i j).used = false) :
    (p.set i { Kqueue.zero with used, owner }).WellFormed := by
  have zero : ∀ j, (p.set i { Kqueue.zero with used, owner }).knote i j = .zero :=
    fun j => by rw [knote, set_self]; rfl
  have other : ∀ {k j}, k ≠ i → (p.set i { Kqueue.zero with used, owner }).knote k j =
      p.knote k j :=
    fun own => by rw [knote, set_of_ne own]; rfl
  refine ⟨fun k live _ => ?_, fun k a b live low high uses same => ?_, fun k j off => ?_,
    good.nodup, fun x => ?_⟩
  · by_cases own : k = i
    · subst own
      rw [set_self]
      exact ⟨[], ⟨rfl, rfl, rfl, fun j => ⟨by simp, fun is => by cases is.2.1⟩⟩, by simp⟩
    · rw [Pool.live, set_of_ne own] at live
      obtain ⟨l, _, fine⟩ := good.ready k live (by rcases dying with no | no <;> rw [no] <;> grind)
      refine ⟨l, by rwa [set_of_ne own], fun j mem fresh => ?_⟩
      rw [other own]
      exact fine j mem fresh
  · by_cases own : k = i
    · subst own
      rw [zero] at uses
      cases uses
    · rw [Pool.live, set_of_ne own] at live
      rw [other own] at uses
      rw [other own, other own] at same
      exact good.unique k a b live low high uses same
  · by_cases own : k = i
    · subst own
      rw [zero]
      rfl
    · rw [set_of_ne own] at off
      rw [other own]
      exact good.idle k j off
  · refine (good.timers x).trans (and_congr_right fun _ => ?_)
    by_cases own : x.1 = i
    · constructor
      · rintro ⟨-, low, uses, -⟩
        rw [own, unused _ low] at uses
        cases uses
      · rintro ⟨-, -, uses, -⟩
        rw [own, zero] at uses
        cases uses
    · rw [IsTimer, IsTimer, other own]

theorem WellFormed.create (good : p.WellFormed) : (p.create owner attached).WellFormed := by
  rw [Pool.create]
  split
  · exact good
  · next i found =>
    have unused : (p.kq i).used = false := by simpa using find?_some found
    exact Good.replace (m := ⟨none, none, none⟩) good (.inl rfl) fun j _ => good.idle i j unused

theorem Good.destroyed (good : Good ⟨none, none, some i⟩ p) (live : p.live i)
    (world : Nat → Outcome) (n : Nat) :
      Good ⟨none, none, some i⟩ ((range n).foldl (destroyTurn i world) p) ∧
      ((range n).foldl (destroyTurn i world) p).live i ∧
      Shrinks p ((range n).foldl (destroyTurn i world) p) ∧
      ∀ j, j < n → (((range n).foldl (destroyTurn i world) p).knote i j).used = false := by
  induction n with
  | zero => exact ⟨good, live, .refl, nofun⟩
  | succ n ih =>
    rw [range_succ, foldl_append, foldl_cons, foldl_nil]
    obtain ⟨good, live, shrinks, unused⟩ := ih
    rw [destroyTurn]
    split
    · obtain ⟨off, same, core⟩ := good.detached (m := ⟨none, none, some i⟩) (i := i) (j := n) (o := world n)
      have live' := (same.live (i := i)).trans live
      refine ⟨off.zero (m := ⟨none, none, some i⟩) live' (.inr rfl), ?_, shrinks.trans (.trans ⟨same, fun k l _ => core k l⟩
        (Only.setKnote.shrinks fun used => ?_)), fun j low => ?_⟩
      · exact Same.setKnote.live.trans live'
      · rw [setKnote_self] at used
        cases used
      · by_cases own : j = n
        · subst own
          rw [setKnote_self]
          rfl
        · rw [setKnote_of_ne fun eq => own (congrArg Prod.snd eq), Knote.used_of_core (core i j)]
          exact unused j (by omega)
    · next gone =>
      refine ⟨good, live, shrinks, fun j low => ?_⟩
      by_cases own : j = n
      · subst own
        simpa using gone
      · exact unused j (by omega)

theorem WellFormed.dying (good : p.WellFormed) : Good ⟨none, none, some i⟩ p :=
  ⟨fun k here _ => good.ready k here nofun, good.unique, good.idle, good.nodup, good.timers⟩

theorem WellFormed.destroy (good : p.WellFormed) (live : p.live i) :
    (p.destroy i world).WellFormed := by
  obtain ⟨good', -, -, unused⟩ := good.dying.destroyed live world maxKnotes
  exact Good.replace (m := ⟨none, none, some i⟩) good' (.inr rfl) unused

theorem Keeps.detachProc : Keeps m p (Pool.detachProc pid world i p j) := by
  rw [Pool.detachProc]
  split
  · next is =>
    simp only [Bool.and_eq_true, decide_eq_true_eq] at is
    exact .detach (by rw [is.1.2]; decide)
  · exact .refl

theorem WellFormed.step (good : p.WellFormed) (is : p.step a = some p') : p'.WellFormed := by
  cases a with
  | create owner attached =>
    cases is
    exact good.create
  | destroy i world =>
    obtain ⟨live, rfl⟩ := by simpa [Pool.step] using is
    exact good.destroy live
  | change i kev o o' =>
    rw [Pool.step] at is
    split at is
    · next live =>
      obtain ⟨r, done, good', -⟩ := good.processChange live kev o o'
      rw [done] at is
      cases is
      exact good'
    · cases is
  | notify n =>
    exact Option.some.inj is ▸ Keeps.notifyAll.good good
  | clock now =>
    cases is
    exact ⟨good.ready, good.unique, good.idle, good.nodup, good.timers⟩
  | tick =>
    cases is
    exact good.timerTick.good good
  | collect i turns room world =>
    rw [Pool.step] at is
    split at is
    · next live =>
      obtain ⟨r, done, rfl⟩ := Option.map_eq_some_iff.mp is
      exact (good.collectEvents live done).1
    · cases is
  | unwatch pid world =>
    exact Option.some.inj is ▸ (Keeps.loop fun _ => .detachProc).good good

variable {clock : Clock}

theorem WellFormed.empty : (Pool.empty clock).WellFormed := by
  refine ⟨fun i live => ?_, fun i j k live => ?_, fun _ _ _ => rfl, .nil,
    fun x => ⟨nofun, fun is => ?_⟩⟩
  · cases (Bool.and_eq_true_iff.mp live).2
  · cases (Bool.and_eq_true_iff.mp live).2
  · cases is.2.2.2.1

/-- In every run each ready list holds exactly the used knotes that are pending, with its tail and
count, all enabled; registrations are unique; the timer list has each timer once; and collecting
ends. -/
theorem event_queues_kept (run : Reaches Pool.step Free (Pool.empty clock) p) : (∀ i, p.live i →
      (∃ l, (p.kq i).Linked l ∧ l.Nodup ∧ ∀ j ∈ l, (p.knote i j).disabled = false) ∧
      (∀ j k, j < maxKnotes → k < maxKnotes → (p.knote i j).used → (p.knote i k).used →
        (p.knote i j).ident = (p.knote i k).ident → (p.knote i j).filter = (p.knote i k).filter → j = k) ∧
      (∀ kev o o', (p.processChange i kev o o').isSome) ∧
      ∀ room world, ∃ turns, (Pool.collectEvents i turns p room world []).isSome) ∧
    p.timers.Nodup ∧ ∀ x, x ∈ p.timers ↔ p.IsTimer x := by
  have good : p.WellFormed := run.invariant (fun good _ is => good.step is) WellFormed.empty
  refine ⟨fun i live => ⟨?_, fun j k low high uses uses' ident filter => ?_, fun kev o o' => ?_,
    fun room world => ?_⟩, good.nodup, fun x => (good.timers x).trans (and_iff_right nofun)⟩
  · obtain ⟨l, linked, fine⟩ := good.ready i live nofun
    exact ⟨l, linked, linked.chain.nodup, fun j mem => fine j mem nofun⟩
  · refine good.unique i k j live high low uses' ?_
    rw [Knote.core, Knote.core, ident, filter, show (p.knote i j).used = true from uses,
      show (p.knote i k).used = true from uses']
  · obtain ⟨r, is, -⟩ := good.processChange live kev o o'
    rw [is]
    rfl
  · obtain ⟨turns, r, is⟩ := good.collect_ends room live world []
    exact ⟨turns, by rw [is]; rfl⟩

/-- What a callback that sees nothing leaves. -/
def quiet : Outcome := ⟨0, 0, 0, 0, 0, 0, [], false, []⟩

/-- A queue with a timer of a millisecond and a user event, and the tick at which the timer
expires. -/
def oneTimer : List Act :=
  [.create (some 1) true, .change 0 ⟨7, evfiltTimer, evAdd, 0, 1, 0, []⟩ quiet quiet,
    .change 0 ⟨8, evfiltUser, evAdd, 0, 0, 0, []⟩ quiet quiet, .clock 1, .tick]

theorem event_queues_kept_timer : ∃ p, Reaches Pool.step Free (Pool.empty ⟨0, 1000⟩) p ∧
    p.timers = [(0, 0)] ∧ (p.kq 0).Linked [0] := by
  have ran : ∃ p, Reaches Pool.step Free (Pool.empty ⟨0, 1000⟩) p ∧
      (p.timers = [(0, 0)] && p.live 0 && (p.kq 0).readyHead = some 0 && (p.kq 0).readyCount = 1) :=
    Reaches.exists_of_exec oneTimer (by decide +kernel)
  obtain ⟨p, run, seen⟩ := ran
  simp only [Bool.and_eq_true, decide_eq_true_eq] at seen
  obtain ⟨⟨⟨timers, live⟩, head⟩, count⟩ := seen
  obtain ⟨l, linked, -⟩ := ((event_queues_kept run).1 0 live).1
  obtain ⟨j, rfl⟩ := length_eq_one_iff.mp (Int.ofNat.inj (linked.count.symm.trans count))
  cases linked.chain.head_eq.symm.trans head
  exact ⟨p, run, timers, linked⟩

end Otsos.Event.Pool
