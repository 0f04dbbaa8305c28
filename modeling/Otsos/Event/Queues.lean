import Mathlib.Data.List.ProdSigma
import Otsos.Event.Ready
import Otsos.Foundation.Transition

/-! The event queues keep their representation: ready lists, unique registrations and the list of
timers. -/
namespace Otsos.Event
open Function (update update_self update_of_ne)
open Transition
open List

/-- What identifies a registration. -/
def Knote.core (c : Knote) : Bool × UInt64 × Int16 := (c.used, c.ident, c.filter)

theorem Knote.Alike.core {c : Knote} (alike : c.Alike c') : c'.core = c.core := by rw [alike]; rfl

theorem Knote.Alike.disabled {c : Knote} (alike : c.Alike c') :
    c'.disabled = c.disabled := by rw [alike]

theorem Knote.used_of_core {c c' : Knote} (same : c'.core = c.core) : c'.used = c.used :=
  congrArg Prod.fst same

namespace Pool

/-- The knote of a timer. -/
def IsTimer (p : Pool) (x : Nat × Nat) : Prop :=
  x.1 < maxKqueues ∧ x.2 < maxKnotes ∧ (p.knote x.1 x.2).used ∧
    (p.knote x.1 x.2).filter = evfiltTimer

/-- What is amiss in the middle of an operation: a knote that is kept off the timer list, one that
is ready though disabled, and a queue whose list is given up. -/
structure Mid where
  (off stale : Option (Nat × Nat))
  dying : Option Nat

structure Good (m : Mid) (p : Pool) : Prop where
  ready : ∀ i, p.live i → m.dying ≠ some i →
    ∃ l, (p.kq i).Linked l ∧ ∀ j ∈ l, m.stale ≠ some (i, j) → (p.knote i j).disabled = false
  unique : ∀ i j k, p.live i → j < maxKnotes → k < maxKnotes → (p.knote i j).used →
    (p.knote i k).core = (p.knote i j).core → k = j
  idle : ∀ i j, (p.kq i).used = false → (p.knote i j).used = false
  nodup : p.timers.Nodup
  timers : ∀ x, x ∈ p.timers ↔ m.off ≠ some x ∧ p.IsTimer x

variable {p : Pool} {m : Mid} {q : Kqueue} {i j : Nat} {c : Knote} {o : Outcome}

theorem set_self : (p.set i q).kq i = q := update_self ..

theorem set_of_ne (other : k ≠ i) : (p.set i q).kq k = p.kq k := update_of_ne other ..

theorem setKnote_self : (p.setKnote i j c).knote i j = c := by
  rw [knote, setKnote, set_self, Kqueue.set_self]

theorem setKnote_of_ne (other : (i', j') ≠ (i, j)) :
    (p.setKnote i j c).knote i' j' = p.knote i' j' := by
  by_cases queue : i' = i
  · subst queue
    rw [knote, setKnote, set_self, Kqueue.set_of_ne fun same => other (by rw [same])]
    rfl
  · rw [knote, setKnote, set_of_ne queue]
    rfl

/-- The queues are in use as before, by the same owners. -/
def Same (p p' : Pool) : Prop :=
  ∀ k, (p'.kq k).used = (p.kq k).used ∧ (p'.kq k).owner = (p.kq k).owner

theorem Same.trans (first : Same p p') (second : Same p' p'') : Same p p'' :=
  fun k => ⟨(second k).1.trans (first k).1, (second k).2.trans (first k).2⟩

theorem Same.live (same : Same p p') :
    p'.live i = p.live i := by rw [Pool.live, (same i).1, Pool.live]

theorem Same.of_set (used : q.used = (p.kq i).used) (owner : q.owner = (p.kq i).owner) :
    Same p (p.set i q) := by
  intro k
  by_cases own : k = i
  · subst own
    rw [set_self]
    exact ⟨used, owner⟩
  · rw [set_of_ne own]
    exact ⟨rfl, rfl⟩

theorem Same.setKnote : Same p (p.setKnote i j c) := .of_set rfl rfl

section
variable (good : Good m p) {m' : Mid} (off : m'.off = m.off)
include good off

theorem Good.keep (same : Same p p')
    (core : ∀ k j, (p'.knote k j).core = (p.knote k j).core) (timers : p'.timers = p.timers)
    (ready : ∀ i, p'.live i → m'.dying ≠ some i →
      ∃ l, (p'.kq i).Linked l ∧ ∀ j ∈ l, m'.stale ≠ some (i, j) → (p'.knote i j).disabled = false) : Good m' p' := by
  have live : ∀ i, p'.live i = p.live i := fun _ => same.live
  have isTimer : ∀ x, p'.IsTimer x ↔ p.IsTimer x := by
    intro x
    have same := core x.1 x.2
    rw [IsTimer, Knote.used_of_core same,
      show (p'.knote x.1 x.2).filter = (p.knote x.1 x.2).filter from congrArg (·.2.2) same, IsTimer]
  refine ⟨ready, ?_, ?_, timers ▸ good.nodup, ?_⟩
  · intro i j k here low high uses same
    rw [core, core] at same
    rw [Knote.used_of_core (core i j)] at uses
    exact good.unique i j k (live i ▸ here) low high uses same
  · intro i j off
    rw [Knote.used_of_core (core i j)]
    exact good.idle i j ((same i).1 ▸ off)
  · intro x
    rw [timers, off, isTimer, good.timers]

theorem Good.set (dying : m'.dying = m.dying) (stale : ∀ j k, k ≠ i → m'.stale ≠ some (k, j) →
    m.stale ≠ some (k, j)) (used : q.used = (p.kq i).used) (owner : q.owner = (p.kq i).owner)
    (core : ∀ j, (q.knote j).core = (p.knote i j).core) (ready : p.live i → m.dying ≠ some i →
      ∃ l, q.Linked l ∧ ∀ j ∈ l, m'.stale ≠ some (i, j) → (q.knote j).disabled = false) : Good m' (p.set i q) := by
  refine good.keep off (.of_set used owner) (fun k j => ?_) rfl fun k here lives => ?_
  · by_cases own : k = i
    · subst own
      rw [knote, set_self, core]
    · rw [knote, set_of_ne own]
      rfl
  · by_cases own : k = i
    · subst own
      simp only [Pool.live, knote, set_self, used] at here ⊢
      exact ready here (dying ▸ lives)
    · simp only [Pool.live, knote, set_of_ne own] at here ⊢
      obtain ⟨l, linked, enabled⟩ := good.ready k here (dying ▸ lives)
      exact ⟨l, linked, fun j mem fine => enabled j mem (stale j k own fine)⟩

theorem Good.edit (dying : m'.dying = m.dying)
    (stale : ∀ x, x ≠ (i, j) → m'.stale ≠ some x → m.stale ≠ some x)
    (core : c.core = (p.knote i j).core) (pending : c.pending = (p.knote i j).pending)
    (next : c.next = (p.knote i j).next) (disabled : m'.stale ≠ some (i, j) → c.disabled →
      m.stale ≠ some (i, j) ∧ (p.knote i j).disabled) :
    Good m' (p.setKnote i j c) := by
  have same : ∀ k, (((p.kq i).set j c).knote k).core = ((p.kq i).knote k).core ∧
      (((p.kq i).set j c).knote k).pending = ((p.kq i).knote k).pending ∧
      (((p.kq i).set j c).knote k).next = ((p.kq i).knote k).next := by
    intro k
    by_cases own : k = j
    · subst own
      rw [Kqueue.set_self]
      exact ⟨core, pending, next⟩
    · rw [Kqueue.set_of_ne own]
      exact ⟨rfl, rfl, rfl⟩
  refine good.set off dying (fun l k other fine => stale _ (fun eq => other (congrArg Prod.fst eq))
    fine) rfl rfl (fun k => (same k).1) fun here lives => ?_
  obtain ⟨l, linked, enabled⟩ := good.ready i here lives
  refine ⟨l, linked.same rfl rfl rfl fun k => ?_, fun k mem fine => ?_⟩
  · rw [Knote.used_of_core (same k).1, (same k).2.1]
    exact ⟨.rfl, fun _ => (same k).2.2⟩
  · by_cases own : k = j
    · subst own
      rw [Kqueue.set_self]
      by_contra set
      obtain ⟨fresh, was⟩ := disabled fine (by simpa using set)
      cases (enabled k mem fresh).symm.trans was
    · rw [Kqueue.set_of_ne own]
      exact enabled k mem (stale _ (fun eq => own (congrArg Prod.snd eq)) fine)

end

/-- An operation that keeps the registrations, and what holds of the queues. -/
structure Keeps (m : Mid) (p p' : Pool) : Prop where
  good : Good m p → Good m p'
  same : Same p p'
  core : ∀ k l, (p'.knote k l).core = (p.knote k l).core

theorem Keeps.refl : Keeps m p p := ⟨id, fun _ => ⟨rfl, rfl⟩, fun _ _ => rfl⟩

theorem Keeps.trans (first : Keeps m p p') (second : Keeps m p' p'') : Keeps m p p'' :=
  ⟨fun good => second.good (first.good good), first.same.trans second.same,
    fun k l => (second.core k l).trans (first.core k l)⟩

theorem Keeps.live (keeps : Keeps m p p') : p'.live i = p.live i := keeps.same.live

theorem Keeps.of_set (good : Good m p → Good m (p.set i q)) (used : q.used = (p.kq i).used)
    (owner : q.owner = (p.kq i).owner) (core : ∀ j, (q.knote j).core = (p.knote i j).core) :
    Keeps m p (p.set i q) := by
  refine ⟨good, .of_set used owner, fun k j => ?_⟩
  by_cases own : k = i
  · subst own
    rw [knote, set_self, core]
  · rw [knote, set_of_ne own]
    rfl

/-- An operation that registers or wipes at most one knote. -/
structure Only (i j : Nat) (p p' : Pool) : Prop where
  same : Same p p'
  core : ∀ k l, (k, l) ≠ (i, j) → (p'.knote k l).core = (p.knote k l).core

theorem Keeps.only (keeps : Keeps m p p') : Only i j p p' :=
  ⟨keeps.same, fun k l _ => keeps.core k l⟩

theorem Only.refl : Only i j p p := ⟨fun _ => ⟨rfl, rfl⟩, fun _ _ _ => rfl⟩

theorem Only.trans (first : Only i j p p') (second : Only i j p' p'') : Only i j p p'' :=
  ⟨first.same.trans second.same, fun k l other => (second.core k l other).trans
    (first.core k l other)⟩

theorem Only.setKnote : Only i j p (p.setKnote i j c) :=
  ⟨.setKnote, fun k l other => by rw [setKnote_of_ne other]⟩

/-- What the filters and notices may do to a knote. -/
structure Knote.Stored (c c' : Knote) : Prop where
  core : c'.core = c.core
  pending : c'.pending = c.pending
  next : c'.next = c.next
  disabled : c'.disabled → c.disabled

theorem Keeps.stored (stored : Knote.Stored (p.knote i j) c) : Keeps m p (p.setKnote i j c) := by
  apply Keeps.of_set
  · intro good
    exact good.edit rfl rfl (fun _ _ fine => fine) stored.core stored.pending stored.next
      fun fine set => ⟨fine, stored.disabled set⟩
  · rfl
  · rfl
  · intro k
    by_cases own : k = j
    · subst own
      rw [Kqueue.set_self, stored.core]
    · rw [Kqueue.set_of_ne own]
      rfl

theorem Keeps.readied (here : j < maxKnotes) : Keeps m p (p.knoteReadyLocked i j) := by
  rw [knoteReadyLocked]
  split
  · next may =>
    obtain ⟨⟨used, enabled⟩, -⟩ := by simpa using may
    have same : (knoteAddToReady (p.kq i) j).used = (p.kq i).used ∧
        (knoteAddToReady (p.kq i) j).owner = (p.kq i).owner := by
      rw [knoteAddToReady]
      split <;> exact ⟨rfl, rfl⟩
    have alike := Kqueue.add_alike (q := p.kq i) j
    refine .of_set (fun good => ?_) same.1 same.2 fun k => (alike k).core
    refine good.set rfl rfl (fun _ _ _ fine => fine) same.1 same.2 (fun k => (alike k).core) fun live lives => ?_
    obtain ⟨l, linked, fine⟩ := good.ready i live lives
    cases pending : ((p.kq i).knote j).pending with
    | true =>
      rw [knoteAddToReady, if_pos pending]
      exact ⟨l, linked, fine⟩
    | false =>
      refine ⟨l ++ [j], linked.add here used pending, fun k mem fresh => ?_⟩
      rw [(alike k).disabled]
      rcases mem_append.mp mem with old | new
      · exact fine k old fresh
      · rw [mem_singleton.mp new]
        exact enabled
  · exact .refl

theorem noticed_stored (is : noticed n c = some c') : Knote.Stored c c' := by
  rw [noticed] at is
  split at is <;> cases is
  exact ⟨rfl, rfl, rfl, id⟩

theorem Keeps.notifyOne (here : j < maxKnotes) : Keeps m p (p.notifyOne n i j) := by
  rw [Pool.notifyOne]
  split
  · split
    · exact .refl
    · next found => exact (Keeps.stored (noticed_stored found)).trans (.readied here)
  · exact .refl

theorem Keeps.loop {f : Nat → Pool → Nat → Pool}
    (keeps : ∀ {p i j}, j < maxKnotes → Keeps m p (f i p j)) :
    Keeps m p ((range maxKqueues).foldl (fun p i => (range maxKnotes).foldl (f i) p) p) := by
  refine foldlRecOn (motive := Keeps m p) _ _ .refl fun p first i _ => ?_
  refine foldlRecOn (motive := Keeps m _) _ _ first fun p first j mem => ?_
  exact first.trans (keeps (mem_range.mp mem))

theorem Keeps.notifyAll : Keeps m p (p.knoteNotifyAll n) := .loop fun here => .notifyOne here

theorem Keeps.notices (l : List Notice) : Keeps m p (p.notices l) :=
  foldlRecOn (motive := Keeps m p) _ _ .refl fun _ first _ _ => first.trans .notifyAll

theorem store_stored : Knote.Stored c (o.store c) := ⟨rfl, rfl, rfl, id⟩

theorem expire_stored {clock : Clock} : Knote.Stored c (c.expire clock) := ⟨rfl, rfl, rfl, id⟩

theorem event_stored {clock : Clock} : Knote.Stored c (filtTimerEvent clock c).1 := by
  rw [filtTimerEvent]
  split
  · exact ⟨rfl, rfl, rfl, id⟩
  · split <;> exact ⟨rfl, rfl, rfl, id⟩

theorem Keeps.event : Keeps m p (p.event i j o).1 := by
  rw [Pool.event]
  split
  · exact .stored event_stored
  · exact (Keeps.notices _).trans (.stored store_stored)

theorem Keeps.poll (here : j < maxKnotes) : Keeps m p (p.poll i j o) := by
  rw [Pool.poll]
  dsimp only
  split
  · exact Keeps.event.trans (.readied here)
  · exact .event

theorem Keeps.touch (here : j < maxKnotes) : Keeps m p (p.touch i j kev o) := by
  rw [Pool.touch]
  split
  · exact .stored ⟨rfl, rfl, rfl, id⟩
  · split
    · exact (Keeps.stored store_stored).trans (.readied here)
    · exact .stored store_stored

theorem Good.timerTick (good : Good m p) : Keeps m p p.timerTick := by
  refine foldlRecOn (motive := Keeps m p) _ _ .refl fun _ first x mem => first.trans ?_
  rw [tickTurn]
  split
  · exact (Keeps.stored expire_stored).trans (.readied ((good.timers x).mp mem).2.2.1)
  · exact .refl

theorem Good.removed (good : Good m p) (live : p.live i) (lives : m.dying ≠ some i)
    (here : j < maxKnotes) (used : (p.knote i j).used)
    (stale : ∀ x, x ≠ (i, j) → m.stale ≠ some x) : ∃ p', p.removeFromReady i j = some p' ∧
      Good ⟨m.off, none, m.dying⟩ p' ∧ (p'.knote i j).pending = false ∧
      Same p p' ∧ (∀ k l, (p.knote k l).Alike (p'.knote k l)) ∧
      ∀ k, k ≠ j → (p'.knote i k).pending = (p.knote i k).pending := by
  obtain ⟨l, linked, enabled⟩ := good.ready i live lives
  obtain ⟨q, is, linked', idle, same, owner, alike, others⟩ := linked.remove here used
  refine ⟨p.set i q, by rw [removeFromReady, is]; rfl, ?_, ?_, .of_set same owner, ?_, ?_⟩
  · refine good.set rfl rfl (fun _ _ other _ => stale _ fun eq => other (congrArg Prod.fst eq)) same
      owner (fun k => (alike k).core) fun _ _ => ⟨_, linked', fun k mem _ => ?_⟩
    obtain ⟨other, old⟩ := (linked.chain.nodup.mem_erase_iff).mp mem
    rw [(alike k).disabled]
    exact enabled k old (stale _ fun eq => other (congrArg Prod.snd eq))
  · rw [knote, set_self]
    exact idle
  · intro k l
    by_cases own : k = i
    · subst own
      rw [knote, knote, set_self]
      exact alike l
    · rw [knote, knote, set_of_ne own]
      rfl
  · intro k other
    rw [knote, set_self]
    exact others k other

theorem Good.off_iff (aside : ¬p.IsTimer x) : Good ⟨some x, m.stale, m.dying⟩ p ↔
    Good ⟨none, m.stale, m.dying⟩ p := by
  have same : ∀ y, (some x ≠ some y ∧ p.IsTimer y ↔ (none : Option (Nat × Nat)) ≠ some y ∧ p.IsTimer y) := by
    intro y
    refine ⟨fun is => ⟨nofun, is.2⟩, fun is => ⟨fun eq => aside (Option.some.inj eq ▸ is.2), is.2⟩⟩
  constructor
  · exact fun good => ⟨good.ready, good.unique, good.idle, good.nodup, fun y => (good.timers y).trans (same y)⟩
  · exact fun good => ⟨good.ready, good.unique, good.idle, good.nodup, fun y => (good.timers y).trans (same y).symm⟩

theorem Good.swap (good : Good m p) (off : m.off = some (i, j)) (live : p.live i)
    (idle : ¬((p.knote i j).used ∧ (p.knote i j).pending) ∨ m.dying = some i)
    (idle' : c.pending = false) (unique : c.used → ∀ k, k < maxKnotes → k ≠ j →
      (p.knote i k).core ≠ c.core) : Good m (p.setKnote i j c) := by
  have lives : ∀ k, (p.setKnote i j c).live k = p.live k := fun _ => Same.setKnote.live
  have other : ∀ {k l}, (k, l) ≠ (i, j) → (p.setKnote i j c).knote k l = p.knote k l :=
    setKnote_of_ne
  refine ⟨?_, ?_, ?_, good.nodup, ?_⟩
  · intro k here alive
    rw [lives] at here
    obtain ⟨l, linked, enabled⟩ := good.ready k here alive
    by_cases own : k = i
    · subst own
      have gone : ¬((p.knote k j).used ∧ (p.knote k j).pending) := idle.resolve_right fun dies => alive dies
      have fresh : j ∉ l := fun mem => gone ((linked.mem j).mp mem).2
      rw [setKnote, set_self]
      refine ⟨l, linked.same rfl rfl rfl fun a => ?_, fun a mem fine => ?_⟩
      · by_cases same : a = j
        · subst same
          rw [Kqueue.set_self, idle']
          exact ⟨⟨fun is => (nomatch is.2), fun is => absurd is gone⟩, fun mem => absurd mem fresh⟩
        · rw [Kqueue.set_of_ne same]
          exact ⟨.rfl, fun _ => rfl⟩
      · have apart : a ≠ j := fun same => fresh (same ▸ mem)
        have kept : (p.setKnote k j c).knote k a = p.knote k a := other fun eq => apart (congrArg Prod.snd eq)
        exact (congrArg Knote.disabled kept).trans (enabled a mem fine)
    · rw [setKnote, set_of_ne own]
      refine ⟨l, linked, fun a mem fine => ?_⟩
      have kept : (p.setKnote i j c).knote k a = p.knote k a := other fun eq => own (congrArg Prod.fst eq)
      exact (congrArg Knote.disabled kept).trans (enabled a mem fine)
  · intro k a b here low high uses same
    rw [lives] at here
    by_cases first : (k, a) = (i, j)
    · by_cases second : (k, b) = (i, j)
      · exact (congrArg Prod.snd second).trans (congrArg Prod.snd first).symm
      · cases first
        rw [other second, setKnote_self] at same
        rw [setKnote_self] at uses
        exact absurd same (unique uses b high fun eq => second (by rw [eq]))
    · rw [other first] at uses same
      by_cases second : (k, b) = (i, j)
      · cases second
        rw [setKnote_self] at same
        have uses' : c.used := (Knote.used_of_core same).trans uses
        exact absurd same.symm (unique uses' a low fun eq => first (by rw [eq]))
      · rw [other second] at same
        exact good.unique k a b here low high uses same
  · intro k a idle
    rw [(Same.setKnote k).1] at idle
    by_cases own : (k, a) = (i, j)
    · cases own
      cases idle.symm.trans (by simpa using (Bool.and_eq_true_iff.mp live).2)
    · rw [other own]
      exact good.idle k a idle
  · intro x
    rw [show (p.setKnote i j c).timers = p.timers from rfl, good.timers]
    refine and_congr_right fun apart => ?_
    have kept : (p.setKnote i j c).knote x.1 x.2 = p.knote x.1 x.2 := other fun eq => apart (by rw [off, ← eq])
    rw [IsTimer, IsTimer, kept]

theorem Good.zero (good : Good ⟨some (i, j), none, m.dying⟩ p) (live : p.live i)
    (idle : (p.knote i j).pending = false ∨ m.dying = some i) :
    Good ⟨none, none, m.dying⟩ (p.setKnote i j .zero) := by
  have swapped :=
    good.swap (c := .zero) rfl live (idle.imp_left fun idle is => by cases idle.symm.trans is.2) rfl nofun
  refine (off_iff (m := ⟨none, none, m.dying⟩) ?_).mp swapped
  rintro ⟨-, -, used, -⟩
  rw [setKnote_self] at used
  cases used

theorem Keeps.detach (other : (p.knote i j).filter ≠ evfiltTimer) : Keeps m p (p.detach i j o) := by
  rw [Pool.detach, if_neg other]
  split
  · exact (Keeps.stored (c := { p.knote i j with fpriv := 0 }) ⟨rfl, rfl, rfl, id⟩).trans (.notices _)
  · exact .refl

theorem Good.detached (good : Good ⟨none, m.stale, m.dying⟩ p) :
    Good ⟨some (i, j), m.stale, m.dying⟩ (p.detach i j o) ∧ Same p (p.detach i j o) ∧
      ∀ k l, ((p.detach i j o).knote k l).core = (p.knote k l).core := by
  by_cases timer : (p.knote i j).filter = evfiltTimer
  · have is : p.detach i j o = { p with timers := dropTimer p.timers (i, j) } := by rw [Pool.detach, if_pos timer]
    have perm := dropTimer_perm p.timers (i, j)
    rw [is]
    refine ⟨⟨good.ready, good.unique, good.idle, perm.nodup_iff.mpr (good.nodup.erase _),
      fun x => ?_⟩, fun _ => ⟨rfl, rfl⟩, fun _ _ => rfl⟩
    rw [perm.mem_iff, good.nodup.mem_erase_iff, good.timers]
    exact ⟨fun is => ⟨fun same => is.1 (Option.some.inj same).symm, is.2.2⟩,
      fun is => ⟨fun same => is.1 (congrArg some same.symm), nofun, is.2⟩⟩
  · have keeps : Keeps ⟨none, m.stale, m.dying⟩ p (p.detach i j o) := .detach timer
    refine ⟨(off_iff (m := m) fun is => timer ?_).mpr (keeps.good good), keeps.same, keeps.core⟩
    exact (congrArg (·.2.2) (keeps.core i j)).symm.trans is.2.2.2

/-- The lists are as they should be. -/
abbrev WellFormed (p : Pool) : Prop := Good ⟨none, none, none⟩ p

section
variable (good : p.WellFormed) (live : p.live i) (here : j < maxKnotes) (used : (p.knote i j).used)
include good live here used

theorem WellFormed.delete : ∃ p', (p.detach i j o).removeFromReady i j = some p' ∧
      (p'.setKnote i j .zero).WellFormed ∧ Only i j p (p'.setKnote i j .zero) := by
  obtain ⟨detached, same, core⟩ :=
    good.detached (m := ⟨none, none, none⟩) (i := i) (j := j) (o := o)
  have live' : (p.detach i j o).live i := same.live.trans live
  obtain ⟨p', is, good', idle, same', alike, -⟩ := detached.removed live' nofun here
    ((Knote.used_of_core (core i j)).trans used) nofun
  have kept : Only i j p p' := ⟨same.trans same', fun k l _ => (alike k l).core.trans (core k l)⟩
  exact ⟨p', is, good'.zero (m := ⟨none, none, none⟩) (same'.live.trans live') (.inl idle),
    kept.trans .setKnote⟩

theorem WellFormed.edit_removed (core : c.core = (p.knote i j).core)
    (pending : c.pending = (p.knote i j).pending) (next : c.next = (p.knote i j).next) :
    ∃ p', (p.setKnote i j c).removeFromReady i j = some p' ∧ p'.WellFormed ∧ Only i j p p' ∧
      (p'.knote i j).core = (p.knote i j).core ∧ (p'.knote i j).disabled = c.disabled := by
  have edited : Good ⟨none, some (i, j), none⟩ (p.setKnote i j c) :=
    good.edit rfl rfl nofun core pending next fun fine => absurd rfl fine
  have live' : (p.setKnote i j c).live i := Same.setKnote.live.trans live
  obtain ⟨p', is, good', -, same, alike, -⟩ := edited.removed live' nofun here
    (by rw [setKnote_self]; exact (Knote.used_of_core core).trans used) fun x other same =>
    other (Option.some.inj same).symm
  refine ⟨p', is, good', ⟨Same.setKnote.trans same, fun k l other => ?_⟩, ?_, ?_⟩
  · rw [(alike k l).core, setKnote_of_ne other]
  · rw [(alike i j).core, setKnote_self, core]
  · rw [(alike i j).disabled, setKnote_self]

theorem WellFormed.disable : ∃ p', p.disable i j = some p' ∧ p'.WellFormed ∧ Only i j p p' ∧
    (p'.knote i j).disabled := by
  obtain ⟨p', is, good', only, -, set⟩ :=
    good.edit_removed live here used (c := { p.knote i j with disabled := true }) rfl rfl rfl
  exact ⟨p', is, good', only, set⟩

end

theorem Good.length_lt (good : Good m p) (here : i < maxKqueues) (low : j < maxKnotes)
    (off : m.off = some (i, j)) : p.timers.length < maxKqueues * maxKnotes := by
  have fresh : (i, j) ∉ p.timers := fun mem => ((good.timers _).mp mem).1 off
  have sub : (i, j) :: p.timers ⊆ range maxKqueues ×ˢ range maxKnotes := by
    intro x mem
    refine mem_product.mpr ?_
    rcases mem_cons.mp mem with rfl | old
    · exact ⟨mem_range.mpr here, mem_range.mpr low⟩
    · have is := ((good.timers x).mp old).2
      exact ⟨mem_range.mpr is.1, mem_range.mpr is.2.1⟩
  have short := (subperm_of_subset (nodup_cons.mpr ⟨fresh, good.nodup⟩) sub).length_le
  rw [length_product, length_range] at short
  exact short

theorem WellFormed.filled (good : p.WellFormed) (live : p.live i)
    (missed : p.find i kev.ident kev.filter = none) (found : p.alloc i = some j) :
    j < maxKnotes ∧ Good ⟨some (i, j), none, none⟩ (p.setKnote i j (fresh kev)) := by
  have unused : (p.knote i j).used = false := by simpa using find?_some found
  refine ⟨mem_range.mp (mem_of_find?_eq_some found), ?_⟩
  refine ((Good.off_iff (m := ⟨none, none, none⟩) ?_).mpr good).swap rfl live (.inl ?_) rfl ?_
  · rintro ⟨-, -, used, -⟩
    cases unused.symm.trans used
  · rintro ⟨used, -⟩
    cases unused.symm.trans used
  · intro _ k high _ same
    have differs := find?_eq_none.mp missed k (mem_range.mpr high)
    have used := Knote.used_of_core same
    have ident : (p.knote i k).ident = kev.ident := congrArg (·.2.1) same
    have filter : (p.knote i k).filter = kev.filter := congrArg (·.2.2) same
    simp [used, ident, filter, fresh] at differs

/-- Whatever the callback `attach` does, the knote is then listed, or no timer, or to be wiped. -/
theorem Good.attached (filled : Good ⟨some (i, j), none, none⟩ p) (live : p.live i)
    (low : j < maxKnotes) (used : (p.knote i j).used) (idle : (p.knote i j).pending = false)
    (o : Outcome) : ∃ p' ret, p.attach i j o = (p', ret) ∧ Same p p' ∧
      (∀ k l, (p'.knote k l).core = (p.knote k l).core) ∧
      (ret = 0 → p'.WellFormed) ∧ (ret ≠ 0 → (p'.setKnote i j .zero).WellFormed) := by
  rw [attach]
  dsimp only
  split
  · next timer =>
    have stored : Keeps ⟨some (i, j), none, none⟩ p (p.setKnote i j (filtTimerAttach p.clock (p.knote i j))) := by
      apply Keeps.stored
      rw [filtTimerAttach]
      split <;> exact ⟨rfl, rfl, rfl, id⟩
    have good := stored.good filled
    have is : IsTimer (p.setKnote i j (filtTimerAttach p.clock (p.knote i j))) (i, j) := by
      refine ⟨(Bool.and_eq_true_iff.mp live).1 |> of_decide_eq_true, low,
        (Knote.used_of_core (stored.core i j)).trans used, ?_⟩
      exact (congrArg (·.2.2) (stored.core i j)).trans timer
    rw [if_pos (good.length_lt is.1 is.2.1 rfl)]
    refine ⟨_, 0, rfl, stored.same, stored.core, fun _ => ?_, fun no => absurd rfl no⟩
    refine ⟨good.ready, good.unique, good.idle, ?_, fun x => ?_⟩
    · refine nodup_append.mpr ⟨good.nodup, pairwise_singleton .., ?_⟩
      rintro x mem y one rfl
      rw [mem_singleton.mp one] at mem
      exact ((good.timers _).mp mem).1 rfl
    · rw [mem_append, mem_singleton, good.timers]
      constructor
      · rintro (⟨-, old⟩ | rfl)
        · exact ⟨nofun, old⟩
        · exact ⟨nofun, is⟩
      · rintro ⟨-, old⟩
        by_cases same : x = (i, j)
        · exact .inr same
        · exact .inl ⟨fun eq => same (Option.some.inj eq).symm, old⟩
  · next other =>
    split
    · next failed =>
      refine ⟨_, _, rfl, fun _ => ⟨rfl, rfl⟩, fun _ _ => rfl, fun none_ => absurd none_ failed, fun _ => ?_⟩
      exact filled.zero (m := ⟨none, none, none⟩) live (.inl idle)
    have good : p.WellFormed := (Good.off_iff (m := ⟨none, none, none⟩) fun is => other is.2.2.2).mp filled
    have noted : Keeps ⟨none, none, none⟩ p (if (p.knote i j).filter = evfiltProc then
        p.notices (o.notices.filter (·.filter = evfiltEntity)) else p) := by
      split
      · exact .notices _
      · exact .refl
    generalize (if (p.knote i j).filter = evfiltProc then
        p.notices (o.notices.filter (·.filter = evfiltEntity)) else p) = p₁ at noted
    have stored := noted.trans (Keeps.stored (i := i) (j := j) (store_stored (o := o)))
    have all : Keeps ⟨none, none, none⟩ p (if (p.knote i j).filter = evfiltProc ∧ o.ready then
        (p₁.setKnote i j (o.store (p₁.knote i j))).knoteReadyLocked i j
        else p₁.setKnote i j (o.store (p₁.knote i j))) := by
      split
      · exact stored.trans (.readied low)
      · exact stored
    exact ⟨_, 0, rfl, all.same, all.core, fun _ => all.good good, fun no => absurd rfl no⟩

theorem WellFormed.changeNew (good : p.WellFormed) (live : p.live i)
    (missed : p.find i kev.ident kev.filter = none) : (p.changeNew i kev o o').1.WellFormed ∧ ∃ j,
    Only i j p (p.changeNew i kev o o').1 := by
  rw [Pool.changeNew]
  split
  · exact ⟨good, 0, .refl⟩
  next j found =>
  obtain ⟨low, filled⟩ := good.filled live missed found
  obtain ⟨p₂, ret, is, same, core, fine, wiped⟩ :=
    filled.attached (Same.setKnote.live.trans live) low (by rw [setKnote_self]; rfl)
      (by rw [setKnote_self]; rfl) o
  have only : Only i j p p₂ := .trans .setKnote ⟨same, fun k l _ => core k l⟩
  rw [is]
  dsimp only
  split
  · next failed => exact ⟨wiped failed, j, only.trans .setKnote⟩
  · next done =>
    have polls : Keeps ⟨none, none, none⟩ p₂ (p₂.poll i j o') := .poll low
    split
    · exact ⟨fine (not_not.mp done), j, only⟩
    · exact ⟨polls.good (fine (not_not.mp done)), j, only.trans polls.only⟩

end Pool
end Otsos.Event
