import Mathlib.Algebra.Order.Group.Multiset
import Mathlib.Tactic.Abel
import Otsos.Ipc.References

/-! Messages are delivered once and in order. A message is accepted when a send returns success,
whether it is queued or dropped. -/
namespace Otsos.Ipc
open List
attribute [local simp] View.setQueue View.setTable

/-- The messages that the endpoint `e` got in this way, oldest first. -/
@[local simp] def ofKind (kind : Happening → Option (Nat × Msg)) (e : Nat) (hs : List Happening) :
    List Msg :=
  hs.filterMap fun h => (kind h).bind fun p => if p.1 = e then some p.2 else none

@[simp] def Happening.queued? : Happening → Option (Nat × Msg)
  | .queued e m => some (e, m)
  | _ => none

@[simp] def Happening.dropped? : Happening → Option (Nat × Msg)
  | .dropped e m => some (e, m)
  | _ => none

@[simp] def Happening.accepted? : Happening → Option (Nat × Msg)
  | .queued e m | .dropped e m => some (e, m)
  | _ => none

@[simp] def Happening.received? : Happening → Option (Nat × Msg)
  | .received e m _ => some (e, m)
  | _ => none

/-- By a receive, not by a call. -/
@[simp] def Happening.plain? : Happening → Option (Nat × Msg)
  | .received e m none => some (e, m)
  | _ => none

@[simp] def Happening.lost? : Happening → Option (Nat × Msg)
  | .lost e m => some (e, m)
  | _ => none

abbrev queuedAt : Nat → List Happening → List Msg := ofKind Happening.queued?
abbrev droppedAt : Nat → List Happening → List Msg := ofKind Happening.dropped?
abbrev acceptedAt : Nat → List Happening → List Msg := ofKind Happening.accepted?
abbrev receivedAt : Nat → List Happening → List Msg := ofKind Happening.received?
abbrev plainAt : Nat → List Happening → List Msg := ofKind Happening.plain?
abbrev lostAt : Nat → List Happening → List Msg := ofKind Happening.lost?

/-- What was queued at the endpoint when it was freed. -/
@[local simp] def freedAt (e : Nat) (hs : List Happening) : List Msg :=
  hs.flatMap fun h =>
    match h with
    | .freed x ms => if x = e then ms else []
    | _ => []

/-- A thread that returns an error in a step leaves the queue of its endpoint as it was. -/
def KeepsQueue (s s' : Config) : Prop :=
  ∀ (n own : Nat) (ret : Int), s'.threads[n]? = some (.done own ret) →
    s.threads[n]? ≠ some (.done own ret) → ret < 0 → s'.mem.queue own = s.mem.queue own

def ErrorsKept : Config → List Event → Prop
  | _, [] => True
  | s, e :: es => ∀ s' what, s.step e = some (s', what) → KeepsQueue s s' ∧ ErrorsKept s' es

/-- Every message accepted is received once, or queued yet, or went with its endpoint; receives
return messages in the order of the queue; errors leave the queue alone. -/
structure Delivered (start : Config) (es : List Event) (hs : List Happening) (s : Config) :
    Prop where
  once : ∀ e, (acceptedAt e hs).Perm (receivedAt e hs ++ s.mem.queue e ++ freedAt e hs)
  order : ∀ e, (plainAt e hs).Sublist (queuedAt e hs)
  errors : ErrorsKept start es

section Lists

variable {v : View} {h : Happening} {hs : List Happening} {e : Nat}
variable {l : List Msg}

theorem View.setQueue_self : (v.setQueue e l).queue e = l := Function.update_self _ _ _

theorem View.setTable_self : (v.setTable e t).table e = t := Function.update_self _ _ v.table

theorem View.setTable_of_ne (other : x ≠ e) : (v.setTable e t).table x = v.table x :=
  Function.update_of_ne other _ _

theorem View.setQueue_of_ne (other : x ≠ e) : (v.setQueue e l).queue x = v.queue x :=
  Function.update_of_ne other _ _

theorem ofKind_cons : ofKind kind e (h :: hs) = ofKind kind e [h] ++ ofKind kind e hs := by
  rw [ofKind, ofKind, ofKind, ← filterMap_append, singleton_append]

theorem ofKind_one :
    ofKind kind e [h] = ((kind h).bind fun p => if p.1 = e then some p.2 else none).toList := by
  rw [ofKind, filterMap_cons]
  split <;> simp_all

theorem freedAt_cons : freedAt e (h :: hs) = freedAt e [h] ++ freedAt e hs := by
  rw [freedAt, freedAt, freedAt, ← flatMap_append, singleton_append]

theorem coe_ofKind_cons (kind : Happening → Option (Nat × Msg)) (h : Happening)
    (hs : List Happening) (e : Nat) :
    (ofKind kind e (h :: hs) : Multiset Msg) = ofKind kind e [h] + ofKind kind e hs := by
  rw [ofKind_cons, Multiset.coe_add]

theorem mem_ofKind {m : Msg} : m ∈ ofKind kind e hs ↔ ∃ h ∈ hs, kind h = some (e, m) := by
  rw [ofKind, mem_filterMap]
  refine exists_congr fun h => and_congr_right fun _ => ?_
  cases kind h with
  | none => simp
  | some p => simp [Prod.ext_iff]

theorem ofKind_nil (none_ : ∀ h ∈ hs, kind h = none) : ofKind kind e hs = [] := by
  refine filterMap_eq_nil_iff.mpr fun h member => ?_
  rw [none_ h member]
  rfl

theorem coe_eraseIdx {m : Msg} (there : l[i]? = some m) :
    (l : Multiset Msg) = {m} + (l.eraseIdx i : Multiset Msg) := by
  obtain ⟨inside, rfl⟩ := List.getElem?_eq_some_iff.mp there
  rw [Multiset.singleton_add, Multiset.cons_coe, Multiset.coe_eq_coe]
  exact (getElem_cons_eraseIdx_perm inside).symm

theorem front_eraseIdx {m : Msg} (there : l[0]? = some m) : m :: l.eraseIdx 0 = l := by
  cases l with
  | nil => cases there
  | cons c rest =>
    cases there
    rfl

/-- What is queued or comes in goes out or stays. -/
def Balanced (v : View) (hs : List Happening) (v' : View) (e : Nat) : Prop :=
  (v.queue e : Multiset Msg) + queuedAt e hs = receivedAt e hs + lostAt e hs + freedAt e hs +
    (v'.queue e : Multiset Msg)

theorem Acts.balanced (act : Acts v h v') (e : Nat) : Balanced v [h] v' e := by
  rw [Balanced]
  cases act with
  | queued x m =>
    by_cases same : x = e
    · subst same
      simp [← Multiset.coe_add]
    · simp [same, Ne.symm same]
  | dropped taken => simp
  | @received x i m call there first =>
    by_cases same : x = e
    · subst same
      simp [coe_eraseIdx there]
    · simp [same, Ne.symm same]
  | @lost x i m there =>
    by_cases same : x = e
    · subst same
      simp [coe_eraseIdx there]
    · simp [same, Ne.symm same]
  | @putBack x i m there =>
    by_cases same : x = e
    · subst same
      simp [coe_eraseIdx there]
    · simp [Ne.symm same]
  | gaveUp x id request => simp
  | freed x =>
    by_cases same : x = e
    · subst same
      simp
    · simp [same, Ne.symm same]

theorem ActsAll.balanced (acts : ActsAll v hs v') (e : Nat) : Balanced v hs v' e := by
  induction acts with
  | nil v => simp [Balanced]
  | @cons v v₁ v₂ h hs act rest ih =>
    have first := act.balanced e
    rw [Balanced] at first ⊢
    have splitFreed : (freedAt e (h :: hs) : Multiset Msg) = freedAt e [h] + freedAt e hs := by
      rw [freedAt_cons, Multiset.coe_add]
    rw [coe_ofKind_cons _ h hs, coe_ofKind_cons _ h hs, coe_ofKind_cons _ h hs, splitFreed]
    calc (v.queue e : Multiset Msg) + (queuedAt e [h] + queuedAt e hs)
        = (v.queue e + queuedAt e [h]) + queuedAt e hs := by abel
      _ = receivedAt e [h] + lostAt e [h] + freedAt e [h] + (v₁.queue e + queuedAt e hs) := by
        rw [first]
        abel
      _ = _ := by
        rw [ih]
        abel

theorem Acts.ordered {P Q : List Msg} (act : Acts v h v') (orderly : h.Orderly)
    (ordered : (P ++ v.queue e).Sublist Q) :
    (P ++ plainAt e [h] ++ v'.queue e).Sublist (Q ++ queuedAt e [h]) := by
  -- the queue is as it was, or messages are missing from it
  have fewer : ∀ l : List Msg, l.Sublist (v.queue e) → (P ++ l).Sublist Q :=
    fun l less => (less.append_left P).trans ordered
  cases act with
  | queued x m =>
    by_cases same : x = e
    · subst same
      simpa using ordered.append_right [m]
    · simpa [same, Ne.symm same] using ordered
  | dropped taken => exact absurd orderly id
  | @received x i m call there first =>
    by_cases same : x = e
    · subst same
      cases call with
      | none =>
        cases first rfl
        rw [← front_eraseIdx there] at ordered
        simpa using ordered
      | some request => simpa using fewer _ (eraseIdx_sublist _ i)
    · cases call with
      | none => simpa [same, Ne.symm same] using ordered
      | some request => simpa [Ne.symm same] using ordered
  | lost there => exact absurd orderly id
  | @putBack x i m there =>
    by_cases same : x = e
    · subst same
      cases orderly
      rw [← front_eraseIdx there] at ordered
      simpa using ordered
    · simpa [Ne.symm same] using ordered
  | gaveUp x id request => simpa using ordered
  | freed x =>
    by_cases same : x = e
    · subst same
      simpa using fewer [] (nil_sublist _)
    · simpa [Ne.symm same] using ordered

theorem ActsAll.ordered {P Q : List Msg} (acts : ActsAll v hs v') (orderly : ∀ h ∈ hs, h.Orderly)
    (ordered : (P ++ v.queue e).Sublist Q) :
    (P ++ plainAt e hs ++ v'.queue e).Sublist (Q ++ queuedAt e hs) := by
  induction acts generalizing P Q with
  | nil v => simpa using ordered
  | @cons _ _ _ h hs act rest ih =>
    have first := act.ordered (orderly _ mem_cons_self) ordered
    have later := ih (fun h member => orderly h (mem_cons_of_mem _ member)) first
    rw [plainAt, @ofKind_cons h hs, queuedAt, @ofKind_cons h hs, ← append_assoc, ← append_assoc]
    exact later

end Lists

section Turns

variable {pc : Pc} {own : Nat} {m : Msg}

theorem Turns.apart (turns : Turns v pc what pc') (apart : pc.Apart) : pc'.Apart := by
  induction turns with
  | stays pc => exact apart
  | requested rest ih => exact ih trivial
  | fails | sent | took | lost | putBack | gaveUp | busy => trivial

theorem Pc.own_of_expects {id : UInt64} {call : Option Nat}
    (expects : pc.expects = some (own, id, call)) : pc.own = some own := by
  cases pc with
  | receiving own' space flags =>
    cases expects
    rfl
  | awaiting own' id request space patience =>
    cases expects
    rfl
  | idle | sending | requesting | done => cases expects

theorem Turns.own_eq (turns : Turns v pc what pc') : pc'.own = pc.own := by
  induction turns with
  | stays pc | sent | gaveUp | busy => rfl
  | fails mine => exact mine.symm
  | took expects | lost expects | putBack expects => exact (Pc.own_of_expects expects).symm
  | requested rest ih => exact ih

theorem Acts.queue_other {e target : Nat} (act : Acts v (.queued target m) v')
    (other : e ≠ target) : v'.queue e = v.queue e := by
  cases act
  exact View.setQueue_of_ne other

theorem ActsAll.eq_of_nil (acts : ActsAll v [] v') : v = v' := by
  cases acts
  rfl

theorem ActsAll.of_one (acts : ActsAll v [h] v') : Acts v h v' := by
  cases acts with
  | cons act rest =>
    cases rest
    exact act

theorem Turns.keeps (turns : Turns v pc what pc') (acts : ActsAll v what v') (apart : pc.Apart)
    (done : pc' = .done own ret) (negative : ret < 0) (orderly : ∀ h ∈ what, h.Orderly) :
    v'.queue own = v.queue own := by
  induction turns with
  | stays pc | fails mine below =>
    cases acts
    rfl
  | sent own' target m flags =>
    cases done
    exact absurd negative (Int.lt_irrefl 0)
  | took expects wanted positive =>
    cases done
    exact absurd negative (Int.not_lt.mpr positive)
  | lost expects below => exact absurd (orderly _ mem_cons_self) id
  | putBack expects =>
    cases done
    cases orderly _ mem_cons_self
    cases acts.of_one with
    | putBack there =>
      rw [front_eraseIdx there]
      exact congrFun (Function.update_eq_self _ _) own
  | gaveUp missing below =>
    cases acts.of_one
    rfl
  | busy own' target m flags space patience =>
    cases done
    cases acts with
    | cons act rest =>
      cases rest.of_one
      exact act.queue_other apart
  | requested rest ih =>
    cases acts with
    | cons act later =>
      have owns := rest.own_eq
      rw [done] at owns
      cases owns
      have same := act.queue_other apart
      cases act
      exact (ih later trivial done fun h member => orderly h (mem_cons_of_mem _ member)).trans same

end Turns

namespace Mem

theorem Inv.peer_ne {m : Mem} {refs : Nat → Nat} {target : Nat} (inv : m.Inv refs)
    (peer : m.Peer own target) : own ≠ target := by
  rintro rfl
  obtain ⟨_, sv, here, _, ⟨client, server⟩ | ⟨server, session⟩⟩ := peer
  · obtain ⟨ep', there, role, _⟩ := inv.server sv own server
    cases here.symm.trans there
    rw [client] at role
    cases role
  · obtain ⟨i, at_⟩ := mem_sessions session
    obtain ⟨_, ep', there, role, _⟩ := inv.client sv i own at_
    cases here.symm.trans there
    rw [server] at role
    cases role

theorem Begins.turns {m : Mem} {next : Nat}
    (begins : m.Begins own req isCall next what pc)
    (apart : ∀ target, m.Peer own target → own ≠ target) :
    (∃ target msg, what = [.dropped target msg] ∧ pc = .done own 0) ∨ ∃ start, start.Apart ∧
    Turns m.view start what pc := by
  cases begins with
  | refused counted ret => exact .inr ⟨.done own ret, trivial, .stays _⟩
  | dropped made peer => exact .inl ⟨_, _, rfl, rfl⟩
  | @sends msg _ target flags _ made peer kept turns =>
    exact .inr ⟨.sending own target msg flags, trivial, turns⟩
  | @calls msg space patience target flags _ _ made peer turns =>
    exact .inr ⟨.requesting own target msg flags space patience, apart target peer, turns⟩

end Mem

namespace Config

variable {s : Config} {x : Nat}

structure Good (s : Config) : Prop where
  sound : s.mem.Sound
  inv : s.Inv
  apart : ∀ pc ∈ s.threads, pc.Apart

theorem apart_set (apart : ∀ pc ∈ s.threads, pc.Apart) (new : pc'.Apart) :
    ∀ pc ∈ s.threads.set n pc', pc.Apart := by
  intro pc member
  rcases mem_or_eq_of_mem_set member with old | rfl
  · exact apart pc old
  · exact new

theorem retained_inv (inv : s.Inv) (idle : s.Idle n x) (retained : retain s.mem x = some m) :
    ∃ refs, m.Inv refs := by
  obtain ⟨_, again, inv', _⟩ := retain_inv inv idle.2
  cases retained.symm.trans again
  exact ⟨_, inv'⟩

theorem idle_of_asks {own : Nat} (allowed : s.Allowed e) (asks : Event.Asks n own req isCall e) :
    s.Idle n own := by
  cases asks with
  | send => exact allowed
  | call space timeoutMs o => exact allowed

theorem step_good (good : s.Good) (allowed : s.Allowed e) (ran : s.step e = some (s', what)) :
    s'.Good := by
  obtain ⟨does, _, sound⟩ := step_does good.sound allowed ran
  obtain ⟨_, _, again, inv⟩ := step_inv good.inv allowed (step_finds ran)
  cases ran.symm.trans again
  refine ⟨sound, inv, ?_⟩
  cases does with
  | manages kind freed => exact good.apart
  | sends asks retained enters =>
    obtain ⟨_, inv'⟩ := retained_inv good.inv (idle_of_asks allowed asks) retained
    refine apart_set good.apart ?_
    rcases enters.begins.turns fun _ => inv'.peer_ne with ⟨_, _, _, done⟩ | ⟨_, apart, turns⟩
    · rw [done]
      trivial
    · exact turns.apart apart
  | receives retained moves => exact apart_set good.apart (moves.turns.apart trivial)
  | resumes here moves =>
    exact apart_set good.apart (moves.turns.apart (good.apart _ (mem_of_getElem? here)))
  | leaves here freed => exact apart_set good.apart trivial

theorem set_done {own : Nat} {thread : Nat}
    (after : (s.threads.set thread pc)[n]? = some (.done own ret))
    (before : s.threads[n]? ≠ some (.done own ret)) : n = thread ∧ pc = .done own ret := by
  by_cases same : n = thread
  · subst same
    rw [getElem?_set_self'] at after
    obtain ⟨_, _, done⟩ := Option.map_eq_some_iff.mp after
    exact ⟨rfl, done⟩
  · rw [getElem?_set_ne (Ne.symm same)] at after
    exact absurd after before

variable {p : Progress}

theorem keeps_of_turns (turns : Turns s.mem.view pc p.what p.pc)
    (acts : ActsAll s.mem.view p.what p.mem.view) (apart : pc.Apart)
    (orderly : ∀ h ∈ p.what, h.Orderly) : KeepsQueue s ⟨p.mem, s.threads.set n p.pc⟩ := by
  intro k _ _ after before negative
  obtain ⟨_, done⟩ := set_done after before
  exact turns.keeps acts apart done negative orderly

/-- A step that loses nothing and puts messages back to where they were keeps the queues of those
that return errors. -/
theorem step_keeps (good : s.Good) (allowed : s.Allowed e) (ran : s.step e = some (s', what))
    (orderly : ∀ h ∈ what, h.Orderly) : KeepsQueue s s' := by
  obtain ⟨does, acts, _⟩ := step_does good.sound allowed ran
  cases does with
  | manages kind freed => exact fun k own ret after before => absurd after before
  | sends asks retained enters =>
    obtain ⟨_, inv'⟩ := retained_inv good.inv (idle_of_asks allowed asks) retained
    rcases enters.begins.turns fun _ => inv'.peer_ne with ⟨_, _, dropped, _⟩ | ⟨_, apart, turns⟩
    · rw [dropped] at orderly
      exact absurd (orderly _ mem_cons_self) id
    · rw [(retain_view good.sound retained).1] at turns
      exact keeps_of_turns turns acts apart orderly
  | receives retained moves =>
    have turns := moves.turns
    rw [(retain_view good.sound retained).1] at turns
    exact keeps_of_turns turns acts trivial orderly
  | resumes here moves =>
    exact keeps_of_turns moves.turns acts (good.apart _ (mem_of_getElem? here)) orderly
  | leaves here freed =>
    intro k own ret after before
    obtain ⟨_, done⟩ := set_done after before
    cases done

/-- What is asked of a step: see `Mem.Safe`; a thread that goes on in a call has room for what it
receives. -/
def Safe (s : Config) : Event → Prop
  | .resume thread o => ∀ pc ∈ s.threads[thread]?, pc.Ready s.mem.view o
  | e => s.mem.Safe e

instance (s : Config) (e : Event) : Decidable (s.Safe e) := by
  rcases e <;> dsimp only [Safe] <;> infer_instance

theorem idFor_retain (retained : retain s.mem own = some m) :
    m.idFor own req = s.mem.idFor own req := by
  obtain ⟨_, here, rfl⟩ := Option.map_eq_some_iff.mp retained
  rw [Mem.idFor, Mem.idFor, Mem.set_self, here]
  rfl

theorem wanted_retain (retained : retain s.mem own = some m) (view : m.view = s.mem.view)
    (wanted : s.mem.Wanted own req) : m.Wanted own req := by
  obtain ⟨ep, here, rfl⟩ := Option.map_eq_some_iff.mp retained
  have faces : Mem.Faces s.mem (s.mem.set own { ep with refcount := ep.refcount + 1 }) :=
    .set here rfl
  have same : (s.mem.set own { ep with refcount := ep.refcount + 1 }).addressee own req =
    s.mem.addressee own req := by
    rw [Mem.addressee, Mem.addressee, Mem.set_self, here]
    exact congrArg (Option.bind _) (funext fun sv => congrArg Option.join (faces.target_eq rfl rfl))
  intro target member
  rw [same] at member
  exact (congrArg (fun v => (v.table target).take req.replyTo) view).trans (wanted target member)

theorem step_orderly (good : s.Good) (allowed : s.Allowed e) (safe : s.Safe e)
    (ran : s.step e = some (s', what)) : ∀ h ∈ what, h.Orderly := by
  obtain ⟨does, _, _⟩ := step_does good.sound allowed ran
  cases does with
  | manages kind freed =>
    intro h member
    obtain ⟨x, ms, rfl⟩ := freed h member
    trivial
  | @sends _ own req isCall _ m p asks retained enters =>
    obtain ⟨_, inv'⟩ := retained_inv good.inv (idle_of_asks allowed asks) retained
    have view := (retain_view good.sound retained).1
    refine enters.orderly (fun _ => inv'.peer_ne) ?_
    cases asks with
    | send => exact wanted_retain retained view safe
    | call space timeoutMs o =>
      have queue : m.queue = s.mem.queue := congrArg View.queue view
      rw [Mem.Safe, queue, idFor_retain retained]
      exact safe
  | receives retained moves =>
    refine moves.orderly trivial ?_
    rw [(retain_view good.sound retained).1]
    exact safe
  | resumes here moves => exact moves.orderly (good.apart _ (mem_of_getElem? here)) (safe _ here)
  | leaves here freed =>
    rcases freed with rfl | ⟨ms, rfl⟩
    · nofun
    · exact forall_mem_singleton.mpr trivial

end Config

namespace Run

theorem good (run : Run s es hs s') (good : s.Good) : s'.Good := by
  induction run with
  | nil s => exact good
  | cons allowed stepped rest ih => exact ih (Config.step_good good allowed stepped)

theorem errorsKept (run : Run s es hs s') (good : s.Good) (orderly : ∀ h ∈ hs, h.Orderly) :
    ErrorsKept s es := by
  induction run with
  | nil s => trivial
  | cons allowed stepped rest ih =>
    intro _ _ again
    cases stepped.symm.trans again
    exact ⟨Config.step_keeps good allowed stepped fun h member => orderly h (mem_append_left _ member),
      ih (Config.step_good good allowed stepped) fun h member => orderly h (mem_append_right _ member)⟩

end Run

theorem Config.init_good (threads : Nat) : (init threads).Good := by
  refine ⟨init_sound threads, init_inv threads, fun _ member => ?_⟩
  cases eq_of_mem_replicate member
  trivial

theorem accepted_eq (e : Nat) (hs : List Happening) :
    (acceptedAt e hs : Multiset Msg) = queuedAt e hs + droppedAt e hs := by
  induction hs with
  | nil => rfl
  | cons h hs ih =>
    have one : (acceptedAt e [h] : Multiset Msg) = queuedAt e [h] + droppedAt e [h] := by
      rw [acceptedAt, queuedAt, droppedAt, ofKind_one, ofKind_one, ofKind_one]
      cases h <;> simp
    rw [coe_ofKind_cons _ h hs, coe_ofKind_cons _ h hs, coe_ofKind_cons _ h hs, ih, one]
    abel

theorem once_of_none {e : Nat} (acts : ActsAll (Config.init 0).mem.view hs v)
    (dropped : droppedAt e hs = []) (lost : lostAt e hs = []) :
    (acceptedAt e hs).Perm (receivedAt e hs ++ v.queue e ++ freedAt e hs) := by
  have balanced := acts.balanced e
  have none_ : (Config.init 0).mem.view.queue e = [] := rfl
  rw [Balanced, none_, lost, Multiset.coe_nil, zero_add, add_zero] at balanced
  rw [← Multiset.coe_eq_coe, accepted_eq, dropped, Multiset.coe_nil, add_zero, balanced,
    ← Multiset.coe_add, ← Multiset.coe_add]
  abel

/-- Every step of the run is safe in the state in which it is taken. -/
def SafeRun : Config → List Event → Prop
  | _, [] => True
  | s, e :: es => s.Safe e ∧ ∀ r ∈ s.step e, SafeRun r.1 es

instance SafeRun.decidable : (s : Config) → (es : List Event) → Decidable (SafeRun s es)
  | _, [] => .isTrue trivial
  | _, _ :: es =>
    have := fun r : Config × List Happening => SafeRun.decidable r.1 es
    instDecidableAnd

theorem Run.orderly (run : Run s es hs s') (good : s.Good) (safe : SafeRun s es) :
    ∀ h ∈ hs, h.Orderly := by
  induction run with
  | nil s => nofun
  | cons allowed stepped rest ih =>
    have later := ih (Config.step_good good allowed stepped) (safe.2 _ stepped)
    exact forall_mem_append.mpr ⟨Config.step_orderly good allowed safe.1 stepped, later⟩

/-- In every run in which the receivers have room and no late reply is sent, messages are
delivered. -/
theorem delivered_of_safe {threads : Nat} (run : Run (.init threads) es hs s)
    (safe : SafeRun (.init threads) es) : Delivered (.init threads) es hs s := by
  have good := Config.init_good threads
  have acts : ActsAll (Config.init 0).mem.view hs s.mem.view := (run.moves good.sound).1
  have orderly := run.orderly good safe
  refine ⟨fun e => once_of_none acts ?_ ?_, fun e => ?_, run.errorsKept good orderly⟩
  iterate 2
    · refine ofKind_nil fun h member => ?_
      have fine := orderly h member
      cases h <;> first | rfl | exact absurd fine id
  · have none_ : ([] ++ (Config.init 0).mem.view.queue e).Sublist ([] : List Msg) := List.Sublist.refl _
    exact (sublist_append_left _ _).trans (acts.ordered orderly none_)

/-- A message with a handle. -/
def Request.withHandle : Request :=
  { Request.plain 0 with caller := some ⟨7, 0, 0⟩, handles := [3], lookup := fun _ => .ok (5, 1) }

def roomy : Space := ⟨0, ipcMaxPayload, true, ipcMaxHandles⟩

/-- A client calls, the server receives the request and replies, and the client gets the reply. -/
def callAndReply : List Event :=
  [.create false, .connect 0 false, .call 0 1 (.plain 0) roomy (-1) plainOutcome,
    .recv 1 0 roomy 0 plainOutcome, .finish 1, .send 1 0 { Request.plain 1 with replyTo := 1 },
    .resume 0 plainOutcome]

theorem callAndReply_delivered : ∃ hs s, Run (.init 2) callAndReply hs s ∧
    (receivedAt 0 hs).length = 1 ∧ (receivedAt 1 hs).length = 1 ∧
    Delivered (.init 2) callAndReply hs s := by
  obtain ⟨hs, s, run, came⟩ := Run.exists_of_exec (.init 2) callAndReply
    (fun _ hs => decide ((receivedAt 0 hs).length = 1 ∧ (receivedAt 1 hs).length = 1))
    (by decide +kernel)
  obtain ⟨request, reply⟩ := of_decide_eq_true came
  exact ⟨hs, s, run, request, reply, delivered_of_safe run (by decide +kernel)⟩

/-- The server's table of handles is full when it receives a handle. -/
def fullTable : List Event :=
  [.create false, .connect 0 false, .send 0 1 .withHandle, .finish 0,
    .recv 0 0 roomy 0 { plainOutcome with install := fun _ => -24 }]

/-- The receive fails and the message is gone. -/
theorem fullTable_loses : ∃ hs s, Run (.init 1) fullTable hs s ∧
    ¬ Delivered (.init 1) fullTable hs s := by
  obtain ⟨hs, s, run, gone⟩ := Run.exists_of_exec (.init 1) fullTable (fun s hs => decide
    ((acceptedAt 0 hs).length ≠ (receivedAt 0 hs ++ s.mem.queue 0 ++ freedAt 0 hs).length))
    (by decide +kernel)
  rw [decide_eq_true_iff] at gone
  exact ⟨hs, s, run, fun delivered => gone (delivered.once 0).length_eq⟩

end Otsos.Ipc
