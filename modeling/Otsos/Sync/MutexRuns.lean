import Otsos.Sync.Mutex

/-! What holds in every run of the adaptive mutex: at most one thread has it, and nobody is left
asleep on a mutex that is free, unless the count of waiters wraps. -/
namespace Otsos.Sync
open Function (update update_self update_of_ne)
open Sched Transition

variable {s : State} {pc : Pc} {t : Tid} {act : Act}

/-! ### Holding -/

@[elab_as_elim]
theorem forall_update {P : Tid → Pc → Prop} (u : Tid) (mine : P t pc')
    (theirs : ∀ u, u ≠ t → P u (pcs u)) : P u (update pcs t pc' u) :=
  (Function.forall_update_iff pcs P).mpr ⟨mine, theirs⟩ u

/-- The lock word is 1 exactly while one thread has the mutex, and `owner` names it, but for the two
ends. -/
structure Owned (w : Shared) (pcs : Tid → Pc) : Prop where
  free : w.mtx.lock = false → ∀ t, w.holds t = false
  unique : ∀ {t u}, w.holds t → w.holds u → t = u
  named : ∀ {t}, w.mtx.owner = some t → w.holds t
  owner : ∀ {t}, w.holds t → w.mtx.owner = some t ∨ pcs t = .own ∨ pcs t = .clear
  possesses : ∀ {t}, (pcs t).possesses → w.holds t
  clears : ∀ {t}, pcs t = .clear → w.mtx.owner = none

theorem State.Initial.owned (start : s.Initial mp) : Owned s.toShared s.pc where
  free _ := start.unheld
  unique holds := by simp [start.unheld] at holds
  named named := by simp [start.mtx] at named
  owner holds := by simp [start.unheld] at holds
  possesses inside := by simp [start.idle, Pc.possesses] at inside
  clears inside := by simp [start.idle] at inside

variable {op : Op}

theorem Op.start_possesses (inside : op.start.possesses) : op = .unlock := by
  cases op <;> first | rfl | cases inside

theorem Owned.call (owned : Owned w pcs) (idle : pcs t = .idle)
    (holder : op = .unlock → w.holds t) : Owned w (update pcs t op.start) where
  free := owned.free
  unique := owned.unique
  named := owned.named
  owner {u} holds := by
    rcases owned.owner holds with named | inside
    · exact .inl named
    · have other : u ≠ t := by
        rintro rfl
        simp [idle] at inside
      simpa [other] using Or.inr inside
  possesses {u} := forall_update u
    (fun inside => holder (Op.start_possesses inside)) fun _ _ => owned.possesses
  clears {u} := forall_update u
    (fun inside => by cases op <;> cases inside) fun _ _ => owned.clears

theorem Owned.run (owned : Owned w pcs) (does : Holding t w w' (pcs t) pc') :
    Owned w' (update pcs t pc') := by
  generalize before : pcs t = pc at does
  have mine (inside : pc.possesses) : w.holds t := owned.possesses (before ▸ inside)
  have same (word : w'.mtx.lock = w.mtx.lock) (holds : w'.holds = w.holds) :
      (w'.mtx.lock = false → ∀ t, w'.holds t = false) ∧ ∀ t u, w'.holds t → w'.holds u → t = u := by
    rw [word, holds]
    exact ⟨owned.free, fun _ _ => owned.unique⟩
  cases does with
  | quiet word owner holds keeps behind ahead =>
    refine ⟨(same word holds).1, (same word holds).2 _ _, ?_, ?_, ?_, ?_⟩
    · rw [holds, owner]
      exact owned.named
    · rw [holds, owner]
      intro u held
      by_cases same : u = t
      · subst same
        have named := owned.owner held
        rw [before] at named
        exact .inl (named.resolve_right (by simp [ahead]))
      · simpa [same] using owned.owner held
    · rw [holds]
      exact fun {u} => forall_update u
        (fun inside => mine (keeps inside)) fun _ _ => owned.possesses
    · rw [owner]
      exact fun {u} => forall_update u
        (fun inside => absurd inside behind.2) fun _ _ => owned.clears
  | took free word owner holds =>
    have nobody := owned.free free
    have only : ∀ {u}, w'.holds u → u = t := by
      intro u held
      by_contra other
      rw [holds, update_of_ne other, nobody] at held
      cases held
    constructor
    · intro free'
      cases word.symm.trans free'
    · intro u v first second
      rw [only first, only second]
    · intro u named
      have held := owned.named (owner ▸ named)
      rw [nobody] at held
      cases held
    · intro u held
      rw [only held]
      exact .inr (.inl (update_self ..))
    · intro u inside
      by_cases same : u = t
      · rw [holds, same, update_self]
      · rw [update_of_ne same] at inside
        have held := owned.possesses inside
        rw [nobody] at held
        cases held
    · rw [owner]
      exact fun {u} => forall_update u (by nofun) fun _ _ => owned.clears
  | owned word owner holds =>
    have mine := mine rfl
    refine ⟨(same word holds).1, (same word holds).2 _ _, ?_, ?_, ?_, ?_⟩
    · intro u named
      rw [holds, ← Option.some.inj (owner.symm.trans named)]
      exact mine
    · intro u held
      rw [holds] at held
      rw [owned.unique held mine]
      exact .inl owner
    · rw [holds]
      exact fun {u} => forall_update u (fun _ => mine) fun _ _ => owned.possesses
    · refine fun {u} => forall_update u (by nofun) fun u other inside => ?_
      exact absurd (owned.unique (owned.possesses (by rw [inside]; rfl)) mine) other
  | disowned word owner holds =>
    have mine := mine rfl
    refine ⟨(same word holds).1, (same word holds).2 _ _, ?_, ?_, ?_, ?_⟩
    · intro u named
      cases owner.symm.trans named
    · intro u held
      rw [holds] at held
      rw [owned.unique held mine]
      exact .inr (.inr (update_self ..))
    · rw [holds]
      exact fun {u} => forall_update u (fun _ => mine) fun _ _ => owned.possesses
    · intro _ _
      exact owner
  | cleared word owner holds =>
    have mine := mine rfl
    have nobody : ∀ u, w'.holds u = false := by
      intro u
      by_cases same : u = t
      · rw [holds, same, update_self]
      · rw [holds, update_of_ne same]
        cases held : w.holds u with
        | false => rfl
        | true => exact absurd (owned.unique held mine) same
    constructor
    · exact fun _ => nobody
    · intro u v held
      rw [nobody] at held
      cases held
    · intro u named
      cases (owned.clears before).symm.trans (owner ▸ named)
    · intro u held
      rw [nobody] at held
      cases held
    · exact fun {u} => forall_update u (by nofun) fun u other inside =>
        absurd (owned.unique (owned.possesses inside) mine) other
    · intro u _
      rw [owner]
      exact owned.clears before

theorem Owned.step (owned : Owned s.toShared s.pc) (ran : s.step n mp act = some s') :
    Owned s'.toShared s'.pc := by
  obtain ⟨t, _, -, -, idle, holder, rfl⟩ | ⟨t, _, w, _, -, stepped, rfl⟩ := State.step_cases ran
  · exact owned.call idle holder
  · exact owned.run (Pc.step_holding stepped)

/-! ### Sleeping -/

/-- Whoever sleeps on the mutex is counted or about to be woken, and whoever is counted has an
unlock to come. -/
structure Orderly (n : Nat) (mp : Chan) (w : Shared) (pcs : Tid → Pc) : Prop where
  inside : ∀ {t}, w.mtx.interlock = some t ↔ (pcs t).inside
  committed : ∀ {t}, (pcs t).committed → w.mtx.lock ∨ ∃ u, pcs u = .collect
  waiting : w.mtx.waiters ≠ 0 → w.mtx.lock ∨ ∃ u, (pcs u).collecting
  counted : ∀ {t}, (pcs t).counted → w.mtx.waiters ≠ 0
  asleep : ∀ {t}, w.threads.SleepsOn t mp → w.mtx.waiters ≠ 0 ∨ ∃ u, (pcs u).Wakes t
  known : ∀ {t}, pcs t ≠ .idle ∨ w.threads.SleepsOn t mp → t < n ∧ (w.threads.td t).used

theorem State.Initial.orderly (start : s.Initial mp) : Orderly n mp s.toShared s.pc where
  inside := by
    intro t
    rw [start.mtx, start.idle]
    exact iff_of_false nofun nofun
  committed inside := by simp [start.idle, Pc.committed] at inside
  waiting some_ := by simp [start.mtx] at some_
  counted inside := by simp [start.idle, Pc.counted] at inside
  asleep sleeps := absurd sleeps (start.awake _)
  known busy := (busy.elim (absurd (start.idle _)) (absurd · (start.awake _)))

theorem Pc.inside_of_committed (committed : pc.committed) : pc.inside := by
  cases pc with
  | count => rfl
  | sleep at_ => cases at_ <;> first | rfl | cases committed
  | _ => cases committed

theorem Pc.committed_of_counted (counted : pc.counted) : pc.committed := by
  cases pc with
  | sleep at_ => cases at_ <;> first | rfl | cases counted
  | _ => cases counted

theorem Orderly.alone (orderly : Orderly n mp w pcs) (mine : (pcs t).inside)
    (theirs : (pcs u).inside) : u = t :=
  Option.some.inj ((orderly.inside.mpr theirs).symm.trans (orderly.inside.mpr mine))

theorem exists_update {P : Pc → Prop} (found : ∃ u, P (pcs u)) (keeps : P (pcs t) → P pc') :
    ∃ u, P (update pcs t pc' u) := by
  obtain ⟨u, here⟩ := found
  by_cases same : u = t
  · subst same
    exact ⟨u, by rw [update_self]; exact keeps here⟩
  · exact ⟨u, by rw [update_of_ne same]; exact here⟩

theorem Orderly.call (orderly : Orderly n mp w pcs) (idle : pcs t = .idle) (here : t < n)
    (used : (w.threads.td t).used) : Orderly n mp w (update pcs t op.start) := by
  have quiet : op.start.inside = false ∧ op.start.committed = false ∧ op.start.counted = false := by
    cases op <;> exact ⟨rfl, rfl, rfl⟩
  have same {P : Pc → Prop} (not : ¬P .idle) : (∃ u, P (pcs u)) → ∃ u, P (update pcs t op.start u) :=
    fun found => exists_update found fun this => absurd (idle ▸ this) not
  constructor
  · refine fun {u} => forall_update u ?_ fun _ _ => orderly.inside
    rw [quiet.1, orderly.inside, idle]
    rfl
  · exact fun {u} => forall_update u
      (fun inside => nomatch quiet.2.1.symm.trans inside) fun _ _ inside =>
        (orderly.committed inside).imp_right (same (P := (· = .collect)) nofun)
  · intro some_
    exact (orderly.waiting some_).imp_right (same (P := (·.collecting)) nofun)
  · exact fun {u} => forall_update u
      (fun inside => nomatch quiet.2.2.symm.trans inside) fun _ _ => orderly.counted
  · intro u sleeps
    exact (orderly.asleep sleeps).imp_right (same (P := (·.Wakes u)) id)
  · exact fun {u} => forall_update u
      (fun _ => ⟨here, used⟩) fun _ _ => orderly.known

theorem Waiting.sleepers (does : Waiting n mp t w w' pc pc') (sleeps : w'.threads.SleepsOn u mp) :
    w.threads.SleepsOn u mp ∨ u = t := by
  cases does with
  | quiet _ _ _ sleepers => exact (sleepers u sleeps).imp_right And.left
  | cleared _ _ threads => exact .inl (threads ▸ sleeps)
  | entered _ same | left same | counted same | taken same =>
    subst same
    exact .inl sleeps

theorem Orderly.run (orderly : Orderly n mp w pcs) (busy : pcs t ≠ .idle)
    (used : ∀ u, (w'.threads.td u).used = (w.threads.td u).used)
    (wraps : pcs t = .count → w.mtx.waiters ≠ 0xFFFFFFFF) (does : Waiting n mp t w w' (pcs t) pc') :
    Orderly n mp w' (update pcs t pc') := by
  have known {u} (was : update pcs t pc' u ≠ .idle ∨ w'.threads.SleepsOn u mp) : u < n ∧ (w'.threads.td u).used := by
    rw [used]
    by_cases same : u = t
    · rw [same]
      exact orderly.known (.inl busy)
    · rw [update_of_ne same] at was
      exact orderly.known (was.imp_right fun sleeps => (does.sleepers sleeps).resolve_right same)
  generalize before : pcs t = pc at does wraps
  cases does with
  | quiet word interlock waiters sleepers inside committed counted collecting wakes =>
    have uncollected : pc ≠ .collect := by
      rintro rfl
      cases collecting
    refine ⟨?_, ?_, ?_, ?_, ?_, known⟩
    · intro u
      rw [interlock, orderly.inside]
      by_cases same : u = t
      · rw [same, update_self, inside, before]
      · rw [update_of_ne same]
    · have old {u} : (pcs u).committed → w'.mtx.lock ∨ ∃ v, update pcs t pc' v = .collect := fun this =>
        (orderly.committed this).imp word
          (exists_update (P := (· = .collect)) · fun this => absurd (before.symm.trans this) uncollected)
      exact fun {u} => forall_update u
        (fun this => (committed this).elim (fun this => old (before ▸ this)) .inl) fun u _ => old (u := u)
    · intro some_
      rw [waiters] at some_
      refine (orderly.waiting some_).imp word (exists_update (P := (·.collecting)) · fun this => ?_)
      rw [before, collecting] at this
      cases this
    · rw [waiters]
      exact fun {u} => forall_update u
        (fun this => orderly.counted (before ▸ counted this)) fun _ _ => orderly.counted
    · intro u sleeps
      rw [waiters]
      rcases sleepers u sleeps with slept | ⟨rfl, this⟩
      · have here := orderly.known (.inr slept)
        exact (orderly.asleep slept).imp_right
          (exists_update (P := (·.Wakes u)) · fun this => wakes u (before ▸ this) here.1 here.2 sleeps)
      · exact .inl (orderly.counted (before ▸ this))
  | cleared interlock waiters threads =>
    refine ⟨?_, ?_, ?_, ?_, ?_, known⟩
    · intro u
      rw [interlock, orderly.inside]
      by_cases same : u = t
      · rw [same, update_self, before]
        rfl
      · rw [update_of_ne same]
    · exact fun _ => .inr ⟨t, update_self ..⟩
    · exact fun _ => .inr ⟨t, by rw [update_self]; rfl⟩
    · rw [waiters]
      exact fun {u} => forall_update u (by nofun) fun _ _ => orderly.counted
    · intro u sleeps
      rw [waiters]
      rw [threads] at sleeps
      exact (orderly.asleep sleeps).imp_right (exists_update (P := (·.Wakes u)) · fun this => (before ▸ this).elim)
  | entered free same which =>
    subst same
    have nobody {u} : (pcs u).inside = false := by
      by_contra this
      rw [Bool.not_eq_false] at this
      cases free.symm.trans (orderly.inside.mpr this)
    have enters : pc'.inside ∧ pc'.committed = false := by
      rcases which with ⟨-, rfl⟩ | ⟨-, rfl⟩ <;> exact ⟨rfl, rfl⟩
    have uncommitted {u} : (update pcs t pc' u).committed = false := by
      by_cases same : u = t
      · rw [same, update_self, enters.2]
      · rw [update_of_ne same]
        by_contra this
        rw [Bool.not_eq_false] at this
        cases nobody.symm.trans (Pc.inside_of_committed this)
    refine ⟨?_, ?_, ?_, ?_, ?_, known⟩
    · intro u
      by_cases same : u = t
      · rw [same, update_self]
        exact iff_of_true rfl enters.1
      · rw [update_of_ne same, nobody]
        exact iff_of_false (fun this => same (Option.some.inj this).symm) nofun
    · intro u this
      cases uncommitted.symm.trans this
    · intro some_
      refine (orderly.waiting some_).imp_right (exists_update (P := (·.collecting)) · fun this => ?_)
      rw [before] at this
      rcases which with ⟨rfl, rfl⟩ | ⟨rfl, rfl⟩
      · cases this
      · rfl
    · intro u this
      cases uncommitted.symm.trans (Pc.committed_of_counted this)
    · intro u sleeps
      refine (orderly.asleep sleeps).imp_right (exists_update (P := (·.Wakes u)) · fun this => ?_)
      rw [before] at this
      rcases which with ⟨rfl, rfl⟩ | ⟨rfl, rfl⟩ <;> exact this.elim
  | left same inside outside collecting wakes =>
    subst same
    have nobody {u} : (update pcs t pc' u).inside = false := by
      by_cases same : u = t
      · rw [same, update_self, outside]
      · rw [update_of_ne same]
        by_contra this
        rw [Bool.not_eq_false] at this
        exact same (orderly.alone (before ▸ inside) this)
    refine ⟨?_, ?_, ?_, ?_, ?_, known⟩
    · intro u
      rw [nobody]
      exact iff_of_false nofun nofun
    · intro u this
      cases nobody.symm.trans (Pc.inside_of_committed this)
    · intro some_
      refine (orderly.waiting some_).imp_right (exists_update (P := (·.collecting)) · fun this => ?_)
      rw [before, collecting] at this
      cases this
    · intro u this
      cases nobody.symm.trans (Pc.inside_of_committed (Pc.committed_of_counted this))
    · intro u sleeps
      exact (orderly.asleep sleeps).imp_right
        (exists_update (P := (·.Wakes u)) · fun this => wakes u (before ▸ this))
  | counted same =>
    subst same
    have some_ : w.mtx.waiters + 1 ≠ 0 := by
      intro wrapped
      apply wraps rfl
      calc
        w.mtx.waiters = w.mtx.waiters + 1 - 1 := (UInt32.add_sub_cancel ..).symm
        _ = 0 - 1 := by rw [wrapped]
        _ = 0xFFFFFFFF := rfl
    have committed : w.mtx.lock ∨ ∃ u, update pcs t (.sleep .channel) u = .collect :=
      (orderly.committed (by rw [before]; rfl)).imp_right
        (exists_update (P := (· = .collect)) · fun this => nomatch before.symm.trans this)
    refine ⟨?_, ?_, ?_, ?_, ?_, known⟩
    · exact fun {u} => forall_update u
        (orderly.inside.trans (by rw [before]; rfl)) fun _ _ => orderly.inside
    · exact fun _ => committed
    · exact fun _ => committed.imp_right fun ⟨u, this⟩ => ⟨u, by rw [this]; rfl⟩
    · exact fun _ => some_
    · exact fun _ => .inl some_
  | taken same =>
    subst same
    have mine : (pcs t).inside := by
      rw [before]
      rfl
    refine ⟨?_, ?_, ?_, ?_, ?_, known⟩
    · exact fun {u} => forall_update u
        (orderly.inside.trans (by rw [before]; rfl)) fun _ _ => orderly.inside
    · exact fun {u} => forall_update u (by nofun) fun _ other this =>
        absurd (orderly.alone mine (Pc.inside_of_committed this)) other
    · exact fun some_ => absurd rfl some_
    · exact fun {u} => forall_update u (by nofun) fun _ other this =>
        absurd (orderly.alone mine (Pc.inside_of_committed (Pc.committed_of_counted this))) other
    · intro u sleeps
      rcases orderly.asleep sleeps with some_ | found
      · exact .inr ⟨t, by rw [update_self]; exact some_⟩
      · exact .inr (exists_update (P := (·.Wakes u)) found fun this => (before ▸ this).elim)

theorem Pc.step_used (ran : pc.step n mp t running w = some (w', pc')) :
    (w'.threads.td u).used = (w.threads.td u).used := by
  cases pc with
  | idle | panicked => cases ran
  | exchange | tryExchange | interlock | collect =>
    rw [Pc.step] at ran
    split at ran
    all_goals
      cases ran
      try rfl
  | sleep at_ =>
    cases at_ with
    | channel =>
      cases ran
      exact Threads.setChannel_used
    | state | running =>
      cases ran
      exact Threads.setState_used
    | drop | wait =>
      cases ran
      rfl
  | wake at_ =>
    rw [Pc.step] at ran
    split at ran
    · cases ran
    · next stepped =>
      cases ran
      exact WakePc.step_used stepped
  | signalRunnable v =>
    cases ran
    exact Threads.setState_used
  | signalClear v =>
    cases ran
    exact Threads.setChannel_used
  | _ =>
    cases ran
    rfl

theorem Orderly.step (orderly : Orderly n mp s.toShared s.pc) (allowed : NoWrap s act)
    (ran : s.step n mp act = some s') : Orderly n mp s'.toShared s'.pc := by
  obtain ⟨t, _, here, used, idle, -, rfl⟩ | ⟨t, _, w, _, rfl, stepped, rfl⟩ := State.step_cases ran
  · exact orderly.call idle here used
  · have busy : s.pc t ≠ .idle := by
      intro idle
      rw [idle] at stepped
      cases stepped
    exact orderly.run busy (fun u => Pc.step_used stepped) allowed (Pc.step_waiting stepped)

theorem Pc.unlocking_of_wakes (wakes : pc.Wakes t) : pc.unlocking := by
  cases pc with
  | release | wake => rfl
  | _ => exact wakes.elim

theorem Pc.unlocking_of_collecting (collecting : pc.collecting) : pc.unlocking := by
  cases pc with
  | collect | take => rfl
  | _ => cases collecting

theorem Orderly.awake (orderly : Orderly n mp w pcs) (free : w.mtx.lock = false)
    (quiet : ∀ u, (pcs u).unlocking = false) : ¬w.threads.SleepsOn t mp := by
  intro sleeps
  rcases orderly.asleep sleeps with some_ | ⟨u, wakes⟩
  · rcases orderly.waiting some_ with locked | ⟨u, collecting⟩
    · cases free.symm.trans locked
    · cases (quiet u).symm.trans (Pc.unlocking_of_collecting collecting)
  · cases (quiet u).symm.trans (Pc.unlocking_of_wakes wakes)

/-- In every run in which the count of waiters does not wrap, at most one thread has the mutex,
`owner` names it but before its own store and behind the store of the unlock, and nobody sleeps on a
mutex that is free and whose unlocks are over. -/
theorem mtx_correct (start : s.Initial mp) (run : Reaches (State.step n mp) NoWrap s s') :
    (∀ t u, s'.holds t → s'.holds u → t = u) ∧
      (∀ t, s'.holds t → s'.mtx.owner = some t ∨ s'.pc t = .own ∨ s'.pc t = .clear) ∧
      (s'.mtx.lock = false → (∀ u, (s'.pc u).unlocking = false) → ∀ t, ¬s'.threads.SleepsOn t mp) := by
  have owned : Owned s'.toShared s'.pc :=
    run.invariant (I := fun s => Owned s.toShared s.pc) (fun owned _ ran => owned.step ran) start.owned
  have orderly : Orderly n mp s'.toShared s'.pc :=
    run.invariant (I := fun s => Orderly n mp s.toShared s.pc) (fun orderly => orderly.step) start.orderly
  refine ⟨fun t u => owned.unique, fun t => owned.owner,
    fun free quiet t => orderly.awake free quiet⟩

/-! ### A count that wraps -/

/-- A mutex at `0x1000` and threads that use it. -/
def freshState : State where
  mtx := ⟨false, none, 0, none⟩
  threads := ⟨fun _ => ⟨true, .running, none⟩, false⟩
  holds := fun _ => false
  pc := fun _ => .idle

theorem freshState_initial : freshState.Initial 0x1000 := ⟨rfl, fun _ => rfl, fun _ => rfl, nofun⟩

/-- Thread 0 has the mutex and thread 1 sleeps on it, behind `count` sleeps. -/
def stalledState (count : UInt32) : State where
  mtx := ⟨true, some 0, count, none⟩
  threads := ⟨update (fun _ => ⟨true, .running, none⟩) 1 ⟨true, .sleeping, some 0x1000⟩, false⟩
  holds := update (fun _ => false) 0 true
  pc := update (fun _ => .idle) 1 (.sleep .wait)

/-- A signal wakes thread 1, which finds the mutex locked and sleeps again. -/
def roundActs : List Act :=
  .call 0 (.signal 1) :: (List.replicate 3 (.run 0 false) ++ List.replicate 11 (.run 1 false))

theorem roundActs_exec (count : UInt32) :
    exec (State.step 2 0x1000) Free (stalledState count) roundActs =
    some (stalledState (count + 1)) := by
  obtain ⟨s, ran, same⟩ : ∃ s, exec (State.step 2 0x1000) Free (stalledState count) roundActs =
      some s ∧ s = stalledState (count + 1) := by
    refine ⟨_, rfl, State.ext rfl ?_ rfl ?_⟩
    · refine congrArg (Threads.mk · false) (funext fun t => ?_)
      rcases t with _ | _ | t <;> rfl
    · refine funext fun t => ?_
      rcases t with _ | _ | t <;> rfl
  rw [ran, same]

theorem stalledState_reached (k : Nat) :
    Reaches (State.step 2 0x1000) Free (stalledState 1) (stalledState (1 + UInt32.ofNat k)) := by
  induction k with
  | zero => exact .refl
  | succ k ih =>
    have next := Reaches.of_exec (roundActs_exec (1 + UInt32.ofNat k))
    rw [UInt32.ofNat_add, ← UInt32.add_assoc]
    exact ih.trans next

/-- Thread 0 locks, and thread 1 sleeps. -/
def beginActs : List Act :=
  .call 0 .lock :: List.replicate 3 (.run 0 false) ++ .call 1 .lock :: List.replicate 10
    (.run 1 false)

/-- Thread 0 unlocks, up to its look at the count. -/
def unlockActs : List Act := .call 0 .unlock :: List.replicate 7 (.run 0 false)

theorem beginActs_exec :
    exec (State.step 2 0x1000) NoWrap freshState beginActs = some (stalledState 1) := by
  obtain ⟨s, ran, same⟩ : ∃ s, exec (State.step 2 0x1000) NoWrap freshState beginActs = some s ∧
      s = stalledState 1 := by
    refine ⟨_, rfl, State.ext rfl ?_ ?_ ?_⟩
    · refine congrArg (Threads.mk · false) (funext fun t => ?_)
      rcases t with _ | _ | t <;> rfl
    all_goals
      refine funext fun t => ?_
      rcases t with _ | _ | t <;> rfl
  rw [ran, same]

/-- Behind 2 ^ 32 sleeps the unlock finds nobody to wake. -/
theorem mtx_stranded :
    freshState.Initial 0x1000 ∧ ∃ s, Reaches (State.step 2 0x1000) Free freshState s ∧
    s.mtx.lock = false ∧ (∀ u, (s.pc u).unlocking = false) ∧ s.threads.SleepsOn 1 0x1000 := by
  have begun : Reaches (State.step 2 0x1000) Free freshState (stalledState 1) :=
    (Reaches.of_exec beginActs_exec).mono fun _ _ _ => trivial
  have wrapped : Reaches (State.step 2 0x1000) Free (stalledState 1) (stalledState 0) :=
    stalledState_reached 0xFFFFFFFF
  have unlocked : ∃ s, exec (State.step 2 0x1000) Free (stalledState 0) unlockActs = some s ∧
      s.mtx.lock = false ∧ (∀ u, (s.pc u).unlocking = false) ∧ s.threads.SleepsOn 1 0x1000 := by
    refine ⟨_, rfl, rfl, ?_, by decide⟩
    intro u
    rcases u with _ | _ | u <;> rfl
  obtain ⟨s, ran, stranded⟩ := unlocked
  exact ⟨freshState_initial, s, (begun.trans wrapped).trans (Reaches.of_exec ran), stranded⟩

/-- With one sleep counted, the unlock wakes it. -/
theorem mtx_correct_unlocked :
    freshState.Initial 0x1000 ∧ ∃ s, Reaches (State.step 2 0x1000) NoWrap freshState s ∧
    s.mtx.lock = false ∧ ∀ t, ¬s.threads.SleepsOn t 0x1000 := by
  have unlocked : ∃ s, exec (State.step 2 0x1000) NoWrap (stalledState 1)
      (unlockActs ++ List.replicate 7 (.run 0 false)) = some s ∧
      s.mtx.lock = false ∧ ∀ u, (s.pc u).unlocking = false := by
    refine ⟨_, rfl, rfl, ?_⟩
    intro u
    rcases u with _ | _ | u <;> rfl
  obtain ⟨s, ran, free, quiet⟩ := unlocked
  have run : Reaches (State.step 2 0x1000) NoWrap freshState s :=
    (Reaches.of_exec beginActs_exec).trans (Reaches.of_exec ran)
  exact ⟨freshState_initial, s, run, free, (mtx_correct freshState_initial run).2.2 free quiet⟩

end Otsos.Sync
