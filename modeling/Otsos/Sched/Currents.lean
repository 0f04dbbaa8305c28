import Otsos.Sched.Machine

/-! No thread is the current one of two CPUs: `running_cpu` names the CPU of a current thread except
on a CPU that holds `sched_spin`. -/
namespace Otsos.Sched
open Function (update update_self update_of_ne update_eq_self)
open Transition

variable {k : Kernel} {w : Write} {pc pc' : SwitchPc} {b : Branch}

/-- The store changes neither the current threads nor `running_cpu`. -/
def Write.plain : Write → Bool
  | .running _ _ | .current _ _ | .destroy _ => false
  | _ => true

/-- What the placement of threads on CPUs depends on. -/
structure Kernel.Same (k k' : Kernel) : Prop where
  current : k'.current = k.current
  runningCpu : k'.runningCpu = k.runningCpu

theorem Kernel.same_of_plain (plain : w.plain) : k.Same (k.write w) := by
  cases w with
  | running | current | destroy => cases plain
  | curThread x c =>
    rw [Kernel.write]
    split
    · exact ⟨rfl, rfl⟩
    · exact ⟨rfl, rfl⟩
  | _ => exact ⟨rfl, rfl⟩

theorem Kernel.same_of_running (still : k.runningCpu x = some c) :
    k.Same (k.write (.running x (some c))) :=
  ⟨rfl, (congrArg (update k.runningCpu x) still.symm).trans (update_eq_self ..)⟩

theorem Kernel.same_of_destroy (idle : k.runningCpu x = none) : k.Same (k.write (.destroy x)) :=
  ⟨rfl, (congrArg (update k.runningCpu x) idle.symm).trans (update_eq_self ..)⟩

/-- `running_cpu` of the current thread is the CPU. -/
def Kernel.Anchored (k : Kernel) (c : Cpu) : Prop :=
  ∀ t, k.current c = some t → k.runningCpu t = some c

/-- What holds of the current thread on the branch, behind the store of `-1`. -/
def Branch.Ok (k : Kernel) (c : Cpu) : Branch → Prop
  | boot => k.current c = none
  | sleep | main true => True
  | main false => k.Anchored c

/-- What holds of the current thread of a CPU in `scheduler_switch`. -/
def SwitchPc.Ok (k : Kernel) (c : Cpu) : SwitchPc → Prop
  | spin b | lock b => k.Anchored c ∧ (b = .boot → k.current c = none)
  | retireStore i => k.Anchored c ∧ k.current c ≠ some i ∧ k.runningCpu i = some c
  | snapshot b | pick b _ _ | pickCpu b _ _ | nobody b => b.Ok k c
  | pickAny left _ | pickAnyCpu left _ | stay left | stayDead left | stayState left | stayCpu left =>
    (Branch.main left).Ok k c
  | bootTest next => k.current c = none ∧ k.Idle c next
  | setCurrent prev next => k.current c = prev ∧ k.Idle c next
  | setState _ next | setCpu _ next => k.current c = some next ∧ k.Idle c next
  | _ => k.Anchored c

theorem Kernel.Same.anchored (same : k.Same k') (anchored : k.Anchored c) : k'.Anchored c := by
  intro t
  rw [same.current, same.runningCpu]
  exact anchored t

theorem Kernel.Same.idle (same : k.Same k') (idle : k.Idle c x) : k'.Idle c x := by
  rw [Kernel.Idle, same.runningCpu]
  exact idle

theorem Kernel.Same.branch (same : k.Same k') (ok : b.Ok k c) : b.Ok k' c := by
  match b with
  | .boot =>
    rw [Branch.Ok, same.current]
    exact ok
  | .sleep | .main true => trivial
  | .main false => exact same.anchored ok

theorem Kernel.Same.switch (same : k.Same k') (ok : pc.Ok k c) : pc.Ok k' c := by
  cases pc with
  | spin b | lock b =>
    refine ⟨same.anchored ok.1, ?_⟩
    rw [same.current]
    exact ok.2
  | retireStore i =>
    refine ⟨same.anchored ok.1, ?_⟩
    rw [same.current, same.runningCpu]
    exact ok.2
  | snapshot | pick | pickCpu | nobody => exact same.branch ok
  | pickAny | pickAnyCpu | stay | stayDead | stayState | stayCpu => exact same.branch ok
  | bootTest | setCurrent | setState | setCpu =>
    refine ⟨?_, same.idle ok.2⟩
    rw [same.current]
    exact ok.1
  | _ => exact same.anchored ok

theorem Kernel.anchored_of_running (here : k.current c = some t) :
    (k.write (.running t (some c))).Anchored c := by
  intro u current
  obtain rfl : t = u := Option.some.inj (here.symm.trans current)
  exact update_self ..

theorem SwitchPc.Ok.plain_step (ok : pc'.Ok k c) (plain : w.plain) : pc'.Ok (k.write w) c :=
  (Kernel.same_of_plain plain).switch ok

theorem SwitchPc.Ok.step (ok : pc.Ok k c) (steps : SwitchPc.Steps cfg c k pc w pc') :
    pc'.Ok (k.write w) c := by
  cases steps with
  | boot idle => exact ⟨ok, fun _ => idle⟩
  | resume | look | noDead | someDead | retireEnd | retireNext | reapSome | reapFound | reapNext =>
    exact ok
  | busyEnd | busyFound | busyNext | listEnd | listFound | listNext | destroyRefuse | destroyTest | destroyKeep => exact ok
  | mainRunning | mainElse | mainDead | mainAlive | snapshot | pickEnd | pickFound | pickNext | pickRefuse => exact ok
  | pickSelf | nobodyDead | nobodyAlive | anyEnd | anyFound | anyNext | anyRefuse | anySelf =>
    exact ok
  | stayTerminated | stayAlive | bootFound | address | load => exact ok
  | sleeps | wakes | reapNone | reapEnd => exact ⟨ok, nofun⟩
  | spinBoot | spinSleep => exact SwitchPc.Ok.plain_step ok rfl
  | spinMain | lockSleep | lockMain => exact SwitchPc.Ok.plain_step ok.1 rfl
  | lockBoot => exact SwitchPc.Ok.plain_step (ok.2 rfl) rfl
  | retireLock | retireDec | retireUnlock | destroyLock | destroyUnlock | reapDone =>
    exact SwitchPc.Ok.plain_step ok rfl
  | mainStore | stayState | release | releaseSpin | setState | setProc | unlock | unspin =>
    exact SwitchPc.Ok.plain_step ok rfl
  | retireFound other _ placed => exact ⟨ok, other, placed⟩
  | @retireStore i =>
    intro u here
    have other : u ≠ i := by
      rintro rfl
      exact ok.2.1 here
    exact (update_of_ne other ..).trans (ok.1 u here)
  | destroyClear idle => exact (Kernel.same_of_destroy idle).anchored ok
  | leaveSleep | leaveMain => trivial
  | pickBoot idle => exact ⟨ok, idle⟩
  | pickOther idle => exact ⟨rfl, idle⟩
  | anyOther here idle => exact ⟨here, idle⟩
  | nobodySleep here | stayDead here | stayCpu here => exact Kernel.anchored_of_running here
  | nobodyBoot => exact fun u here => nomatch ok.symm.trans here
  | bootGone => exact fun u here => nomatch ok.1.symm.trans here
  | setCurrent => exact ⟨update_self .., ok.2⟩
  | setCpu => exact Kernel.anchored_of_running ok.1

/-- The CPU does not begin to leave a thread. -/
def SwitchPc.Stays (p p' : SwitchPc) : Prop := p'.leaving = p.leaving ∨ p'.leaving = none

/-- What a step of a CPU in `scheduler_switch` does to the spin lock and to the placement of
threads. -/
inductive SwitchPc.Effect (k : Kernel) (c : Cpu) : SwitchPc → Write → SwitchPc → Prop
  | lock (before : p.holds = false) (after : p'.holds) (stays : p.Stays p') : Effect k c p .spinLock p'
  | unlock (before : p.holds) (after : p'.holds = false) (stays : p.Stays p') : Effect k c p .spinUnlock p'
  | plain {w : Write} (plain : w.plain) (lock : w ≠ .spinLock) (unlock : w ≠ .spinUnlock)
      (alive : ∀ x, w ≠ .state x .terminated) (same : p'.holds = p.holds) (stays : p.Stays p') : Effect k c p w p'
  | running (before : p.holds) (after : p'.holds)
      (own : k.current c = some x ∨ k.runningCpu x = some c) (stays : p.Stays p') : Effect k c p (.running x r) p'
  | current : Effect k c (setCurrent prev next) (.current c next) (setState prev next)
  | destroy (before : p.holds) (after : p'.holds) (idle : k.runningCpu x = none)
      (stays : p.Stays p') : Effect k c p (.destroy x) p'

theorem SwitchPc.Effect.read (same : pc'.holds = pc.holds) (stays : pc.Stays pc') :
    SwitchPc.Effect k c pc .none pc' :=
  .plain rfl nofun nofun nofun same stays

theorem SwitchPc.step_effect (ok : pc.Ok k c) (steps : SwitchPc.Steps cfg c k pc w pc') :
    SwitchPc.Effect k c pc w pc' := by
  cases steps with
  | spinBoot | spinSleep | spinMain => exact .lock rfl rfl (.inl rfl)
  | releaseSpin | unspin => exact .unlock rfl rfl (.inl rfl)
  | retireLock | retireDec | retireUnlock | destroyLock | destroyUnlock | reapDone | lockBoot | lockSleep =>
    exact .plain rfl nofun nofun nofun rfl (.inl rfl)
  | lockMain | mainStore | stayState | release | setState | setProc | unlock =>
    exact .plain rfl nofun nofun nofun rfl (.inl rfl)
  | retireStore => exact .running rfl rfl (.inr ok.2.2) (.inl rfl)
  | leaveSleep here | leaveMain here | nobodySleep here | stayDead here | stayCpu here =>
    exact .running rfl rfl (.inl here) (.inl rfl)
  | setCpu => exact .running rfl rfl (.inl ok.1) (.inl rfl)
  | destroyClear idle => exact .destroy rfl rfl idle (.inl rfl)
  | setCurrent => exact .current
  | load => exact .read rfl (.inr rfl)
  | _ => exact .read rfl (.inl rfl)

theorem SwitchPc.Ok.anchored (ok : pc.Ok k c) (outside : pc.holds = false) : k.Anchored c := by
  cases pc with
  | spin => exact ok.1
  | out | start | asleep | address | load => exact ok
  | _ => cases outside

theorem SwitchPc.Ok.of_anchored (ok : pc.Ok k d) (outside : pc.holds = false)
    (kept : k'.current d = k.current d) (anchored : k'.Anchored d) : pc.Ok k' d := by
  cases pc with
  | spin =>
    refine ⟨anchored, ?_⟩
    rw [kept]
    exact ok.2
  | out | start | asleep | address | load => exact anchored
  | _ => cases outside

theorem SwitchPc.Ok.of_running (ok : pc.Ok k d) (outside : pc.holds = false)
    (other : k.current d ≠ some x) : pc.Ok (k.write (.running x r)) d := by
  refine ok.of_anchored outside rfl fun t here => ?_
  have apart : t ≠ x := by
    rintro rfl
    exact other here
  exact (update_of_ne apart ..).trans (ok.anchored outside t here)

theorem SwitchPc.Ok.of_current (ok : pc.Ok k d) (outside : pc.holds = false)
    (kept : (k.write (.current c next)).current d = k.current d) :
    pc.Ok (k.write (.current c next)) d := by
  refine ok.of_anchored outside kept fun t here => ?_
  rw [kept] at here
  exact ok.anchored outside t here

theorem Kernel.write_schedSpin (lock : w ≠ .spinLock) (unlock : w ≠ .spinUnlock) :
    (k.write w).schedSpin = k.schedSpin := by
  cases w with
  | spinLock => exact absurd rfl lock
  | spinUnlock => exact absurd rfl unlock
  | curThread x c =>
    rw [Kernel.write]
    split <;> rfl
  | _ => rfl

/-- The code of threads leaves the spin lock of the scheduler and the placement of threads as they
are. -/
structure Write.Aside (k : Kernel) (w : Write) : Prop where
  same : k.Same (k.write w)
  lock : w ≠ .spinLock
  unlock : w ≠ .spinUnlock

theorem Write.Aside.of_plain (plain : w.plain) (lock : w ≠ .spinLock) (unlock : w ≠ .spinUnlock) :
    w.Aside k :=
  ⟨Kernel.same_of_plain plain, lock, unlock⟩

theorem Write.Aside.of_none : Write.none.Aside k := .of_plain rfl nofun nofun

theorem Code.steps_aside (placed : k.runningCpu t = some c) (steps : Code.Steps cfg c t k l w l') :
    w.Aside k := by
  cases steps with
  | exitCpu => exact ⟨Kernel.same_of_running placed, nofun, nofun⟩
  | destroyClear idle => exact ⟨Kernel.same_of_destroy idle, nofun, nofun⟩
  | _ => exact .of_plain rfl nofun nofun

structure Machine.Sound (v : Machine) : Prop where
  spin : ∀ {c}, (v.cpu c).holds → v.mem.schedSpin
  single : ∀ {c d}, (v.cpu c).holds → (v.cpu d).holds → c = d
  distinct : ∀ {c d t}, v.mem.current c = some t → v.mem.current d = some t → c = d
  cpus : ∀ c, (v.cpu c).Ok v.mem c

variable {v v' : Machine}

theorem Machine.Sound.aside {code : Tid → Code} (sound : v.Sound) (aside : w.Aside v.mem) :
    Machine.Sound ⟨v.mem.write w, code, v.cpu⟩ := by
  constructor
  · intro c holds
    exact (Kernel.write_schedSpin aside.lock aside.unlock).trans (sound.spin holds)
  · exact sound.single
  · intro c d t first second
    rw [aside.same.current] at first second
    exact sound.distinct first second
  · exact fun c => aside.same.switch (sound.cpus c)

theorem Machine.Sound.assemble (sound : v.Sound) (here : v'.cpu c = pc)
    (there : ∀ {d}, d ≠ c → v'.cpu d = v.cpu d) (own : pc.Ok v'.mem c)
    (others : ∀ d, d ≠ c → (v.cpu d).Ok v'.mem d) (spin : pc.holds → v'.mem.schedSpin)
    (rest : ∀ d, d ≠ c → (v.cpu d).holds → pc.holds = false ∧ v'.mem.schedSpin)
    (distinct : ∀ {e d t}, v'.mem.current e = some t → v'.mem.current d = some t → e = d) :
    v'.Sound := by
  constructor
  · intro d holds
    by_cases same : d = c
    · rw [same, here] at holds
      exact spin holds
    · rw [there same] at holds
      exact (rest d same holds).2
  · intro d e first second
    by_cases one : d = c
    · by_cases two : e = c
      · rw [one, two]
      · rw [one, here] at first
        rw [there two] at second
        cases (rest e two second).1.symm.trans first
    · rw [there one] at first
      by_cases two : e = c
      · rw [two, here] at second
        cases (rest d one first).1.symm.trans second
      · rw [there two] at second
        exact sound.single first second
  · exact distinct
  · intro d
    by_cases same : d = c
    · rw [same, here]
      exact own
    · rw [there same]
      exact others d same

theorem Machine.Sound.switch (sound : v.Sound) (steps : SwitchPc.Steps cfg c v.mem (v.cpu c) w pc)
    (free : v.mem.free w) : Machine.Sound ⟨v.mem.write w, v.code, update v.cpu c pc⟩ := by
  have own : pc.Ok (v.mem.write w) c := (sound.cpus c).step steps
  have effect := SwitchPc.step_effect (sound.cpus c) steps
  have outside : (v.cpu c).holds → ∀ d, d ≠ c → (v.cpu d).holds = false := fun holds d other =>
    Bool.eq_false_iff.mpr fun both => other (sound.single both holds)
  have alone : (v.cpu c).holds → ∀ {P : Prop}, ∀ d, d ≠ c → (v.cpu d).holds → P :=
    fun holds _ d other both => nomatch (outside holds d other).symm.trans both
  have held : (v.cpu c).holds → v.mem.schedSpin := sound.spin
  have before := sound.cpus c
  have here : (⟨v.mem.write w, v.code, update v.cpu c pc⟩ : Machine).cpu c = pc := update_self ..
  have there : ∀ {d}, d ≠ c → (⟨v.mem.write w, v.code, update v.cpu c pc⟩ : Machine).cpu d = v.cpu d :=
    fun other => update_of_ne other ..
  generalize v.cpu c = was at effect outside alone held before
  cases effect with
  | lock _ after _ =>
    have unheld : v.mem.schedSpin = false := Bool.not_eq_true' _ ▸ free
    apply sound.assemble here there own
    · exact fun d _ => (Kernel.same_of_plain (w := .spinLock) rfl).switch (sound.cpus d)
    · exact fun _ => rfl
    · exact fun d _ holds => nomatch unheld.symm.trans (sound.spin holds)
    · exact sound.distinct
  | unlock holds after _ =>
    apply sound.assemble here there own
    · exact fun d _ => (Kernel.same_of_plain (w := .spinUnlock) rfl).switch (sound.cpus d)
    · exact fun holds => nomatch after.symm.trans holds
    · exact alone holds
    · exact sound.distinct
  | plain plain lock unlock _ same =>
    have still := Kernel.write_schedSpin (k := v.mem) lock unlock
    have alike := Kernel.same_of_plain (k := v.mem) plain
    apply sound.assemble here there own
    · exact fun d _ => alike.switch (sound.cpus d)
    · intro holds
      rw [still]
      exact held (same ▸ holds)
    · intro d other holds
      rw [still]
      refine ⟨?_, sound.spin holds⟩
      rw [same]
      exact Bool.eq_false_iff.mpr fun both => alone both d other holds
    · rw [alike.current]
      exact sound.distinct
  | running holds after placed _ =>
    apply sound.assemble here there own
    · intro d other
      apply (sound.cpus d).of_running (outside holds d other)
      intro theirs
      rcases placed with mine | mine
      · exact other (sound.distinct theirs mine)
      · have anchored := (sound.cpus d).anchored (outside holds d other) _ theirs
        exact other (Option.some.inj (anchored.symm.trans mine))
    · exact fun _ => held holds
    · exact alone holds
    · exact sound.distinct
  | @current prev next =>
    have kept : ∀ {d}, d ≠ c → (v.mem.write (.current c next)).current d = v.mem.current d :=
      fun other => update_of_ne other ..
    have taken : (v.mem.write (.current c next)).current c = some next := update_self ..
    have nobody : ∀ {d}, d ≠ c → v.mem.current d ≠ some next := by
      intro d other theirs
      have anchored := (sound.cpus d).anchored (outside rfl d other) _ theirs
      rcases before.2 with idle | mine
      · cases idle.symm.trans anchored
      · exact other (Option.some.inj (anchored.symm.trans mine))
    apply sound.assemble here there own
    · exact fun d other => (sound.cpus d).of_current (outside rfl d other) (kept other)
    · exact fun _ => held rfl
    · exact alone rfl
    · intro e d t first second
      by_cases one : e = c
      · by_cases two : d = c
        · rw [one, two]
        · rw [one, taken] at first
          rw [kept two, ← first] at second
          exact absurd second (nobody two)
      · rw [kept one] at first
        by_cases two : d = c
        · rw [two, taken] at second
          rw [← second] at first
          exact absurd first (nobody one)
        · rw [kept two] at second
          exact sound.distinct first second
  | destroy holds after idle _ =>
    have alike := Kernel.same_of_destroy idle
    apply sound.assemble here there own
    · exact fun d _ => alike.switch (sound.cpus d)
    · exact fun _ => held holds
    · exact alone holds
    · exact sound.distinct

theorem Machine.Sound.steps_aside (sound : v.Sound) (runs : v.runs c = some t)
    (steps : Code.Steps cfg c t v.mem l w l') : w.Aside v.mem := by
  obtain ⟨out, current⟩ := Machine.runs_eq runs
  have placed := sound.cpus c
  rw [out] at placed
  exact Code.steps_aside (placed _ current) steps

theorem Machine.Sound.step (sound : v.Sound) (ran : v.step cfg a = some v') : v'.Sound := by
  cases Machine.step_steps ran with
  | @run c t w l runs steps free =>
    exact sound.aside (sound.steps_aside runs steps)
  | call runs may => exact sound.aside (w := .none) .of_none
  | @interrupt c voluntary kernelMode out =>
    have before := sound.cpus c
    rw [out] at before
    apply sound.assemble (c := c) (update_self ..) (fun other => update_of_ne other ..)
    · exact before
    · exact fun d _ => sound.cpus d
    · nofun
    · exact fun d _ holds => ⟨rfl, sound.spin holds⟩
    · exact sound.distinct
  | switch steps free => exact sound.switch steps free

/-- Every CPU runs the code of its current thread, whose `running_cpu` it is. -/
structure Machine.Starts (v : Machine) : Prop where
  out : ∀ c, v.cpu c = .out
  placed : ∀ {c t}, v.mem.current c = some t → v.mem.runningCpu t = some c

theorem Machine.Starts.sound (start : v.Starts) : v.Sound := by
  constructor
  · intro c holds
    rw [start.out] at holds
    cases holds
  · intro c d holds
    rw [start.out] at holds
    cases holds
  · intro c d t first second
    exact Option.some.inj ((start.placed first).symm.trans (start.placed second))
  · intro c
    rw [start.out]
    exact fun t here => start.placed here

/-- The thread that the CPU takes as its current one in its next step. -/
def SwitchPc.taking : SwitchPc → Option Tid
  | setCurrent _ next => some next
  | _ => none

/-- The CPU `c` does not take a thread whose stack `d` still runs on. -/
def Machine.Yields (v : Machine) (c d : Cpu) : Prop :=
  d = c ∨ (v.cpu c).taking = none ∨ (v.cpu d).leaving ≠ (v.cpu c).taking

/-- A CPU does not take a thread as its current one while another CPU is on its way off that
thread's stack: behind the release of the locks and before the end of `thread_load_context`. -/
def Machine.Waits (v : Machine) : Act → Prop
  | .switch c => ∀ d, v.Yields c d
  | _ => True

/-- The current thread of a CPU is not the current one of another, and no other CPU runs on its
stack. -/
def Machine.Apart (v : Machine) : Prop :=
  ∀ c d t, c ≠ d → v.mem.current c = some t → v.mem.current d ≠ some t ∧ (v.cpu d).leaving ≠ some t

theorem SwitchPc.Effect.cases_current (effect : SwitchPc.Effect k c pc w pc') :
    (k.write w).current = k.current ∧ pc.Stays pc' ∨
      ∃ prev next, pc = setCurrent prev next ∧ w = .current c next ∧ pc' = setState prev next := by
  cases effect with
  | lock _ _ stays | unlock _ _ stays | running _ _ _ stays | destroy _ _ _ stays =>
    exact .inl ⟨rfl, stays⟩
  | plain plain _ _ _ _ stays => exact .inl ⟨(Kernel.same_of_plain plain).current, stays⟩
  | current => exact .inr ⟨_, _, rfl, rfl, rfl⟩

/-- No CPU runs on the stack of another's current thread. -/
def Machine.Clear (v : Machine) : Prop :=
  ∀ c d t, c ≠ d → v.mem.current c = some t → (v.cpu d).leaving ≠ some t

theorem Machine.Clear.stays (clear : v.Clear) (here : v'.cpu c = pc)
    (there : ∀ {d}, d ≠ c → v'.cpu d = v.cpu d) (current : v'.mem.current = v.mem.current)
    (stays : (v.cpu c).Stays pc) : v'.Clear := by
  intro e d t apart theirs
  rw [current] at theirs
  by_cases same : d = c
  · subst same
    rw [here]
    rcases stays with leaves | free
    · rw [leaves]
      exact clear _ _ _ apart theirs
    · rw [free]
      nofun
  · rw [there same]
    exact clear _ _ _ apart theirs

theorem Machine.Clear.step (clear : v.Clear) (sound : v.Sound) (waits : v.Waits a)
    (ran : v.step cfg a = some v') : v'.Clear := by
  cases Machine.step_steps ran with
  | @run c t w l runs steps free =>
    have aside := sound.steps_aside runs steps
    intro e d x apart theirs
    rw [aside.same.current] at theirs
    exact clear _ _ _ apart theirs
  | call runs may => exact clear
  | @interrupt c voluntary kernelMode out =>
    refine clear.stays (c := c) (update_self ..) (fun other => update_of_ne other ..) ?_ (.inr rfl)
    rfl
  | @switch c w pc steps free =>
    rcases (SwitchPc.step_effect (sound.cpus c) steps).cases_current with ⟨same, stays⟩ | ⟨prev, next, place, rfl, rfl⟩
    · exact clear.stays (update_self ..) (fun other => update_of_ne other ..) same stays
    have before := sound.cpus c
    rw [place] at before
    intro e d t apart theirs
    by_cases mine : d = c
    · subst mine
      have leaves : (update v.cpu d (.setState prev next) d).leaving = prev := by rw [update_self]; rfl
      have kept : v.mem.current e = some t := (update_of_ne apart ..).symm.trans theirs
      intro left
      exact apart (sound.distinct kept (before.1.trans (leaves.symm.trans left)))
    · have stands : update v.cpu c (.setState prev next) d = v.cpu d := update_of_ne mine ..
      by_cases taken : e = c
      · subst taken
        have new : (v.mem.write (.current e next)).current e = some next := update_self ..
        obtain rfl : next = t := Option.some.inj (new.symm.trans theirs)
        intro left
        rcases waits d with same | idle | differs
        · exact mine same
        · rw [place] at idle
          cases idle
        · rw [place] at differs
          exact differs ((congrArg SwitchPc.leaving stands).symm.trans left)
      · have kept : v.mem.current e = some t := (update_of_ne taken ..).symm.trans theirs
        intro left
        exact clear _ _ _ apart kept ((congrArg SwitchPc.leaving stands).symm.trans left)

/-- Two CPUs never have the same current thread, however their steps interleave. -/
theorem currents_distinct (start : v.Starts) (run : Reaches (Machine.step cfg) Free v v')
    (first : v'.mem.current c = some t) (second : v'.mem.current d = some t) : c = d := by
  have sound : v'.Sound :=
    run.invariant (I := Machine.Sound) (fun sound _ ran => sound.step ran) start.sound
  exact sound.distinct first second

theorem Machine.Starts.clear (start : v.Starts) : v.Clear := by
  intro c d t
  rw [start.out]
  nofun

/-- Two threads of one process; CPU 0 runs thread 0 in user mode, CPU 1 has no current thread. -/
def twoCpus : Machine where
  mem :=
    { threads := ⟨fun t => ⟨t < 2, if t = 0 then .running else .runnable, none⟩, false⟩
      runningCpu := fun t => if t = 0 then some 0 else none
      proc := fun t => if t < 2 then some 1 else none
      listed := fun t => if t < 2 then some 1 else none
      curThread := fun p => if p = 1 then some 0 else none
      preferredCpu := fun _ => none
      lastCpu := fun _ => none
      reapable := fun _ => false
      reapablePending := 0
      current := fun c => if c = 0 then some 0 else none
      schedSpin := false
      deadPending := 0 }
  code := fun _ => .user
  cpu := fun _ => .out

/-- Two slots for threads, and no limits on migration. -/
def smallConfig : Config := ⟨2, 2, 32, false, true, 0⟩

theorem twoCpus_starts : twoCpus.Starts := by
  constructor
  · exact fun _ => rfl
  · intro c t here
    by_cases zero : c = 0
    · subst zero
      cases here
      rfl
    · cases (if_neg zero).symm.trans here

theorem currents_distinct_twoCpus : twoCpus.Starts ∧ ∃ v : Machine, ∀ d, v.mem.current d = some 1 ↔
    d = 1 := by
  have ran : ∃ v, Reaches (Machine.step smallConfig) Free twoCpus v ∧ decide (v.mem.current 1 = some 1) :=
    Reaches.exists_of_exec (.interrupt 0 false :: .interrupt 1 false :: List.replicate 15 (.switch 1)) (by decide +kernel)
  obtain ⟨v, run, seen⟩ := ran
  have here := of_decide_eq_true seen
  exact ⟨twoCpus_starts, v, fun d => ⟨(currents_distinct twoCpus_starts run · here), (· ▸ here)⟩⟩

end Otsos.Sched
