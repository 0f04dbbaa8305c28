import Otsos.Sched.Currents

/-! The big kernel lock (`smp_lock` and `smp_unlock` in `kernel/smp/smp.c`) around the interrupts:
`irq_common` (`kernel/interrupts/idt.asm`) takes it before `irq_handler`, which calls
`scheduler_switch`, and gives it back behind it. The threads take and release the lock whenever they
want. -/
namespace Otsos.Sched
open Function (update update_self update_of_ne)
open Transition

/-- `smp_bkl`; no owner is `0xFF`. -/
structure Bkl where
  locked : Bool
  owner : Option Cpu
  recursion : Nat

/-- Where a CPU is in `smp_lock`. -/
inductive LockPc where
  | test
  | exchange
  | own
deriving DecidableEq

/-- One step of `smp_lock` on CPU `c`; none behind it: it returned. -/
def LockPc.step (c : Cpu) (b : Bkl) : LockPc → Bkl × Option LockPc
  | test =>
    if b.locked ∧ b.owner = some c then ({ b with recursion := b.recursion + 1 }, none)
      else (b, some exchange)
  | exchange => ({ b with locked := true }, some (if b.locked then exchange else own))
  -- `recursion` is read by the owner only
  | own => ({ b with owner := some c, recursion := 0 }, none)

/-- Where a CPU is in `smp_unlock`. -/
inductive UnlockPc where
  | test
  | store
deriving DecidableEq

/-- One step of `smp_unlock`; `none` is its panic. -/
def UnlockPc.step (c : Cpu) (b : Bkl) : UnlockPc → Option (Bkl × Option UnlockPc)
  | test =>
    if !b.locked ∨ b.owner ≠ some c then none
    else if b.recursion > 0 then some ({ b with recursion := b.recursion - 1 }, none)
    else some ({ b with owner := none }, some store)
  | store => some ({ b with locked := false }, none)

/-- A CPU runs its current thread, is in `smp_lock` (called by `irq_common` or by the thread), in
`irq_handler`, or in `smp_unlock`. -/
inductive Place where
  | code
  | lock (irq : Bool) (at_ : LockPc)
  | handler
  | unlock (at_ : UnlockPc)
deriving DecidableEq

structure Smp where
  machine : Machine
  bkl : Bkl
  place : Cpu → Place

inductive SmpAct where
  -- a step of a thread, an interrupt that comes in, or a step of `scheduler_switch`
  | machine (a : Act)
  -- the current thread calls `smp_lock` or `smp_unlock`
  | lock (c : Cpu)
  | unlock (c : Cpu)
  -- the next step in one of these
  | next (c : Cpu)
  -- `irq_handler` returns
  | done (c : Cpu)

namespace Smp

/-- `scheduler_switch` runs in `irq_handler`, and everything else on a CPU outside of the lock's
functions. -/
def place? : Act → Cpu × Place
  | .run c | .call c _ | .interrupt c _ => (c, .code)
  | .switch c => (c, .handler)

def goes (w : Smp) (c : Cpu) (p : Place) : Smp := { w with place := update w.place c p }

/-- `irq_common` calls `smp_lock`. -/
def after (w : Smp) : Act → Smp
  | .interrupt c _ => w.goes c (.lock true .test)
  | .run _ | .call _ _ | .switch _ => w

def step (cfg : Config) (w : Smp) : SmpAct → Option Smp
  | .machine a =>
    if w.place (place? a).1 = (place? a).2 then
      (w.machine.step cfg a).map fun machine => { w.after a with machine }
    else none
  | .lock c => if w.place c = .code then some (w.goes c (.lock false .test)) else none
  | .unlock c => if w.place c = .code then some (w.goes c (.unlock .test)) else none
  | .next c =>
    match w.place c with
    | .lock irq at_ =>
      let (bkl, next) := at_.step c w.bkl
      some { w.goes c (next.elim (if irq then .handler else .code) (.lock irq)) with bkl }
    | .unlock at_ => (at_.step c w.bkl).map fun (bkl, next) =>
      { w.goes c (next.elim .code .unlock) with bkl }
    | .code | .handler => none
  | .done c =>
    if w.place c = .handler ∧ (w.machine.cpu c matches .out) then some (w.goes c (.unlock .test))
      else none

end Smp

/-- The lock is taken and has no owner yet, or no longer. -/
def Place.between : Place → Bool
  | .lock _ .own | .unlock .store => true
  | _ => false

/-- A CPU in `irq_handler` owns the lock, and on every other CPU `scheduler_switch` has not
begun. -/
structure Smp.Held (w : Smp) : Prop where
  free : w.bkl.locked = false → w.bkl.owner = none
  owns : ∀ c, w.place c = .handler → w.bkl.locked ∧ w.bkl.owner = some c
  between : ∀ c, (w.place c).between → w.bkl.locked ∧ w.bkl.owner = none
  single : ∀ c d, (w.place c).between → (w.place d).between → c = d
  quiet : ∀ c, w.place c ≠ .handler → (w.machine.cpu c).leaving = none

variable {w w' : Smp}

namespace Smp.Held

theorem alone (held : w.Held) (first : w.place c = .handler) (second : w.place d = .handler) :
    c = d :=
  Option.some.inj ((held.owns c first).2.symm.trans (held.owns d second).2)

/-- A CPU goes on, with what that does to the lock. -/
theorem goes (held : w.Held) (b : Bkl) (p : Place) (free : b.locked = false → b.owner = none)
    (own : p = .handler → b.locked ∧ b.owner = some c) (mid : p.between → b.locked ∧ b.owner = none)
    (quiet : p ≠ .handler → (w.machine.cpu c).leaving = none)
    (others : ∀ d, d ≠ c → (w.place d = .handler → b.locked ∧ b.owner = some d) ∧
      ((w.place d).between → (b.locked ∧ b.owner = none) ∧ p.between = false)) :
    Held { w.goes c p with bkl := b } := by
  have here : update w.place c p c = p := update_self ..
  have there : ∀ {d}, d ≠ c → update w.place c p d = w.place d := fun other => update_of_ne other ..
  obtain ⟨_, _, _, single, still⟩ := held
  refine ⟨free, fun d at_ => ?_, fun d at_ => ?_, fun d e one two => ?_, fun d away => ?_⟩ <;>
    simp only [Smp.goes] at * <;> grind

theorem lock (held : w.Held) (here : w.place c = .lock irq at_) :
    Held { w.goes c ((at_.step c w.bkl).2.elim (if irq then .handler else .code) (.lock irq)) with
      bkl := (at_.step c w.bkl).1 } := by
  have quiet := held.quiet c (by simp [here])
  have mine := held.between c
  have ⟨free, owns, between, single, _⟩ := held
  rw [here] at mine
  cases at_ with
  | test => refine held.goes _ _ ?_ ?_ ?_ (fun _ => quiet) ?_ <;> grind [LockPc.step, Place.between]
  | exchange => refine held.goes _ _ ?_ ?_ ?_ (fun _ => quiet) ?_ <;>
      grind [LockPc.step, Place.between]
  | own =>
    -- the lock is taken and nobody else has just taken it
    have alone : ∀ d, d ≠ c → (w.place d).between = false := fun d other =>
      Bool.eq_false_iff.mpr fun both => other (single d c both (by rw [here]; rfl))
    refine held.goes _ _ ?_ ?_ ?_ (fun _ => quiet) ?_ <;> grind [LockPc.step, Place.between]

theorem unlock (held : w.Held) (here : w.place c = .unlock at_)
    (ran : at_.step c w.bkl = some (b, next)) :
    Held { w.goes c (next.elim .code .unlock) with bkl := b } := by
  have quiet := held.quiet c (by simp [here])
  have mine := held.between c
  have ⟨free, owns, between, single, _⟩ := held
  rw [here] at mine
  cases at_ with
  | test => refine held.goes _ _ ?_ ?_ ?_ (fun _ => quiet) ?_ <;>
      grind [UnlockPc.step, Place.between]
  | store => refine held.goes _ _ ?_ ?_ ?_ (fun _ => quiet) ?_ <;>
      grind [UnlockPc.step, Place.between]

/-- While a CPU is in `scheduler_switch`, no other is on its way off a stack. -/
theorem waits (held : w.Held) (ready : w.place (place? a).1 = (place? a).2) :
    w.machine.Waits a := by
  cases a with
  | switch c =>
    intro d
    by_cases same : d = c
    · exact .inl same
    have away := held.quiet d fun there => same (held.alone there ready)
    by_cases idle : (w.machine.cpu c).taking = none
    · exact .inr (.inl idle)
    · rw [Machine.Yields, away]
      exact .inr (.inr (Ne.symm idle))
  | run | call | interrupt => trivial

theorem machine (held : w.Held) (ready : w.place (place? a).1 = (place? a).2)
    (ran : w.machine.step cfg a = some v) : Held { w.after a with machine := v } := by
  cases Machine.step_steps ran with
  | run | call => exact { held with }
  | @interrupt c voluntary kernelMode out =>
    have quiet : (w.machine.cpu c).leaving = none := by rw [out]; rfl
    have entered :=
      held.goes (c := c) w.bkl (.lock true .test) held.free nofun nofun (fun _ => quiet)
        fun d _ => ⟨held.owns d, fun mid => ⟨held.between d mid, rfl⟩⟩
    refine { entered with quiet := fun d away => ?_ }
    by_cases same : d = c
    · subst same
      have starts : update w.machine.cpu d (.start voluntary kernelMode) d = .start voluntary kernelMode := update_self ..
      exact congrArg SwitchPc.leaving starts
    · exact (congrArg SwitchPc.leaving (update_of_ne same ..)).trans (entered.quiet d away)
  | @switch c w' pc steps free =>
    refine { held with quiet := fun d away => ?_ }
    have other : d ≠ c := by
      rintro rfl
      exact away ready
    exact (congrArg SwitchPc.leaving (update_of_ne other ..)).trans (held.quiet d away)

/-- The machine stands still or takes a step that waits for the others. -/
theorem step (held : w.Held) (ran : w.step cfg a = some w') : w'.Held ∧
    (w'.machine = w.machine ∨ ∃ b, w.machine.Waits b ∧ w.machine.step cfg b = some w'.machine) := by
  have idle : ∀ {c p}, w.place c ≠ .handler ∨ w.machine.cpu c = .out → p ≠ .handler →
      p.between = false → (w.goes c p).Held := by
    intro c p away out closed
    apply held.goes w.bkl p held.free (fun there => absurd there out)
      (fun mid => nomatch closed.symm.trans mid)
    · intro _
      rcases away with away | away
      · exact held.quiet c away
      · rw [away]
        rfl
    · exact fun d _ => ⟨held.owns d, fun mid => ⟨held.between d mid, closed⟩⟩
  cases a with
  | machine a =>
    obtain ⟨ready, ran⟩ := Option.ite_none_right_eq_some.mp ran
    obtain ⟨v, moved, rfl⟩ := Option.map_eq_some_iff.mp ran
    exact ⟨held.machine ready moved, .inr ⟨a, held.waits ready, moved⟩⟩
  | lock c | unlock c =>
    obtain ⟨here, ran⟩ := Option.ite_none_right_eq_some.mp ran
    cases ran
    exact ⟨idle (.inl (by rw [here]; nofun)) nofun rfl, .inl rfl⟩
  | next c =>
    rw [Smp.step] at ran
    split at ran
    · next here =>
      cases ran
      exact ⟨held.lock here, .inl rfl⟩
    · next here =>
      obtain ⟨⟨b, next⟩, stepped, rfl⟩ := Option.map_eq_some_iff.mp ran
      exact ⟨held.unlock here stepped, .inl rfl⟩
    · cases ran
    · cases ran
  | done c =>
    obtain ⟨⟨-, back⟩, ran⟩ := Option.ite_none_right_eq_some.mp ran
    cases ran
    have out : w.machine.cpu c = .out := by
      split at back
      · assumption
      · cases back
    exact ⟨idle (.inr out) nofun rfl, .inl rfl⟩

end Smp.Held

/-- Nobody is in an interrupt, and the lock is free or a CPU has it. -/
structure Smp.Starts (w : Smp) : Prop where
  machine : w.machine.Starts
  code : ∀ c, w.place c = .code
  free : w.bkl.locked = false → w.bkl.owner = none

theorem Smp.Starts.held (start : w.Starts) : w.Held := by
  have code := start.code
  refine ⟨start.free, ?_, ?_, ?_, ?_⟩
  · intro c there
    cases (code c).symm.trans there
  · intro c mid
    rw [code] at mid
    cases mid
  · intro c d mid
    rw [code] at mid
    cases mid
  · intro c _
    rw [start.machine.out]
    rfl

/-- In every run no thread runs on two CPUs: the current thread of a CPU is not the current one of
another, and no other CPU is still on its way off that thread's stack. -/
theorem switch_apart (start : w.Starts) (run : Reaches (Smp.step cfg) Free w w') :
    w'.machine.Apart := by
  have good : w'.Held ∧ w'.machine.Sound ∧ w'.machine.Clear := by
    apply run.invariant (I := fun w => w.Held ∧ w.machine.Sound ∧ w.machine.Clear) _
      ⟨start.held, start.machine.sound, start.machine.clear⟩
    rintro w a w' ⟨held, sound, clear⟩ - ran
    obtain ⟨held', still | ⟨b, waits, moved⟩⟩ := held.step ran
    · exact ⟨held', still ▸ sound, still ▸ clear⟩
    · exact ⟨held', sound.step moved, clear.step sound waits moved⟩
  intro c d t apart current
  exact ⟨fun theirs => apart (good.2.1.distinct current theirs), good.2.2 c d t apart current⟩

/-- The lock is free. -/
def twoCpusFree : Smp := ⟨twoCpus, ⟨false, none, 0⟩, fun _ => .code⟩

/-- CPU 1 waits for the lock while CPU 0 switches, and then takes thread 0, which CPU 0 has left. -/
theorem switch_apart_handover : ∃ w, Reaches (Smp.step smallConfig) Free twoCpusFree w ∧
    w.machine.mem.current 0 = some 1 ∧ w.machine.mem.current 1 = some 0 ∧ w.machine.Apart := by
  have start : twoCpusFree.Starts := ⟨twoCpus_starts, fun _ => rfl, fun _ => rfl⟩
  obtain ⟨w, run, seen⟩ : ∃ w, Reaches (Smp.step smallConfig) Free twoCpusFree w ∧
      decide (w.machine.mem.current 0 = some 1 ∧ w.machine.mem.current 1 = some 0) :=
    Reaches.exists_of_exec ([.machine (.interrupt 0 false), .next 0, .next 0, .next 0,
      .machine (.interrupt 1 false), .next 1, .next 1] ++ List.replicate 20
      (.machine (.switch 0)) ++
      [.next 1, .done 0, .next 0, .next 0, .next 1, .next 1] ++ List.replicate 15 (.machine (.switch 1)))
      (by decide +kernel)
  obtain ⟨zero, one⟩ := of_decide_eq_true seen
  exact ⟨w, run, zero, one, switch_apart start run⟩

end Otsos.Sched
