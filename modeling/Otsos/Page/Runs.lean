import Otsos.Foundation.Transition
import Otsos.Page.Accounting

/-! Runs of the page layer from start-up on. -/
namespace Otsos.VmPage

open Function (update)
open List Option VmPhys
open Transition (exec Reaches)

/-- `vm_page_startup` with the sorted memory ranges and the page array it has obtained; ranges that
would free a page twice are refused, bootmem reports none. -/
def startup (array : VmPhys) (pageTotal : Nat) (ranges : List (UInt64 × UInt64)) : Option VmPage :=
  do
  let ledger ← run (.start array pageTotal)
    (ranges.map (fun r => .addSeg r.1 r.2) ++ ranges.map (fun r => .freeRange r.1 r.2))
  return ⟨ledger.state, fun _ => none, fun _ => none, fun _ => 0, 0⟩

/-- The entry points of the page layer with their arguments. -/
inductive Op where
  | alloc (flags : AllocFlags)
  | allocContig (pageTotal : UInt32) (alignment low high : UInt64)
  | free (page : Option Nat)
  | freePhys (physAddr : UInt64)
  | freeContig (physAddr : UInt64) (pageTotal : UInt32)
  | ref (page : Option Nat)
  | unref (page : Option Nat)
  | wire (page : Option Nat)
  | unwire (page : Option Nat)
  | activate (page : Option Nat)
  | deactivate (page : Option Nat)
  | dequeue (page : Option Nat)
  | reserveRange (physStart size : UInt64)

def step (s : VmPage) : Op → Option VmPage
  | .alloc flags => (s.alloc flags).map Prod.snd
  | .allocContig n alignment low high =>
    (s.allocContig n.toNat alignment.toNat low.toNat high.toNat).map Prod.snd
  | .free page => s.free page
  | .freePhys physAddr => (s.freePhys physAddr.toNat).map Prod.snd
  | .freeContig physAddr n => s.freeContig physAddr.toNat n.toNat
  | .ref page => s.ref page
  | .unref page => (s.unref page).map Prod.snd
  | .wire page => s.wire page
  | .unwire page => s.unwire page
  | .activate page => s.activate page
  | .deactivate page => s.deactivate page
  | .dequeue page => s.dequeue page
  | .reserveRange start size => s.reserveRange start.toNat size.toNat

/-- A page pointer is null or points to a page of a segment. -/
def Managed (s : VmPage) (page : Option Nat) : Prop := ∀ p ∈ page, p < s.phys.managed

/-- A page pointer is null or points to an allocated page. -/
def Allocated (s : VmPage) (page : Option Nat) : Prop :=
  ∀ p ∈ page, p < s.phys.managed ∧ (s.phys.flags p).allocated = true

/-- What the callers of the page layer promise. -/
def Allowed (s : VmPage) : Op → Prop
  | .free page | .ref page | .unref page => Managed s page
  | .wire page | .unwire page | .activate page | .deactivate page | .dequeue page =>
    Allocated s page
  | .freeContig physAddr n =>
    ∀ page, s.phys.paddrToPage physAddr.toNat = some page → page + n.toNat ≤ s.phys.managed
  | _ => True

/-- A reservation covers no queued and no wired page, and no page is wired again after its 32-bit
wire count has wrapped around to zero. -/
def Clear (s : VmPage) : Op → Prop
  | .reserveRange start size =>
    ∀ i, VmPhys.InRange s.phys (pageFloor start.toNat)
        (pageFloor (u64 (u64 (start.toNat + size.toNat) + (pageSize - 1)))) i →
      s.phys.queue i = pqNone ∧ (s.phys.flags i).wired = false
  | .wire (some p) => s.phys.wireCount p = 0 → (s.phys.flags p).wired = false
  | _ => True

/-- The queues are consistent lists of the length their counters say, a page is on a queue exactly
when it names it and only if it is allocated and not wired, and the wired pages are counted. -/
structure Consistent (s : VmPage) : Prop where
  queues : ∀ q, q ≠ pqNone → q < pqCount → ∃ l,
    Intrusive.Queue s.phys.qlinksNext s.phys.qlinksPrev (s.queueHead q) (s.queueTail q) l ∧
      s.queueCount q = l.length ∧ ∀ p, p ∈ l ↔ p < s.phys.managed ∧ s.phys.queue p = q
  named : ∀ p < s.phys.managed, s.phys.queue p < pqCount
  queued : ∀ p < s.phys.managed, s.phys.queue p ≠ pqNone →
    (s.phys.flags p).allocated = true ∧ (s.phys.flags p).wired = false
  wiredCount : s.wired = (wiredPages s.phys).card

theorem Accounts.consistent (accounts : Accounts s) : Consistent s :=
  ⟨fun q valid small => by
    obtain ⟨l, queue, members, count⟩ := accounts.queues.lists q valid small
    exact ⟨l, queue, count, members⟩, accounts.queues.bounded, accounts.queued, accounts.wiredCount⟩

variable {ranges : List (UInt64 × UInt64)} {pageTotal : Nat}

section Start
variable {next : VmPhys.Ledger}

/-- No page is queued or wired yet. -/
structure Unused (ledger : VmPhys.Ledger) : Prop where
  good : ledger.Good
  pages : ∀ i < ledger.state.managed, ledger.state.queue i = pqNone ∧
    (ledger.state.flags i).wired = false

theorem unused_step (unused : Unused ledger) {op : VmPhys.Op}
    (kind : op = .addSeg start stop ∨ op = .freeRange start stop)
    (stepped : VmPhys.step ledger op = some next) : Unused next := by
  refine ⟨step_good unused.good stepped, ?_⟩
  have quiet := unused.good.quiet
  rcases kind with rfl | rfl
  · simp only [VmPhys.step, Option.bind_eq_bind, Option.bind_eq_some_iff, Option.pure_def, Option.some.injEq] at stepped
    obtain ⟨⟨_, t⟩, runs, rfl⟩ := stepped
    rcases addSeg_spec quiet stop.toNat_lt runs with ⟨_, rfl⟩ | ⟨_, _, u, fresh, rfl, reset, _⟩
    · exact unused.pages
    intro i bound
    have first := fresh.first
    rw [reset.managed] at bound
    change u.queue i = pqNone ∧ (u.flags i).wired = false
    by_cases old : i < ledger.state.managed
    · obtain ⟨flags, _, _, _, queue, _⟩ := reset.kept i (by omega)
      rw [flags, queue]
      exact unused.pages i old
    · obtain ⟨flags, _, _, _, queue, _⟩ := reset.unused i (by omega)
      rw [flags, queue]
      exact ⟨rfl, rfl⟩
  · simp only [VmPhys.step] at stepped
    split at stepped
    · rename_i excluded
      obtain ⟨t, runs, freed⟩ := freeRange_spec quiet start.toNat stop.toNat
        fun i range => excluded i (mem_pagesIn.mpr range)
      simp only [runs, Option.bind_eq_bind, Option.bind_some, Option.pure_def, Option.some.injEq] at stepped
      subst stepped
      intro i bound
      change i < t.managed at bound
      change t.queue i = pqNone ∧ (t.flags i).wired = false
      rw [freed.rest.managed] at bound
      rw [freed.rest.queue]
      by_cases inside : VmPhys.InRange ledger.state (pageFloor start.toNat) (pageFloor stop.toNat) i
      · rw [(freed.inside i inside).1]
        exact unused.pages i bound
      · rw [(freed.outside i inside).1]
        exact unused.pages i bound
    · contradiction

theorem startup_accounts (fits : pageTotal * 72 ≤ 2 ^ 64)
    (starts : startup array pageTotal ranges = some s) : Accounts s := by
  simp only [startup, Option.bind_eq_bind, Option.bind_eq_some_iff, Option.pure_def,
    Option.some.injEq] at starts
  obtain ⟨ledger, runs, rfl⟩ := starts
  have initial : Unused (.start array pageTotal) := by
    refine ⟨run_good fits (show run (.start array pageTotal) [] = _ from rfl), fun i bound => ?_⟩
    simp [VmPhys.Ledger.start, init, managed] at bound
  obtain ⟨good, pages⟩ := Loop.foldlM_inv VmPhys.step Unused
    (fun op member ledger next unused stepped => by
      simp only [List.mem_append, List.mem_map] at member
      rcases member with ⟨r, _, rfl⟩ | ⟨r, _, rfl⟩
      · exact unused_step unused (.inl rfl) stepped
      · exact unused_step unused (.inr rfl) stepped) initial runs
  refine ⟨good.quiet, ⟨?_, ?_, good.quiet.inv.layout.managed_le⟩, ?_, ?_, ?_⟩
  · intro q valid _
    refine ⟨[], .nil, fun p => ⟨fun absent => absurd absent not_mem_nil, ?_⟩, rfl⟩
    rintro ⟨bound, named⟩
    exact absurd (named.symm.trans (pages p bound).1) valid
  · intro p bound
    rw [(pages p bound).1]
    decide
  · intro p bound listed
    exact absurd (pages p bound).1 listed
  · intro p bound isWired
    have := (pages p bound).2
    simp only [this] at isWired
    contradiction
  · symm
    refine Finset.card_eq_zero.mpr (Finset.filter_eq_empty_iff.mpr fun i member => ?_)
    simp [(pages i (Finset.mem_range.mp member)).2]

end Start

section Run
theorem step_accounts (accounts : Accounts s) (allowed : Allowed s op) (clear : Clear s op)
    (stepped : step s op = some t) : Accounts t := by
  have unique : ∀ {o : Option VmPage}, (∃ u, o = some u ∧ Accounts u) → o = some t → Accounts t := by
    rintro o ⟨u, runs, accounts⟩ same
    rw [runs, Option.some.injEq] at same
    exact same ▸ accounts
  have idle := unique ⟨s, rfl, accounts⟩
  cases op with
  | alloc flags =>
    obtain ⟨page, u, runs, accounts⟩ := alloc_accounts accounts flags
    exact unique ⟨u, by simp [step, runs], accounts⟩ stepped
  | allocContig n alignment low high =>
    simp only [step, map_eq_some_iff] at stepped
    obtain ⟨⟨_, u⟩, runs, rfl⟩ := stepped
    exact allocContig_accounts accounts (by have := n.toNat_lt; omega) alignment.toNat_lt runs
  | free page =>
    cases page with
    | none => exact idle stepped
    | some p => exact unique (accounts.freeLocked (allowed p rfl)) stepped
  | freePhys physAddr =>
    obtain ⟨r, u, runs, accounts⟩ := freePhys_accounts accounts physAddr.toNat
    exact unique ⟨u, by simp [step, runs], accounts⟩ stepped
  | freeContig physAddr n => exact unique (freeContig_accounts accounts allowed) stepped
  | ref page =>
    cases page with
    | none => exact idle stepped
    | some p => exact unique (ref_accounts accounts (allowed p rfl)) stepped
  | unref page =>
    cases page with
    | none => exact idle stepped
    | some p =>
      obtain ⟨r, u, runs, accounts⟩ := unref_accounts accounts (allowed p rfl)
      exact unique ⟨u, by simp [step, runs], accounts⟩ stepped
  | wire page =>
    cases page with
    | none => exact idle stepped
    | some p =>
      exact unique (wire_accounts accounts (allowed p rfl).1 (allowed p rfl).2 clear) stepped
  | unwire page =>
    cases page with
    | none => exact idle stepped
    | some p => exact unique (unwire_accounts accounts (allowed p rfl).1 (allowed p rfl).2) stepped
  | activate page | deactivate page =>
    cases page with
    | none => exact idle stepped
    | some p =>
      exact unique (requeue_accounts accounts (allowed p rfl).1 (allowed p rfl).2 (by decide)
        (by decide)) stepped
  | dequeue page =>
    cases page with
    | none => exact idle stepped
    | some p =>
      obtain ⟨u, runs, accounts, _⟩ := accounts.queueRemove (allowed p rfl).1
      exact unique ⟨u, runs, accounts⟩ stepped
  | reserveRange start size =>
    exact unique (reserveRange_accounts accounts start.toNat size.toNat clear) stepped

/-- The calls that a run of the page layer may make. -/
def Step (s t : VmPage) : Prop := ∃ op, Allowed s op ∧ step s op = some t

def ClearStep (s t : VmPage) : Prop := ∃ op, Allowed s op ∧ Clear s op ∧ step s op = some t

/-- A run from start-up in which every reservation is clear of queued and wired pages, and no wire
count wraps around, keeps queues and counters consistent. -/
theorem clear_run_consistent (fits : pageTotal * 72 ≤ 2 ^ 64)
    (starts : startup array pageTotal ranges = some s)
    (runs : Relation.ReflTransGen ClearStep s t) : Consistent t := by
  have kept : Accounts t := by
    induction runs with
    | refl => exact startup_accounts fits starts
    | tail _ stepped accounts =>
      obtain ⟨_, allowed, clear, stepped⟩ := stepped
      exact step_accounts accounts allowed clear stepped
  exact kept.consistent

end Run

instance (s : VmPage) (op : Op) : Decidable (Allowed s op) := by
  cases op with
  | freeContig => exact inferInstanceAs (Decidable (∀ page ∈ s.phys.paddrToPage _, _))
  | _ =>
    unfold Allowed Managed Allocated
    infer_instance

instance (s : VmPage) (op : Op) : Decidable (Clear s op) := by
  cases op with
  | reserveRange start size =>
    refine decidable_of_iff (∀ i < s.phys.managed, pageFloor start.toNat ≤ s.phys.physAddr i →
      s.phys.physAddr i < pageFloor (u64 (u64 (start.toNat + size.toNat) + (pageSize - 1))) →
      s.phys.queue i = pqNone ∧ (s.phys.flags i).wired = false) ?_
    exact ⟨fun clear i inside => clear i inside.managed inside.low inside.high,
      fun clear i managed low high => clear i ⟨managed, low, high⟩⟩
  | wire page => cases page <;> unfold Clear <;> infer_instance
  | _ => exact inferInstanceAs (Decidable True)

/-- Of three pages one is on a queue, one is wired and the frame of the third is reserved. -/
theorem clear_run_consistent_threePages : ∃ s t, startup default 3 [(0x1000, 0x4000)] = some s ∧
    Relation.ReflTransGen ClearStep s t ∧ t.queueCount pqActive = 1 ∧ t.wired = 1 ∧
    (t.phys.flags 2).excluded ∧ Consistent t := by
  obtain ⟨s, starts, ran⟩ : ∃ s, startup default 3 [(0x1000, 0x4000)] = some s ∧
      (exec step (fun s op => Allowed s op ∧ Clear s op) s [.alloc {}, .alloc {}, .wire (some 1),
        .reserveRange 0x3000 0x1000]).any fun t =>
        t.queueCount pqActive = 1 ∧ t.wired = 1 ∧ (t.phys.flags 2).excluded := Loop.exists_of_any (by decide +kernel)
  obtain ⟨t, run, seen⟩ := Reaches.exists_of_exec _ ran
  obtain ⟨queued, wired, excluded⟩ := of_decide_eq_true seen
  have clear : Relation.ReflTransGen ClearStep s t :=
    Relation.ReflTransGen.mono (fun _ _ ⟨op, both, taken⟩ => ⟨op, both.1, both.2, taken⟩) _ _ run
  exact ⟨s, t, starts, clear, queued, wired, excluded,
    clear_run_consistent (by decide) starts clear⟩

/-- Reserving the frame of a page on the active queue leaves it queued though it is no longer
allocated. -/
theorem reserved_page_still_queued : ∃ s t,
    startup default 3 [(0x1000, 0x4000)] = some s ∧ Relation.ReflTransGen Step s t ∧
    ¬ Consistent t := by
  have value : ((startup default 3 [(0x1000, 0x4000)]).bind fun s =>
      (step s (.alloc {})).bind fun t => (step t (.reserveRange 0x1000 0x1000)).map fun u =>
        (u.phys.managed, u.phys.queue 0, (u.phys.flags 0).allocated)) = some (3, 1, false) := by
    decide +kernel
  obtain ⟨s, starts, value⟩ := bind_eq_some_iff.mp value
  obtain ⟨t, allocs, value⟩ := bind_eq_some_iff.mp value
  obtain ⟨u, reserves, value⟩ := map_eq_some_iff.mp value
  simp only [Prod.mk.injEq] at value
  obtain ⟨_, queue, allocated⟩ := value
  refine ⟨s, u, starts, .tail (.single ⟨.alloc {}, trivial, allocs⟩)
    ⟨.reserveRange 0x1000 0x1000, trivial, reserves⟩, ?_⟩
  intro consistent
  have bad := (consistent.queued 0 (by omega) (by rw [queue]; decide)).1
  rw [allocated] at bad
  exact Bool.false_ne_true bad

end Otsos.VmPage
