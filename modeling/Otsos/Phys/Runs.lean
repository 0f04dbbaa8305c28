import Otsos.Phys.Representation

/-! Whole runs of the physical allocator. A ledger records beside the allocator's state the
allocations that have been handed out and not been given back since. -/
namespace Otsos.VmPhys
open Option Finset

open Finset (range Ico)

/-- The entry points of the allocator with their arguments; page pointers are indices. -/
inductive Op where
  | addSeg (start stop : UInt64)
  | freeRange (start stop : UInt64)
  | alloc (order : Int)
  | free (page : Option Nat)
  | allocContig (pageTotal alignment low high : UInt64)
  | freeContig (page : Option Nat) (pageTotal : UInt64)
  | exclude (start stop : UInt64)

/-- Each live allocation is the set of its pages that have not been given back. -/
structure Ledger where
  state : VmPhys
  live : List (Finset Nat)

/-- The pages of the segments whose address is in `[start, stop)`. -/
def pagesIn (s : VmPhys) (start stop : Nat) : Finset Nat :=
  (range s.managed).filter fun i => start ≤ s.physAddr i ∧ s.physAddr i < stop

theorem mem_pagesIn : i ∈ s.pagesIn start stop ↔ InRange s start stop i := by
  simp only [pagesIn, mem_filter, mem_range]
  exact ⟨fun ⟨bound, low, high⟩ => ⟨bound, low, high⟩,
    fun range => ⟨range.managed, range.low, range.high⟩⟩

/-- The state after an allocation of `n` pages, which joins the live ones. -/
def Ledger.allocated (ledger : Ledger) (n : Nat) : Option Nat × VmPhys → Ledger
  | (none, s) => { ledger with state := s }
  | (some page, s) => ⟨s, Ico page (page + n) :: ledger.live⟩

/-- The state after `pages` have been given back. -/
def Ledger.released (ledger : Ledger) (pages : Finset Nat) (s : VmPhys) : Ledger :=
  ⟨s, ledger.live.map (· \ pages)⟩

/-- One call. A range is released only while it is excluded, and a page pointer is null or points
to a page of a segment; any other argument is allowed. -/
def step (ledger : Ledger) : Op → Option Ledger
  | .addSeg start stop => do
    let (_, s) ← ledger.state.addSeg start.toNat stop.toNat
    return { ledger with state := s }
  | .freeRange start stop =>
    let pages := ledger.state.pagesIn (pageFloor start.toNat) (pageFloor stop.toNat)
    if ∀ i ∈ pages, (ledger.state.flags i).excluded = true then do
      let s ← ledger.state.freeRange start.toNat stop.toNat
      return ledger.released pages s
    else none
  | .alloc order => (ledger.state.alloc order).map (ledger.allocated (2 ^ order.toNat))
  | .free none => (ledger.state.free none).map (ledger.released ∅)
  | .free (some page) =>
    if page < ledger.state.managed then
      (ledger.state.free (some page)).map (ledger.released {page})
    else none
  | .allocContig n alignment low high =>
    (ledger.state.allocContig n.toNat alignment.toNat low.toNat high.toNat).map
      (ledger.allocated n.toNat)
  | .freeContig none n => (ledger.state.freeContig none n.toNat).map (ledger.released ∅)
  | .freeContig (some page) n =>
    if page + n.toNat ≤ ledger.state.managed then
      (ledger.state.freeContig (some page) n.toNat).map
        (ledger.released (Ico page (page + n.toNat)))
    else none
  | .exclude start stop => do
    let s ← ledger.state.exclude start.toNat stop.toNat
    return { ledger with state := s }

def run (ledger : Ledger) (ops : List Op) : Option Ledger := ops.foldlM step ledger

/-- `vm_phys_init` with a page array of `count` records, before any segment is added. -/
def Ledger.start (array : VmPhys) (count : Nat) : Ledger := ⟨init array count, []⟩

/-- The allocator is consistent, and the live allocations are disjoint sets of pages in use. -/
structure Ledger.Good (ledger : Ledger) : Prop where
  quiet : Quiet ledger.state
  disjoint : ledger.live.Pairwise Disjoint
  used : ∀ block ∈ ledger.live, ∀ i ∈ block, i < ledger.state.managed ∧
    (ledger.state.flags i).free = false

section Steps
variable {ledger : Ledger} {s : VmPhys}

theorem Ledger.Good.allocated (good : ledger.Good)
    (answer : Answer ledger.state n r) : (ledger.allocated n r).Good := by
  rcases answer with rfl | ⟨page, t, rfl, granted⟩
  · exact ⟨good.quiet, good.disjoint, good.used⟩
  refine ⟨granted.quiet, List.pairwise_cons.mpr ⟨fun block old => ?_, good.disjoint⟩, ?_⟩
  · refine disjoint_left.mpr fun i fresh inOld => ?_
    have free := granted.free i (mem_Ico.mp fresh)
    rw [(good.used block old i inOld).2] at free
    contradiction
  · intro block member i inBlock
    change i < t.managed ∧ (t.flags i).free = false
    rw [granted.rest.managed]
    rcases List.mem_cons.mp member with rfl | old
    · have run := mem_Ico.mp inBlock
      refine ⟨by have := granted.managed; omega, ?_⟩
      rw [granted.taken i run]
      rfl
    · obtain ⟨bound, used⟩ := good.used block old i inBlock
      refine ⟨bound, ?_⟩
      by_cases run : page ≤ i ∧ i < page + n
      · rw [granted.taken i run]
        rfl
      · rcases granted.others i run with same | ⟨_, zeroed⟩
        · rw [same, used]
        · rw [zeroed]
          exact used

theorem Ledger.Good.released (good : ledger.Good) (quiet : Quiet s)
    (managed : s.managed = ledger.state.managed)
    (others : ∀ i, i ∉ pages → (ledger.state.flags i).free = false → (s.flags i).free = false) :
    (ledger.released pages s).Good := by
  refine ⟨quiet, ?_, ?_⟩
  · refine List.pairwise_map.mpr (good.disjoint.imp fun apart => ?_)
    exact apart.mono sdiff_subset sdiff_subset
  · intro _ member i inBlock
    obtain ⟨old, known, rfl⟩ := List.mem_map.mp member
    obtain ⟨inOld, kept⟩ := mem_sdiff.mp inBlock
    obtain ⟨bound, used⟩ := good.used old known i inOld
    exact ⟨managed ▸ bound, others i kept used⟩

theorem Ledger.Good.unchanged (good : ledger.Good) (quiet : Quiet s)
    (managed : ledger.state.managed ≤ s.managed)
      (flags : ∀ i < ledger.state.managed, (ledger.state.flags i).free = false →
      (s.flags i).free = false) : ({ ledger with state := s } : Ledger).Good := by
  refine ⟨quiet, good.disjoint, fun block member i inBlock => ?_⟩
  obtain ⟨bound, used⟩ := good.used block member i inBlock
  exact ⟨lt_of_lt_of_le bound managed, flags i bound used⟩

theorem alloc_answer (quiet : Quiet s) (order : Int) :
    ∃ r, s.alloc order = some r ∧ Answer s (2 ^ order.toNat) r := by
  simp only [alloc, allocOrder]
  split
  · exact ⟨_, rfl, .inl rfl⟩
  · rcases allocFrom_spec quiet (nFreeOrder - order.toNat) (le_refl order.toNat)
      (by omega) with ⟨_, page, t, runs, _, _, took⟩ | ⟨runs, _⟩
    · exact ⟨_, runs, .inr ⟨page, t, rfl, took.granted⟩⟩
    · exact ⟨_, runs, .inl rfl⟩

theorem step_good (good : ledger.Good) (stepped : step ledger op = some next) : next.Good := by
  have quiet := good.quiet
  cases op with
  | addSeg start stop =>
    simp only [step, bind_eq_bind, bind_eq_some_iff, Option.pure_def, some.injEq] at stepped
    obtain ⟨⟨_, t⟩, runs, rfl⟩ := stepped
    rcases addSeg_spec quiet stop.toNat_lt runs with ⟨_, rfl⟩ | ⟨_, _, u, fresh, rfl, reset, fits⟩
    · exact good
    · refine good.unchanged (quiet.append fresh reset fits) ?_ fun i bound used => ?_
      · rw [reset.managed]
        exact Nat.le_add_right _ _
      · change (u.flags i).free = false
        rw [(reset.kept i (by have := fresh.first; omega)).1, used]
  | freeRange start stop =>
    simp only [step] at stepped
    split at stepped
    · rename_i excluded
      obtain ⟨t, runs, freed⟩ := freeRange_spec quiet start.toNat stop.toNat
        fun i range => excluded i (mem_pagesIn.mpr range)
      simp only [runs, bind_eq_bind, bind_some, Option.pure_def, some.injEq] at stepped
      subst stepped
      refine good.released freed.quiet freed.rest.managed fun i out used => ?_
      rw [(freed.outside i fun range => out (mem_pagesIn.mpr range)).1, used]
    · contradiction
  | alloc order =>
    obtain ⟨r, runs, answer⟩ := alloc_answer quiet order
    simp only [step, runs, map_some, some.injEq] at stepped
    exact stepped ▸ good.allocated answer
  | free page =>
    cases page with
    | none =>
      simp only [step, free, map_some, some.injEq] at stepped
      exact stepped ▸ good.released quiet rfl fun _ _ used => used
    | some page =>
      simp only [step] at stepped
      split at stepped
      · rename_i bound
        rcases free_spec quiet bound with ⟨runs, _⟩ | ⟨t, runs, released⟩
        · simp only [runs, map_some, some.injEq] at stepped
          exact stepped ▸ good.released quiet rfl fun _ _ used => used
        · simp only [runs, map_some, some.injEq] at stepped
          subst stepped
          refine good.released released.quiet released.rest.managed fun i out used => ?_
          have other : i ≠ page := fun same => out (mem_singleton.mpr same)
          rw [released.flags, onRun_out (by omega), used]
      · contradiction
  | allocContig n alignment low high =>
    simp only [step, map_eq_some_iff] at stepped
    obtain ⟨r, runs, rfl⟩ := stepped
    exact good.allocated (allocContig_spec quiet n.toNat_lt alignment.toNat_lt runs)
  | freeContig page n =>
    cases page with
    | none =>
      simp only [step, freeContig, map_some, some.injEq] at stepped
      exact stepped ▸ good.released quiet rfl fun _ _ used => used
    | some page =>
      simp only [step] at stepped
      split at stepped
      · rename_i bound
        obtain ⟨t, runs, released⟩ := freeContig_spec quiet bound
        simp only [runs, map_some, some.injEq] at stepped
        subst stepped
        refine good.released released.quiet released.rest.managed fun i out used => ?_
        rw [(released.outside i (.inl fun member => out (mem_Ico.mpr member))).1, used]
      · contradiction
  | exclude start stop =>
    obtain ⟨t, runs, excluded⟩ := exclude_spec quiet start.toNat stop.toNat
    simp only [step, runs, bind_eq_bind, bind_some, Option.pure_def, some.injEq] at stepped
    subst stepped
    refine good.unchanged excluded.quiet (le_of_eq excluded.geom.managed.symm) fun i _ used => ?_
    by_cases inside : InRange ledger.state (pageFloor start.toNat)
        (pageFloor (u64 (stop.toNat + (pageSize - 1)))) i
    · rw [(excluded.inside i inside).1]
    · rw [(excluded.outside i inside).1, used]

theorem run_good (fits : count * 72 ≤ 2 ^ 64) (runs : run (.start array count) ops = some ledger) :
    ledger.Good :=
  Loop.foldlM_inv step Ledger.Good (fun _ _ _ _ good stepped => step_good good stepped)
    ⟨init_quiet array fits, .nil, fun _ absent => absurd absent List.not_mem_nil⟩ runs

end Steps

/-- Every state of every run represents one set of free pages, in its lists, its flags and its
counters alike, and no page belongs to two live allocations. -/
theorem run_represents (fits : count * 72 ≤ 2 ^ 64)
    (runs : run (.start array count) ops = some ledger) :
      Represents ledger.state ∧ ledger.live.Pairwise Disjoint ∧
      ∀ block ∈ ledger.live, ∀ i ∈ block, (ledger.state.flags i).free = false := by
  have good := run_good fits runs
  exact ⟨good.quiet.represents, good.disjoint,
    fun block member i inBlock => (good.used block member i inBlock).2⟩

theorem run_represents_after_alloc : ∃ ledger,
    run (.start default 4) [.addSeg 0x1000 0x4000, .freeRange 0x1000 0x4000, .alloc 0] =
      some ledger ∧ ledger.state.freePages = 2 ∧ ledger.live = [{0}] ∧ Represents ledger.state := by
  obtain ⟨ledger, runs, pages, live⟩ : ∃ ledger, run (.start default 4) [.addSeg 0x1000 0x4000,
      .freeRange 0x1000 0x4000, .alloc 0] = some ledger ∧ ledger.state.freePages = 2 ∧ ledger.live = [{0}] :=
    Loop.exists_of_any (by decide +kernel)
  exact ⟨ledger, runs, pages, live, (run_represents (by decide) runs).1⟩

/-- Allocation at an order fails exactly when no segment has a naturally aligned free run of that
order: free buddies below the top order are always merged. -/
theorem alloc_none_iff (fits : count * 72 ≤ 2 ^ 64)
    (runs : run (.start array count) ops = some ledger) :
      (∀ k < nFreeOrder, ∃ page t, ledger.state.alloc k = some (page, t) ∧
      (page = none ↔ ¬ ∃ seg ∈ ledger.state.segs, ∃ p, FreeRun ledger.state seg p k)) ∧
    ∀ p q k seg, IsHead ledger.state p k → IsHead ledger.state q k → SegAt ledger.state seg p →
      SegAt ledger.state seg q → k + 1 < nFreeOrder → ledger.state.pfn q ≠ ledger.state.pfn p ^^^ 2 ^ k := by
  have quiet := (run_good fits runs).quiet
  refine ⟨fun k small => ?_, quiet.inv.merged⟩
  have valid : ¬ ((k : Int) < 0 ∨ (k : Int) ≥ nFreeOrder) := by omega
  simp only [alloc, allocOrder, if_neg valid]
  rcases allocFrom_spec quiet (nFreeOrder - k) (le_refl k) (by omega) with
    ⟨j, page, t, found, le, head, _⟩ | ⟨found, empty⟩
  · refine ⟨some page, t, found, fun absent => absurd absent (some_ne_none page), ?_⟩
    intro noRun
    obtain ⟨seg, member, run⟩ := quiet.inv.freeRun_of_head head le
    exact absurd ⟨seg, member, page, run⟩ noRun
  · refine ⟨none, ledger.state, found, ?_, fun _ => rfl⟩
    rintro - ⟨seg, member, p, run⟩
    obtain ⟨q, j, le, head⟩ := quiet.head_of_freeRun small member run
    exact empty j q le head

theorem alloc_none_iff_after_alloc : ∃ ledger,
    run (.start default 4) [.addSeg 0x1000 0x4000, .freeRange 0x1000 0x4000, .alloc 1] =
      some ledger ∧ ledger.state.freePages = 1 ∧
      ¬ ∃ seg ∈ ledger.state.segs, ∃ p, FreeRun ledger.state seg p 1 := by
  obtain ⟨ledger, runs, pages, failed⟩ : ∃ ledger, run (.start default 4) [.addSeg 0x1000 0x4000,
      .freeRange 0x1000 0x4000, .alloc 1] = some ledger ∧ ledger.state.freePages = 1 ∧
      (ledger.state.alloc 1).map Prod.fst = some none := Loop.exists_of_any (by decide +kernel)
  refine ⟨ledger, runs, pages, ?_⟩
  obtain ⟨_, t, allocs, null⟩ := (alloc_none_iff (by decide) runs).1 1 (by decide)
  apply null.mp
  rw [show ((1 : Nat) : Int) = 1 from rfl] at allocs
  rw [allocs, map_some, some.injEq] at failed
  exact failed

end Otsos.VmPhys
