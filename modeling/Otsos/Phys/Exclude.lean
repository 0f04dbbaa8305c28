import Otsos.Phys.Merge

/-! Exclusion of an address range and its inverse, the release of a range that is still excluded. -/
namespace Otsos.VmPhys

open Function (update update_of_ne)
open List Option

/-- Page `i` belongs to a segment and its address is in `[start, stop)`. -/
structure InRange (s : VmPhys) (start stop i : Nat) : Prop where
  managed : i < s.managed
  low : start ≤ s.physAddr i
  high : s.physAddr i < stop

variable {j : Nat}

section Addresses
theorem SegAt.physAddr_eq (layout : Layout s) (at_ : SegAt s seg i) :
    s.physAddr i = seg.start + (i - seg.firstPage) * pageSize :=
  (layout.numbered _ seg at_.named i at_.low at_.high).2

/-- The part of a page-aligned range that falls into a segment, as a run of pages. -/
structure Overlap (seg : VmPhysSeg) (start stop first count : Nat) : Prop where
  low : seg.firstPage ≤ first
  high : first + count ≤ seg.firstPage + seg.pageTotal
  lo : max start seg.start = seg.start + (first - seg.firstPage) * pageSize
  hi : min stop seg.stop = max start seg.start + count * pageSize

theorem overlap_exists (wf : SegWf seg) (alignedStart : pageSize ∣ start)
    (alignedStop : pageSize ∣ stop) (nonempty : ¬ min stop seg.stop ≤ max start seg.start) :
    ∃ first count, Overlap seg start stop first count := by
  obtain ⟨a, rfl⟩ := alignedStart
  obtain ⟨b, rfl⟩ := alignedStop
  obtain ⟨c, begins⟩ := wf.start_aligned
  have ends := wf.stop_eq
  refine ⟨seg.firstPage + (max a c - c), min b (c + seg.pageTotal) - max a c, ?_⟩
  rw [begins] at ends nonempty
  rw [ends] at nonempty
  constructor
  · omega
  · simp only [pageSize] at nonempty
    omega
  · rw [begins]
    simp only [pageSize]
    omega
  · rw [begins, ends]
    simp only [pageSize] at nonempty ⊢
    omega

theorem Overlap.inRange (layout : Layout s) {count : Nat}
    (overlap : Overlap seg start stop first count) (at_ : SegAt s seg i) :
    InRange s start stop i ↔ first ≤ i ∧ i < first + count := by
  have addr := at_.physAddr_eq layout
  have low := overlap.low
  have lo := overlap.lo
  have hi := overlap.hi
  have bottom := at_.low
  have top := at_.high
  have stopEq := (layout.wf seg at_.mem).stop_eq
  have managed := at_.lt_managed layout
  simp only [pageSize] at addr lo hi stopEq
  constructor
  · rintro ⟨_, left, right⟩
    omega
  · rintro ⟨left, right⟩
    exact ⟨managed, by omega, by omega⟩

theorem Overlap.run (layout : Layout s) {count : Nat} (named : s.segs[j]? = some seg)
    (overlap : Overlap seg start stop first count) :
    (fun i => InRange s start stop i ∧ SegAt s seg i) = fun i => first ≤ i ∧ i < first + count := by
  have low := overlap.low
  have high := overlap.high
  refine funext fun i => propext ⟨fun ⟨range, at_⟩ => (overlap.inRange layout at_).mp range,
    fun run => ?_⟩
  have at_ : SegAt s seg i := .of_named layout named (by omega) (by omega)
  exact ⟨(overlap.inRange layout at_).mpr run, at_⟩

end Addresses

/-- `t` is `s` after the pages of `P` have been excluded. -/
structure ExcludedOn (s t : VmPhys) (P : Nat → Prop) : Prop where
  quiet : Quiet t
  geom : SameGeom s t
  qlinksNext : t.qlinksNext = s.qlinksNext
  qlinksPrev : t.qlinksPrev = s.qlinksPrev
  queue : t.queue = s.queue
  object : t.object = s.object
  pindex : t.pindex = s.pindex
  inside : ∀ i, P i → t.flags i = { excluded := true } ∧ t.refCount i = 0 ∧ t.wireCount i = 0
  outside : ∀ i, ¬ P i → t.flags i = s.flags i ∧ t.refCount i = s.refCount i ∧
    t.wireCount i = s.wireCount i

section Exclusion
theorem ExcludedOn.refl (quiet : Quiet s) (none : ∀ i, ¬ P i) : ExcludedOn s s P :=
  ⟨quiet, ⟨rfl, rfl, rfl, rfl⟩, rfl, rfl, rfl, rfl, rfl, fun i member => absurd member (none i),
    fun _ _ => ⟨rfl, rfl, rfl⟩⟩

theorem ExcludedOn.trans (first : ExcludedOn s t P) (second : ExcludedOn t u Q)
    (both : ∀ i, R i ↔ P i ∨ Q i) : ExcludedOn s u R := by
  refine ⟨second.quiet, first.geom.trans second.geom, second.qlinksNext.trans first.qlinksNext,
    second.qlinksPrev.trans first.qlinksPrev, second.queue.trans first.queue,
    second.object.trans first.object, second.pindex.trans first.pindex, ?_, ?_⟩
  · intro i member
    by_cases again : Q i
    · exact second.inside i again
    · obtain ⟨flags, ref, wire⟩ := second.outside i again
      rw [flags, ref, wire]
      exact first.inside i (((both i).mp member).resolve_right again)
  · intro i out
    rw [both, not_or] at out
    obtain ⟨flags, ref, wire⟩ := second.outside i out.2
    rw [flags, ref, wire]
    exact first.outside i out.1

theorem Inv.excludeStores (inv : Inv s fun _ => False) (bound : i < s.managed)
    (used : (s.flags i).free = false) (n : Nat) :
    Inv { s with
      flags := update s.flags i { excluded := true }
      order := update s.order i freeOrderNone
      refCount := update s.refCount i 0
      wireCount := update s.wireCount i 0
      freePages := n } fun _ => False := by
  have off := inv.off_of_not_free used
  have order : update s.order i freeOrderNone = s.order := by
    rw [← inv.order_of_off bound off, Function.update_eq_self]
  refine inv.touch (fun j => j = i) (by rintro j rfl; exact off) ⟨rfl, rfl, rfl, rfl⟩ order rfl rfl
    (fun _ _ => rfl) (fun _ _ => rfl) ?_ (fun _ _ => Iff.rfl) (fun _ _ => False.elim) ?_
  · intro j other
    simp only [update_of_ne other]
  · rintro j rfl free
    simp at free

theorem excludePage_spec (quiet : Quiet s) (at_ : SegAt s seg i)
    (index : pageAt seg (addr / pageSize) = i) : ∃ t, excludePage seg addr s = some t ∧
    ExcludedOn s t fun j => j = i := by
  have bound := at_.lt_managed quiet.inv.layout
  have access := access_eq (at_.lt_total quiet.inv.layout)
  by_cases free : (s.flags i).free = true
  · obtain ⟨t, detached, inv, view, _⟩ := detach_spec quiet.inv bound free
    obtain ⟨u, marks, inv', rest, flags, object, pindex, _⟩ :=
      markAlloc_spec inv i 1 (fun _ => by simp [InBlock])
        (by rw [view.managed]; omega)
    replace inv' : Inv u fun _ => False := inv'.congr fun j => by simp [InBlock]
    have same := view.toSameRest.trans rest
    have used : (u.flags i).free = false := by
      rw [flags, onRun_in le_rfl (by omega)]
      rfl
    refine ⟨_, by simp only [excludePage, index, access, free, if_true, freeIsolate, detached,
      marks, Option.bind_eq_bind, Option.bind_some, Option.pure_def, Function.update_idem],
      ⟨inv'.excludeStores (same.managed ▸ bound) used (u.freePages - 1), ?_⟩, ⟨same.segs, same.total,
      same.physAddr, same.segind⟩, same.qlinksNext, same.qlinksPrev, same.queue,
      object.trans view.object, pindex.trans view.pindex, ?_, ?_⟩
    · have count := quiet.count
      change u.freePages - 1 = u.blockPages
      omega
    · simp
    · intro j other
      have away : u.flags j = s.flags j := by
        rw [flags, onRun_out (by omega), view.flags]
      simp only [Function.update_of_ne other, away, same.refCount, same.wireCount, and_self]
  · rw [Bool.not_eq_true] at free
    have stores := quiet.inv.excludeStores bound free s.freePages
    refine ⟨_, by simp only [excludePage, index, access, free, Bool.false_eq_true, if_false,
      Option.bind_eq_bind, Option.bind_some, Option.pure_def], ⟨stores, quiet.count⟩,
      ⟨rfl, rfl, rfl, rfl⟩, rfl, rfl, rfl, rfl, rfl, ?_, ?_⟩
    · simp
    · intro j other
      simp only [Function.update_of_ne other, and_self]

theorem SameGeom.inRange (geom : SameGeom s t) :
    InRange t start stop i ↔ InRange s start stop i := by
  constructor
  · rintro ⟨bound, low, high⟩
    rw [geom.managed] at bound
    rw [geom.physAddr] at low high
    exact ⟨bound, low, high⟩
  · rintro ⟨bound, low, high⟩
    exact ⟨by rwa [geom.managed], by rwa [geom.physAddr], by rwa [geom.physAddr]⟩

theorem pageFloor_aligned (addr : Nat) : pageSize ∣ pageFloor addr := Nat.dvd_mul_left _ _

/-- The pages of the range that lie in one of the segments `done`. -/
def RangeIn (s : VmPhys) (start stop : Nat) (done : List VmPhysSeg) (i : Nat) : Prop :=
  InRange s start stop i ∧ ∃ seg ∈ done, SegAt s seg i

theorem rangeIn_all (layout : Layout s) : RangeIn s start stop s.segs = InRange s start stop := by
  refine funext fun i => propext ⟨And.left, fun range => ⟨range, ?_⟩⟩
  obtain ⟨seg, at_⟩ := layout.exists_seg range.managed
  exact ⟨seg, at_.mem, at_⟩

theorem rangeIn_append : RangeIn s start stop (done ++ [seg]) i ↔
      RangeIn s start stop done i ∨ InRange s start stop i ∧ SegAt s seg i := by
  simp only [RangeIn, mem_append, mem_singleton, or_and_right, exists_or, exists_eq_left,
    and_or_left]

theorem not_inRange_of_apart (layout : Layout s) (at_ : SegAt s seg i)
    (apart : min stop seg.stop ≤ max start seg.start) : ¬ InRange s start stop i := by
  rintro ⟨_, _⟩
  have addr := at_.physAddr_eq layout
  have low := at_.low
  have high := at_.high
  have stopEq := (layout.wf seg at_.mem).stop_eq
  simp only [pageSize] at addr stopEq
  omega

theorem excludeSeg_spec (quiet : Quiet s) (named : s.segs[j]? = some seg)
    (alignedStart : pageSize ∣ start) (alignedStop : pageSize ∣ stop) :
    ∃ t, excludeSeg start stop s seg = some t ∧ ExcludedOn s t fun i => InRange s start stop i ∧
    SegAt s seg i := by
  have layout := quiet.inv.layout
  have wf := layout.wf seg (mem_of_getElem? named)
  by_cases apart : min stop seg.stop ≤ max start seg.start
  · refine ⟨s, if_pos apart, .refl quiet ?_⟩
    rintro i ⟨range, at_⟩
    exact not_inRange_of_apart layout at_ apart range
  obtain ⟨first, count, overlap⟩ := overlap_exists wf alignedStart alignedStop apart
  have low := overlap.low
  have high := overlap.high
  have trips : (min stop seg.stop - max start seg.start + (pageSize - 1)) / pageSize = count := by
    rw [overlap.hi]
    simp only [pageSize]
    omega
  obtain ⟨t, loop, excluded⟩ := Loop.forUp_spec
    (fun i => excludePage seg (max start seg.start + i * pageSize)) 0 count s
    (fun n t => ExcludedOn s t fun i => first ≤ i ∧ i < first + n)
    (.refl quiet fun i => by omega)
    (by
      intro n t _ _ upto
      have layout' := upto.quiet.inv.layout
      have at_ : SegAt t seg (first + n) :=
        .of_named layout' (by rw [upto.geom.segs]; exact named) (by omega) (by omega)
      have index : pageAt seg ((max start seg.start + n * pageSize) / pageSize) = first + n := by
        rw [← at_.pageAt_pfn layout', pfn, at_.physAddr_eq layout', overlap.lo]
        congr 2
        simp only [pageSize]
        omega
      obtain ⟨u, runs, one⟩ := excludePage_spec upto.quiet at_ index
      exact ⟨u, runs, upto.trans one fun i => by omega⟩)
  refine ⟨t, by simp only [excludeSeg, if_neg apart, trips, loop], ?_⟩
  rwa [overlap.run layout named, ← Nat.zero_add count]

theorem exclude_spec (quiet : Quiet s) (start stop : Nat) : ∃ t, s.exclude start stop = some t ∧
      ExcludedOn s t (InRange s (pageFloor start) (pageFloor (u64 (stop + (pageSize - 1))))) := by
  have alignedStart := pageFloor_aligned start
  have alignedStop := pageFloor_aligned (u64 (stop + (pageSize - 1)))
  simp only [exclude]
  generalize pageFloor start = lo at *
  generalize pageFloor (u64 (stop + (pageSize - 1))) = hi at *
  by_cases empty : hi ≤ lo
  · refine ⟨s, if_pos empty, .refl quiet fun i range => ?_⟩
    have := range.low
    have := range.high
    omega
  obtain ⟨t, runs, excluded⟩ := Loop.foldlM_spec (excludeSeg lo hi) s.segs s
    (fun done t => ExcludedOn s t (RangeIn s lo hi done))
    (.refl quiet fun i ⟨_, _, absent, _⟩ => not_mem_nil absent)
    (by
      intro done seg _ t split sofar
      have named : t.segs[done.length]? = some seg := by
        rw [sofar.geom.segs, split]
        simp
      obtain ⟨u, runs, here⟩ := excludeSeg_spec sofar.quiet named alignedStart alignedStop
      refine ⟨u, runs, sofar.trans here fun i => ?_⟩
      rw [rangeIn_append, sofar.geom.inRange, sofar.geom.segAt])
  refine ⟨t, by rw [if_neg empty, runs], ?_⟩
  rwa [rangeIn_all quiet.inv.layout] at excluded

end Exclusion

/-- `t` is `s` after the excluded pages of `P` have been released. -/
structure FreedOn (s t : VmPhys) (P : Nat → Prop) : Prop where
  quiet : Quiet t
  rest : SameRest s t
  inside : ∀ i, P i → t.flags i = freeFlags { s.flags i with excluded := false } ∧
    t.object i = none ∧ t.pindex i = 0
  outside : ∀ i, ¬ P i → t.flags i = s.flags i ∧ t.object i = s.object i ∧ t.pindex i = s.pindex i

section Freeing
theorem FreedOn.refl (quiet : Quiet s) (none : ∀ i, ¬ P i) : FreedOn s s P :=
  ⟨quiet, .refl s, fun i member => absurd member (none i), fun _ _ => ⟨rfl, rfl, rfl⟩⟩

theorem FreedOn.trans (first : FreedOn s t P) (second : FreedOn t u Q)
    (both : ∀ i, R i ↔ P i ∨ Q i) (apart : ∀ i, P i → ¬ Q i) : FreedOn s u R := by
  refine ⟨second.quiet, first.rest.trans second.rest, ?_, ?_⟩
  · intro i member
    by_cases again : Q i
    · rw [← (first.outside i fun before => apart i before again).1]
      exact second.inside i again
    · obtain ⟨flags, object, pindex⟩ := second.outside i again
      rw [flags, object, pindex]
      exact first.inside i (((both i).mp member).resolve_right again)
  · intro i out
    rw [both, not_or] at out
    obtain ⟨flags, object, pindex⟩ := second.outside i out.2
    rw [flags, object, pindex]
    exact first.outside i out.1

theorem Quiet.not_free (quiet : Quiet s) (bound : i < s.managed)
    (excluded : (s.flags i).excluded = true) : (s.flags i).free = false := by
  by_contra free
  rw [Bool.not_eq_false] at free
  obtain ⟨p, k, head, member⟩ := quiet.inv.covered i bound free id
  have := (quiet.inv.block p k i head member).1.excluded
  rw [excluded] at this
  contradiction

theorem rangeOrder_spec (f last left order : Nat) (room : order + left < nFreeOrder)
    (aligned : 2 ^ order ∣ f) (fits : f + 2 ^ order ≤ last) :
    rangeOrder f last left order < nFreeOrder ∧ 2 ^ rangeOrder f last left order ∣ f ∧
      f + 2 ^ rangeOrder f last left order ≤ last := by
  induction left generalizing order with
  | zero => exact ⟨room, aligned, fits⟩
  | succ left ih =>
    by_cases stop : f % 2 ^ (order + 1) ≠ 0 ∨ f + 2 ^ (order + 1) > last
    · simp only [rangeOrder, if_pos stop]
      exact ⟨by omega, aligned, fits⟩
    · simp only [rangeOrder, if_neg stop]
      rw [not_or, not_not] at stop
      exact ih (order + 1) (by omega) (Nat.dvd_of_mod_eq_zero stop.1) (by omega)

theorem freeExcluded_spec (quiet : Quiet s) {order : Nat} (at_ : SegAt s seg page)
    (small : order < nFreeOrder) (aligned : 2 ^ order ∣ s.pfn page)
    (inside : page + 2 ^ order ≤ seg.firstPage + seg.pageTotal)
    (excluded : ∀ i, page ≤ i ∧ i < page + 2 ^ order → (s.flags i).excluded = true) :
    ∃ t u, s.clearExcluded seg (s.pfn page) (2 ^ order) = some t ∧ t.freeBlock page order = some u ∧
      FreedOn s u fun i => page ≤ i ∧ i < page + 2 ^ order := by
  have managed := quiet.inv.layout.first_le_managed at_.named
  have used : ∀ i, page ≤ i ∧ i < page + 2 ^ order → (s.flags i).free = false :=
    fun i member => quiet.not_free (by omega) (excluded i member)
  obtain ⟨t, clears, inv, rest, flags, object, pindex, freePages, blockPages⟩ :=
    clearExcluded_spec quiet.inv at_ inside used
  have quiet' : Quiet t := ⟨inv, by rw [freePages, blockPages, quiet.count]⟩
  obtain ⟨u, frees, released⟩ := freeBlock_spec quiet' (rest.segAt.mpr at_) small
    (by rwa [rest.pfn]) inside fun i member => by
      rw [flags, onRun_in member.1 member.2]
      exact ⟨used i member, rfl⟩
  refine ⟨t, u, clears, frees, released.quiet, rest.trans released.rest, ?_, ?_⟩
  · intro i member
    rw [released.flags, released.object, released.pindex, flags, onRun_in member.1 member.2,
      onRun_in member.1 member.2, onRun_in member.1 member.2, onRun_in member.1 member.2]
    exact ⟨rfl, rfl, rfl⟩
  · intro i out
    rw [released.flags, released.object, released.pindex, flags, onRun_out out, onRun_out out,
      onRun_out out, onRun_out out, object, pindex]
    exact ⟨rfl, rfl, rfl⟩

theorem freeRun_spec (quiet : Quiet s) (first count : Nat) (named : s.segs[j]? = some seg)
    (low : seg.firstPage ≤ first) (high : first + count ≤ seg.firstPage + seg.pageTotal)
    (enough : count ≤ fuel) (excluded : ∀ i, first ≤ i ∧ i < first + count →
      (s.flags i).excluded = true) :
    ∃ t, freeRun seg (seg.start / pageSize + (first - seg.firstPage) + count) fuel
        (seg.start / pageSize + (first - seg.firstPage)) s = some t ∧
      FreedOn s t fun i => first ≤ i ∧ i < first + count := by
  induction fuel generalizing s first count with
  | zero =>
    obtain rfl : count = 0 := by omega
    exact ⟨s, by simp [freeRun], .refl quiet fun i => by omega⟩
  | succ fuel ih =>
    rcases Nat.eq_zero_or_pos count with rfl | _
    · exact ⟨s, by simp [freeRun], .refl quiet fun i => by omega⟩
    have layout := quiet.inv.layout
    have at_ : SegAt s seg first := .of_named layout named low (by omega)
    have frame := at_.pfn_eq layout
    rw [← frame]
    obtain ⟨small, aligned, _⟩ := rangeOrder_spec (s.pfn first) (s.pfn first + count)
      (nFreeOrder - 1) 0 (by decide) (by simp) (by omega)
    set order := rangeOrder (s.pfn first) (s.pfn first + count) (nFreeOrder - 1) 0 with chosen
    obtain ⟨t, u, clears, frees, freed⟩ := freeExcluded_spec quiet at_ small aligned (by omega)
      fun i member => excluded i (by omega)
    obtain ⟨v, rest, freed'⟩ := ih (s := u) freed.quiet (first + 2 ^ order)
      (count - 2 ^ order) (by rw [freed.rest.segs]; exact named) (by omega) (by omega) (by omega)
      fun i member => by
        rw [(freed.outside i (by omega)).1]
        exact excluded i (by omega)
    refine ⟨v, ?_, freed.trans freed' (fun i => by omega) fun i => by omega⟩
    rw [show seg.start / pageSize + (first + 2 ^ order - seg.firstPage) = s.pfn first + 2 ^ order by
      omega, show s.pfn first + 2 ^ order + (count - 2 ^ order) = s.pfn first + count by omega] at rest
    simp only [freeRun, if_pos (show s.pfn first < s.pfn first + count by omega), ← chosen, clears,
      at_.pageAt_pfn layout, frees, bind_eq_bind, bind_some, rest]

theorem freeRangeSeg_spec (quiet : Quiet s) (named : s.segs[j]? = some seg)
    (alignedStart : pageSize ∣ start) (alignedStop : pageSize ∣ stop)
    (excluded : ∀ i, InRange s start stop i ∧ SegAt s seg i → (s.flags i).excluded = true) :
    ∃ t, freeRangeSeg start stop s seg = some t ∧ FreedOn s t fun i => InRange s start stop i ∧
    SegAt s seg i := by
  have layout := quiet.inv.layout
  have wf := layout.wf seg (mem_of_getElem? named)
  by_cases apart : min stop seg.stop ≤ max start seg.start
  · refine ⟨s, if_pos apart, .refl quiet ?_⟩
    rintro i ⟨range, at_⟩
    exact not_inRange_of_apart layout at_ apart range
  obtain ⟨first, count, overlap⟩ := overlap_exists wf alignedStart alignedStop apart
  have run := overlap.run layout named
  obtain ⟨t, runs, _⟩ := freeRun_spec quiet first count named overlap.low overlap.high le_rfl
    fun i member => excluded i ((congrFun run i).mpr member)
  have lo : max start seg.start / pageSize = seg.start / pageSize + (first - seg.firstPage) := by
    rw [overlap.lo]
    simp only [pageSize]
    omega
  have hi : min stop seg.stop / pageSize =
      seg.start / pageSize + (first - seg.firstPage) + count := by
    rw [overlap.hi, ← lo]
    simp only [pageSize]
    omega
  refine ⟨t, ?_, ?_⟩
  · rw [← runs]
    simp only [freeRangeSeg, if_neg apart, hi, lo, Nat.add_sub_cancel_left]
  · rwa [run]

theorem freeRange_spec (quiet : Quiet s) (start stop : Nat)
    (excluded : ∀ i, InRange s (pageFloor start) (pageFloor stop) i → (s.flags i).excluded = true) :
    ∃ t, s.freeRange start stop = some t ∧
    FreedOn s t (InRange s (pageFloor start) (pageFloor stop)) := by
  have alignedStart := pageFloor_aligned start
  have alignedStop := pageFloor_aligned stop
  simp only [freeRange]
  generalize pageFloor start = lo at *
  generalize pageFloor stop = hi at *
  by_cases empty : hi ≤ lo
  · refine ⟨s, if_pos empty, .refl quiet fun i range => ?_⟩
    have := range.low
    have := range.high
    omega
  obtain ⟨t, runs, freed⟩ := Loop.foldlM_spec (freeRangeSeg lo hi) s.segs s
    (fun done t => FreedOn s t (RangeIn s lo hi done))
    (.refl quiet fun i ⟨_, _, absent, _⟩ => not_mem_nil absent)
    (by
      intro done seg _ t split sofar
      have named : t.segs[done.length]? = some seg := by
        rw [sofar.rest.segs, split]
        simp
      -- segments do not overlap, so the pages of this one are still as they were
      have fresh : ∀ i, SegAt s seg i → ¬ RangeIn s lo hi done i := by
        rintro i at_ ⟨_, g, before, at'⟩
        obtain rfl := at_.unique at'
        have order := quiet.inv.layout.ascending
        rw [split, pairwise_append] at order
        have := order.2.2 seg before seg (by simp)
        have wf := quiet.inv.layout.wf seg at_.mem
        have := wf.stop_eq
        have := wf.nonempty
        simp only [pageSize] at *
        omega
      obtain ⟨u, runs, here⟩ := freeRangeSeg_spec sofar.quiet named alignedStart alignedStop
        fun i here => by
          obtain ⟨range, at_⟩ := here
          rw [sofar.rest.inRange] at range
          rw [sofar.rest.segAt] at at_
          rw [(sofar.outside i (fresh i at_)).1]
          exact excluded i range
      refine ⟨u, runs, sofar.trans here (fun i => ?_) fun i before here => ?_⟩
      · rw [rangeIn_append, sofar.rest.inRange, sofar.rest.segAt]
      · exact fresh i (sofar.rest.segAt.mp here.2) before)
  refine ⟨t, by rw [if_neg empty, runs], ?_⟩
  rwa [rangeIn_all quiet.inv.layout] at freed

end Freeing

end Otsos.VmPhys
