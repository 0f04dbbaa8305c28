import Otsos.Phys.Split

/-! Releasing a block: it absorbs its buddy as long as the buddy is a free block of the same order,
so that no two free buddies are ever left side by side. -/
namespace Otsos.VmPhys
open Option

section Validity
variable {order : Nat}

/-- What the page loop of `vm_phys_block_valid` looks for at distance `j` from the first page. -/
structure ValidPage (s : VmPhys) (idx j : Nat) : Prop where
  free : (s.flags (idx + j)).free = true
  excluded : (s.flags (idx + j)).excluded = false
  interior : j ≠ 0 → s.order (idx + j) = freeOrderNone

theorem blockValidFrom_spec (inArray : idx + (i + count) ≤ s.pageTotal) : ∃ b, s.blockValidFrom idx i count = some b ∧
      (b = true ↔ ∀ j, i ≤ j → j < i + count → ValidPage s idx j) := by
  induction count generalizing i with
  | zero => exact ⟨true, rfl, by simp; omega⟩
  | succ count ih =>
    obtain ⟨b, runs, valid⟩ := ih (i := i + 1) (by omega)
    have bound : idx + i < s.pageTotal := by omega
    simp only [blockValidFrom, access_eq bound, bind_eq_bind, bind_some, runs]
    by_cases here : ValidPage s idx i
    · refine ⟨b, ?_, valid.trans ⟨fun rest j low high => ?_, fun all j low high => ?_⟩⟩
      · have interior : ¬ (i ≠ 0 ∧ s.order (idx + i) ≠ freeOrderNone) :=
          fun bad => bad.2 (here.interior bad.1)
        simp only [here.free, here.excluded, if_neg interior, Bool.not_true, Bool.or_false,
          Bool.false_eq_true, if_false]
      · by_cases first : j = i
        · exact first ▸ here
        · exact rest j (by omega) (by omega)
      · exact all j (by omega) (by omega)
    · have notAll : false = true ↔ ∀ j, i ≤ j → j < i + (count + 1) → ValidPage s idx j :=
        ⟨fun bad => absurd bad Bool.false_ne_true, fun all => absurd (all i le_rfl (by omega)) here⟩
      refine ⟨false, ?_, notAll⟩
      by_cases flags : (!(s.flags (idx + i)).free || (s.flags (idx + i)).excluded) = true
      · rw [if_pos flags]
        rfl
      rw [if_neg flags, if_pos]
      · rfl
      · by_contra interior
        simp only [Bool.or_eq_true, Bool.not_eq_true', not_or, Bool.not_eq_false, Bool.not_eq_true] at flags
        exact here ⟨flags.1, flags.2, fun first => by_contra fun other =>
          interior ⟨first, other⟩⟩

/-- `vm_phys_block_valid` on an aligned frame: the block lies in the segment and all its pages are
free, with no order on the interior ones. -/
theorem blockValid_spec (layout : Layout s) (named : s.segs[j]? = some seg)
    (small : order < nFreeOrder) (aligned : 2 ^ order ∣ f) :
    ∃ b, s.blockValid f order j = some b ∧
      (b = true ↔ seg.start / pageSize ≤ f ∧ f + 2 ^ order ≤ seg.start / pageSize + seg.pageTotal ∧
        ∀ i < 2 ^ order, ValidPage s (pageAt seg f) i) := by
  have remainder : ¬ f % 2 ^ order ≠ 0 := by simp [Nat.mod_eq_zero_of_dvd aligned]
  simp only [blockValid, if_neg (show ¬ order ≥ nFreeOrder by omega), named, if_neg remainder]
  by_cases outside : f < seg.start / pageSize ∨ f + 2 ^ order > seg.start / pageSize + seg.pageTotal
  · refine ⟨false, by rw [if_pos outside], ?_⟩
    simp only [Bool.false_eq_true, false_iff]
    omega
  rw [if_neg outside, ← pageAt_eq (layout.wf seg (List.mem_of_getElem? named)) (by omega)
    (by omega)]
  have index := pageAt_eq (f := f) (layout.wf seg (List.mem_of_getElem? named)) (by omega)
  have managed := layout.first_le_managed named
  have total := layout.managed_le
  have inArray : pageAt seg f + (0 + 2 ^ order) ≤ s.pageTotal := by omega
  obtain ⟨b, runs, valid⟩ := blockValidFrom_spec inArray
  refine ⟨b, runs, valid.trans ⟨fun all => ⟨by omega, by omega, fun i bound => ?_⟩, ?_⟩⟩
  · exact all i (Nat.zero_le i) (by omega)
  · rintro ⟨_, _, all⟩ i _ bound
    exact all i (by omega)

end Validity

section Release
variable {order : Nat}

/-- A free region of `2 ^ order` pages that is about to be listed as one block. -/
structure Region (s : VmPhys) (seg : VmPhysSeg) (page order : Nat) : Prop where
  inv : Inv s (InBlock page order)
  segAt : SegAt s seg page
  aligned : 2 ^ order ∣ s.pfn page
  inside : page + 2 ^ order ≤ seg.firstPage + seg.pageTotal
  small : order < nFreeOrder

/-- No block of the segment is the region's buddy. -/
def Alone (s : VmPhys) (seg : VmPhysSeg) (page order : Nat) : Prop :=
  ∀ q, IsHead s q order → SegAt s seg q → order + 1 < nFreeOrder →
    s.pfn q ≠ s.pfn page ^^^ 2 ^ order

theorem Region.buddy_valid (region : Region s seg page order) (head : IsHead s q order)
    (segQ : SegAt s seg q) (frame : s.pfn q = s.pfn page ^^^ 2 ^ order) :
    s.blockValid (s.pfn page ^^^ 2 ^ order) order (s.segind page) = some true ∧
      pageAt seg (s.pfn page ^^^ 2 ^ order) = q := by
  have index : pageAt seg (s.pfn page ^^^ 2 ^ order) = q := by
    rw [← frame, segQ.pageAt_pfn region.inv.layout]
  refine ⟨?_, index⟩
  obtain ⟨b, runs, valid⟩ := blockValid_spec region.inv.layout region.segAt.named region.small
    (Dyadic.buddy_aligned region.aligned)
  have holds : b = true := by
    have position := segQ.pfn_eq region.inv.layout
    have inside := region.inv.inside q order seg head segQ
    have low := segQ.low
    refine valid.mpr ⟨by omega, by omega, fun i _ => ?_⟩
    rw [index]
    have member : InBlock q order (q + i) := ⟨by omega, by omega⟩
    obtain ⟨available, _, interior⟩ := region.inv.block q order (q + i) head member
    exact ⟨available.free, available.excluded, fun _ => interior (by omega)⟩
  rw [runs, holds]

theorem Region.absorb (region : Region s seg page order) (head : IsHead s q order)
    (segQ : SegAt s seg q) (frame : s.pfn q = s.pfn page ^^^ 2 ^ order)
    (room : order + 1 < nFreeOrder) : ∃ t, s.freelistRemove q = some t ∧
      Region t seg (if s.pfn page ^^^ 2 ^ order < s.pfn page then q else page) (order + 1) ∧
      SameView s t ∧ t.freePages = s.freePages ∧ t.blockPages + 2 ^ order = s.blockPages := by
  obtain ⟨t, removed, inv, view, freePages, blockPages⟩ := freelistRemove_spec region.inv head
  have here := region.segAt.pfn_eq region.inv.layout
  have there := segQ.pfn_eq region.inv.layout
  have low := region.segAt.low
  have lowQ := segQ.low
  have inside := region.inside
  have insideQ := region.inv.inside q order seg head segQ
  refine ⟨t, removed, ?_, view, freePages, blockPages⟩
  rcases Dyadic.buddy_cases region.aligned with ⟨aligned, eq⟩ | ⟨c, eq, aligned, eq'⟩
  · -- the buddy is the upper half
    rw [if_neg (by omega)]
    refine ⟨inv.congr fun i => ?_, view.segAt.mpr region.segAt, by rwa [view.pfn], by omega, room⟩
    simp only [InBlock]
    omega
  · rw [if_pos (by omega)]
    refine ⟨inv.congr fun i => ?_, view.segAt.mpr segQ, ?_, by omega, room⟩
    · simp only [InBlock]
      omega
    · rw [view.pfn, frame, eq']
      exact aligned

theorem coalesce_spec (left : Nat) (room : order + left + 1 = nFreeOrder)
    (region : Region s seg page order) :
      ∃ page' order' t, coalesce seg left page (s.pfn page) order s = some (page', order', t) ∧
      Region t seg page' order' ∧ Alone t seg page' order' ∧ SameView s t ∧
      t.freePages = s.freePages ∧ t.blockPages + 2 ^ order' = s.blockPages + 2 ^ order := by
  induction left generalizing s page order with
  | zero =>
    refine ⟨page, order, s, rfl, region, fun q => ?_, .refl s, rfl, rfl⟩
    omega
  | succ left ih =>
    have bound := region.segAt.lt_total region.inv.layout
    have stop : ∀ r, r = some (page, order, s) → Alone s seg page order →
        ∃ page' order' t, r = some (page', order', t) ∧ Region t seg page' order' ∧
          Alone t seg page' order' ∧ SameView s t ∧ t.freePages = s.freePages ∧
          t.blockPages + 2 ^ order' = s.blockPages + 2 ^ order :=
      fun r eq alone => ⟨page, order, s, eq, region, alone, .refl s, rfl, rfl⟩
    obtain ⟨b, runs, valid⟩ := blockValid_spec region.inv.layout region.segAt.named region.small
      (Dyadic.buddy_aligned region.aligned)
    cases b with
    | false =>
      refine stop _ ?_ fun q head segQ _ frame => ?_
      · simp [coalesce, access_eq bound, runs]
      · have := (region.buddy_valid head segQ frame).1
        rw [runs] at this
        contradiction
    | true =>
      obtain ⟨low, _⟩ := valid.mp rfl
      obtain ⟨segB, frameB⟩ := region.segAt.of_frame region.inv.layout low
        (by have := Nat.two_pow_pos order; omega)
      have boundB := segB.lt_total region.inv.layout
      by_cases same : s.order (pageAt seg (s.pfn page ^^^ 2 ^ order)) = order
      · have head : IsHead s (pageAt seg (s.pfn page ^^^ 2 ^ order)) order :=
          ⟨segB.lt_managed region.inv.layout, same, region.small⟩
        obtain ⟨t, removed, region', view, freePages, _⟩ :=
          region.absorb head segB frameB (by omega)
        obtain ⟨page', order', u, rest, last, alone, view', freePages', _⟩ :=
          ih (by omega) region'
        refine ⟨page', order', u, ?_, last, alone, view.trans view', freePages'.trans freePages, by omega⟩
        simp only [coalesce, access_eq bound, access_eq boundB, runs, same, removed, ne_eq]
        by_cases lower : s.pfn page ^^^ 2 ^ order < s.pfn page
        · simp only [if_pos lower, view.pfn, frameB] at rest ⊢
          exact rest
        · simp only [if_neg lower, view.pfn] at rest ⊢
          exact rest
      · refine stop _ ?_ fun q head segQ _ frame => ?_
        · simp [coalesce, access_eq bound, access_eq boundB, runs, same]
        · exact same ((region.buddy_valid head segQ frame).2 ▸ head.order)

/-- `t` is `s` after the `n` pages in use from `page` on have been released. -/
structure Released (s t : VmPhys) (page n : Nat) : Prop where
  quiet : Quiet t
  rest : SameRest s t
  flags : t.flags = onRun page n freeFlags s.flags
  object : t.object = onRun page n (fun _ => none) s.object
  pindex : t.pindex = onRun page n (fun _ => 0) s.pindex

theorem freeBlock_spec (quiet : Quiet s) (segAt : SegAt s seg page) (small : order < nFreeOrder)
    (aligned : 2 ^ order ∣ s.pfn page) (inside : page + 2 ^ order ≤ seg.firstPage + seg.pageTotal)
    (used : ∀ i, page ≤ i ∧ i < page + 2 ^ order → (s.flags i).free = false ∧ (s.flags i).excluded = false) :
    ∃ t, s.freeBlock page order = some t ∧ Released s t page (2 ^ order) := by
  obtain ⟨t, marks, inv, rest, flags, object, pindex, freePages, blockPages⟩ :=
    markFree_spec (quiet.inv.setFreePages (s.freePages + 2 ^ order))
      (show SegAt _ seg page from ⟨segAt.named, segAt.low, segAt.high⟩) inside used
  have frame : t.pfn page = s.pfn page := rest.pfn page
  have region : Region t seg page order :=
    ⟨inv, rest.segAt.mpr ⟨segAt.named, segAt.low, segAt.high⟩, by rwa [frame], inside, small⟩
  obtain ⟨_, _, u, merged, last, alone, view, _⟩ :=
    coalesce_spec (nFreeOrder - 1 - order) (by omega) region
  obtain ⟨v, inserted, inv', view', _⟩ := freelistInsert_spec last.inv
    last.small (fun _ member => member) last.aligned last.segAt last.inside alone
  have same := view.trans view'
  refine ⟨v, ?_, ⟨inv'.congr fun i => by simp, ?_⟩, ?_, ?_, ?_, ?_⟩
  · rw [frame] at merged
    simp only [freeBlock, segOf_eq segAt (segAt.lt_total quiet.inv.layout),
      if_neg (show ¬ order ≥ nFreeOrder by omega), bind_eq_bind]
    change ({ s with freePages := s.freePages + 2 ^ order } : VmPhys).markFree seg (s.pfn page)
      (2 ^ order) = some t at marks
    simp only [marks, merged, inserted, bind_some]
  · have count := quiet.count
    change t.freePages = s.freePages + 2 ^ order at freePages
    change t.blockPages = s.blockPages at blockPages
    omega
  · have rest' : SameRest s t := ⟨⟨rest.segs, rest.total, rest.physAddr, rest.segind⟩,
      rest.qlinksNext, rest.qlinksPrev, rest.queue, rest.refCount, rest.wireCount⟩
    exact rest'.trans same.toSameRest
  · exact same.flags.trans flags
  · exact same.object.trans object
  · exact same.pindex.trans pindex

end Release

end Otsos.VmPhys
