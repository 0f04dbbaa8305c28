import Mathlib.Algebra.BigOperators.Intervals
import Otsos.Foundation.Dyadic
import Otsos.Foundation.Intrusive
import Otsos.Phys.Allocator

/-! Representation invariant of the buddy allocator. Between two linked-list operations some free
pages belong to no block; the invariant carries that set as `pending`, so that splitting, merging,
isolating and releasing are all sequences of "take a block off its list" and "put a block on its
list" over one predicate. -/
namespace Otsos.VmPhys
open List

/-- Page `i` lies in segment `seg`, which the page names. -/
structure SegAt (s : VmPhys) (seg : VmPhysSeg) (i : Nat) : Prop where
  named : s.segs[s.segind i]? = some seg
  low : seg.firstPage ≤ i
  high : i < seg.firstPage + seg.pageTotal

structure SegWf (seg : VmPhysSeg) : Prop where
  start_aligned : pageSize ∣ seg.start
  stop_eq : seg.stop = seg.start + seg.pageTotal * pageSize
  stop_lt : seg.stop < 2 ^ 64
  nonempty : 0 < seg.pageTotal
  first_le : seg.firstPage ≤ seg.start / pageSize

/-- Segments are ascending, their pages are numbered consecutively, and every page records its
segment and address. `72` is the size of a page record. -/
structure Layout (s : VmPhys) : Prop where
  managed_le : s.managed ≤ s.pageTotal
  array_fits : s.pageTotal * 72 ≤ 2 ^ 64
  wf : ∀ seg ∈ s.segs, SegWf seg
  first : ∀ j seg, s.segs[j]? = some seg →
    seg.firstPage = ((s.segs.take j).map VmPhysSeg.pageTotal).sum
  ascending : s.segs.Pairwise fun a b => a.stop ≤ b.start
  numbered : ∀ j seg, s.segs[j]? = some seg → ∀ i, seg.firstPage ≤ i →
    i < seg.firstPage + seg.pageTotal → s.segind i = j ∧
    s.physAddr i = seg.start + (i - seg.firstPage) * pageSize

/-- `p` heads a free block of order `k`. -/
structure IsHead (s : VmPhys) (p k : Nat) : Prop where
  managed : p < s.managed
  order : s.order p = k
  small : k < nFreeOrder

/-- Page `i` is one of the `2 ^ k` pages from `p` on. -/
def InBlock (p k i : Nat) : Prop := p ≤ i ∧ i < p + 2 ^ k

/-- A free page outside the excluded set. -/
structure Available (s : VmPhys) (i : Nat) : Prop where
  free : (s.flags i).free = true
  allocated : (s.flags i).allocated = false
  excluded : (s.flags i).excluded = false

/-- The pages on all free lists together. -/
def blockPages (s : VmPhys) : Nat := ∑ k ∈ Finset.range nFreeOrder, 2 ^ k * s.orderBlocks k

structure Inv (s : VmPhys) (pending : Nat → Prop) : Prop where
  layout : Layout s
  lists : ∀ k < nFreeOrder, ∃ l, Intrusive.Linked s.plinksNext s.plinksPrev (s.freelists k) l ∧
    (∀ p, p ∈ l ↔ IsHead s p k) ∧ s.orderBlocks k = l.length
  order_le : ∀ i < s.managed, s.order i ≤ freeOrderNone
  aligned : ∀ p k, IsHead s p k → 2 ^ k ∣ s.pfn p
  inside : ∀ p k seg, IsHead s p k → SegAt s seg p → p + 2 ^ k ≤ seg.firstPage + seg.pageTotal
  block : ∀ p k i, IsHead s p k → InBlock p k i → Available s i ∧ ¬ pending i ∧
    (i ≠ p → s.order i = freeOrderNone)
  covered : ∀ i < s.managed, (s.flags i).free = true → ¬ pending i → ∃ p k, IsHead s p k ∧
    InBlock p k i
  pend : ∀ i, pending i → i < s.managed ∧ Available s i ∧ s.order i = freeOrderNone
  merged : ∀ p q k seg, IsHead s p k → IsHead s q k → SegAt s seg p → SegAt s seg q →
    k + 1 < nFreeOrder → s.pfn q ≠ s.pfn p ^^^ 2 ^ k

theorem Inv.congr (inv : Inv s pending) (same : ∀ i, pending' i ↔ pending i) : Inv s pending' := by
  rwa [show pending' = pending from funext fun i => propext (same i)]

section Geometry
theorem sum_take_le (l : List Nat) (j : Nat) : (l.take j).sum ≤ l.sum := by
  conv_rhs => rw [← take_append_drop j l, sum_append]
  exact Nat.le_add_right _ _

theorem Layout.first_le_managed (layout : Layout s) {j : Nat} (at_ : s.segs[j]? = some seg) :
    seg.firstPage + seg.pageTotal ≤ s.managed := by
  have prefixed := sum_take_le (s.segs.map VmPhysSeg.pageTotal) (j + 1)
  rw [layout.first j seg at_]
  simp only [take_add_one, List.getElem?_map, at_, sum_append, ← map_take] at prefixed
  exact prefixed

theorem SegAt.lt_managed (layout : Layout s) (at_ : SegAt s seg i) : i < s.managed :=
  lt_of_lt_of_le at_.high (layout.first_le_managed at_.named)

theorem SegAt.lt_total (layout : Layout s) (at_ : SegAt s seg i) : i < s.pageTotal :=
  lt_of_lt_of_le (at_.lt_managed layout) layout.managed_le

theorem SegAt.mem (at_ : SegAt s seg i) : seg ∈ s.segs := mem_of_getElem? at_.named

theorem SegAt.of_named (layout : Layout s) {j : Nat} (at_ : s.segs[j]? = some seg)
    (low : seg.firstPage ≤ i) (high : i < seg.firstPage + seg.pageTotal) : SegAt s seg i := by
  obtain ⟨named, _⟩ := layout.numbered j seg at_ i low high
  exact ⟨by rw [named]; exact at_, low, high⟩

theorem Layout.exists_seg (layout : Layout s) (bound : i < s.managed) : ∃ seg, SegAt s seg i := by
  have split : ∀ l : List VmPhysSeg, i < (l.map VmPhysSeg.pageTotal).sum → ∃ j seg,
      l[j]? = some seg ∧ ((l.take j).map VmPhysSeg.pageTotal).sum ≤ i ∧
        i < ((l.take j).map VmPhysSeg.pageTotal).sum + seg.pageTotal := by
    intro l
    induction l using reverseRecOn with
    | nil => simp
    | append_singleton l seg ih =>
      intro bound
      by_cases earlier : i < (l.map VmPhysSeg.pageTotal).sum
      · obtain ⟨j, g, at_, low, high⟩ := ih earlier
        obtain ⟨inside, _⟩ := List.getElem?_eq_some_iff.mp at_
        refine ⟨j, g, by rw [List.getElem?_append_left inside, at_], ?_⟩
        rw [take_append_of_le_length (Nat.le_of_lt inside)]
        exact ⟨low, high⟩
      · refine ⟨l.length, seg, by simp, ?_⟩
        simp only [map_append, sum_append] at bound
        simp only [take_left']
        exact ⟨not_lt.mp earlier, bound⟩
  obtain ⟨j, seg, at_, low, high⟩ := split s.segs bound
  rw [← layout.first j seg at_] at low high
  exact ⟨seg, .of_named layout at_ low high⟩

theorem SegAt.pfn_eq (layout : Layout s) (at_ : SegAt s seg i) :
    s.pfn i = seg.start / pageSize + (i - seg.firstPage) := by
  obtain ⟨_, addr⟩ := layout.numbered _ seg at_.named i at_.low at_.high
  obtain ⟨n, start⟩ := (layout.wf seg at_.mem).start_aligned
  rw [pfn, addr, start, Nat.mul_comm _ pageSize, ← Nat.mul_add,
    Nat.mul_div_cancel_left _ (by decide), Nat.mul_div_cancel_left _ (by decide)]

theorem SegAt.unique (at_ : SegAt s seg i) (at' : SegAt s seg' i) :
    seg = seg' := Option.some.inj (at_.named.symm.trans at'.named)

theorem SegAt.add (layout : Layout s) (at_ : SegAt s seg i)
    (inside : i + d < seg.firstPage + seg.pageTotal) :
    SegAt s seg (i + d) ∧ s.pfn (i + d) = s.pfn i + d := by
  have next := SegAt.of_named layout at_.named (Nat.le_add_right_of_le at_.low) inside
  refine ⟨next, ?_⟩
  rw [next.pfn_eq layout, at_.pfn_eq layout]
  have := at_.low
  omega

theorem SegWf.frames (wf : SegWf seg) :
    seg.start / pageSize + seg.pageTotal = seg.stop / pageSize ∧ seg.stop / pageSize < 2 ^ 52 := by
  have stop := wf.stop_eq
  have bound := wf.stop_lt
  simp only [pageSize] at *
  omega

theorem pageAt_eq (wf : SegWf seg) (low : seg.start / pageSize ≤ f)
    (high : f < seg.start / pageSize + seg.pageTotal) :
    pageAt seg f = seg.firstPage + (f - seg.start / pageSize) := by
  have frames := wf.frames
  have first := wf.first_le
  rw [pageAt, u64, show seg.firstPage + (2 ^ 64 + f - seg.start / pageSize) =
    seg.firstPage + (f - seg.start / pageSize) + 2 ^ 64 by omega]
  omega

theorem SegAt.pageAt_pfn (layout : Layout s) (at_ : SegAt s seg i) : pageAt seg (s.pfn i) = i := by
  have low := at_.low
  have high := at_.high
  rw [at_.pfn_eq layout, pageAt_eq (layout.wf seg at_.mem) (by omega) (by omega)]
  omega

theorem SegAt.pageAt_add (layout : Layout s) (at_ : SegAt s seg i)
    (inside : i + d < seg.firstPage + seg.pageTotal) : pageAt seg (s.pfn i + d) = i + d := by
  obtain ⟨next, frame⟩ := at_.add layout inside
  rw [← frame, next.pageAt_pfn layout]

theorem SegAt.of_frame (layout : Layout s) (at_ : SegAt s seg i)
    (low : seg.start / pageSize ≤ f) (high : f < seg.start / pageSize + seg.pageTotal) :
    SegAt s seg (pageAt seg f) ∧ s.pfn (pageAt seg f) = f := by
  rw [pageAt_eq (layout.wf seg at_.mem) low high]
  have next := SegAt.of_named (i := seg.firstPage + (f - seg.start / pageSize)) layout at_.named
    (by omega) (by omega)
  refine ⟨next, ?_⟩
  rw [next.pfn_eq layout]
  omega

end Geometry

section Blocks
theorem IsHead.inBlock (_ : IsHead s p k) : InBlock p k p := ⟨le_rfl, by simp⟩

theorem Inv.block_seg (inv : Inv s pending) (head : IsHead s p k) (at_ : SegAt s seg p)
    (member : InBlock p k i) : SegAt s seg i ∧ s.pfn i = s.pfn p + (i - p) := by
  obtain ⟨low, _⟩ := member
  have inside := inv.inside p k seg head at_
  have := at_.add (d := i - p) inv.layout (by omega)
  rwa [Nat.add_sub_cancel' low] at this

theorem Inv.head_unique (inv : Inv s pending) (hp : IsHead s p k) (hq : IsHead s q j)
    (memP : InBlock p k i) (memQ : InBlock q j i) : p = q ∧ k = j := by
  obtain ⟨_, atP⟩ := inv.layout.exists_seg hp.managed
  obtain ⟨_, atQ⟩ := inv.layout.exists_seg hq.managed
  obtain ⟨_, _⟩ := inv.block_seg hp atP memP
  obtain ⟨_, _⟩ := inv.block_seg hq atQ memQ
  have lowP := memP.1
  have highP := memP.2
  have lowQ := memQ.1
  have highQ := memQ.2
  have same : p = q := by
    -- the head of the smaller block would be an interior page of the larger one
    rcases Nat.le_total j k with smaller | smaller
    · have nest := Dyadic.nested_of_overlap smaller (inv.aligned p k hp) (inv.aligned q j hq)
      have interior := (inv.block p k q hp ⟨by omega, by have := Nat.two_pow_pos j; omega⟩).2.2
      have := hq.small
      rw [hq.order, freeOrderNone] at interior
      omega
    · have nest := Dyadic.nested_of_overlap smaller (inv.aligned q j hq) (inv.aligned p k hp)
      have interior := (inv.block q j p hq ⟨by omega, by have := Nat.two_pow_pos k; omega⟩).2.2
      have := hp.small
      rw [hp.order, freeOrderNone] at interior
      omega
  subst same
  exact ⟨rfl, hp.order.symm.trans hq.order⟩

theorem Inv.head_total (inv : Inv s pending) (head : IsHead s p k) : p < s.pageTotal :=
  lt_of_lt_of_le head.managed inv.layout.managed_le

end Blocks

end Otsos.VmPhys
