import Otsos.Phys.Contig

/-! Initialisation: the empty allocator, and the registration of a segment. -/
namespace Otsos.VmPhys

open Function (update update_of_ne)
open List Option

variable {s : VmPhys}

theorem init_quiet (array : VmPhys) {count : Nat} (fits : count * 72 ≤ 2 ^ 64) :
    Quiet (init array count) := by
  have unmanaged : ∀ {i}, ¬ i < (init array count).managed := by simp [init, managed]
  refine ⟨⟨⟨?_, fits, ?_, ?_, ?_, ?_⟩, ?_, ?_, ?_, ?_, ?_, ?_, ?_, ?_⟩, ?_⟩
  · simp [init, managed]
  · intro seg member
    exact absurd member not_mem_nil
  · intro j seg named
    simp [init] at named
  · exact .nil
  · intro j seg named
    simp [init] at named
  · intro k _
    refine ⟨[], .nil, fun p => ⟨fun absent => absurd absent not_mem_nil, ?_⟩, rfl⟩
    intro head
    exact absurd head.managed unmanaged
  · intro i bound
    exact absurd bound unmanaged
  · intro p k head
    exact absurd head.managed unmanaged
  · intro p k seg head
    exact absurd head.managed unmanaged
  · intro p k i head
    exact absurd head.managed unmanaged
  · intro i bound
    exact absurd bound unmanaged
  · intro i pending
    exact pending.elim
  · intro p q k seg head
    exact absurd head.managed unmanaged
  · simp [init, blockPages]

/-- `t` is `s` with the `n` page records from `first` on initialised for a segment at `start`. -/
structure PagesReset (s t : VmPhys) (first n start : Nat) : Prop where
  total : t.pageTotal = s.pageTotal
  segs : t.segs = s.segs
  freelists : t.freelists = s.freelists
  orderBlocks : t.orderBlocks = s.orderBlocks
  freePages : t.freePages = s.freePages
  addressed : ∀ i, first ≤ i ∧ i < first + n →
    t.segind i = s.segs.length ∧ t.physAddr i = start + (i - first) * pageSize
  unused : ∀ i, first ≤ i ∧ i < first + n → t.flags i = { excluded := true } ∧
    t.order i = freeOrderNone ∧ t.refCount i = 0 ∧ t.wireCount i = 0 ∧ t.queue i = 0 ∧
    t.object i = none ∧ t.pindex i = 0
  placed : ∀ i, ¬ (first ≤ i ∧ i < first + n) → t.segind i = s.segind i ∧
    t.physAddr i = s.physAddr i
  linked : ∀ i, ¬ (first ≤ i ∧ i < first + n) → t.plinksNext i = s.plinksNext i ∧
    t.plinksPrev i = s.plinksPrev i ∧ t.qlinksNext i = s.qlinksNext i ∧
    t.qlinksPrev i = s.qlinksPrev i
  kept : ∀ i, ¬ (first ≤ i ∧ i < first + n) → t.flags i = s.flags i ∧
    t.order i = s.order i ∧ t.refCount i = s.refCount i ∧ t.wireCount i = s.wireCount i ∧
    t.queue i = s.queue i ∧ t.object i = s.object i ∧ t.pindex i = s.pindex i

variable {α : Type}

theorem access_some (runs : (do s.access i; return v : Option α) = some t) :
    i < s.pageTotal ∧ v = t := by
  by_cases bound : i < s.pageTotal
  · rw [access_return bound, Option.some.injEq] at runs
    exact ⟨bound, runs⟩
  · simp [access, bound] at runs

theorem initPages_spec (runs : Loop.forUp (fun i s => do
      s.access (first + i)
      return s.initPage (first + i) (start + i * pageSize) s.segs.length) 0 n s = some t) :
    PagesReset s t first n start ∧ (0 < n → first + n ≤ s.pageTotal) := by
  have last := Loop.forUp_inv _ 0 n s
    (fun j t => PagesReset s t first j start ∧ (0 < j → first + j ≤ s.pageTotal))
    ⟨⟨rfl, rfl, rfl, rfl, rfl, fun i => by omega, fun i => by omega, fun _ _ => ⟨rfl, rfl⟩,
      fun _ _ => ⟨rfl, rfl, rfl, rfl⟩, fun _ _ => ⟨rfl, rfl, rfl, rfl, rfl, rfl, rfl⟩⟩, by omega⟩
    (by
      rintro j u v - - ⟨reset, _⟩ step
      obtain ⟨bound, rfl⟩ := access_some step
      rw [reset.total] at bound
      refine ⟨⟨reset.total, reset.segs, reset.freelists, reset.orderBlocks, reset.freePages, ?_, ?_,
        ?_, ?_, ?_⟩, by omega⟩
      all_goals
        intro i range
        by_cases here : i = first + j
        · subst here
          first
          | omega
          | simp [initPage, reset.segs]
        simp only [initPage, update_of_ne here]
      · exact reset.addressed i (by omega)
      · exact reset.unused i (by omega)
      · exact reset.placed i (by omega)
      · exact reset.linked i (by omega)
      · exact reset.kept i (by omega))
    runs
  rwa [Nat.zero_add] at last

/-- The segment that `vm_phys_add_seg` appends. -/
structure NewSeg (s : VmPhys) (seg : VmPhysSeg) : Prop where
  wf : SegWf seg
  first : seg.firstPage = s.managed
  after : ∀ g ∈ s.segs, g.stop ≤ seg.start

theorem getElem?_append_singleton {a : α}
    (named : (l ++ [a])[j]? = some b) : (j < l.length ∧ l[j]? = some b) ∨ j = l.length ∧ b = a := by
  by_cases old : j < l.length
  · rw [getElem?_append_left old] at named
    exact .inl ⟨old, named⟩
  · rw [getElem?_append_right (not_lt.mp old), getElem?_singleton] at named
    split at named
    · exact .inr ⟨by omega, (Option.some.inj named).symm⟩
    · contradiction

section Append
/-- The state after the segment slot has been counted. -/
def withSeg (t : VmPhys) (seg : VmPhysSeg) : VmPhys := { t with segs := t.segs ++ [seg] }

theorem PagesReset.managed (reset : PagesReset s t seg.firstPage seg.pageTotal seg.start) :
    (t.withSeg seg).managed = s.managed + seg.pageTotal := by
  simp [VmPhys.managed, withSeg, reset.segs]

theorem Layout.append (layout : Layout s) (fresh : NewSeg s seg)
    (reset : PagesReset s t seg.firstPage seg.pageTotal seg.start)
    (fits : seg.firstPage + seg.pageTotal ≤ s.pageTotal) : Layout (t.withSeg seg) := by
  constructor
  · rw [reset.managed, ← fresh.first]
    exact le_of_le_of_eq fits reset.total.symm
  · rw [show (t.withSeg seg).pageTotal = s.pageTotal from reset.total]
    exact layout.array_fits
  · intro g member
    simp only [withSeg, reset.segs, mem_append, mem_singleton] at member
    rcases member with old | rfl
    · exact layout.wf g old
    · exact fresh.wf
  · intro j g named
    simp only [withSeg, reset.segs] at named ⊢
    rcases getElem?_append_singleton named with ⟨old, named⟩ | ⟨rfl, rfl⟩
    · rw [take_append_of_le_length (Nat.le_of_lt old)]
      exact layout.first j g named
    · rw [take_left, fresh.first, VmPhys.managed]
  · simp only [withSeg, reset.segs, pairwise_append, mem_singleton]
    refine ⟨layout.ascending, pairwise_singleton _ _, ?_⟩
    rintro g old _ rfl
    exact fresh.after g old
  · intro j g named i low high
    simp only [withSeg, reset.segs] at named ⊢
    rcases getElem?_append_singleton named with ⟨_, named⟩ | ⟨rfl, rfl⟩
    · have below := layout.first_le_managed named
      have first := fresh.first
      obtain ⟨segind, physAddr⟩ := reset.placed i (by omega)
      rw [segind, physAddr]
      exact layout.numbered j g named i low high
    · exact reset.addressed i ⟨low, high⟩

theorem PagesReset.isHead (fresh : NewSeg s seg)
    (reset : PagesReset s t seg.firstPage seg.pageTotal seg.start) :
    IsHead (t.withSeg seg) p k ↔ IsHead s p k := by
  have first := fresh.first
  constructor
  · rintro ⟨bound, order, small⟩
    rw [reset.managed] at bound
    change t.order p = k at order
    by_cases old : p < s.managed
    · rw [(reset.kept p (by omega)).2.1] at order
      exact ⟨old, order, small⟩
    · rw [(reset.unused p (by omega)).2.1, freeOrderNone] at order
      omega
  · rintro ⟨bound, order, small⟩
    refine ⟨by rw [reset.managed]; omega, ?_, small⟩
    change t.order p = k
    rw [(reset.kept p (by omega)).2.1, order]

theorem PagesReset.segAt (layout : Layout s) (fresh : NewSeg s seg)
    (reset : PagesReset s t seg.firstPage seg.pageTotal seg.start)
    (old : i < s.managed) : SegAt (t.withSeg seg) g i ↔ SegAt s g i := by
  have first := fresh.first
  obtain ⟨_, at_⟩ := layout.exists_seg old
  have named : (t.withSeg seg).segs[(t.withSeg seg).segind i]? = s.segs[s.segind i]? := by
    change (t.segs ++ [seg])[t.segind i]? = _
    obtain ⟨inside, _⟩ := List.getElem?_eq_some_iff.mp at_.named
    rw [reset.segs, (reset.placed i (by omega)).1, List.getElem?_append_left inside]
  constructor
  · rintro ⟨name, low, high⟩
    exact ⟨named.symm.trans name, low, high⟩
  · rintro ⟨name, low, high⟩
    exact ⟨named.trans name, low, high⟩

theorem Quiet.append (quiet : Quiet s) (fresh : NewSeg s seg)
    (reset : PagesReset s t seg.firstPage seg.pageTotal seg.start)
    (fits : seg.firstPage + seg.pageTotal ≤ s.pageTotal) : Quiet (t.withSeg seg) := by
  have first := fresh.first
  have inv := quiet.inv
  have frame : ∀ i < s.managed, (t.withSeg seg).pfn i = s.pfn i := by
    intro i old
    change t.physAddr i / pageSize = _
    rw [(reset.placed i (by omega)).2, pfn]
  have flags : ∀ i < s.managed, (t.withSeg seg).flags i = s.flags i :=
    fun i old => (reset.kept i (by omega)).1
  have heads : ∀ {p k}, IsHead (t.withSeg seg) p k ↔ IsHead s p k := reset.isHead fresh
  have within : ∀ {p k i}, IsHead s p k → InBlock p k i → i < s.managed := by
    intro p k i head member
    obtain ⟨g, at_⟩ := inv.layout.exists_seg head.managed
    exact (inv.block_seg head at_ member).1.lt_managed inv.layout
  refine ⟨⟨inv.layout.append fresh reset fits, ?_, ?_, ?_, ?_, ?_, ?_, fun _ => False.elim, ?_⟩, ?_⟩
  · intro k small
    obtain ⟨l, linked, members, count⟩ := inv.lists k small
    refine ⟨l, ?_, fun p => (members p).trans heads.symm, ?_⟩
    · rw [show (t.withSeg seg).freelists = s.freelists from reset.freelists]
      refine linked.frame (fun p member => ?_) fun p member => ?_
      · have := ((members p).mp member).managed
        exact (reset.linked p (by omega)).1
      · have := ((members p).mp member).managed
        exact (reset.linked p (by omega)).2.1
    · rw [show (t.withSeg seg).orderBlocks = s.orderBlocks from reset.orderBlocks, count]
  · intro i bound
    rw [reset.managed] at bound
    change t.order i ≤ _
    by_cases old : i < s.managed
    · rw [(reset.kept i (by omega)).2.1]
      exact inv.order_le i old
    · rw [(reset.unused i (by omega)).2.1]
  · intro p k head
    rw [frame p (heads.mp head).managed]
    exact inv.aligned p k (heads.mp head)
  · intro p k g head at_
    have head := heads.mp head
    exact inv.inside p k g head ((reset.segAt inv.layout fresh head.managed).mp at_)
  · intro p k i head member
    have head := heads.mp head
    have old := within head member
    obtain ⟨available, _, interior⟩ := inv.block p k i head member
    refine ⟨(available_congr (flags i old)).mpr available, id, fun other => ?_⟩
    change t.order i = _
    rw [(reset.kept i (by omega)).2.1]
    exact interior other
  · intro i bound free _
    rw [reset.managed] at bound
    by_cases old : i < s.managed
    · rw [flags i old] at free
      obtain ⟨p, k, head, member⟩ := inv.covered i old free id
      exact ⟨p, k, heads.mpr head, member⟩
    · change (t.flags i).free = true at free
      rw [(reset.unused i (by omega)).1] at free
      contradiction
  · intro p q k g headP headQ atP atQ
    have headP := heads.mp headP
    have headQ := heads.mp headQ
    rw [frame p headP.managed, frame q headQ.managed]
    exact inv.merged p q k g headP headQ ((reset.segAt inv.layout fresh headP.managed).mp atP)
      ((reset.segAt inv.layout fresh headQ.managed).mp atQ)
  · change t.freePages = ∑ k ∈ Finset.range nFreeOrder, 2 ^ k * t.orderBlocks k
    rw [reset.freePages, reset.orderBlocks]
    exact quiet.count

end Append

theorem Layout.last (layout : Layout s) (last : s.segs.getLast? = some g) :
    g.firstPage + g.pageTotal = s.managed ∧ SegWf g ∧ ∀ h ∈ s.segs, h.stop ≤ g.stop := by
  obtain ⟨front, split⟩ := getLast?_eq_some_iff.mp last
  have wf := layout.wf g (by simp [split])
  have first := layout.first front.length g (by simp [split])
  refine ⟨?_, wf, ?_⟩
  · rw [first, managed, split]
    simp
  · intro h member
    have order := layout.ascending
    rw [split, pairwise_append] at order
    rw [split, mem_append, mem_singleton] at member
    rcases member with before | rfl
    · have := order.2.2 h before g (by simp)
      have := wf.stop_eq
      omega
    · exact le_rfl

theorem addSeg_spec (quiet : Quiet s) (stop_lt : stop < 2 ^ 64)
    (runs : s.addSeg start stop = some (added, t)) : (added = false ∧ t = s) ∨ added = true ∧
      ∃ seg u, NewSeg s seg ∧ t = u.withSeg seg ∧
      PagesReset s u seg.firstPage seg.pageTotal seg.start ∧
      seg.firstPage + seg.pageTotal ≤ s.pageTotal := by
  have layout := quiet.inv.layout
  have alignedStart := pageFloor_aligned (u64 (start + (pageSize - 1)))
  have alignedStop := pageFloor_aligned stop
  have stop_le : pageFloor stop ≤ stop := Nat.div_mul_le_self _ _
  simp only [addSeg] at runs
  generalize pageFloor (u64 (start + (pageSize - 1))) = lo at *
  generalize pageFloor stop = hi at *
  split_ifs at runs with nonempty above
  iterate 3
    · simp only [Option.some.injEq, Prod.mk.injEq] at runs
      exact .inl ⟨runs.1.symm, runs.2.symm⟩
  simp only [Option.bind_eq_bind, Option.bind_eq_some_iff] at runs
  obtain ⟨u, loop, done⟩ := runs
  cases done
  obtain ⟨a, rfl⟩ := alignedStart
  obtain ⟨b, rfl⟩ := alignedStop
  have pages : (pageSize * b - pageSize * a) / pageSize = b - a := by
    simp only [pageSize]
    omega
  have frame : pageSize * a / pageSize = a := Nat.mul_div_cancel_left a (by decide)
  have size : pageSize * b = pageSize * a + (b - a) * pageSize ∧ 0 < b - a := by
    simp only [pageSize] at nonempty ⊢
    omega
  refine .inr ⟨rfl, ⟨pageSize * a, pageSize * b, _, (pageSize * b - pageSize * a) / pageSize⟩, u,
    ?_, rfl, ?_⟩
  · cases last : s.segs.getLast? with
    | none =>
      have empty := getLast?_eq_none_iff.mp last
      refine ⟨⟨⟨a, rfl⟩, ?_, by simp only; omega, ?_, Nat.zero_le _⟩, ?_, ?_⟩
      · simp only [pages]
        exact size.1
      · simp only [pages]
        exact size.2
      · simp [managed, empty]
      · simp [empty]
    | some g =>
      obtain ⟨ends, wf, order⟩ := layout.last last
      simp only [last, any_some, decide_eq_true_eq, not_lt] at above
      have frames := wf.frames
      have first := wf.first_le
      refine ⟨⟨⟨a, rfl⟩, ?_, by simp only; omega, ?_, ?_⟩, ends, ?_⟩
      · simp only [pages]
        exact size.1
      · simp only [pages]
        exact size.2
      · simp only [frame]
        have := Nat.div_le_div_right (c := pageSize) above
        omega
      · intro h member
        exact le_trans (order h member) above
  · obtain ⟨reset, fits⟩ := initPages_spec loop
    exact ⟨reset, fits (by rw [pages]; exact size.2)⟩

end Otsos.VmPhys
