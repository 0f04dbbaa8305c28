import Otsos.Phys.Invariant

/-! The two free-list operations. Taking a block off its list makes its pages pending; putting a
block of pending pages on a list covers them again. Neither changes what a client sees. -/
namespace Otsos.VmPhys

open Function (update update_apply update_self)
open Intrusive List Option

/-- Two states with the same segments and the same page addresses. -/
structure SameGeom (s t : VmPhys) : Prop where
  segs : t.segs = s.segs
  total : t.pageTotal = s.pageTotal
  physAddr : t.physAddr = s.physAddr
  segind : t.segind = s.segind

/-- Two states that also agree on the members the allocator never touches. -/
structure SameRest (s t : VmPhys) : Prop extends SameGeom s t where
  qlinksNext : t.qlinksNext = s.qlinksNext
  qlinksPrev : t.qlinksPrev = s.qlinksPrev
  queue : t.queue = s.queue
  refCount : t.refCount = s.refCount
  wireCount : t.wireCount = s.wireCount

/-- Two states that differ in free-list bookkeeping only. -/
structure SameView (s t : VmPhys) : Prop extends SameRest s t where
  flags : t.flags = s.flags
  object : t.object = s.object
  pindex : t.pindex = s.pindex

section Same
theorem SameGeom.trans (first : SameGeom s t) (second : SameGeom t u) : SameGeom s u :=
  ⟨second.segs.trans first.segs, second.total.trans first.total,
    second.physAddr.trans first.physAddr, second.segind.trans first.segind⟩

theorem SameRest.refl (s : VmPhys) : SameRest s s := ⟨⟨rfl, rfl, rfl, rfl⟩, rfl, rfl, rfl, rfl, rfl⟩

theorem SameRest.trans (first : SameRest s t) (second : SameRest t u) : SameRest s u :=
  ⟨first.toSameGeom.trans second.toSameGeom, second.qlinksNext.trans first.qlinksNext,
    second.qlinksPrev.trans first.qlinksPrev, second.queue.trans first.queue,
    second.refCount.trans first.refCount, second.wireCount.trans first.wireCount⟩

theorem SameView.refl (s : VmPhys) : SameView s s := ⟨.refl s, rfl, rfl, rfl⟩

theorem SameView.trans (first : SameView s t) (second : SameView t u) : SameView s u :=
  ⟨first.toSameRest.trans second.toSameRest, second.flags.trans first.flags,
    second.object.trans first.object, second.pindex.trans first.pindex⟩

theorem SameGeom.managed (same : SameGeom s t) : t.managed = s.managed := by
  rw [VmPhys.managed, VmPhys.managed, same.segs]

theorem SameGeom.pfn (same : SameGeom s t) (i : Nat) : t.pfn i = s.pfn i := by
  rw [VmPhys.pfn, VmPhys.pfn, same.physAddr]

theorem SameGeom.segAt (same : SameGeom s t) : SegAt t seg i ↔ SegAt s seg i := by
  constructor
  · rintro ⟨named, low, high⟩
    exact ⟨by rwa [same.segs, same.segind] at named, low, high⟩
  · rintro ⟨named, low, high⟩
    exact ⟨by rwa [same.segs, same.segind], low, high⟩

theorem SameGeom.layout (same : SameGeom s t) (layout : Layout s) : Layout t := by
  constructor
  · rw [same.managed, same.total]
    exact layout.managed_le
  · rw [same.total]
    exact layout.array_fits
  · rw [same.segs]
    exact layout.wf
  · rw [same.segs]
    exact layout.first
  · rw [same.segs]
    exact layout.ascending
  · rw [same.segs, same.segind, same.physAddr]
    exact layout.numbered

theorem available_congr (flags : t.flags i = s.flags i) : Available t i ↔ Available s i := by
  constructor
  · rintro ⟨free, allocated, excluded⟩
    rw [flags] at free allocated excluded
    exact ⟨free, allocated, excluded⟩
  · rintro ⟨free, allocated, excluded⟩
    exact ⟨by rwa [flags], by rwa [flags], by rwa [flags]⟩

end Same

/-- The state after `p` has been taken off list `k` from between `before` and `after`. -/
@[local simp] def unlinked (s : VmPhys) (p k : Nat) (before after : Option Nat) : VmPhys :=
  { s with
    plinksNext := update (fun i => if before = some i then after else s.plinksNext i) p none
    plinksPrev := update (fun i => if after = some i then before else s.plinksPrev i) p none
    order := update s.order p freeOrderNone
    freelists := if before = none then update s.freelists k after else s.freelists
    orderBlocks := update s.orderBlocks k (s.orderBlocks k - 1) }

/-- The state after `p` has been put first on list `k`. -/
@[local simp] def pushed (s : VmPhys) (p k : Nat) : VmPhys :=
  { s with
    plinksNext := update s.plinksNext p (s.freelists k)
    plinksPrev := update (fun i => if s.freelists k = some i then some p else s.plinksPrev i) p none
    order := update s.order p k
    flags := update s.flags p { s.flags p with allocated := false, free := true }
    freelists := update s.freelists k (some p)
    orderBlocks := update s.orderBlocks k (s.orderBlocks k + 1) }

section Shape
variable {s : VmPhys}

theorem freelistRemove_eq (bound : p < s.pageTotal) (small : s.order p < nFreeOrder)
    (before : ∀ q, s.plinksPrev p = some q → q < s.pageTotal ∧ q ≠ p)
    (after : ∀ q, s.plinksNext p = some q → q < s.pageTotal) :
    s.freelistRemove p = some (s.unlinked p (s.order p) (s.plinksPrev p) (s.plinksNext p)) := by
  have low : ¬ s.order p ≥ nFreeOrder := by omega
  simp only [freelistRemove, access_eq bound, if_neg low]
  cases hb : s.plinksPrev p with
  | none =>
    cases ha : s.plinksNext p with
    | none => simp [ha]
    | some b =>
      simp [ha, hb, access, after b ha, Linked.update_if]
  | some a =>
    obtain ⟨inside, _⟩ := before a hb
    cases ha : s.plinksNext p with
    | none => simp [ha, access, inside, Linked.update_if]
    | some b => simp [ha, hb, access, inside, after b ha, Linked.update_if]

theorem freelistInsert_eq (bound : p < s.pageTotal)
    (head : ∀ q, s.freelists k = some q → q < s.pageTotal ∧ q ≠ p) :
    s.freelistInsert p k = some (s.pushed p k) := by
  simp only [freelistInsert, access_eq bound, bind_eq_bind]
  cases hh : s.freelists k with
  | none => simp [hh]
  | some q =>
    obtain ⟨inside, ne⟩ := head q hh
    have commute : update (update s.plinksPrev p none) q (some p) =
        update (fun i => if some q = some i then some p else s.plinksPrev i) p none :=
      Linked.elim_update_comm fun same : some q = some p => ne (some.inj same)
    simp [hh, access, inside, commute]

end Shape

section Preserve
theorem isHead_unlinked {after : Option Nat} :
    IsHead (s.unlinked p k before after) q j ↔ IsHead s q j ∧ q ≠ p := by
  by_cases same : q = p
  · constructor
    · rintro ⟨_, order, small⟩
      simp only [unlinked, same, update_self, freeOrderNone] at order
      omega
    · rintro ⟨_, ne⟩
      exact absurd same ne
  · constructor
    · rintro ⟨bound, order, small⟩
      exact ⟨⟨bound, by simpa [same] using order, small⟩, same⟩
    · rintro ⟨⟨bound, order, small⟩, _⟩
      exact ⟨bound, by simpa [same] using order, small⟩

theorem isHead_pushed (small : k < nFreeOrder) (bound : p < s.managed)
    (order : s.order p = freeOrderNone) : IsHead (s.pushed p k) q j ↔ IsHead s q j ∨ q = p ∧
    j = k := by
  by_cases same : q = p
  · subst same
    constructor
    · rintro ⟨_, order', _⟩
      exact .inr ⟨rfl, by simpa using order'.symm⟩
    · rintro (head | ⟨_, rfl⟩)
      · have := head.small
        rw [← head.order, order, freeOrderNone] at this
        omega
      · exact ⟨bound, by simp, small⟩
  · constructor
    · rintro ⟨bound, order, small⟩
      exact .inl ⟨bound, by simpa [same] using order, small⟩
    · rintro (⟨bound, order, small⟩ | ⟨same', _⟩)
      · exact ⟨bound, by simpa [same] using order, small⟩
      · exact absurd same' same

theorem blockPages_update (s : VmPhys) (small : k < nFreeOrder) (n : Nat) :
    ({ s with orderBlocks := update s.orderBlocks k n } : VmPhys).blockPages + 2 ^ k *
      s.orderBlocks k = s.blockPages + 2 ^ k * n := by
  have member : k ∈ Finset.range nFreeOrder := Finset.mem_range.mpr small
  simp only [blockPages]
  rw [← Finset.add_sum_erase _ _ member, ← Finset.add_sum_erase (Finset.range nFreeOrder) _ member]
  have rest : ∑ j ∈ (Finset.range nFreeOrder).erase k, 2 ^ j * update s.orderBlocks k n j =
      ∑ j ∈ (Finset.range nFreeOrder).erase k, 2 ^ j * s.orderBlocks j := by
    apply Finset.sum_congr rfl
    intro j hj
    rw [Function.update_of_ne (Finset.ne_of_mem_erase hj)]
  rw [update_self]
  omega

section
variable (inv : Inv s pending)
include inv

theorem Inv.list_at (head : IsHead s p k) : ∃ l₁ l₂, Linked s.plinksNext s.plinksPrev (s.freelists k) (l₁ ++ p :: l₂) ∧
      (∀ q, q ∈ l₁ ++ p :: l₂ ↔ IsHead s q k) ∧ s.orderBlocks k = (l₁ ++ p :: l₂).length := by
  obtain ⟨l, linked, members, count⟩ := inv.lists k head.small
  obtain ⟨l₁, l₂, rfl⟩ := append_of_mem ((members p).mpr head)
  exact ⟨l₁, l₂, linked, members, count⟩

theorem Inv.lists_unlinked (head : IsHead s p k)
    (linked : Linked s.plinksNext s.plinksPrev (s.freelists k) (l₁ ++ p :: l₂))
    (members : ∀ q, q ∈ l₁ ++ p :: l₂ ↔ IsHead s q k)
    (count : s.orderBlocks k = (l₁ ++ p :: l₂).length) (t : VmPhys)
    (ht : t = s.unlinked p k l₁.getLast? l₂.head?) :
      ∀ j < nFreeOrder, ∃ l, Linked t.plinksNext t.plinksPrev (t.freelists j) l ∧
      (∀ q, q ∈ l ↔ IsHead t q j) ∧ t.orderBlocks j = l.length := by
  obtain ⟨fresh₁, fresh₂⟩ := linked.fresh
  have heads : ∀ q j, IsHead t q j ↔ IsHead s q j ∧ q ≠ p := by
    intro q j
    rw [ht, isHead_unlinked]
  intro j small
  by_cases this : j = k
  · subst this
    refine ⟨l₁ ++ l₂, ?_, ?_, ?_⟩
    · have first : t.freelists j = (l₁ ++ l₂).head? := by
        cases l₁ with
        | nil => simp [ht]
        | cons a l => simpa [ht] using linked.head_eq
      rw [first, ht]
      exact linked.cut none none
    · intro q
      rw [heads, ← members q]
      simp only [mem_append, mem_cons]
      constructor
      · rintro (member | member)
        · exact ⟨.inl member, fun eq => fresh₁ (eq ▸ member)⟩
        · exact ⟨.inr (.inr member), fun eq => fresh₂ (eq ▸ member)⟩
      · rintro ⟨member | eq | member, ne⟩
        · exact .inl member
        · exact absurd eq ne
        · exact .inr member
    · simp [ht, count]
  · obtain ⟨l, linked', members', count'⟩ := inv.lists j small
    -- the nodes of the other lists are heads of other orders, hence none of the nodes written
    have apart : ∀ x ∈ l, x ≠ p ∧ l₁.getLast? ≠ some x ∧ l₂.head? ≠ some x := by
      intro x member
      have order := ((members' x).mp member).order
      exact apart_of_not_mem fun other => this (order.symm.trans ((members x).mp other).order)
    refine ⟨l, ?_, ?_, ?_⟩
    · have kept : t.freelists j = s.freelists j := by
        simp only [ht, unlinked]
        split <;> simp [this]
      rw [kept]
      apply linked'.frame
      · intro x member
        obtain ⟨ne, last, _⟩ := apart x member
        simp [ht, ne, last]
      · intro x member
        obtain ⟨ne, _, first⟩ := apart x member
        simp [ht, ne, first]
    · intro q
      rw [heads, members' q]
      exact ⟨fun at_ => ⟨at_, (apart q ((members' q).mpr at_)).1⟩, fun at_ => at_.1⟩
    · simp [ht, this, count']

theorem freelistRemove_spec (head : IsHead s p k) :
    ∃ t, s.freelistRemove p = some t ∧ Inv t (fun i => pending i ∨ InBlock p k i) ∧
      SameView s t ∧ t.freePages = s.freePages ∧ t.blockPages + 2 ^ k = s.blockPages := by
  obtain ⟨l₁, l₂, linked, members, count⟩ := inv.list_at head
  obtain ⟨before, after⟩ := linked.links_at
  have onList : ∀ q, q ∈ l₁ ++ p :: l₂ → q < s.pageTotal := fun q member =>
    inv.head_total ((members q).mp member)
  have shape : s.freelistRemove p = some (s.unlinked p k l₁.getLast? l₂.head?) := by
    rw [← before, ← after, ← head.order]
    apply freelistRemove_eq (inv.head_total head)
    · rw [head.order]
      exact head.small
    · intro q same
      have member := mem_of_getLast? (before.symm.trans same)
      exact ⟨onList q (by simp [member]), fun eq => linked.fresh.1 (eq ▸ member)⟩
    · intro q same
      have member := mem_of_mem_head? (after.symm.trans same)
      exact onList q (by simp [member])
  generalize ht : s.unlinked p k l₁.getLast? l₂.head? = t at shape
  have heads : ∀ {q j}, IsHead t q j ↔ IsHead s q j ∧ q ≠ p := by
    intro q j
    rw [← ht, isHead_unlinked]
  have same : SameView s t := by
    rw [← ht]
    exact ⟨⟨⟨rfl, rfl, rfl, rfl⟩, rfl, rfl, rfl, rfl, rfl⟩, rfl, rfl, rfl⟩
  have order : ∀ i, t.order i = if i = p then freeOrderNone else s.order i := by
    intro i
    rw [← ht]
    exact update_apply _ _ _ _
  have flags : ∀ i, Available t i ↔ Available s i := fun i => available_congr (by rw [same.flags])
  refine ⟨t, shape, ?_, same, by rw [← ht]; rfl, ?_⟩
  · constructor
    · exact same.layout inv.layout
    · exact inv.lists_unlinked head linked members count t ht.symm
    · intro i bound
      rw [order]
      split
      · exact le_rfl
      · exact inv.order_le i (same.managed ▸ bound)
    · intro q j at_
      rw [same.pfn]
      exact inv.aligned q j (heads.mp at_).1
    · intro q j seg at_ segAt
      exact inv.inside q j seg (heads.mp at_).1 (same.segAt.mp segAt)
    · intro q j i at_ member
      obtain ⟨at', ne⟩ := heads.mp at_
      obtain ⟨available, outside, interior⟩ := inv.block q j i at' member
      refine ⟨(flags i).mpr available, ?_, ?_⟩
      · rintro (inPending | inBlock)
        · exact outside inPending
        · exact ne (inv.head_unique at' head member inBlock).1
      · intro other
        rw [order, interior other, ite_self]
    · intro i bound free outside
      rw [same.flags] at free
      obtain ⟨q, j, at_, member⟩ := inv.covered i (same.managed ▸ bound) free
        fun inPending => outside (.inl inPending)
      refine ⟨q, j, heads.mpr ⟨at_, ?_⟩, member⟩
      rintro rfl
      rw [at_.order.symm.trans head.order] at member
      exact outside (.inr member)
    · rintro i (inPending | inBlock)
      · obtain ⟨bound, available, none⟩ := inv.pend i inPending
        exact ⟨same.managed ▸ bound, (flags i).mpr available, by rw [order, none, ite_self]⟩
      · obtain ⟨available, _, interior⟩ := inv.block p k i head inBlock
        obtain ⟨seg, segAt⟩ := inv.layout.exists_seg head.managed
        have inside := (inv.block_seg head segAt inBlock).1.lt_managed inv.layout
        refine ⟨same.managed ▸ inside, (flags i).mpr available, ?_⟩
        rw [order]
        split
        · rfl
        · exact interior ‹_›
    · intro a b j seg atA atB segA segB small
      rw [same.pfn, same.pfn]
      exact inv.merged a b j seg (heads.mp atA).1 (heads.mp atB).1
        (same.segAt.mp segA) (same.segAt.mp segB) small
  · have total := blockPages_update s head.small (s.orderBlocks k - 1)
    have nonempty : 2 ^ k * s.orderBlocks k = 2 ^ k * (s.orderBlocks k - 1) + 2 ^ k := by
      rw [← Nat.mul_succ]
      rw [count]
      simp
      omega
    rw [← ht]
    change ({ s with orderBlocks := update s.orderBlocks k (s.orderBlocks k - 1) } :
      VmPhys).blockPages + 2 ^ k = _
    omega

theorem Inv.lists_pushed (pend : pending p) (small : k < nFreeOrder) (t : VmPhys)
    (ht : t = s.pushed p k) :
      ∀ j < nFreeOrder, ∃ l, Linked t.plinksNext t.plinksPrev (t.freelists j) l ∧
      (∀ q, q ∈ l ↔ IsHead t q j) ∧ t.orderBlocks j = l.length := by
  obtain ⟨bound, _, order⟩ := inv.pend p pend
  have heads : ∀ q j, IsHead t q j ↔ IsHead s q j ∨ q = p ∧ j = k := by
    intro q j
    rw [ht, isHead_pushed small bound order]
  have notHead : ∀ j, ¬ IsHead s p j := by
    intro j at_
    have := at_.small
    rw [← at_.order, order, freeOrderNone] at this
    omega
  obtain ⟨lk, linked, members, count⟩ := inv.lists k small
  have fresh : p ∉ lk := fun member => notHead k ((members p).mp member)
  intro j small'
  by_cases this : j = k
  · subst this
    refine ⟨p :: lk, ?_, ?_, ?_⟩
    · have apart : s.freelists j ≠ some p := fun first => fresh (mem_of_mem_head? (linked.head_eq.symm.trans first))
      have inserted := linked.pushFront fresh
      rw [Linked.elim_update_comm apart] at inserted
      simpa [ht] using inserted
    · intro q
      rw [heads, ← members q, mem_cons]
      constructor
      · rintro (rfl | member)
        · exact .inr ⟨rfl, rfl⟩
        · exact .inl member
      · rintro (member | ⟨rfl, _⟩)
        · exact .inr member
        · exact .inl rfl
    · simp [ht, count]
  · obtain ⟨l, linked', members', count'⟩ := inv.lists j small'
    refine ⟨l, ?_, ?_, ?_⟩
    · have kept : t.freelists j = s.freelists j := by simp [ht, this]
      rw [kept]
      apply linked'.frame
      · intro x member
        have ne : x ≠ p := fun eq => notHead j (eq ▸ (members' x).mp member)
        simp [ht, ne]
      · intro x member
        have at_ := (members' x).mp member
        have ne : x ≠ p := fun eq => notHead j (eq ▸ at_)
        have other : s.freelists k ≠ some x := by
          intro first
          rw [linked.head_eq] at first
          exact this (at_.order.symm.trans ((members x).mp (mem_of_mem_head? first)).order)
        simp [ht, ne, other]
    · intro q
      rw [heads, members' q]
      constructor
      · exact .inl
      · rintro (at_ | ⟨_, eq⟩)
        · exact at_
        · exact absurd eq this
    · simp [ht, this, count']

theorem freelistInsert_spec (small : k < nFreeOrder)
    (region : ∀ i, InBlock p k i → pending i) (aligned : 2 ^ k ∣ s.pfn p) (segAt : SegAt s seg p)
    (inside : p + 2 ^ k ≤ seg.firstPage + seg.pageTotal)
    (alone : ∀ q, IsHead s q k → SegAt s seg q → k + 1 < nFreeOrder → s.pfn q ≠ s.pfn p ^^^ 2 ^ k) :
    ∃ t, s.freelistInsert p k = some t ∧ Inv t (fun i => pending i ∧ ¬ InBlock p k i) ∧
      SameView s t ∧ t.freePages = s.freePages ∧ t.blockPages = s.blockPages + 2 ^ k := by
  have self : InBlock p k p := ⟨le_rfl, by simp⟩
  have pend := region p self
  obtain ⟨bound, available, none⟩ := inv.pend p pend
  obtain ⟨l, linked, members, _⟩ := inv.lists k small
  have shape : s.freelistInsert p k = some (s.pushed p k) := by
    apply freelistInsert_eq (lt_of_lt_of_le bound inv.layout.managed_le)
    intro q first
    have at_ := (members q).mp (mem_of_mem_head? (linked.head_eq.symm.trans first))
    refine ⟨inv.head_total at_, ?_⟩
    rintro rfl
    exact (inv.block q k q at_ self).2.1 pend
  have unchanged : update s.flags p { s.flags p with allocated := false, free := true } =
    s.flags := by
    have : ({ s.flags p with allocated := false, free := true } : PageFlags) = s.flags p := by
      rw [← available.free, ← available.allocated]
    rw [this, Function.update_eq_self]
  have heads : ∀ {q j}, IsHead (s.pushed p k) q j ↔ IsHead s q j ∨ q = p ∧ j = k :=
    isHead_pushed small bound none
  have lists := inv.lists_pushed pend small _ rfl
  have same : SameView s (s.pushed p k) :=
    ⟨⟨⟨rfl, rfl, rfl, rfl⟩, rfl, rfl, rfl, rfl, rfl⟩, unchanged, rfl, rfl⟩
  have order : ∀ i, (s.pushed p k).order i = if i = p then k else s.order i :=
    fun i => update_apply _ _ _ _
  have total := blockPages_update s small (s.orderBlocks k + 1)
  have freePages : (s.pushed p k).freePages = s.freePages := rfl
  have blocks : (s.pushed p k).blockPages =
      ({ s with orderBlocks := update s.orderBlocks k (s.orderBlocks k + 1) } : VmPhys).blockPages := rfl
  generalize s.pushed p k = t at *
  have flags : ∀ i, Available t i ↔ Available s i := fun i => available_congr (by rw [same.flags])
  refine ⟨t, shape, ?_, same, freePages, ?_⟩
  · constructor
    · exact same.layout inv.layout
    · exact lists
    · intro i hi
      rw [order]
      split
      · exact Nat.le_of_lt small
      · exact inv.order_le i (same.managed ▸ hi)
    · intro q j at_
      rw [same.pfn]
      rcases heads.mp at_ with at_ | ⟨rfl, rfl⟩
      · exact inv.aligned q j at_
      · exact aligned
    · intro q j seg' at_ segAt'
      have segAt' := same.segAt.mp segAt'
      rcases heads.mp at_ with at_ | ⟨rfl, rfl⟩
      · exact inv.inside q j seg' at_ segAt'
      · obtain rfl := segAt.unique segAt'
        exact inside
    · intro q j i at_ member
      rcases heads.mp at_ with at_ | ⟨rfl, rfl⟩
      · obtain ⟨available', outside, interior⟩ := inv.block q j i at_ member
        refine ⟨(flags i).mpr available', fun both => outside both.1, ?_⟩
        intro other
        have ne : i ≠ p := fun eq => outside (eq ▸ pend)
        rw [order, if_neg ne]
        exact interior other
      · obtain ⟨_, available', none'⟩ := inv.pend i (region i member)
        refine ⟨(flags i).mpr available', fun both => both.2 member, ?_⟩
        intro other
        rw [order, if_neg other, none']
    · intro i hi free outside
      rw [same.flags] at free
      by_cases inPending : pending i
      · exact ⟨p, k, heads.mpr (.inr ⟨rfl, rfl⟩), by_contra fun off => outside ⟨inPending, off⟩⟩
      · obtain ⟨q, j, at_, member⟩ := inv.covered i (same.managed ▸ hi) free inPending
        exact ⟨q, j, heads.mpr (.inl at_), member⟩
    · rintro i ⟨inPending, off⟩
      obtain ⟨hi, available', none'⟩ := inv.pend i inPending
      refine ⟨same.managed ▸ hi, (flags i).mpr available', ?_⟩
      have ne : i ≠ p := fun eq => off (eq ▸ self)
      rw [order, if_neg ne, none']
    · intro a b j seg' atA atB segA segB top
      rw [same.pfn, same.pfn]
      have segA := same.segAt.mp segA
      have segB := same.segAt.mp segB
      rcases heads.mp atA with atA | ⟨rfl, rfl⟩
      · rcases heads.mp atB with atB | ⟨rfl, rfl⟩
        · exact inv.merged a b j seg' atA atB segA segB top
        · obtain rfl := segAt.unique segB
          intro eq
          exact alone a atA segA top (by rw [eq, Dyadic.buddy_buddy])
      · obtain rfl := segAt.unique segA
        rcases heads.mp atB with atB | ⟨rfl, _⟩
        · exact alone b atB segB top
        · have := Dyadic.buddy_cases aligned
          omega
  · rw [Nat.mul_succ] at total
    omega

end

end Preserve

end Otsos.VmPhys
