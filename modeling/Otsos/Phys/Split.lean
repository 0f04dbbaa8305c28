import Otsos.Phys.Marks

/-! Splitting: allocation of a block of a given order, and carving a single page out of the free
block that contains it. -/
namespace Otsos.VmPhys

open Function (update)
open Option

section Halves
variable {order : Nat}

theorem resetHalf_eq (inv : Inv s pending) (pend : pending p) : s.resetHalf p = some s := by
  obtain ⟨bound, available, none⟩ := inv.pend p pend
  have inArray : p < s.pageTotal := lt_of_lt_of_le bound inv.layout.managed_le
  have flags : ({ s.flags p with free := true } : PageFlags) = s.flags p := by
    rw [← available.free]
  simp only [resetHalf, access_return inArray, ← none, flags, Function.update_eq_self]

/-- A half of the pending block goes back on its list; its buddy holds the other half, so nothing
is left to merge. -/
theorem insertHalf_spec (inv : Inv s (InBlock page (k + 1))) (segAt : SegAt s seg page)
    (aligned : 2 ^ (k + 1) ∣ s.pfn page) (small : k + 1 < nFreeOrder)
    (inside : page + 2 ^ (k + 1) ≤ seg.firstPage + seg.pageTotal) (upper : Bool) :
    ∃ t, s.freelistInsert (if upper then page + 2 ^ k else page) k = some t ∧
      Inv t (InBlock (if upper then page else page + 2 ^ k) k) ∧
      SameView s t ∧ t.freePages = s.freePages ∧ t.blockPages = s.blockPages + 2 ^ k := by
  have half : 2 ^ k ∣ s.pfn page := (Nat.pow_dvd_pow 2 (Nat.le_succ k)).trans aligned
  obtain ⟨segUp, frameUp⟩ := segAt.add (d := 2 ^ k) inv.layout (by omega)
  have buddy := Dyadic.buddy_of_halves aligned
  have unlisted : ∀ q, InBlock page (k + 1) q → ¬ IsHead s q k := fun q pend head =>
    inv.off_of_pending pend q k head head.inBlock
  have same : ∀ q i, SegAt s seg q → SegAt s seg i → s.pfn q = s.pfn i → q = i := by
    intro q i atQ atI eq
    rw [← atQ.pageAt_pfn inv.layout, eq, atI.pageAt_pfn inv.layout]
  cases upper with
  | true =>
    obtain ⟨t, runs, inv', view, freePages, blockPages⟩ := freelistInsert_spec
      (p := page + 2 ^ k) (k := k) inv (by omega)
      (fun i member => ⟨by have := member.1; omega, by have := member.2; omega⟩)
      (by rw [frameUp]; exact Nat.dvd_add half dvd_rfl) segUp (by omega)
      (by
        intro q head segQ _ eq
        rw [frameUp, ← buddy, Dyadic.buddy_buddy] at eq
        obtain rfl := same q page segQ segAt eq
        exact unlisted q ⟨le_rfl, by omega⟩ head)
    refine ⟨t, by simpa using runs, ?_, view, freePages, blockPages⟩
    refine inv'.congr fun i => ?_
    simp only [InBlock, if_true]
    omega
  | false =>
    obtain ⟨t, runs, inv', view, freePages, blockPages⟩ := freelistInsert_spec
      (p := page) (k := k) inv (by omega)
      (fun i member => ⟨member.1, by have := member.2; omega⟩) half segAt (by omega)
      (by
        intro q head segQ _ eq
        rw [buddy, ← frameUp] at eq
        obtain rfl := same q _ segQ segUp eq
        exact unlisted _ ⟨by omega, by omega⟩ head)
    refine ⟨t, by simpa using runs, ?_, view, freePages, blockPages⟩
    refine inv'.congr fun i => ?_
    simp only [InBlock, Bool.false_eq_true, if_false]
    omega

theorem splitLoop_spec (small : k < nFreeOrder) (le : dst ≤ k) :
    ∀ s : VmPhys, Inv s (InBlock page k) → SegAt s seg page → 2 ^ k ∣ s.pfn page →
      page + 2 ^ k ≤ seg.firstPage + seg.pageTotal →
      ∃ t, splitLoop seg (s.pfn page) dst k s = some t ∧ Inv t (InBlock page dst) ∧ SameView s t ∧
        t.freePages = s.freePages ∧ t.blockPages + 2 ^ dst = s.blockPages + 2 ^ k := by
  induction k with
  | zero =>
    intro s inv _ _ _
    obtain rfl : dst = 0 := by omega
    exact ⟨s, rfl, inv, .refl s, rfl, rfl⟩
  | succ k ih =>
    intro s inv segAt aligned inside
    by_cases deeper : k + 1 > dst
    · have index : pageAt seg (s.pfn page + 2 ^ k) = page + 2 ^ k :=
        segAt.pageAt_add inv.layout (by omega)
      have pend : InBlock page (k + 1) (page + 2 ^ k) := ⟨by omega, by omega⟩
      obtain ⟨t, runs, inv', view, freePages, _⟩ :=
        insertHalf_spec inv segAt aligned (by omega) inside true
      have half : 2 ^ k ∣ t.pfn page := by
        rw [view.pfn]
        exact (Nat.pow_dvd_pow 2 (Nat.le_succ k)).trans aligned
      obtain ⟨u, rest, inv'', view', freePages', _⟩ :=
        ih (by omega) (by omega) t inv' (view.segAt.mpr segAt) half (by omega)
      refine ⟨u, ?_, inv'', view.trans view', freePages'.trans freePages, by omega⟩
      simp only [if_true] at runs
      rw [view.pfn] at rest
      simp only [splitLoop, if_pos deeper, index, resetHalf_eq inv pend, runs, bind_eq_bind, bind_some, rest]
    · obtain rfl : dst = k + 1 := by omega
      exact ⟨s, by simp only [splitLoop, if_neg deeper], inv, .refl s, rfl, rfl⟩

theorem segOf_eq (segAt : SegAt s seg p) (bound : p < s.pageTotal) :
    s.segOf p = some (some seg) := by
  simp only [segOf, access_return bound, segAt.named]

/-- `t` is `s` after the `n` free pages from `page` on have been allocated. -/
structure Took (s t : VmPhys) (page n : Nat) : Prop where
  quiet : Quiet t
  rest : SameRest s t
  managed : page + n ≤ s.managed
  free : ∀ i, page ≤ i ∧ i < page + n → (s.flags i).free = true
  flags : t.flags = onRun page n allocFlags s.flags
  object : t.object = s.object
  pindex : t.pindex = s.pindex

theorem takeBlock_spec (quiet : Quiet s) (head : IsHead s page k) (le : order ≤ k) :
    ∃ t, s.takeBlock page k order = some t ∧ Took s t page (2 ^ order) := by
  obtain ⟨seg, segAt⟩ := quiet.inv.layout.exists_seg head.managed
  have inside := quiet.inv.inside page k seg head segAt
  have aligned := quiet.inv.aligned page k head
  obtain ⟨t, removed, inv, view, _⟩ := freelistRemove_spec quiet.inv head
  replace inv : Inv t (InBlock page k) := inv.congr fun i => by simp
  have segT := view.segAt.mpr segAt
  obtain ⟨u, split, inv', view', _⟩ :=
    splitLoop_spec head.small le t inv segT (by rwa [view.pfn]) inside
  have splits : (if k > order then t.splitTo page k order else some t) = some u := by
    by_cases larger : k > order
    · simp only [if_pos larger, splitTo, segOf_eq segT (segT.lt_total inv.layout), bind_eq_bind, bind_some, split]
    · obtain rfl : order = k := by omega
      rw [if_neg larger]
      cases order with
      | zero => simpa only [splitLoop] using split
      | succ order => simpa only [splitLoop, lt_irrefl, if_false] using split
  have shorter : 2 ^ order ≤ 2 ^ k := Nat.pow_le_pow_right (by decide) le
  have bound : page + 2 ^ order ≤ s.managed := by
    have := quiet.inv.layout.first_le_managed segAt.named
    omega
  have same := view.trans view'
  obtain ⟨v, marks, inv'', rest, flags, object, pindex, freePages'', blockPages''⟩ :=
    markAlloc_spec (inv'.setFreePages (u.freePages - 2 ^ order)) page (2 ^ order)
      (fun _ member => member) (same.managed ▸ bound)
  refine ⟨v, ?_, ⟨inv''.congr fun i => ?_, ?_⟩, same.toSameRest.trans ?_, bound, ?_, ?_, ?_, ?_⟩
  · by_cases larger : k > order
    · rw [if_pos larger] at splits
      simp only [takeBlock, removed, if_pos larger, splits, bind_eq_bind, bind_some, marks]
    · rw [if_neg larger, some.injEq] at splits
      subst splits
      simp only [takeBlock, removed, if_neg larger, bind_eq_bind, bind_some, marks]
  · simp only [InBlock, and_not_self_iff]
  · have count := quiet.count
    change v.freePages = u.freePages - 2 ^ order at freePages''
    change v.blockPages = u.blockPages at blockPages''
    omega
  · exact ⟨⟨rest.segs, rest.total, rest.physAddr, rest.segind⟩, rest.qlinksNext, rest.qlinksPrev,
      rest.queue, rest.refCount, rest.wireCount⟩
  · intro i member
    exact (quiet.inv.block page k i head ⟨member.1, by omega⟩).1.free
  · rw [flags, ← same.flags]
  · rw [object, ← same.object]
  · rw [pindex, ← same.pindex]

theorem Inv.freelists_none (inv : Inv s pending) (small : k < nFreeOrder) :
    s.freelists k = none ↔ ∀ p, ¬ IsHead s p k := by
  obtain ⟨l, linked, members, _⟩ := inv.lists k small
  rw [linked.head_eq, List.head?_eq_none_iff]
  constructor
  · rintro rfl p head
    exact List.not_mem_nil ((members p).mpr head)
  · intro empty
    exact List.eq_nil_iff_forall_not_mem.mpr fun p member => empty p ((members p).mp member)

theorem Inv.isHead_of_freelists (inv : Inv s pending) (small : k < nFreeOrder)
    (first : s.freelists k = some p) : IsHead s p k := by
  obtain ⟨l, linked, members, _⟩ := inv.lists k small
  rw [linked.head_eq] at first
  exact (members p).mp (List.mem_of_head? first)

theorem allocFrom_spec (quiet : Quiet s) (count : Nat) (le : order ≤ k)
    (top : k + count = nFreeOrder) :
      (∃ j page t, s.allocFrom order k count = some (some page, t) ∧ k ≤ j ∧ IsHead s page j ∧
      Took s t page (2 ^ order)) ∨
    s.allocFrom order k count = some (none, s) ∧ ∀ j p, k ≤ j → ¬ IsHead s p j := by
  induction count generalizing k with
  | zero =>
    refine .inr ⟨rfl, fun j p above head => ?_⟩
    have := head.small
    omega
  | succ count ih =>
    cases first : s.freelists k with
    | some page =>
      have head := quiet.inv.isHead_of_freelists (by omega) first
      obtain ⟨t, runs, took⟩ := takeBlock_spec quiet head le
      refine .inl ⟨k, page, t, ?_, le_rfl, head, took⟩
      simp only [allocFrom, first, runs, bind_eq_bind, bind_some, pure_def]
    | none =>
      have empty := (quiet.inv.freelists_none (by omega)).mp first
      simp only [allocFrom, first]
      rcases ih (k := k + 1) (by omega) (by omega) with ⟨j, page, t, runs, above, found⟩ | ⟨runs, none⟩
      · exact .inl ⟨j, page, t, runs, by omega, found⟩
      · refine .inr ⟨runs, fun j p above head => ?_⟩
        by_cases here : j = k
        · exact empty p (here ▸ head)
        · exact none j p (by omega) head

end Halves

section Carving
variable {order : Nat}

/-- Looking for the head of the block around page `i`: the candidates below the right order are
interior pages of the block, so they are in the array and carry no order. -/
theorem headSearch_spec (inv : Inv s pending) (head : IsHead s p k) (member : InBlock p k i)
    (segAt : SegAt s seg p) (low : j ≤ k) (high : k < j + count) :
    s.headSearch seg (s.pfn i) j count = some (some (p, k, s.pfn p)) := by
  obtain ⟨_, _⟩ := inv.block_seg head segAt member
  have inside := inv.inside p k seg head segAt
  have left := member.1
  have right := member.2
  induction count generalizing j with
  | zero => omega
  | succ count ih =>
    obtain ⟨aligned, _⟩ := Dyadic.floor_spec j (s.pfn i)
    have nest := Dyadic.nested_of_overlap low (inv.aligned p k head) aligned
    set f := s.pfn i / 2 ^ j * 2 ^ j with hf
    have index : pageAt seg f = p + (f - s.pfn p) := by
      rw [show f = s.pfn p + (f - s.pfn p) by omega, segAt.pageAt_add inv.layout (by omega)]
      omega
    have bound : p + (f - s.pfn p) < s.pageTotal :=
      (segAt.add (d := f - s.pfn p) inv.layout (by omega)).1.lt_total inv.layout
    simp only [headSearch, ← hf, index, access_eq bound, bind_eq_bind]
    by_cases same : j = k
    · subst same
      have start : f = s.pfn p := by
        exact Dyadic.floor_eq (inv.aligned p j head) (by omega) (by omega)
      simp [start, head.order]
    · have carries : s.order (p + (f - s.pfn p)) ≠ j := by
        by_cases first : f = s.pfn p
        · rw [first, Nat.sub_self, Nat.add_zero, head.order]
          exact Ne.symm same
        · have := (inv.block p k (p + (f - s.pfn p)) head ⟨by omega, by omega⟩).2.2 (by omega)
          have := head.small
          rw [freeOrderNone] at *
          omega
      rw [if_neg carries]
      exact ih (by omega) (by omega)

theorem carve_spec (small : order < nFreeOrder) :
    ∀ (s : VmPhys) (page : Nat), Inv s (InBlock page order) → SegAt s seg page →
      2 ^ order ∣ s.pfn page → page + 2 ^ order ≤ seg.firstPage + seg.pageTotal →
      InBlock page order i →
      ∃ t, carve seg (s.pfn i) order (s.pfn page) s = some t ∧ Inv t (InBlock i 0) ∧
        SameView s t ∧ t.freePages = s.freePages ∧ t.blockPages + 1 = s.blockPages + 2 ^ order := by
  induction order with
  | zero =>
    intro s page inv _ _ _ member
    obtain rfl : i = page := by
      have := member.1
      have := member.2
      omega
    exact ⟨s, rfl, inv, .refl s, rfl, rfl⟩
  | succ k ih =>
    intro s page inv segAt aligned inside member
    have low := member.1
    have high := member.2
    have half : 2 ^ k ∣ s.pfn page := (Nat.pow_dvd_pow 2 (Nat.le_succ k)).trans aligned
    obtain ⟨segUp, frameUp⟩ := segAt.add (d := 2 ^ k) inv.layout (by omega)
    have frameI : s.pfn i = s.pfn page + (i - page) := by
      have := (segAt.add (d := i - page) inv.layout (by omega)).2
      rwa [Nat.add_sub_cancel' low] at this
    have indexUp := segUp.pageAt_pfn inv.layout
    have index := segAt.pageAt_pfn inv.layout
    by_cases upper : s.pfn i ≥ s.pfn page + 2 ^ k
    · -- the target is in the upper half: the lower one goes back
      obtain ⟨t, runs, inv', view, freePages, blockPages⟩ :=
        insertHalf_spec inv segAt aligned (by omega) inside false
      simp only [Bool.false_eq_true, if_false] at runs
      obtain ⟨u, rest, inv'', view', freePages', blockPages'⟩ :=
        ih (by omega) t (page + 2 ^ k) inv' (view.segAt.mpr segUp)
          (by rw [view.pfn, frameUp]; exact Nat.dvd_add half dvd_rfl) (by omega)
          ⟨by omega, by omega⟩
      refine ⟨u, ?_, inv'', view.trans view', freePages'.trans freePages, by omega⟩
      have pend : InBlock page (k + 1) page := ⟨le_rfl, by omega⟩
      rw [view.pfn, view.pfn, frameUp] at rest
      simp only [carve, if_pos upper, index, resetHalf_eq inv pend, runs, bind_eq_bind, bind_some, rest]
    · obtain ⟨t, runs, inv', view, freePages, blockPages⟩ :=
        insertHalf_spec inv segAt aligned (by omega) inside true
      simp only [if_true] at runs
      obtain ⟨u, rest, inv'', view', freePages', blockPages'⟩ :=
        ih (by omega) t page inv' (view.segAt.mpr segAt) (by rwa [view.pfn]) (by omega)
          ⟨by omega, by omega⟩
      refine ⟨u, ?_, inv'', view.trans view', freePages'.trans freePages, by omega⟩
      have pend : InBlock page (k + 1) (page + 2 ^ k) := ⟨by omega, by omega⟩
      rw [view.pfn, view.pfn] at rest
      rw [frameUp] at indexUp
      simp only [carve, if_neg upper, indexUp, resetHalf_eq inv pend, runs, bind_eq_bind, bind_some, rest]

theorem findHead_spec (inv : Inv s pending) (head : IsHead s p k) (member : InBlock p k i)
    (segAt : SegAt s seg p) : s.findHead seg i = some (some (p, k, s.pfn p)) := by
  have small := head.small
  by_cases first : i = p
  · subst first
    have listed : s.order i ≠ freeOrderNone := by
      rw [head.order]
      exact Nat.ne_of_lt small
    rw [findHead, if_pos listed, head.order]
  · have interior := (inv.block p k i head member).2.2 first
    rw [findHead, if_neg (not_not.mpr interior)]
    have low := member.1
    have high := member.2
    have positive : k ≠ 0 := by
      rintro rfl
      omega
    have top : k < 1 + (nFreeOrder - 1) := by omega
    exact headSearch_spec inv head member segAt (Nat.one_le_iff_ne_zero.mpr positive) top

theorem detach_spec (inv : Inv s fun _ => False) (bound : i < s.managed)
    (free : (s.flags i).free = true) : ∃ t, s.detach i = some (some t) ∧ Inv t (InBlock i 0) ∧
      SameView s t ∧ t.freePages = s.freePages ∧ t.blockPages + 1 = s.blockPages := by
  obtain ⟨p, k, head, member⟩ := inv.covered i bound free id
  obtain ⟨seg, segAt⟩ := inv.layout.exists_seg head.managed
  obtain ⟨segI, _⟩ := inv.block_seg head segAt member
  have found := findHead_spec inv head member segAt
  obtain ⟨t, removed, inv', view, freePages, _⟩ := freelistRemove_spec inv head
  replace inv' : Inv t (InBlock p k) := inv'.congr fun i => by simp
  obtain ⟨u, carved, inv'', view', freePages', _⟩ :=
    carve_spec head.small t p inv' (view.segAt.mpr segAt)
      (by rw [view.pfn]; exact inv.aligned p k head) (inv.inside p k seg head segAt) member
  refine ⟨u, ?_, inv'', view.trans view', freePages'.trans freePages, by omega⟩
  rw [view.pfn, view.pfn] at carved
  simp only [detach, segOf_eq segI (segI.lt_total inv.layout), free, found, removed, carved,
    bind_eq_bind, bind_some, Bool.not_true, Bool.false_eq_true, if_false,
    pure_def]

theorem stealFree_spec (quiet : Quiet s) (bound : i < s.managed) (free : (s.flags i).free = true) :
    ∃ t, s.stealFree i = some (true, t) ∧ Took s t i 1 := by
  obtain ⟨t, detached, inv, view, freePages, _⟩ := detach_spec quiet.inv bound free
  obtain ⟨u, marks, inv', rest, flags, object, pindex, _⟩ :=
    markAlloc_spec inv i 1 (fun _ => by simp [InBlock])
      (by rw [view.managed]; omega)
  have count := quiet.count
  refine ⟨{ u with freePages := u.freePages - 1 }, ?_,
    ⟨(inv'.setFreePages _).congr fun j => ?_, ?_⟩, ?_, by omega, ?_, ?_, ?_, ?_⟩
  · simp only [stealFree, detached, bind_eq_bind, bind_some, marks, pure_def]
  · simp [InBlock]
  · change u.freePages - 1 = u.blockPages
    omega
  · have same := view.toSameRest.trans rest
    exact ⟨⟨same.segs, same.total, same.physAddr, same.segind⟩, same.qlinksNext, same.qlinksPrev,
      same.queue, same.refCount, same.wireCount⟩
  · intro j member
    obtain rfl : j = i := by omega
    exact free
  · rw [flags, view.flags]
  · exact object.trans view.object
  · exact pindex.trans view.pindex

end Carving

end Otsos.VmPhys
