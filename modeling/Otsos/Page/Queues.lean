import Otsos.Page.Model

/-! The paging queues are doubly linked lists that partition the queued pages by the queue each page
names. -/
namespace Otsos.VmPage
open List

open Function (update update_eq_self update_of_ne update_self)
attribute [local simp] setQueue

/-- Every queue is a list with head, tail and length, and holds exactly the pages that name it. -/
structure Queues (s : VmPage) : Prop where
  lists : ∀ q, q ≠ pqNone → q < pqCount → ∃ l,
    Intrusive.Queue s.phys.qlinksNext s.phys.qlinksPrev (s.queueHead q) (s.queueTail q) l ∧
      (∀ p, p ∈ l ↔ p < s.phys.managed ∧ s.phys.queue p = q) ∧ s.queueCount q = l.length
  bounded : ∀ p < s.phys.managed, s.phys.queue p < pqCount
  array : s.phys.managed ≤ s.phys.pageTotal

/-- Two allocator states that differ in the queue members of the pages only. -/
def SameButQueue (s t : VmPhys) : Prop :=
  t = { s with qlinksNext := t.qlinksNext, qlinksPrev := t.qlinksPrev, queue := t.queue }

section Shapes
variable {s : VmPage}

/-- The state after `p` has been taken out from between its neighbours on queue `q`. -/
@[local simp] def unqueued (s : VmPage) (p q : Nat) (before after : Option Nat) : VmPage :=
  { s with
    phys := { s.phys with
      queue := update s.phys.queue p pqNone
      qlinksNext := update (fun i => if before = some i then after else s.phys.qlinksNext i) p none
      qlinksPrev := update (fun i => if after = some i then before else s.phys.qlinksPrev i) p none }
    queueHead := if before = none then update s.queueHead q after else s.queueHead
    queueTail := if after = none then update s.queueTail q before else s.queueTail
    queueCount := update s.queueCount q (s.queueCount q - 1) }

/-- The state after `p` has been put last on queue `q`. -/
def enqueued (s : VmPage) (p q : Nat) : VmPage :=
  { s with
    phys := { s.phys with
      queue := update s.phys.queue p q
      qlinksNext := fun i => if s.queueTail q = some i then some p
        else update s.phys.qlinksNext p none i
      qlinksPrev := update s.phys.qlinksPrev p (s.queueTail q) }
    queueHead := if s.queueTail q = none then update s.queueHead q (some p) else s.queueHead
    queueTail := update s.queueTail q (some p)
    queueCount := update s.queueCount q (s.queueCount q + 1) }

theorem queueRemove_eq (bound : p < s.phys.pageTotal) (named : s.phys.queue p = q)
    (listed : q ≠ pqNone) (small : q < pqCount)
    (before : ∀ r, s.phys.qlinksPrev p = some r → r < s.phys.pageTotal ∧ r ≠ p)
    (after : ∀ r, s.phys.qlinksNext p = some r → r < s.phys.pageTotal) :
    s.queueRemove p = some (s.unqueued p q (s.phys.qlinksPrev p) (s.phys.qlinksNext p)) := by
  have valid : ¬ (q = pqNone ∨ q ≥ pqCount) := by omega
  simp only [queueRemove, VmPhys.access_eq bound, named, if_neg valid]
  cases hb : s.phys.qlinksPrev p with
  | none =>
    cases ha : s.phys.qlinksNext p with
    | none => simp [ha, hb]
    | some b => simp [ha, hb, VmPhys.access, after b ha, Intrusive.Linked.update_if]
  | some a =>
    obtain ⟨inside, ne⟩ := before a hb
    cases ha : s.phys.qlinksNext p with
    | none => simp [ha, hb, VmPhys.access, inside, ne, Intrusive.Linked.update_if]
    | some b =>
      simp [ha, hb, VmPhys.access, inside, after b ha, Intrusive.Linked.update_if]

theorem queueInsert_eq (bound : p < s.phys.pageTotal) (listed : q ≠ pqNone) (small : q < pqCount)
    (tail : ∀ r, s.queueTail q = some r → r < s.phys.pageTotal) :
    s.queueInsert p q = some (s.enqueued p q) := by
  have valid : ¬ (q = pqNone ∨ q ≥ pqCount) := by omega
  simp only [queueInsert, if_neg valid, VmPhys.access_eq bound, Option.bind_eq_bind]
  cases ht : s.queueTail q with
  | none => simp [enqueued, ht]
  | some r => simp [enqueued, ht, VmPhys.access, tail r ht, Intrusive.Linked.update_if]

end Shapes

section Specs
section
variable (queues : Queues s) (bound : p < s.phys.managed)
include queues bound

theorem Queues.queue_at (listed : s.phys.queue p ≠ pqNone) : ∃ l₁ l₂,
    Intrusive.Queue s.phys.qlinksNext s.phys.qlinksPrev (s.queueHead (s.phys.queue p))
      (s.queueTail (s.phys.queue p)) (l₁ ++ p :: l₂) ∧
    (∀ r, r ∈ l₁ ++ p :: l₂ ↔ r < s.phys.managed ∧ s.phys.queue r = s.phys.queue p) ∧
    s.queueCount (s.phys.queue p) = (l₁ ++ p :: l₂).length := by
  obtain ⟨l, queue, members, count⟩ := queues.lists _ listed (queues.bounded p bound)
  obtain ⟨l₁, l₂, rfl⟩ := append_of_mem ((members p).mpr ⟨bound, rfl⟩)
  exact ⟨l₁, l₂, queue, members, count⟩

theorem Queues.unqueued (listed : s.phys.queue p ≠ pqNone)
    (queue : Intrusive.Queue s.phys.qlinksNext s.phys.qlinksPrev (s.queueHead (s.phys.queue p))
      (s.queueTail (s.phys.queue p)) (l₁ ++ p :: l₂))
    (members : ∀ r, r ∈ l₁ ++ p :: l₂ ↔ r < s.phys.managed ∧ s.phys.queue r = s.phys.queue p)
    (count : s.queueCount (s.phys.queue p) = (l₁ ++ p :: l₂).length)
    (t : VmPage) (ht : t = s.unqueued p (s.phys.queue p) l₁.getLast? l₂.head?) : Queues t := by
  obtain ⟨fresh₁, fresh₂⟩ := queue.fresh
  have managed : t.phys.managed = s.phys.managed := by rw [ht]; rfl
  have named : t.phys.queue = update s.phys.queue p pqNone := by rw [ht]; rfl
  refine ⟨?_, ?_, by rw [ht]; exact queues.array⟩
  · intro q valid small
    by_cases this : q = s.phys.queue p
    · subst this
      refine ⟨l₁ ++ l₂, ?_, ?_, by simp [ht, VmPage.unqueued, count]⟩
      · have first : t.queueHead (s.phys.queue p) =
            if l₁ = [] then l₂.head? else s.queueHead (s.phys.queue p) := by
          cases l₁ using reverseRecOn <;> simp [ht, VmPage.unqueued]
        have last : t.queueTail (s.phys.queue p) =
            if l₂ = [] then l₁.getLast? else s.queueTail (s.phys.queue p) := by
          cases l₂ <;> simp [ht, VmPage.unqueued]
        rw [first, last, ht]
        exact queue.remove (queue.cut none none)
      · intro r
        rw [managed, named]
        have known := members r
        simp only [mem_append] at ⊢
        by_cases same : r = p
        · subst same
          simp only [fresh₁, fresh₂, update_self, or_self, false_iff, not_and]
          exact fun _ eq => listed eq.symm
        · rw [update_of_ne same, ← known]
          simp [same]
    · obtain ⟨l, queue', members', count'⟩ := queues.lists q valid small
      -- the pages of the other queues are none of the pages written
      have apart : ∀ r ∈ l, r ≠ p ∧ l₁.getLast? ≠ some r ∧ l₂.head? ≠ some r := by
        intro r member
        exact Intrusive.apart_of_not_mem fun other =>
          this (((members' r).mp member).2.symm.trans ((members r).mp other).2)
      refine ⟨l, ?_, ?_, by simp [ht, VmPage.unqueued, this, count']⟩
      · have first : t.queueHead q = s.queueHead q := by
          simp only [ht, VmPage.unqueued]
          split <;> simp [this]
        have last : t.queueTail q = s.queueTail q := by
          simp only [ht, VmPage.unqueued]
          split <;> simp [this]
        rw [first, last]
        apply queue'.frame
        · intro r member
          obtain ⟨ne, last, _⟩ := apart r member
          simp [ht, VmPage.unqueued, ne, last]
        · intro r member
          obtain ⟨ne, _, first⟩ := apart r member
          simp [ht, VmPage.unqueued, ne, first]
      · intro r
        rw [members' r, managed, named]
        by_cases same : r = p
        · subst same
          simp only [update_self, Ne.symm valid, and_false, iff_false, not_and]
          exact fun _ eq => this eq.symm
        · rw [update_of_ne same]
  · intro r bound
    rw [managed] at bound
    rw [named]
    by_cases same : r = p
    · subst same
      simp [pqNone, pqCount]
    · rw [update_of_ne same]
      exact queues.bounded r bound

theorem queueRemove_spec : ∃ t, s.queueRemove p = some t ∧ Queues t ∧ SameButQueue s.phys t.phys ∧
      t.phys.queue = update s.phys.queue p pqNone ∧ t.wired = s.wired := by
  have inArray := lt_of_lt_of_le bound queues.array
  by_cases listed : s.phys.queue p = pqNone
  · refine ⟨s, ?_, queues, rfl, by rw [← listed, update_eq_self], rfl⟩
    simp [queueRemove, VmPhys.access_eq inArray, listed]
  obtain ⟨l₁, l₂, queue, members, count⟩ := queues.queue_at bound listed
  obtain ⟨before, after⟩ := queue.links_at
  obtain ⟨fresh₁, _⟩ := queue.fresh
  have onQueue : ∀ r, r ∈ l₁ ++ p :: l₂ → r < s.phys.pageTotal := fun r member =>
    lt_of_lt_of_le ((members r).mp member).1 queues.array
  have shape := queueRemove_eq inArray rfl listed (queues.bounded p bound)
    (fun r same => by
      have member := mem_of_getLast? (before.symm.trans same)
      exact ⟨onQueue r (by simp [member]), fun eq => fresh₁ (eq ▸ member)⟩)
    (fun r same => onQueue r (by
      have member := mem_of_mem_head? (after.symm.trans same)
      simp [member]))
  rw [before, after] at shape
  exact ⟨_, shape, queues.unqueued bound listed queue members count _ rfl, rfl, rfl, rfl⟩

theorem queueInsert_spec (unlisted : s.phys.queue p = pqNone) (valid : q ≠ pqNone)
    (small : q < pqCount) : ∃ t, s.queueInsert p q = some t ∧ Queues t ∧
      SameButQueue s.phys t.phys ∧ t.phys.queue = update s.phys.queue p q ∧ t.wired = s.wired := by
  have inArray := lt_of_lt_of_le bound queues.array
  obtain ⟨l, queue, members, count⟩ := queues.lists q valid small
  have fresh : ∀ {q : Nat} {l : List Nat}, q ≠ pqNone →
      (∀ r, r ∈ l ↔ r < s.phys.managed ∧ s.phys.queue r = q) → p ∉ l := fun valid members member =>
    valid (((members p).mp member).2.symm.trans unlisted)
  have shape := queueInsert_eq (s := s) inArray valid small fun r same =>
    lt_of_lt_of_le ((members r).mp (mem_of_getLast? (queue.tail_eq.symm.trans same))).1
      queues.array
  refine ⟨_, shape, ⟨?_, ?_, queues.array⟩, rfl, rfl, rfl⟩
  · intro q' valid' small'
    by_cases this : q' = q
    · subst this
      refine ⟨l ++ [p], ?_, ?_, by simp [enqueued, count]⟩
      · have first : (s.enqueued p q').queueHead q' = (s.queueHead q').or (some p) := by
          rw [queue.head_eq]
          simp only [enqueued, queue.tail_eq]
          cases l using reverseRecOn with
          | nil => simp
          | append_singleton l y =>
            simp only [getLast?_append, getLast?_singleton, Option.some_or, reduceCtorEq, if_false, queue.head_eq]
            cases l <;> simp
        have last : (s.enqueued p q').queueTail q' = some p := by simp [enqueued]
        rw [first, last]
        have absent := fresh valid members
        have tail : s.queueTail q' ≠ some p := fun same =>
          absent (mem_of_getLast? (queue.tail_eq.symm.trans same))
        apply queue.append absent
        · simp [enqueued]
        · simp [enqueued, tail]
        · intro y same
          simp [enqueued, same]
        · intro y member ne
          have ne' : y ≠ p := fun eq => absent (eq ▸ member)
          simp [enqueued, ne, ne']
        · intro y member
          have ne' : y ≠ p := fun eq => absent (eq ▸ member)
          simp [enqueued, ne']
      · intro r
        simp only [mem_append, members]
        change _ ↔ r < s.phys.managed ∧ update s.phys.queue p q' r = q'
        by_cases same : r = p
        · subst same
          simp [bound]
        · simp [same]
    · obtain ⟨l', queue', members', count'⟩ := queues.lists q' valid' small'
      have absent := fresh valid' members'
      have apart : ∀ r ∈ l', s.queueTail q ≠ some r := fun r member same =>
        this (((members' r).mp member).2.symm.trans
          ((members r).mp (mem_of_getLast? (queue.tail_eq.symm.trans same))).2)
      refine ⟨l', ?_, ?_, by simp [enqueued, this, count']⟩
      · have first : (s.enqueued p q).queueHead q' = s.queueHead q' := by
          simp only [enqueued]
          split <;> simp [this]
        have last : (s.enqueued p q).queueTail q' = s.queueTail q' := by simp [enqueued, this]
        rw [first, last]
        apply queue'.frame
        · intro r member
          have ne : r ≠ p := fun eq => absent (eq ▸ member)
          simp [enqueued, apart r member, ne]
        · intro r member
          have ne : r ≠ p := fun eq => absent (eq ▸ member)
          simp [enqueued, ne]
      · intro r
        rw [members']
        change _ ↔ r < s.phys.managed ∧ update s.phys.queue p q r = q'
        by_cases same : r = p
        · subst same
          simp [unlisted, Ne.symm valid', Ne.symm this]
        · rw [update_of_ne same]
  · intro r bound'
    change update s.phys.queue p q r < pqCount
    by_cases same : r = p
    · subst same
      rwa [update_self]
    · rw [update_of_ne same]
      exact queues.bounded r bound'

end

end Specs

end Otsos.VmPage
