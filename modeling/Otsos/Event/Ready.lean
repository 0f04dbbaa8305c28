import Mathlib.Data.List.Perm.Subperm
import Otsos.Event.Pool
import Otsos.Foundation.Chain

/-! The ready list of one queue: what `knote_add_to_ready` and `knote_remove_from_ready` do to
it. -/
namespace Otsos.Event
open Function (update update_self update_of_ne)
open Intrusive
open List
attribute [local simp] knoteAddToReady

/-- Only the links of the ready list differ. -/
def Knote.Alike (c c' : Knote) : Prop := c' = { c with pending := c'.pending, next := c'.next }

namespace Kqueue

@[local simp] def next (q : Kqueue) (j : Nat) : Option Nat := (q.knote j).next

/-- The ready list holds the used knotes that are pending. -/
structure Linked (q : Kqueue) (l : List Nat) : Prop where
  chain : Chain q.next q.readyHead l
  tail : q.readyTail = l.getLast?
  count : q.readyCount = l.length
  mem : ∀ j, j ∈ l ↔ j < maxKnotes ∧ (q.knote j).used ∧ (q.knote j).pending

variable {q q' : Kqueue} {c : Knote}

theorem set_self : (q.set j c).knote j = c := update_self ..

theorem set_of_ne (other : k ≠ j) : (q.set j c).knote k = q.knote k := update_of_ne other ..

theorem Linked.same (linked : q.Linked l) (head : q'.readyHead = q.readyHead)
    (tail : q'.readyTail = q.readyTail) (count : q'.readyCount = q.readyCount)
    (same : ∀ j, ((q'.knote j).used ∧ (q'.knote j).pending ↔ (q.knote j).used ∧
      (q.knote j).pending) ∧ (j ∈ l → (q'.knote j).next = (q.knote j).next)) : q'.Linked l := by
  refine ⟨?_, tail.trans linked.tail, count.trans linked.count, fun j => ?_⟩
  · rw [head]
    exact linked.chain.frame fun j mem => (same j).2 mem
  · rw [(same j).1]
    exact linked.mem j

theorem Linked.length_le (linked : q.Linked l) : l.length ≤ maxKnotes := by
  have sub : l ⊆ range maxKnotes := fun j mem => mem_range.mpr ((linked.mem j).mp mem).1
  have shorter := (subperm_of_subset linked.chain.nodup sub).length_le
  rwa [length_range] at shorter

theorem add_alike (j k : Nat) : (q.knote k).Alike ((knoteAddToReady q j).knote k) := by
  rw [knoteAddToReady]
  split
  · rfl
  · dsimp only
    split <;> split <;> rfl

theorem Linked.add (linked : q.Linked l) (here : j < maxKnotes) (used : (q.knote j).used)
    (idle : (q.knote j).pending = false) : (knoteAddToReady q j).Linked (l ++ [j]) := by
  have fresh : j ∉ l := fun mem => by cases idle.symm.trans ((linked.mem j).mp mem).2.2
  have own : l.getLast? ≠ some j := fun last => fresh (mem_of_getLast? last)
  have apart : ∀ k ∈ l, k ≠ j := fun k mem same => fresh (same ▸ mem)
  refine ⟨?_, ?_, ?_, fun k => ?_⟩
  · have head : (knoteAddToReady q j).readyHead = if l = [] then some j else q.readyHead := by
      simp [idle, linked.tail]
    rw [head]
    refine linked.chain.append (fun y last => ?_) ?_ fun y mem other => ?_
    · simp [idle, linked.tail, last]
    · simp [idle, linked.tail, own]
    · simp [idle, linked.tail, other, apart y mem]
  · simp [idle]
  · simp [idle, linked.count]
  · rw [mem_append, linked.mem k]
    by_cases same : k = j
    · subst same
      simp [idle, here, used, linked.tail, own]
    have kept : ((knoteAddToReady q j).knote k).used = (q.knote k).used ∧
        ((knoteAddToReady q j).knote k).pending = (q.knote k).pending := by
      simp only [knoteAddToReady, idle, Bool.false_eq_true, if_false]
      split <;> exact ⟨rfl, rfl⟩
    rw [kept.1, kept.2]
    simp [same]

theorem unlink_eq {prev : Option Nat} (chain : Chain q.next cur (l₁ ++ j :: l₂))
    (enough : l₁.length < n) : q.unlink j n prev cur = some (q.cut j (l₁.getLast?.or prev)) := by
  obtain ⟨n, rfl⟩ := Nat.exists_eq_add_one.mpr (Nat.zero_lt_of_lt enough)
  have nodup := chain.nodup
  induction l₁ generalizing prev cur n with
  | nil =>
    obtain ⟨rfl, -⟩ := chain
    rw [unlink, if_pos rfl]
    rfl
  | cons y l ih =>
    obtain ⟨rfl, rest⟩ := chain
    have other : y ≠ j := by
      rintro rfl
      exact (nodup_cons.mp nodup).1 (by simp)
    rw [unlink, if_neg other]
    obtain ⟨n, rfl⟩ := Nat.exists_eq_add_one.mpr (Nat.zero_lt_of_lt (Nat.lt_of_succ_lt_succ enough))
    rw [show (q.knote y).next = q.next y from rfl, ih rest n (Nat.lt_of_succ_lt_succ enough) rest.nodup]
    cases l <;> simp [getLast?_cons]

theorem cut_alike (prev : Option Nat) (k : Nat) : (q.knote k).Alike ((q.cut j prev).knote k) := by
  rw [cut]
  dsimp only
  split
  · rfl
  · split <;> rfl

theorem cut_other {prev : Option Nat} (other : k ≠ j) :
    ((q.cut j prev).knote k).used = (q.knote k).used ∧
    ((q.cut j prev).knote k).pending = (q.knote k).pending := by
  simp only [cut, other, if_false]
  split <;> exact ⟨rfl, rfl⟩

theorem Linked.cut (linked : q.Linked (l₁ ++ j :: l₂)) :
    (q.cut j l₁.getLast?).Linked (l₁ ++ l₂) := by
  have apart : ∀ k ∈ l₁ ++ l₂, k ≠ j := by
    rintro k mem rfl
    exact (nodup_cons.mp (nodup_middle.mp linked.chain.nodup)).1 mem
  refine ⟨?_, ?_, ?_, fun k => ?_⟩
  · have head : (q.cut j l₁.getLast?).readyHead = if l₁ = [] then q.next j else q.readyHead := by
      simp [Kqueue.cut]
    rw [head]
    refine linked.chain.remove (fun y last => ?_) fun y mem other => ?_
    · have else_ := apart y (mem_append_left _ (mem_of_getLast? last))
      simp [Kqueue.cut, else_, last]
    · simp [Kqueue.cut, apart y mem, other]
  · simp only [Kqueue.cut, linked.tail]
    cases l₂ with
    | nil => simp
    | cons z l =>
      have last : (l₁ ++ j :: z :: l).getLast? = (l₁ ++ z :: l).getLast? := by simp
      rw [last, if_neg]
      exact fun same => apart j (mem_of_getLast? same) rfl
  · simp only [Kqueue.cut, linked.count, length_append, length_cons]
    omega
  · by_cases own : k = j
    · subst own
      simpa [Kqueue.cut] using fun mem => apart k mem rfl
    · rw [(cut_other own).1, (cut_other own).2, ← linked.mem k]
      simp [own]

theorem Linked.remove (linked : q.Linked l) (here : j < maxKnotes) (used : (q.knote j).used) :
    ∃ q', knoteRemoveFromReady q j = some q' ∧ q'.Linked (l.erase j) ∧ (q'.knote j).pending = false ∧
      q'.used = q.used ∧ q'.owner = q.owner ∧ (∀ k, (q.knote k).Alike (q'.knote k)) ∧
      ∀ k, k ≠ j → (q'.knote k).pending = (q.knote k).pending := by
  rw [knoteRemoveFromReady]
  split
  · next pending =>
    obtain ⟨l₁, _, rfl⟩ := append_of_mem ((linked.mem j).mpr ⟨here, used, pending⟩)
    have short := linked.length_le
    rw [length_append] at short
    have fresh : j ∉ l₁ := by
      intro mem
      exact (nodup_cons.mp (nodup_middle.mp linked.chain.nodup)).1 (mem_append_left _ mem)
    refine ⟨_, unlink_eq linked.chain (by omega), ?_, ?_, rfl, rfl, cut_alike _, fun k other => (cut_other other).2⟩
    · rw [erase_append_right _ fresh, erase_cons_head, Option.or_none]
      exact linked.cut
    · simp [Kqueue.cut]
  · next idle =>
    have fresh : j ∉ l := fun mem => idle ((linked.mem j).mp mem).2.2
    refine ⟨q, rfl, ?_, by simpa using idle, rfl, rfl, fun _ => rfl, fun _ _ => rfl⟩
    rw [erase_of_not_mem fresh]
    exact linked

end Kqueue

theorem Pool.dropTimer_perm (l : List (Nat × Nat)) (x : Nat × Nat) :
    (Pool.dropTimer l x).Perm (l.erase x) := by
  by_cases mem : x ∈ l
  · obtain ⟨l₁, l₂, rfl, fresh⟩ := eq_append_cons_of_mem mem
    have front : (l₁ ++ x :: l₂).idxOf x = l₁.length := by simp [idxOf_append, fresh]
    have gone : (l₁ ++ x :: l₂).erase x = l₁ ++ l₂ := by
      rw [erase_append_right _ fresh, erase_cons_head]
    rw [gone]
    rcases eq_nil_or_concat l₂ with rfl | ⟨m, last, rfl⟩
    · simp [Pool.dropTimer, front]
    have put : (l₁ ++ x :: m.concat last).set l₁.length last = l₁ ++ last :: (m ++ [last]) := by simp
    have is : Pool.dropTimer (l₁ ++ x :: m.concat last) x = l₁ ++ last :: m := by
      have end_ : (l₁ ++ x :: m.concat last).getLast? = some last := by
        rw [concat_eq_append, ← cons_append, ← append_assoc, getLast?_concat]
      rw [Pool.dropTimer, end_]
      dsimp only
      rw [if_pos (by simp), front, put, ← cons_append, ← append_assoc, dropLast_concat]
    rw [is, concat_eq_append]
    exact List.Perm.append_left l₁ (perm_append_singleton last m).symm
  · rw [erase_of_not_mem mem, Pool.dropTimer]
    split
    · exact .refl _
    · rw [if_neg mem]

end Otsos.Event
