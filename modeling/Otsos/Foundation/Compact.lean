import Mathlib.Data.List.Basic

/-! Compaction of a list: some of the elements are kept, in their order, and each of them gets a new
index. What selects elements by their contents selects the same ones before and after. -/
namespace Compact
open List

variable {α : Type*} (keep : Nat → α → Bool)

/-- The elements kept, with their old indices. -/
def kept (l : List α) : List (α × Nat) := l.zipIdx.filter fun p => keep p.2 p.1

/-- The new indices of a list that starts at the index `i`, from `k` on. -/
def ranksFrom : Nat → Nat → List α → List (Option Nat)
  | _, _, [] => []
  | i, k, a :: l =>
    if keep i a then some k :: ranksFrom (i + 1) (k + 1) l else none :: ranksFrom (i + 1) k l

/-- The new index of the element with an old index, if it is kept. -/
def rank (l : List α) (i : Nat) : Option Nat := (ranksFrom keep 0 0 l)[i]?.join

variable {keep} {a : α}

theorem ranksFrom_spec (l : List α) (i k j m : Nat) : (ranksFrom keep i k l)[j]?.join = some m ↔
      k ≤ m ∧ ∃ a, ((l.zipIdx i).filter fun p => keep p.2 p.1)[m - k]? = some (a, i + j) := by
  induction l generalizing i k j with
  | nil => simp [ranksFrom]
  | cons a l ih =>
    rw [ranksFrom, zipIdx_cons, filter_cons]
    split
    · next here =>
      cases j with
      | zero =>
        constructor
        · intro found
          obtain rfl : k = m := by simpa using found
          exact ⟨Nat.le_refl _, a, by simp⟩
        · rintro ⟨order, b, found⟩
          rcases Nat.eq_or_lt_of_le order with rfl | later
          · simp
          · obtain ⟨d, rfl⟩ := Nat.exists_eq_add_of_lt later
            rw [show k + d + 1 - k = d + 1 by omega] at found
            have member := mem_of_mem_filter (mem_of_getElem? found)
            have := (mem_zipIdx member).1
            omega
      | succ j =>
        rw [getElem?_cons_succ, ih]
        constructor
        · rintro ⟨order, b, found⟩
          refine ⟨by omega, b, ?_⟩
          rw [show m - k = (m - (k + 1)) + 1 by omega, getElem?_cons_succ, found]
          simp only [Option.some.injEq, Prod.mk.injEq, true_and]
          omega
        · rintro ⟨order, b, found⟩
          rcases Nat.eq_or_lt_of_le order with rfl | later
          · rw [Nat.sub_self, getElem?_cons_zero, Option.some.injEq, Prod.mk.injEq] at found
            omega
          · rw [show m - k = (m - (k + 1)) + 1 by omega, getElem?_cons_succ] at found
            refine ⟨by omega, b, ?_⟩
            rw [found]
            simp only [Option.some.injEq, Prod.mk.injEq, true_and]
            omega
    · cases j with
      | zero =>
        constructor
        · intro found
          simp at found
        · rintro ⟨order, b, found⟩
          have member := mem_of_mem_filter (mem_of_getElem? found)
          have := (mem_zipIdx member).1
          omega
      | succ j =>
        rw [getElem?_cons_succ, ih, show i + 1 + j = i + (j + 1) by omega]

theorem rank_eq_some : rank keep l i = some k ↔ ∃ a, (kept keep l)[k]? = some (a, i) := by
  rw [rank, ranksFrom_spec]
  simp [kept]

theorem mem_kept : (a, i) ∈ kept keep l ↔ l[i]? = some a ∧ keep i a = true := by
  rw [kept, mem_filter, mem_zipIdx_iff_getElem?]

theorem rank_lt (found : rank keep l i = some k) : k < (kept keep l).length := by
  obtain ⟨a, here⟩ := rank_eq_some.mp found
  exact (List.getElem?_eq_some_iff.mp here).1

theorem rank_injective (found : rank keep l i = some k) (found' : rank keep l j = some k) :
    i = j := by
  obtain ⟨a, here⟩ := rank_eq_some.mp found
  obtain ⟨b, there⟩ := rank_eq_some.mp found'
  rw [here, Option.some.injEq, Prod.mk.injEq] at there
  exact there.2

theorem rank_of_keep (here : l[i]? = some a) (keeps : keep i a = true) :
    ∃ k, rank keep l i = some k := by
  obtain ⟨k, inside, found⟩ := mem_iff_getElem.mp (mem_kept.mpr ⟨here, keeps⟩)
  exact ⟨k, rank_eq_some.mpr ⟨a, by rw [getElem?_eq_getElem inside, found]⟩⟩

theorem keep_of_rank (found : rank keep l i = some k) : ∃ a, l[i]? = some a ∧ keep i a = true := by
  obtain ⟨a, here⟩ := rank_eq_some.mp found
  exact ⟨a, mem_kept.mp (mem_of_getElem? here)⟩

theorem rank_of_mem (member : (a, i) ∈ kept keep l) : ∃ k, rank keep l i = some k :=
  rank_of_keep (mem_kept.mp member).1 (mem_kept.mp member).2

theorem filter_zipIdx (select : α → Bool) (kept_ : ∀ i a, l[i]? = some a → select a = true →
    keep i a = true) : l.zipIdx.filter (fun p => select p.1) = (kept keep l).filter
    fun p => select p.1 := by
  rw [kept, filter_filter]
  refine filter_congr fun p member => ?_
  have here := mem_zipIdx_iff_getElem?.mp member
  cases chosen : select p.1 with
  | false => rfl
  | true => rw [kept_ p.2 p.1 here chosen]; rfl

theorem map_fst_filter_zipIdx (l : List β) (select : β → Bool) (n : Nat) :
    ((l.zipIdx n).filter fun q => select q.1).map (·.1) = l.filter select := by
  induction l generalizing n with
  | nil => rfl
  | cons b l ih =>
    rw [zipIdx_cons, filter_cons, filter_cons]
    split
    · rw [map_cons, ih]
    · exact ih _

theorem filter_map_kept (change : α × Nat → β) (select : α → Bool) (select' : β → Bool)
    (same : ∀ p ∈ kept keep l, select' (change p) = select p.1) :
    ((((kept keep l).map change).zipIdx.filter fun q => select' q.1).map fun q => some q.2) =
      ((kept keep l).filter fun p => select p.1).map fun p => rank keep l p.2 := by
  have selected : ((kept keep l).zipIdx.filter fun q => select' (change q.1)) =
      (kept keep l).zipIdx.filter fun q => select q.1.1 :=
    filter_congr fun q member => same q.1 (mem_of_getElem? (mem_zipIdx_iff_getElem?.mp member))
  rw [zipIdx_map, filter_map, map_map,
    ← map_fst_filter_zipIdx (kept keep l) (fun p => select p.1) 0, map_map]
  show ((kept keep l).zipIdx.filter fun q => select' (change q.1)).map _ = _
  rw [selected]
  refine map_congr_left fun q member => ?_
  have here := mem_zipIdx_iff_getElem?.mp (mem_of_mem_filter member)
  exact (rank_eq_some.mpr ⟨q.1.1, here⟩).symm

end Compact
