import Otsos.Phys.Page

/-! The table of free ranges at boot, and how a range is reserved in it (`kernel/bootmem.c`). -/
namespace Otsos.Bootmem
open List

def bootmemMaxRanges : Nat := 64

/-- `bootmem_range_t`, the addresses of `[start, stop)`. -/
structure Range where
  (start stop : Nat)

def Range.Has (r : Range) (a : Nat) : Prop := r.start ≤ a ∧ a < r.stop

theorem last_first_perm (l : List α) : (l.getLast?.toList ++ l.dropLast).Perm l := by
  rcases eq_nil_or_concat l with rfl | ⟨l, x, rfl⟩
  · exact .nil
  · simpa using (perm_append_singleton x l).symm

/-- The loop of `reserve_range`, with the ranges before its index in `done`. The answer says whether
it found the table full when a range was to be split. -/
def reserveFrom (lo hi : Nat) (done : List Range) : List Range → List Range × Bool
  | [] => (done, false)
  | r :: rest =>
    if hi ≤ r.start ∨ lo ≥ r.stop then reserveFrom lo hi (done ++ [r]) rest
    else if lo ≤ r.start ∧ hi ≥ r.stop then
      -- the last range moves to the index, which stays
      reserveFrom lo hi done (rest.getLast?.toList ++ rest.dropLast)
    else if lo ≤ r.start then reserveFrom lo hi (done ++ [⟨hi, r.stop⟩]) rest
    else if hi ≥ r.stop then reserveFrom lo hi (done ++ [⟨r.start, lo⟩]) rest
    else if (done ++ r :: rest).length < bootmemMaxRanges then
      reserveFrom lo hi (done ++ [⟨r.start, lo⟩]) (rest ++ [⟨hi, r.stop⟩])
    else Prod.map id (fun _ => true) (reserveFrom lo hi (done ++ [⟨r.start, lo⟩]) rest)
termination_by todo => todo.length + todo.countP fun r => r.start < hi ∧ lo < r.stop
decreasing_by
  all_goals
    have moved := last_first_perm rest
    simp only [moved.length_eq, moved.countP_eq, length_append, length_cons, length_nil,
      countP_append, countP_cons, countP_nil, decide_eq_true_eq]
    split_ifs <;> omega

/-- `reserve_range`; rounding up wraps. -/
def reserveRange (ranges : List Range) (start stop : UInt64) : List Range × Bool :=
  let lo := pageFloor start.toNat
  let hi := pageFloor (u64 (stop.toNat + (pageSize - 1)))
  if hi ≤ lo then (ranges, false) else reserveFrom lo hi [] ranges

/-- What `[lo, hi)` leaves of a range. -/
def cut (lo hi : Nat) (r : Range) : List Range :=
  if hi ≤ r.start ∨ lo ≥ r.stop then [r]
  else (if r.start < lo then [⟨r.start, lo⟩] else []) ++ if hi < r.stop then [⟨hi, r.stop⟩] else []

/-- The loop refines cutting each range, but for the order and for what a full table loses. -/
theorem reserveFrom_spec (nonempty : lo < hi) :
    (reserveFrom lo hi done todo).1 ⊆ done ++ todo.flatMap (cut lo hi) ∧
    ((reserveFrom lo hi done todo).2 = false → done ++ todo.flatMap (cut lo hi) ⊆ (reserveFrom lo hi done todo).1) := by
  fun_induction reserveFrom lo hi done todo with
  | case1 => simp
  | case2 done r rest _ ih =>
    have here : cut lo hi r = [r] := by grind [cut]
    simpa [here] using ih
  | case3 done r rest _ _ ih =>
    have here : cut lo hi r = [] := by grind [cut]
    have same := ((last_first_perm rest).flatMap_right (cut lo hi)).append_left done
    rw [flatMap_cons, here, nil_append]
    exact ⟨fun x member => same.subset (ih.1 member), fun fits x member => ih.2 fits (same.symm.subset member)⟩
  | case4 done r rest _ _ _ ih =>
    have here : cut lo hi r = [⟨hi, r.stop⟩] := by grind [cut]
    simpa [here] using ih
  | case5 done r rest _ _ _ _ ih =>
    have here : cut lo hi r = [⟨r.start, lo⟩] := by grind [cut]
    simpa [here] using ih
  | case6 done r rest _ _ _ _ _ ih =>
    have here : cut lo hi r = [⟨r.start, lo⟩, ⟨hi, r.stop⟩] := by grind [cut]
    have later : cut lo hi ⟨hi, r.stop⟩ = [⟨hi, r.stop⟩] := by grind [cut]
    constructor
    · intro x member
      have := ih.1 member
      simp [here, later] at this ⊢
      grind
    · intro fits x member
      apply ih.2 fits
      simp [here, later] at member ⊢
      grind
  | case7 done r rest _ _ _ _ _ ih =>
    have here : cut lo hi r = [⟨r.start, lo⟩, ⟨hi, r.stop⟩] := by grind [cut]
    refine ⟨fun x member => ?_, by simp⟩
    have := ih.1 member
    simp [here] at this ⊢
    grind

theorem cut_spec (member : x ∈ cut lo hi r) :
    (hi ≤ x.start ∨ x.stop ≤ lo) ∧ r.start ≤ x.start ∧ x.stop ≤ r.stop := by
  grind [cut]

theorem has_cut (nonempty : lo < hi) : (∃ x ∈ cut lo hi r, x.Has a) ↔ r.Has a ∧
    ¬(lo ≤ a ∧ a < hi) := by
  unfold cut
  split_ifs <;> simp [Range.Has] <;> omega

variable {ranges : List Range}

def Free (ranges : List Range) (a : Nat) : Prop := ∃ r ∈ ranges, r.Has a

/-- What is left of the ranges when `[lo, hi)` is reserved. -/
structure Reserves (ranges : List Range) (lo hi : Nat) (left : List Range × Bool) : Prop where
  apart : ∀ r ∈ left.1, ∀ a, r.Has a → ¬(lo ≤ a ∧ a < hi)
  within : ∀ r ∈ left.1, ∃ q ∈ ranges, q.start ≤ r.start ∧ r.stop ≤ q.stop
  union : left.2 = false → ∀ a, Free left.1 a ↔ Free ranges a ∧ ¬(lo ≤ a ∧ a < hi)

theorem reserveFrom_reserves (nonempty : lo < hi) :
    Reserves ranges lo hi (reserveFrom lo hi [] ranges) := by
  obtain ⟨sound, complete⟩ := @reserveFrom_spec lo hi [] ranges nonempty
  have pieces := fun r here => mem_flatMap.mp (sound (a := r) here)
  refine ⟨fun r here a has => ?_, fun r here => ?_, fun fits a => ?_⟩
  · obtain ⟨_, _, member⟩ := pieces r here
    have := (cut_spec member).1
    unfold Range.Has at has
    omega
  · exact (pieces r here).imp fun q found => ⟨found.1, (cut_spec found.2).2⟩
  · have same : ∀ r, r ∈ (reserveFrom lo hi [] ranges).1 ↔ ∃ q ∈ ranges, r ∈ cut lo hi q := fun r =>
      ⟨pieces r, fun found => complete fits (mem_flatMap.mpr found)⟩
    calc Free (reserveFrom lo hi [] ranges).1 a
        ↔ ∃ q ∈ ranges, ∃ r ∈ cut lo hi q, r.Has a := by
          simp only [Free, same]
          grind
      _ ↔ Free ranges a ∧ ¬(lo ≤ a ∧ a < hi) := by
          simp only [has_cut nonempty, Free]
          grind

theorem Reserves.of_apart (apart : ∀ a, Free ranges a → ¬(lo ≤ a ∧ a < hi)) :
    Reserves ranges lo hi (ranges, false) :=
  ⟨fun r member a here => apart a ⟨r, member, here⟩, fun r member => ⟨r, member, Nat.le_refl _,
    Nat.le_refl _⟩, fun _ a => (and_iff_left_of_imp (apart a)).symm⟩

theorem reserveRange_wraps (large : 2 ^ 64 - pageSize < stop.toNat) :
    reserveRange ranges start stop = (ranges, false) := by
  have zero : pageFloor (u64 (stop.toNat + (pageSize - 1))) = 0 := by
    have := stop.toNat_lt
    simp only [pageFloor, u64, pageSize] at *
    omega
  rw [reserveRange, zero]
  exact if_pos (Nat.zero_le _)

def pageCeil (addr : Nat) : Nat := pageFloor (addr + (pageSize - 1))

/-- The pages of the request are reserved unless its end wraps when it is rounded up: then nothing
is. -/
theorem reserveRange_reserves_iff (ranges : List Range) (start stop : UInt64) :
    Reserves ranges (pageFloor start.toNat) (pageCeil stop.toNat) (reserveRange ranges start stop) ↔
      stop.toNat ≤ 2 ^ 64 - pageSize ∨
        ∀ a, Free ranges a → ¬(pageFloor start.toNat ≤ a ∧ a < pageCeil stop.toNat) := by
  by_cases fits : stop.toNat ≤ 2 ^ 64 - pageSize
  · refine iff_of_true ?_ (.inl fits)
    have rounded : pageFloor (u64 (stop.toNat + (pageSize - 1))) = pageCeil stop.toNat :=
      congrArg pageFloor (Nat.mod_eq_of_lt (by simp only [pageSize] at *; omega))
    simp only [reserveRange, rounded]
    split
    · next empty => exact .of_apart fun a _ within => absurd within (by omega)
    · next nonempty => exact reserveFrom_reserves (Nat.not_le.mp nonempty)
  · rw [reserveRange_wraps (Nat.not_le.mp fits)]
    refine ⟨fun reserves => .inr fun a free => ?_, fun either => .of_apart (either.resolve_left fits)⟩
    exact ((reserves.union rfl a).mp free).2

/-- A request that ends in the last page of the address space. -/
theorem last_pages_not_reserved : ¬Reserves [⟨0xFFFFFFFFFFFFE000, 0xFFFFFFFFFFFFF000⟩]
    (pageFloor 0xFFFFFFFFFFFFE000) (pageCeil 0xFFFFFFFFFFFFFFFF)
    (reserveRange [⟨0xFFFFFFFFFFFFE000, 0xFFFFFFFFFFFFF000⟩] 0xFFFFFFFFFFFFE000 0xFFFFFFFFFFFFFFFF) := by
  rw [reserveRange_wraps (by decide)]
  intro reserves
  exact reserves.apart _ mem_cons_self 0xFFFFFFFFFFFFE000 ⟨by decide, by decide⟩
    ⟨by decide, by decide⟩

end Otsos.Bootmem
