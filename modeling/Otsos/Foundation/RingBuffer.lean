import Mathlib.Data.Nat.ModEq

/-! Ring buffers of capacity `n`: a head, a tail and a count over an array of cells. The list that a
ring stands for starts at the head. Besides the ends, an element may be taken out of the middle,
which moves the elements behind it. -/

structure RingBuffer (α : Type*) where
  cells : Nat → α
  (head tail count : Nat)

namespace RingBuffer
open List
open Function (update)

variable {r : RingBuffer α} {cells : Nat → α} {head : Nat}

/-- The cell of the element with index `i`. -/
def index (n head i : Nat) : Nat := (head + i) % n

def get (n : Nat) (r : RingBuffer α) (i : Nat) : α := r.cells (index n r.head i)

def contents (n : Nat) (r : RingBuffer α) : List α := (range r.count).map (r.get n)

structure Sound (n : Nat) (r : RingBuffer α) : Prop where
  head : r.head < n
  tail : r.tail = index n r.head r.count
  count : r.count ≤ n

def empty (cells : Nat → α) : RingBuffer α := ⟨cells, 0, 0, 0⟩

def push (n : Nat) (r : RingBuffer α) (x : α) : RingBuffer α :=
  ⟨update r.cells r.tail x, r.head, (r.tail + 1) % n, r.count + 1⟩

/-- Put an element in front. -/
def unpop (n : Nat) (r : RingBuffer α) (x : α) : RingBuffer α :=
  ⟨update r.cells ((r.head + n - 1) % n) x, (r.head + n - 1) % n, r.tail, r.count + 1⟩

/-- Move the elements behind `i` forward, `k` of them. -/
def shift (n head : Nat) (cells : Nat → α) : Nat → Nat → Nat → α
  | _, 0 => cells
  | i, k + 1 => shift n head (update cells (index n head i) (cells ((index n head i + 1) % n))) (i + 1) k

def removeAt (n : Nat) (r : RingBuffer α) (i : Nat) : RingBuffer α :=
  if i = 0 then ⟨r.cells, (r.head + 1) % n, r.tail, r.count - 1⟩
  else ⟨shift n r.head r.cells i (r.count - 1 - i), r.head, (r.tail + n - 1) % n, r.count - 1⟩

/-- The index of the first element that satisfies `p`. -/
def find (n : Nat) (r : RingBuffer α) (p : α → Bool) : Option Nat :=
  (range r.count).find? fun i => p (r.get n i)

@[simp] theorem length_contents : (r.contents n).length = r.count := by simp [contents]

theorem getElem_contents (inside : i < (r.contents n).length) : (r.contents n)[i] = r.get n i := by
  simp [contents]

theorem contents_eq (length : l.length = r.count)
    (same : ∀ i (inside : i < l.length), r.get n i = l[i]) : r.contents n = l := by
  refine ext_getElem (by rw [length_contents, length]) fun i inside _ => ?_
  rw [getElem_contents, same]

theorem index_inj (hi : i < n) (hj : j < n) (same : index n head i = index n head j) : i = j := by
  have cong : i % n = j % n := Nat.ModEq.add_left_cancel' head same
  rwa [Nat.mod_eq_of_lt hi, Nat.mod_eq_of_lt hj] at cong

theorem index_succ : (index n head i + 1) % n = index n head (i + 1) := by
  rw [index, index, Nat.mod_add_mod, Nat.add_assoc]

@[simp] theorem contents_empty : (empty cells).contents n = [] := rfl

theorem sound_empty (pos : 0 < n) : (empty cells).Sound n :=
  ⟨pos, (Nat.zero_mod n).symm, Nat.zero_le n⟩

namespace Sound

section
variable (sound : r.Sound n) (room : r.count < n)
include sound room

theorem push : (r.push n x).Sound n := by
  refine ⟨sound.head, ?_, room⟩
  rw [RingBuffer.push, sound.tail, index_succ]

theorem contents_push : (r.push n x).contents n = r.contents n ++ [x] := by
  refine contents_eq (by simp [RingBuffer.push]) fun i inside => ?_
  rw [get, RingBuffer.push]
  dsimp only
  rw [sound.tail]
  rcases Nat.lt_or_ge i r.count with before | _
  · have other : index n r.head i ≠ index n r.head r.count := fun same =>
      absurd (index_inj (Nat.lt_trans before room) room same) (by omega)
    rw [Function.update_of_ne other, getElem_append_left (by simpa using before), getElem_contents]
    rfl
  · obtain rfl : i = r.count := by
      simp only [length_append, length_contents, length_singleton] at inside
      omega
    simp

theorem unpop : (r.unpop n x).Sound n := by
  have pos : 0 < n := Nat.lt_of_le_of_lt (Nat.zero_le _) sound.head
  refine ⟨Nat.mod_lt _ pos, ?_, room⟩
  have back : r.head + n - 1 + (r.count + 1) = r.head + r.count + n := by omega
  rw [RingBuffer.unpop]
  rw [sound.tail, index, index, Nat.mod_add_mod, back, Nat.add_mod_right]

theorem contents_unpop : (r.unpop n x).contents n = x :: r.contents n := by
  have pos : 0 < n := Nat.lt_of_le_of_lt (Nat.zero_le _) sound.head
  -- behind the new head the indices are those of before
  have behind : ∀ i, index n ((r.head + n - 1) % n) (i + 1) = index n r.head i := by
    intro i
    have back : r.head + n - 1 + (i + 1) = r.head + i + n := by omega
    rw [index, Nat.mod_add_mod, back, Nat.add_mod_right, index]
  have first : index n ((r.head + n - 1) % n) 0 = (r.head + n - 1) % n := by
    rw [index, Nat.add_zero, Nat.mod_mod]
  refine contents_eq (by simp [RingBuffer.unpop]) fun i inside => ?_
  rw [get, RingBuffer.unpop]
  dsimp only
  cases i with
  | zero =>
    rw [first, Function.update_self]
    rfl
  | succ i =>
    simp only [length_cons, length_contents] at inside
    have other : index n r.head i ≠ (r.head + n - 1) % n := by
      rw [← first, ← behind i]
      exact fun same => absurd (index_inj (by omega) pos same) (by omega)
    rw [behind, Function.update_of_ne other, getElem_cons_succ, getElem_contents]
    rfl

end

end Sound

theorem shift_index (fits : i + k < n) (hj : j < n) : shift n head cells i k (index n head j) =
      if i ≤ j ∧ j < i + k then cells (index n head (j + 1)) else cells (index n head j) := by
  induction k generalizing cells i with
  | zero => rw [shift, if_neg (by omega)]
  | succ k ih =>
    rw [shift, ih (by omega), index_succ]
    by_cases here : j = i
    · subst here
      rw [if_neg (by omega), if_pos (by omega), Function.update_self]
    have other : index n head j ≠ index n head i := fun same => here (index_inj hj (by omega) same)
    by_cases later : i + 1 ≤ j ∧ j < i + 1 + k
    · have other' : index n head (j + 1) ≠ index n head i := fun same =>
        absurd (index_inj (by omega) (by omega) same) (by omega)
      rw [if_pos later, if_pos (by omega), Function.update_of_ne other']
    · rw [if_neg later, if_neg (by omega), Function.update_of_ne other]

namespace Sound

theorem removeAt (sound : r.Sound n) (inside : i < r.count) : (r.removeAt n i).Sound n := by
  have pos : 0 < n := Nat.lt_of_le_of_lt (Nat.zero_le _) sound.head
  have short := sound.count
  rw [RingBuffer.removeAt]
  split
  · refine ⟨Nat.mod_lt _ pos, ?_, by dsimp only; omega⟩
    have same : r.head + 1 + (r.count - 1) = r.head + r.count := by omega
    rw [sound.tail, index, index, Nat.mod_add_mod, same]
  · refine ⟨sound.head, ?_, by dsimp only; omega⟩
    have back : r.head + (r.count - 1) + n = r.head + r.count + (n - 1) := by omega
    rw [sound.tail, index, index, Nat.add_sub_assoc pos, Nat.mod_add_mod, ← back, Nat.add_mod_right]

theorem contents_removeAt (sound : r.Sound n) (inside : i < r.count) :
    (r.removeAt n i).contents n = (r.contents n).eraseIdx i := by
  have short := sound.count
  rw [RingBuffer.removeAt]
  split
  · next first =>
    subst first
    refine contents_eq (by simp) fun j within => ?_
    have next : index n ((r.head + 1) % n) j = index n r.head (j + 1) := by
      rw [index, Nat.mod_add_mod, index, Nat.add_assoc, Nat.add_comm 1 j]
    rw [get, next, getElem_eraseIdx, dif_neg (by omega), getElem_contents]
    rfl
  · refine contents_eq (by simp [length_eraseIdx, inside]) fun j within => ?_
    rw [length_eraseIdx, length_contents, if_pos inside] at within
    rw [get]
    dsimp only
    rw [shift_index (by omega) (by omega), getElem_eraseIdx]
    by_cases before : j < i
    · rw [if_neg (by omega), dif_pos before, getElem_contents]
      rfl
    · rw [if_pos (by omega), dif_neg before, getElem_contents]
      rfl

end Sound

theorem find_inv (found : r.find n p = some i) :
    i < r.count ∧ p (r.get n i) = true ∧ ∀ j < i, p (r.get n j) = false := by
  rw [find, find?_range_eq_some] at found
  obtain ⟨holds, inside, before⟩ := found
  exact ⟨mem_range.mp inside, holds, fun j lt => by simpa using before j lt⟩

theorem find_none (missing : r.find n p = none) : ∀ x ∈ r.contents n, p x = false := by
  intro x member
  rw [find, find?_eq_none] at missing
  obtain ⟨i, inside, rfl⟩ := mem_map.mp member
  simpa using missing i inside

end RingBuffer
