import Mathlib.Data.Nat.Bitwise
import Mathlib.Tactic.Ring

/-! Naturally aligned power-of-two blocks on the number line: nesting, halving and buddies. -/
namespace Dyadic

theorem nested (smaller : j ≤ k) (ha : 2 ^ k ∣ a) (hb : 2 ^ j ∣ b) (inside : b < a + 2 ^ k) :
    b + 2 ^ j ≤ a + 2 ^ k := by
  have hk : 2 ^ j ∣ 2 ^ k := Nat.pow_dvd_pow 2 smaller
  obtain ⟨m, hm⟩ := Nat.dvd_add (hk.trans ha) hk
  obtain ⟨n, rfl⟩ := hb
  rw [hm] at inside ⊢
  have step : n + 1 ≤ m := Nat.lt_of_mul_lt_mul_left inside
  calc 2 ^ j * n + 2 ^ j = 2 ^ j * (n + 1) := by ring
    _ ≤ 2 ^ j * m := Nat.mul_le_mul_left _ step

theorem nested_of_overlap (smaller : j ≤ k) (ha : 2 ^ k ∣ a) (hb : 2 ^ j ∣ b)
    (left : a < b + 2 ^ j) (right : b < a + 2 ^ k) : a ≤ b ∧ b + 2 ^ j ≤ a + 2 ^ k := by
  refine ⟨?_, nested smaller ha hb right⟩
  by_contra before
  obtain ⟨m, hm⟩ := (Nat.pow_dvd_pow 2 smaller).trans ha
  obtain ⟨n, rfl⟩ := hb
  rw [hm] at left before
  have low : n < m := Nat.lt_of_mul_lt_mul_left (not_le.mp before)
  have high : m < n + 1 := Nat.lt_of_mul_lt_mul_left (a := 2 ^ j) (by rw [Nat.mul_succ]; exact left)
  omega

theorem eq_of_overlap (ha : 2 ^ k ∣ a) (hb : 2 ^ k ∣ b) (left : a < b + 2 ^ k)
    (right : b < a + 2 ^ k) : a = b :=
  Nat.le_antisymm (nested_of_overlap le_rfl ha hb left right).1
    (nested_of_overlap le_rfl hb ha right left).1

theorem buddy_cases (ha : 2 ^ k ∣ a) : (2 ^ (k + 1) ∣ a ∧ a ^^^ 2 ^ k = a + 2 ^ k) ∨
      ∃ c, a = c + 2 ^ k ∧ 2 ^ (k + 1) ∣ c ∧ a ^^^ 2 ^ k = c := by
  obtain ⟨m, rfl⟩ := ha
  have shifted : (2 ^ k * m) ^^^ 2 ^ k = 2 ^ k * (m ^^^ 1) := by
    have h := Nat.shiftLeft_xor_distrib (a := m) (b := 1) (i := k)
    simp only [Nat.shiftLeft_eq, Nat.one_mul] at h
    rw [Nat.mul_comm _ m, Nat.mul_comm _ (m ^^^ 1), h]
  rw [shifted]
  rcases Nat.even_or_odd' m with ⟨n, rfl | rfl⟩
  · left
    rw [Nat.xor_one_of_even (even_two_mul n)]
    exact ⟨⟨n, by ring⟩, by ring⟩
  · right
    rw [Nat.xor_one_of_odd (odd_two_mul_add_one n)]
    exact ⟨2 ^ k * (2 * n), by ring, ⟨n, by ring⟩, rfl⟩

theorem buddy_aligned (ha : 2 ^ k ∣ a) : 2 ^ k ∣ a ^^^ 2 ^ k := by
  have half : 2 ^ k ∣ 2 ^ (k + 1) := Nat.pow_dvd_pow 2 (Nat.le_succ k)
  rcases buddy_cases ha with ⟨_, same⟩ | ⟨c, rfl, hc, same⟩
  · rw [same]
    exact Nat.dvd_add ha dvd_rfl
  · rw [same]
    exact half.trans hc

theorem buddy_buddy : a ^^^ 2 ^ k ^^^ 2 ^ k = a := by
  rw [Nat.xor_assoc, Nat.xor_self, Nat.xor_zero]

theorem buddy_of_halves (ha : 2 ^ (k + 1) ∣ a) : a ^^^ 2 ^ k = a + 2 ^ k := by
  have half : 2 ^ k ∣ a := (Nat.pow_dvd_pow 2 (Nat.le_succ k)).trans ha
  rcases buddy_cases half with ⟨_, same⟩ | ⟨c, rfl, hc, _⟩
  · exact same
  · have bad : 2 ^ (k + 1) ∣ 2 ^ k := (Nat.dvd_add_right hc).mp ha
    have := Nat.le_of_dvd (Nat.two_pow_pos k) bad
    omega

theorem floor_spec (k a : Nat) :
    2 ^ k ∣ a / 2 ^ k * 2 ^ k ∧ a / 2 ^ k * 2 ^ k ≤ a ∧ a < a / 2 ^ k * 2 ^ k + 2 ^ k := by
  refine ⟨Nat.dvd_mul_left _ _, Nat.div_mul_le_self _ _, ?_⟩
  have := Nat.lt_div_mul_add (a := a) (Nat.two_pow_pos k)
  omega

theorem floor_eq (ha : 2 ^ k ∣ a) (low : a ≤ b) (high : b < a + 2 ^ k) : b / 2 ^ k * 2 ^ k = a := by
  obtain ⟨aligned, _⟩ := floor_spec k b
  exact eq_of_overlap aligned ha (by omega) (by omega)

end Dyadic
