import Mathlib.Algebra.Ring.Nat
import Mathlib.Data.List.Basic
import Mathlib.Data.List.TakeWhile

/-! Binary images as lists of bytes: little-endian words, tables of records of one size, and tables
of NUL-terminated strings. A read is from an offset on; what lies before and after an area does not
matter. -/
namespace Bytes
open List

/-- The bytes of an image from an offset on, a given number of them. -/
def slice (b : List UInt8) (off len : Nat) : List UInt8 := (b.drop off).take len

def le32 (w : UInt32) : List UInt8 :=
  [UInt8.ofNat w.toNat, UInt8.ofNat (w.toNat / 2 ^ 8), UInt8.ofNat (w.toNat / 2 ^ 16),
    UInt8.ofNat (w.toNat / 2 ^ 24)]

/-- The word at the start; bytes that are not there count as zero. -/
def firstWord (b : List UInt8) : UInt32 :=
  UInt32.ofNat ((b.getD 0 0).toNat + (b.getD 1 0).toNat * 2 ^ 8 + (b.getD 2 0).toNat * 2 ^ 16 +
    (b.getD 3 0).toNat * 2 ^ 24)

def word (b : List UInt8) (off : Nat) : UInt32 := firstWord (b.drop off)

def words (ws : List UInt32) : List UInt8 := ws.flatMap le32

@[simp] theorem length_le32 (w : UInt32) : (le32 w).length = 4 := rfl

@[simp] theorem length_words (ws : List UInt32) : (words ws).length = 4 * ws.length := by
  induction ws with
  | nil => rfl
  | cons w ws ih =>
    simp only [words, flatMap_cons, length_append, length_le32, length_cons] at ih ⊢
    omega

theorem firstWord_le32 (w : UInt32) (post : List UInt8) : firstWord (le32 w ++ post) = w := by
  have bound : w.toNat < 2 ^ 32 := w.toNat_lt
  have digits : w.toNat % 2 ^ 8 + w.toNat / 2 ^ 8 % 2 ^ 8 * 2 ^ 8 + w.toNat / 2 ^ 16 % 2 ^ 8 * 2 ^
      16 + w.toNat / 2 ^ 24 % 2 ^ 8 * 2 ^ 24 = w.toNat := by omega
  have read : firstWord (le32 w ++ post) = UInt32.ofNat (w.toNat % 2 ^ 8 +
      w.toNat / 2 ^ 8 % 2 ^ 8 * 2 ^ 8 + w.toNat / 2 ^ 16 % 2 ^ 8 * 2 ^ 16 +
      w.toNat / 2 ^ 24 % 2 ^ 8 * 2 ^ 24) := by
    simp [firstWord, le32]
  rw [read, digits, UInt32.ofNat_toNat]

theorem word_append_right (pre b : List UInt8) (off : Nat) :
    word (pre ++ b) (pre.length + off) = word b off := by
  rw [word, word, drop_append, drop_eq_nil_of_le (by omega), Nat.add_sub_cancel_left, nil_append]

@[simp] theorem word_words_zero (w : UInt32) (ws : List UInt32) (post : List UInt8) :
    word (words (w :: ws) ++ post) 0 = w := by
  exact firstWord_le32 w _

@[simp] theorem word_words_succ (w : UInt32) (ws : List UInt32) (post : List UInt8) (off : Nat) :
    word (words (w :: ws) ++ post) (off + 4) = word (words ws ++ post) off := by
  rw [Nat.add_comm]
  exact word_append_right (le32 w) _ off

theorem drop_flatMap (f : α → List UInt8) (l : List α) (size : ∀ a ∈ l, (f a).length = n)
    (post : List UInt8) (inside : i < l.length) :
    ∃ rest, (l.flatMap f ++ post).drop (n * i) = f l[i] ++ rest := by
  induction l generalizing i with
  | nil => simp at inside
  | cons a l ih =>
    rw [flatMap_cons, append_assoc]
    cases i with
    | zero => exact ⟨l.flatMap f ++ post, rfl⟩
    | succ i =>
      obtain ⟨rest, found⟩ := ih (fun b member => size b (mem_cons_of_mem a member))
        (by simpa using inside)
      refine ⟨rest, ?_⟩
      rw [Nat.mul_succ, Nat.add_comm, ← drop_drop, drop_left' (size a mem_cons_self), found]
      rfl

theorem length_flatMap (f : α → List UInt8) (l : List α) (size : ∀ a ∈ l, (f a).length = n) :
    (l.flatMap f).length = n * l.length := by
  induction l with
  | nil => simp
  | cons a l ih =>
    rw [flatMap_cons, length_append, size a mem_cons_self,
      ih fun b member => size b (mem_cons_of_mem a member), length_cons, Nat.mul_succ, Nat.add_comm]

/-- There is a string at the offset: a NUL follows. -/
def hasString (b : List UInt8) (off : Nat) : Bool := (b.drop off).contains 0

theorem hasString_append (pre s post : List UInt8) :
    hasString (pre ++ (s ++ 0 :: post)) pre.length = true := by
  rw [hasString]
  simp

end Bytes
