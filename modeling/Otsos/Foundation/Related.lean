import Mathlib.Data.List.Forall2
import Otsos.Foundation.Loop

/-! Lists related element by element. -/
namespace Related
open List

variable {α : Type*} {β : Type*}

theorem forall₂_exists_left {l : List α} {b : β}
    (related : List.Forall₂ R l l') (member : b ∈ l') : ∃ a ∈ l, R a b := by
  induction related with
  | nil => cases member
  | cons here _ ih =>
    rcases mem_cons.mp member with rfl | later
    · exact ⟨_, mem_cons_self, here⟩
    · obtain ⟨a, inside, rel⟩ := ih later
      exact ⟨a, mem_cons_of_mem _ inside, rel⟩

theorem forall₂_getElem? {l' : List β} {i : Nat} {a : α}
    (related : List.Forall₂ R l l') (found : l[i]? = some a) : ∃ b, l'[i]? = some b ∧ R a b := by
  obtain ⟨inside, rfl⟩ := List.getElem?_eq_some_iff.mp found
  have inside' : i < l'.length := related.length_eq ▸ inside
  exact ⟨l'[i], List.getElem?_eq_getElem inside', related.get inside inside'⟩

theorem forall₂_of_getElem? {l : List α} {l' : List β}
    (length : l.length = l'.length) (at_ : ∀ (i : Nat) a b, l[i]? = some a → l'[i]? = some b →
      R a b) :
    List.Forall₂ R l l' :=
  forall₂_of_length_eq_of_get length fun i inside inside' =>
    at_ i _ _ (getElem?_eq_getElem inside) (getElem?_eq_getElem inside')

theorem forall₂_map_eq {f : α → γ} {g : β → γ}
    (related : List.Forall₂ R l l') (same : ∀ a ∈ l, ∀ b, R a b → g b = f a) :
    l'.map g = l.map f := by
  induction related with
  | nil => rfl
  | cons here _ ih =>
    rw [map_cons, map_cons, same _ mem_cons_self _ here,
      ih fun a inside => same a (mem_cons_of_mem _ inside)]

theorem forall₂_modify {l : List α} {l' : List β}
    (related : List.Forall₂ R l l') (kept : ∀ a b, R a b → R a (f b)) (k : Nat) :
    List.Forall₂ R l (l'.modify k f) := by
  induction related generalizing k with
  | nil => cases k <;> exact .nil
  | cons here rest ih =>
    cases k with
    | zero => exact .cons (kept _ _ here) rest
    | succ k => exact .cons here (ih k)

theorem forall₂_set {a : α}
    (refl : ∀ c ∈ l, R c c) (found : l[k]? = some a) (related : R a b) :
    List.Forall₂ R l (l.set k b) := by
  induction l generalizing k with
  | nil => cases found
  | cons c l ih =>
    have rest : List.Forall₂ R l l :=
      forall₂_same.mpr fun d member => refl d (mem_cons_of_mem _ member)
    cases k with
    | zero =>
      cases found
      exact .cons related rest
    | succ k => exact .cons (refl c mem_cons_self) (ih (fun d member => refl d (mem_cons_of_mem _ member)) found)

theorem forall₂_of_mapM {ε α β : Type} {f : α → Except ε β} {l : List α} {r : List β}
    (ran : l.mapM f = .ok r) : List.Forall₂ (fun a b => f a = .ok b) l r := by
  induction l generalizing r with
  | nil =>
    cases ran
    exact .nil
  | cons a l ih =>
    rw [mapM_cons] at ran
    obtain ⟨b, here, ran⟩ := Loop.except_bind_ok ran
    obtain ⟨_, later, ran⟩ := Loop.except_bind_ok ran
    cases ran
    exact .cons here (ih later)

end Related
