import Otsos.Foundation.Intrusive

/-! Singly linked lists. A chain is the list of nodes met on the way from a link to null; the links
determine it, so no node is met twice. -/
namespace Intrusive
open List

def Chain (next : α → Option α) : Option α → List α → Prop
  | link, [] => link = none
  | link, x :: l => link = some x ∧ Chain next (next x) l

variable {next : α → Option α} {x : α}

namespace Chain

theorem head_eq (chain : Chain next link l) : link = l.head? := by
  cases l with
  | nil => exact chain
  | cons x l => exact chain.1

theorem unique (chain : Chain next link l) (chain' : Chain next link l') : l = l' := by
  induction l generalizing link l' with
  | nil =>
    cases l' with
    | nil => rfl
    | cons y l' => cases chain.symm.trans chain'.1
  | cons x l ih =>
    obtain ⟨here, rest⟩ := chain
    cases l' with
    | nil => cases here.symm.trans chain'
    | cons y l' =>
      obtain ⟨here', rest'⟩ := chain'
      obtain rfl : x = y := Option.some.inj (here.symm.trans here')
      rw [ih rest rest']

theorem suffix (chain : Chain next link (l₁ ++ l₂)) : ∃ link', Chain next link' l₂ := by
  induction l₁ generalizing link with
  | nil => exact ⟨link, chain⟩
  | cons x l ih => exact ih chain.2

theorem nodup (chain : Chain next link l) : l.Nodup := by
  induction l generalizing link with
  | nil => exact nodup_nil
  | cons x l ih =>
    refine nodup_cons.mpr ⟨fun again => ?_, ih chain.2⟩
    obtain ⟨_, _, rfl⟩ := append_of_mem again
    obtain ⟨_, _, rest⟩ := suffix chain.2
    have same := congrArg length (rest.unique chain.2)
    simp only [length_append, length_cons] at same
    omega

theorem frame (chain : Chain next link l) (same : ∀ x ∈ l, next' x = next x) :
    Chain next' link l := by
  induction l generalizing link with
  | nil => exact chain
  | cons x l ih =>
    refine ⟨chain.1, ?_⟩
    rw [same x (by simp)]
    exact ih chain.2 fun y member => same y (by simp [member])

theorem link_at (chain : Chain next link (l₁ ++ x :: l₂)) : next x = l₂.head? := by
  induction l₁ generalizing link with
  | nil => exact chain.2.head_eq
  | cons y l ih => exact ih chain.2

theorem append (chain : Chain next link l) (last : ∀ y, l.getLast? = some y → next' y = some x)
    (end_ : next' x = none) (same : ∀ y ∈ l, l.getLast? ≠ some y → next' y = next y) :
    Chain next' (if l = [] then some x else link) (l ++ [x]) := by
  have nodup := chain.nodup
  induction l generalizing link with
  | nil => exact ⟨rfl, end_⟩
  | cons y l ih =>
    refine ⟨chain.1, ?_⟩
    cases l with
    | nil => exact ⟨last y rfl, end_⟩
    | cons z l =>
      have kept : next' y = next y := by
        refine same y (by simp) fun here => (nodup_cons.mp nodup).1 ?_
        exact mem_of_getLast? here
      rw [kept]
      have rest := ih chain.2 last (fun w _ => same w (by simp_all)) chain.2.nodup
      rwa [if_neg (by simp)] at rest

theorem remove (chain : Chain next link (l₁ ++ x :: l₂))
    (last : ∀ y, l₁.getLast? = some y → next' y = next x)
    (same : ∀ y ∈ l₁ ++ l₂, l₁.getLast? ≠ some y → next' y = next y) :
    Chain next' (if l₁ = [] then next x else link) (l₁ ++ l₂) := by
  have nodup := chain.nodup
  induction l₁ generalizing link with
  | nil =>
    exact chain.2.frame fun y member => same y (by simpa using member) (by simp)
  | cons y l ih =>
    refine ⟨chain.1, ?_⟩
    have fresh := (nodup_cons.mp nodup).1
    cases l with
    | nil =>
      rw [last y rfl]
      refine chain.2.2.frame fun z member => same z (by simp [member]) ?_
      intro here
      obtain rfl : y = z := by simpa using here
      exact fresh (mem_cons_of_mem _ member)
    | cons z l =>
      have kept : next' y = next y := by
        refine same y (by simp) fun here => fresh ?_
        exact mem_append_left _ (mem_of_getLast? here)
      rw [kept]
      have rest := ih chain.2 last (fun w member => same w (by simp_all)) chain.2.nodup
      rwa [if_neg (by simp)] at rest

end Chain

end Intrusive
