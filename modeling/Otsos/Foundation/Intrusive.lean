import Mathlib.Data.List.Nodup

/-! Doubly linked lists threaded through the nodes they link. A segment is described by the list of
its nodes together with the link expected just before its first node and just after its last one, so
a whole list, a list being cut at a node and a list being spliced share one predicate. -/
namespace Intrusive
open List Option

/-- The nodes of `l` are linked in order; `before` precedes the first node and `after` follows the
last. The empty segment constrains nothing. -/
def Seg (next prev : α → Option α) : Option α → List α → Option α → Prop
  | _, [], _ => True
  | before, x :: l, after =>
      prev x = before ∧ next x = l.head?.or after ∧ Seg next prev (some x) l after

variable {next prev : α → Option α} {after : Option α} {x : α}

theorem seg_append : Seg next prev before (l₁ ++ l₂) after ↔ Seg next prev before l₁ (l₂.head?.or after) ∧
      Seg next prev (l₁.getLast?.or before) l₂ after := by
  induction l₁ generalizing before with
  | nil => simp [Seg]
  | cons x l ih =>
    have first : (l ++ l₂).head?.or after = l.head?.or (l₂.head?.or after) := by
      cases l <;> simp
    have last : (x :: l).getLast?.or before = l.getLast?.or (some x) := by
      rcases eq_nil_or_concat l with rfl | ⟨l, y, rfl⟩
      · rfl
      · rw [concat_eq_append, ← cons_append]
        simp only [getLast?_append, getLast?_singleton, some_or]
    simp only [cons_append, Seg, ih, first, last, and_assoc]

theorem apart_of_not_mem (away : x ∉ l₁ ++ y :: l₂) :
    x ≠ y ∧ l₁.getLast? ≠ some x ∧ l₂.head? ≠ some x := by
  simp only [mem_append, mem_cons, not_or] at away
  exact ⟨away.2.1, fun last => away.1 (mem_of_getLast? last),
    fun first => away.2.2 (mem_of_mem_head? first)⟩

theorem seg_frame (seg : Seg next prev before l after)
    (sameNext : ∀ x ∈ l, next' x = next x) (samePrev : ∀ x ∈ l, prev' x = prev x) :
    Seg next' prev' before l after := by
  induction l generalizing before with
  | nil => trivial
  | cons x l ih =>
    obtain ⟨before, after, rest⟩ := seg
    refine ⟨?_, ?_, ih rest (fun y hy => sameNext y (by simp [hy]))
      (fun y hy => samePrev y (by simp [hy]))⟩
    · rw [samePrev x (by simp), before]
    · rw [sameNext x (by simp), after]

theorem seg_after (seg : Seg next prev before l after) (nodup : l.Nodup)
    (last : ∀ x, l.getLast? = some x → next' x = after') (sameNext : ∀ x ∈ l, l.getLast? ≠ some x → next' x = next x)
    (samePrev : ∀ x ∈ l, prev' x = prev x) : Seg next' prev' before l after' := by
  rcases eq_nil_or_concat l with rfl | ⟨l, x, rfl⟩
  · trivial
  rw [concat_eq_append] at *
  rw [seg_append] at seg ⊢
  have fresh : x ∉ l := by simpa using nodup_append.mp nodup |>.2.2 x
  refine ⟨seg_frame (by simpa using seg.1) ?_ fun y hy => samePrev y (by simp [hy]), ?_⟩
  · intro y hy
    refine sameNext y (by simp [hy]) ?_
    rintro same
    simp only [getLast?_append, getLast?_singleton, some_or, some.injEq] at same
    exact fresh (same ▸ hy)
  · obtain ⟨first, _⟩ := seg.2
    exact ⟨by rw [samePrev x (by simp), first], by simpa using last x (by simp), trivial⟩

theorem seg_before (seg : Seg next prev before l after) (nodup : l.Nodup)
    (first : ∀ x, l.head? = some x → prev' x = before') (sameNext : ∀ x ∈ l, next' x = next x)
    (samePrev : ∀ x ∈ l, l.head? ≠ some x → prev' x = prev x) :
    Seg next' prev' before' l after := by
  cases l with
  | nil => trivial
  | cons x l =>
    obtain ⟨_, forward, rest⟩ := seg
    have fresh := (nodup_cons.mp nodup).1
    refine ⟨first x rfl, by rw [sameNext x (by simp), forward], seg_frame rest ?_ ?_⟩
    · exact fun y hy => sameNext y (by simp [hy])
    · refine fun y hy => samePrev y (by simp [hy]) ?_
      rintro same
      simp only [head?_cons, some.injEq] at same
      exact fresh (same ▸ hy)

/-- The ends where two segments meet are linked to something else. -/
theorem seg_relink (seg₁ : Seg next prev none l₁ after) (seg₂ : Seg next prev before l₂ none)
    (nodup : (l₁ ++ l₂).Nodup) (last : ∀ y, l₁.getLast? = some y → next' y = after')
    (first : ∀ y, l₂.head? = some y → prev' y = before')
    (sameNext : ∀ y ∈ l₁ ++ l₂, l₁.getLast? ≠ some y → next' y = next y)
    (samePrev : ∀ y ∈ l₁ ++ l₂, l₂.head? ≠ some y → prev' y = prev y) :
    Seg next' prev' none l₁ after' ∧ Seg next' prev' before' l₂ none := by
  obtain ⟨nodup₁, nodup₂, apart⟩ := nodup_append.mp nodup
  constructor
  · refine seg_after seg₁ nodup₁ last (fun y here => sameNext y (mem_append_left _ here)) fun y here => ?_
    exact samePrev y (mem_append_left _ here) fun same => apart y here y (mem_of_mem_head? same) rfl
  · refine seg_before seg₂ nodup₂ first (fun y here => ?_) fun y here => samePrev y (mem_append_right _ here)
    exact sameNext y (mem_append_right _ here) fun same => apart y (mem_of_getLast? same) y here rfl

/-- A complete list: the links start and end at null and no node occurs twice. -/
structure Linked (next prev : α → Option α) (head : Option α) (l : List α) : Prop where
  seg : Seg next prev none l none
  nodup : l.Nodup
  head_eq : head = l.head?

/-- Follow the forward links from a node, at most `n` of them. -/
def walk (next : α → Option α) : Nat → Option α → List α
  | 0, _ => []
  | _ + 1, none => []
  | n + 1, some x => x :: walk next n (next x)

theorem walk_seg (seg : Seg next prev before l none) : walk next l.length l.head? = l := by
  induction l generalizing before with
  | nil => rfl
  | cons x l ih =>
    obtain ⟨_, forward, rest⟩ := seg
    rw [or_none] at forward
    rw [length_cons, head?_cons, walk, forward, ih rest]

namespace Linked
variable {head : Option α}

theorem frame (linked : Linked next prev head l) (sameNext : ∀ x ∈ l, next' x = next x)
    (samePrev : ∀ x ∈ l, prev' x = prev x) : Linked next' prev' head l :=
  ⟨seg_frame linked.seg sameNext samePrev, linked.nodup, linked.head_eq⟩

theorem nil : Linked next prev none ([] : List α) := ⟨trivial, nodup_nil, rfl⟩

theorem links_at (linked : Linked next prev head (l₁ ++ x :: l₂)) :
    prev x = l₁.getLast? ∧ next x = l₂.head? := by
  obtain ⟨_, before, after, _⟩ := seg_append.mp linked.seg
  simpa using And.intro before after

theorem fresh (linked : Linked next prev head (l₁ ++ x :: l₂)) : x ∉ l₁ ∧ x ∉ l₂ := by
  have fresh := (nodup_cons.mp (nodup_middle.mp linked.nodup)).1
  rwa [mem_append, not_or] at fresh

theorem insert (linked : Linked next prev head (l₁ ++ l₂)) (fresh : x ∉ l₁ ++ l₂)
    (backward : prev' x = l₁.getLast?) (forward : next' x = l₂.head?)
    (last : ∀ y, l₁.getLast? = some y → next' y = some x)
    (first : ∀ y, l₂.head? = some y → prev' y = some x)
    (sameNext : ∀ y ∈ l₁ ++ l₂, l₁.getLast? ≠ some y → next' y = next y)
    (samePrev : ∀ y ∈ l₁ ++ l₂, l₂.head? ≠ some y → prev' y = prev y) :
    Linked next' prev' ((l₁ ++ x :: l₂).head?) (l₁ ++ x :: l₂) := by
  obtain ⟨seg₁, seg₂⟩ := seg_append.mp linked.seg
  obtain ⟨seg₁, seg₂⟩ := seg_relink seg₁ seg₂ linked.nodup last first sameNext samePrev
  refine ⟨seg_append.mpr ⟨seg₁, ?_, ?_, seg₂⟩,
    nodup_middle.mpr (nodup_cons.mpr ⟨fresh, linked.nodup⟩), rfl⟩
  · simpa using backward
  · simpa using forward

theorem remove (linked : Linked next prev head (l₁ ++ x :: l₂))
    (last : ∀ y, l₁.getLast? = some y → next' y = l₂.head?)
    (first : ∀ y, l₂.head? = some y → prev' y = l₁.getLast?)
    (sameNext : ∀ y ∈ l₁ ++ l₂, l₁.getLast? ≠ some y → next' y = next y)
    (samePrev : ∀ y ∈ l₁ ++ l₂, l₂.head? ≠ some y → prev' y = prev y) :
    Linked next' prev' ((l₁ ++ l₂).head?) (l₁ ++ l₂) := by
  obtain ⟨seg₁, _, _, seg₂⟩ := seg_append.mp linked.seg
  have nodup := (nodup_middle.mp linked.nodup).of_cons
  obtain ⟨seg₁, seg₂⟩ := seg_relink seg₁ seg₂ nodup last first sameNext samePrev
  exact ⟨seg_append.mpr ⟨by simpa using seg₁, by simpa using seg₂⟩, nodup, rfl⟩

section Update
open Function (update update_comm update_of_ne update_self)

variable [DecidableEq α] {f : α → Option α}

theorem update_if : update f x v = fun i => if some x = some i then v else f i := by
  funext i
  simp only [Function.update_apply, some.injEq, eq_comm]

theorem elim_update : (link.elim f fun h => update f h v) = fun i => if link = some i then v
    else f i := by
  cases link with
  | none => rfl
  | some h => exact update_if

theorem elim_update_of_ne (apart : link ≠ some y) :
    (link.elim f fun h => update f h v) y = f y := by
  rw [elim_update]
  exact if_neg apart

theorem elim_update_comm (apart : link ≠ some x) :
    (link.elim (update f x w) fun h => update (update f x w) h v) = update
    (fun i => if link = some i then v else f i) x w := by
  cases link with
  | none => simp
  | some h => rw [elim_some, update_comm (Ne.symm fun same => apart (congrArg some same)), ← update_if]

theorem elim_update_self : ((some y).elim f fun h => update f h v) y = v :=
  update_self _ _ _

theorem pushFront (linked : Linked next prev head l) (fresh : x ∉ l) :
    Linked (update next x head) (head.elim (update prev x none)
      fun h => update (update prev x none) h (some x)) (some x) (x :: l) := by
  have notHead : head ≠ some x := fun same =>
    fresh (mem_of_mem_head? (linked.head_eq.symm.trans same))
  have apart : ∀ y ∈ l, y ≠ x := fun y member same => fresh (same ▸ member)
  refine Linked.insert (show Linked next prev head ([] ++ l) from linked) fresh ?_ ?_ nofun ?_ ?_ ?_
  · rw [elim_update_of_ne notHead, update_self]
    rfl
  · rw [update_self, linked.head_eq]
  · intro y first
    rw [linked.head_eq, first, elim_update_self]
  · exact fun y member _ => update_of_ne (apart y member) _ _
  · intro y member _
    rw [elim_update_of_ne (by rwa [linked.head_eq]), update_of_ne (apart y member)]

/-- A node is taken out, and its own links are set to anything. -/
theorem cut (linked : Linked next prev head (l₁ ++ x :: l₂)) (v w : Option α) :
    Linked (update (fun i => if l₁.getLast? = some i then l₂.head? else next i) x v)
      (update (fun i => if l₂.head? = some i then l₁.getLast? else prev i) x w) ((l₁ ++ l₂).head?) (l₁ ++ l₂) := by
  obtain ⟨fresh₁, fresh₂⟩ := linked.fresh
  have apart : ∀ y ∈ l₁ ++ l₂, y ≠ x := by
    rintro y member rfl
    rcases mem_append.mp member with here | here
    · exact fresh₁ here
    · exact fresh₂ here
  refine linked.remove ?_ ?_ ?_ ?_
  · intro y last
    rw [update_of_ne (apart y (mem_append_left l₂ (mem_of_getLast? last))), if_pos last]
  · intro y first
    rw [update_of_ne (apart y (mem_append_right l₁ (mem_of_mem_head? first))), if_pos first]
  · intro y member notLast
    rw [update_of_ne (apart y member), if_neg notLast]
  · intro y member notFirst
    rw [update_of_ne (apart y member), if_neg notFirst]

theorem unlink (linked : Linked next prev head (l₁ ++ x :: l₂)) (v w : Option α) :
    Linked (update ((prev x).elim next fun b => update next b (next x)) x v)
      (update ((next x).elim prev fun a => update prev a (prev x)) x w) ((l₁ ++ l₂).head?) (l₁ ++ l₂) := by
  obtain ⟨before, after⟩ := linked.links_at
  rw [elim_update, elim_update, before, after]
  exact linked.cut v w

end Update

end Linked

/-- A list with a pointer to its last node as well. -/
structure Queue (next prev : α → Option α) (head tail : Option α) (l : List α) : Prop
    extends Linked next prev head l where
  tail_eq : tail = l.getLast?

namespace Queue
variable {head tail : Option α}

theorem frame (queue : Queue next prev head tail l) (sameNext : ∀ x ∈ l, next' x = next x)
    (samePrev : ∀ x ∈ l, prev' x = prev x) : Queue next' prev' head tail l :=
  ⟨queue.toLinked.frame sameNext samePrev, queue.tail_eq⟩

theorem nil : Queue next prev none none ([] : List α) := ⟨.nil, rfl⟩

theorem append (queue : Queue next prev head tail l) (fresh : x ∉ l) (backward : prev' x = tail)
    (forward : next' x = none) (last : ∀ y, tail = some y → next' y = some x)
    (sameNext : ∀ y ∈ l, tail ≠ some y → next' y = next y) (samePrev : ∀ y ∈ l, prev' y = prev y) :
    Queue next' prev' (head.or (some x)) (some x) (l ++ [x]) := by
  have linked : Linked next' prev' ((l ++ [x]).head?) (l ++ [x]) := by
    refine Linked.insert (show Linked next prev head (l ++ []) by simpa using queue.toLinked)
      (by simpa using fresh) (by rw [backward, queue.tail_eq]) forward ?_ (by simp) ?_ ?_
    · rw [← queue.tail_eq]
      exact last
    · simpa only [append_nil, ← queue.tail_eq] using sameNext
    · intro y member _
      exact samePrev y (by simpa using member)
  refine ⟨?_, by simp⟩
  have first : (l ++ [x]).head? = head.or (some x) := by
    rw [queue.head_eq]
    cases l <;> rfl
  rwa [first] at linked

theorem insert (queue : Queue next prev head tail (l₁ ++ l₂))
    (linked : Linked next' prev' (l₁ ++ x :: l₂).head? (l₁ ++ x :: l₂)) :
    Queue next' prev' (if l₁ = [] then some x else head) (if l₂ = [] then some x else tail)
    (l₁ ++ x :: l₂) := by
  refine ⟨?_, ?_⟩
  · rw [queue.head_eq]
    cases l₁ with
    | nil => exact linked
    | cons y l => exact linked
  · rw [queue.tail_eq]
    cases l₂ with
    | nil => simp
    | cons y l => simp

theorem remove (queue : Queue next prev head tail (l₁ ++ x :: l₂))
    (linked : Linked next' prev' (l₁ ++ l₂).head? (l₁ ++ l₂)) :
    Queue next' prev' (if l₁ = [] then l₂.head? else head) (if l₂ = [] then l₁.getLast? else tail)
    (l₁ ++ l₂) := by
  refine ⟨?_, ?_⟩
  · rw [queue.head_eq]
    cases l₁ with
    | nil => exact linked
    | cons y l => exact linked
  · rw [queue.tail_eq]
    cases l₂ with
    | nil => simp
    | cons y l => simp

end Queue

end Intrusive
