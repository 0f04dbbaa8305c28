import Mathlib.Data.List.Induction

/-! Loops of a language whose statements may fail: `none` is an access that leaves the memory the
program may touch. The rules are for total correctness; the invariant shows the absence of failure
as well as the final state. -/
namespace Loop
open List Option

variable {σ : Type*}

theorem fuel_succ (enough : n < fuel) : ∃ rest, fuel = rest + 1 :=
  Nat.exists_eq_succ_of_ne_zero (Nat.ne_zero_of_lt enough)

/-- Induction for a walk along a list with more fuel than the list is long. -/
@[elab_as_elim]
theorem walk_induction {motive : (l : List α) → (fuel : Nat) → l.length < fuel → Prop}
    (nil : ∀ fuel, motive [] (fuel + 1) (Nat.succ_pos _))
    (cons : ∀ a l fuel enough, motive l fuel enough →
      motive (a :: l) (fuel + 1) (Nat.succ_lt_succ enough))
    (l : List α) (fuel : Nat) (enough : l.length < fuel) : motive l fuel enough := by
  induction l generalizing fuel with
  | nil =>
    obtain ⟨fuel, rfl⟩ := fuel_succ enough
    exact nil fuel
  | cons a l ih =>
    obtain ⟨fuel, rfl⟩ := fuel_succ enough
    exact cons a l fuel (Nat.lt_of_succ_lt_succ enough) (ih fuel _)

/-- Run `body` at `start`, `start + 1`, …, `count` times. -/
def forUp (body : Nat → σ → Option σ) : (start count : Nat) → σ → Option σ
  | _, 0, s => some s
  | start, count + 1, s => (body start s).bind (forUp body (start + 1) count)

@[simp] theorem forUp_one (body : Nat → σ → Option σ) (start : Nat) (s : σ) :
    forUp body start 1 s = body start s := by
  simp [forUp]

theorem forUp_spec (body : Nat → σ → Option σ) (start count : Nat) (s : σ) (inv : Nat → σ → Prop)
    (initial : inv start s) (step : ∀ i s, start ≤ i → i < start + count → inv i s →
      ∃ t, body i s = some t ∧ inv (i + 1) t) :
    ∃ t, forUp body start count s = some t ∧ inv (start + count) t := by
  induction count generalizing start s with
  | zero => exact ⟨s, rfl, initial⟩
  | succ count ih =>
    obtain ⟨t, run, next⟩ := step start s (Nat.le_refl _) (by omega) initial
    obtain ⟨u, rest, _⟩ := ih (start + 1) t next fun i s _ _ => step i s (by omega) (by omega)
    exact ⟨u, by simp only [forUp, run, bind_some, rest],
      by rwa [show start + (count + 1) = start + 1 + count by omega]⟩

/-- A loop whose states are known. -/
theorem forUp_eq {count : Nat} (states : Nat → σ) (start : states 0 = s)
    (step : ∀ i < count, body i (states i) = some (states (i + 1))) :
    forUp body 0 count s = some (states count) := by
  obtain ⟨t, runs, rfl⟩ := forUp_spec body 0 count s (fun i t => t = states i) start.symm fun i t _ below same =>
    ⟨_, same ▸ step i (by omega), rfl⟩
  rw [runs, Nat.zero_add]

theorem forUp_inv (body : Nat → σ → Option σ) (start count : Nat) (s : σ) (inv : Nat → σ → Prop)
    (initial : inv start s) (step : ∀ i s t, start ≤ i → i < start + count → inv i s →
      body i s = some t → inv (i + 1) t)
    (runs : forUp body start count s = some t) : inv (start + count) t := by
  induction count generalizing start s with
  | zero =>
    simp only [forUp, some.injEq] at runs
    exact runs ▸ initial
  | succ count ih =>
    simp only [forUp, bind_eq_some_iff] at runs
    obtain ⟨u, once, rest⟩ := runs
    rw [show start + (count + 1) = start + 1 + count by omega]
    exact ih (start + 1) u (step start s u (Nat.le_refl _) (by omega) initial once)
      (fun i s t _ _ => step i s t (by omega) (by omega)) rest

variable {α : Type*}

theorem foldlM_pure_spec [Monad m] [LawfulMonad m] {σ α : Type _} (body : σ → α → m σ) (l : List α)
    (s : σ) (inv : List α → σ → Prop) (initial : inv [] s)
      (step : ∀ done a rest s, l = done ++ a :: rest → inv done s → ∃ t, body s a = pure t ∧
        inv (done ++ [a]) t) :
    ∃ t, l.foldlM body s = pure t ∧ inv l t := by
  induction l using reverseRecOn with
  | nil => exact ⟨s, rfl, initial⟩
  | append_singleton l a ih =>
    obtain ⟨t, runs, holds⟩ :=
      ih fun done b rest s split => step done b (rest ++ [a]) s (by simp [split])
    obtain ⟨u, once, next⟩ := step l a [] t rfl holds
    exact ⟨u, by rw [foldlM_append, runs, pure_bind, foldlM_cons, once, pure_bind, foldlM_nil],
      next⟩

theorem foldlM_spec (body : σ → α → Option σ) (l : List α) (s : σ)
    (inv : List α → σ → Prop) (initial : inv [] s) (step : ∀ done a rest s, l = done ++ a :: rest →
      inv done s → ∃ t, body s a = some t ∧ inv (done ++ [a]) t) :
    ∃ t, l.foldlM body s = some t ∧ inv l t :=
  foldlM_pure_spec body l s inv initial step

theorem foldlM_inv (body : σ → α → Option σ) (inv : σ → Prop)
    {l : List α} (step : ∀ a ∈ l, ∀ s t, inv s → body s a = some t → inv t) (initial : inv s)
    (runs : l.foldlM body s = some t) : inv t := by
  induction l generalizing s with
  | nil =>
    rw [foldlM_nil, Option.pure_def, some.injEq] at runs
    exact runs ▸ initial
  | cons a l ih =>
    simp only [foldlM_cons, bind_eq_bind, bind_eq_some_iff] at runs
    obtain ⟨u, once, rest⟩ := runs
    exact ih (fun b member => step b (mem_cons_of_mem a member))
      (step a mem_cons_self s u initial once) rest

theorem exists_of_any {P : α → Prop} [DecidablePred P] (found : a.any (P ·)) :
    ∃ x, a = some x ∧ P x := by
  obtain ⟨x, is, holds⟩ := (Option.any_eq_true ..).mp found
  exact ⟨x, is, of_decide_eq_true holds⟩

/-! The same for bodies that may also throw an error. -/

theorem throw_bind_eq_pure {α : Type} {x : ExceptT ε Option α} {f : α → ExceptT ε Option β}
    (runs : x >>= f = pure b) : ∃ a, x = pure a ∧ f a = pure b := by
  match x, runs with
  | some (.ok a), runs => exact ⟨a, rfl, runs⟩

theorem foldlM_throw_inv {σ α : Type} (body : σ → α → ExceptT ε Option σ) (l : List α) (s : σ)
    (inv : List α → σ → Prop) (initial : inv [] s)
    (step : ∀ done a rest s t, l = done ++ a :: rest → inv done s → body s a = pure t →
      inv (done ++ [a]) t)
    {t : σ} (runs : l.foldlM body s = pure t) : inv l t := by
  induction l using reverseRecOn generalizing t with
  | nil =>
    cases runs
    exact initial
  | append_singleton l a ih =>
    rw [foldlM_append] at runs
    obtain ⟨u, first, once⟩ := throw_bind_eq_pure runs
    rw [foldlM_cons] at once
    have holds :=
      ih (fun done b rest s t split => step done b (rest ++ [a]) s t (by simp [split])) first
    exact step l a [] u t rfl holds (by simpa using once)

theorem except_bind_ok {ε α : Type} {x : Except ε α} {f : α → Except ε β}
    (ran : (x >>= f) = .ok b) : ∃ a, x = .ok a ∧ f a = .ok b := by
  cases x with
  | error e => cases ran
  | ok a => exact ⟨a, rfl, ran⟩

theorem foldlM_except_inv {α β ε : Type} {body : β → α → Except ε β} (inv : β → Prop) {l : List α}
    (step : ∀ b a b', a ∈ l → inv b → body b a = .ok b' → inv b') {start last : β}
    (first : inv start) (ran : l.foldlM body start = .ok last) : inv last := by
  induction l generalizing start with
  | nil =>
    cases ran
    exact first
  | cons a l ih =>
    obtain ⟨b, next, ran⟩ := except_bind_ok ran
    apply ih (fun b a b' member => step b a b' (mem_cons_of_mem _ member)) _ ran
    exact step start a b mem_cons_self first next

end Loop
