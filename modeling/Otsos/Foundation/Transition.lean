import Mathlib.Logic.Relation

/-! Systems given by a step function: an action is taken in a state or it is not enabled there. A
run is a chain of actions that all meet a condition on the state they are taken in. -/
namespace Otsos.Transition

variable {σ α : Type*} {step : σ → α → Option σ} {may : σ → α → Prop} {s s' s'' : σ} {a : α}
  {as : List α}

/-- One action that meets the condition. -/
def Next (step : σ → α → Option σ) (may : σ → α → Prop) (s s' : σ) : Prop :=
  ∃ a, may s a ∧ step s a = some s'

def Reaches (step : σ → α → Option σ) (may : σ → α → Prop) : σ → σ → Prop :=
  Relation.ReflTransGen (Next step may)

theorem Reaches.refl : Reaches step may s s := Relation.ReflTransGen.refl

theorem Reaches.trans (first : Reaches step may s s') (second : Reaches step may s' s'') :
    Reaches step may s s'' :=
  Relation.ReflTransGen.trans first second

theorem Reaches.cons (allowed : may s a) (taken : step s a = some s')
    (rest : Reaches step may s' s'') : Reaches step may s s'' :=
  Relation.ReflTransGen.head ⟨a, allowed, taken⟩ rest

variable {wide : σ → α → Prop}

theorem Reaches.mono (weaker : ∀ s a, may s a → wide s a) (run : Reaches step may s s') :
    Reaches step wide s s' :=
  Relation.ReflTransGen.mono (fun _ _ ⟨a, allowed, taken⟩ => ⟨a, weaker _ a allowed, taken⟩) _ _ run

variable {I : σ → Prop}

theorem Reaches.invariant (keeps : ∀ {s a s'}, I s → may s a → step s a = some s' → I s')
    (run : Reaches step may s s') (start : I s) : I s' := by
  induction run with
  | refl => exact start
  | tail _ next ih =>
    obtain ⟨a, allowed, taken⟩ := next
    exact keeps ih allowed taken

/-- The state behind a list of actions, if each is enabled and meets the condition. -/
def exec (step : σ → α → Option σ) (may : σ → α → Prop) [∀ s a, Decidable (may s a)] :
    σ → List α → Option σ
  | s, [] => some s
  | s, a :: as => if may s a then (step s a).bind fun s' => exec step may s' as else none

theorem Reaches.of_exec [∀ s a, Decidable (may s a)] (ran : exec step may s as = some s') :
    Reaches step may s s' := by
  induction as generalizing s with
  | nil =>
    cases ran
    exact .refl
  | cons a as ih =>
    rw [exec] at ran
    split at ran
    · next allowed =>
      obtain ⟨_, taken, rest⟩ := Option.bind_eq_some_iff.mp ran
      exact .cons allowed taken (ih rest)
    · cases ran

theorem Reaches.exists_of_exec [∀ s a, Decidable (may s a)] (as : List α) {p : σ → Bool}
    (found : (exec step may s as).any p) : ∃ s', Reaches step may s s' ∧ p s' := by
  generalize ran : exec step may s as = behind at found
  cases behind with
  | none => cases found
  | some s' => exact ⟨s', .of_exec ran, found⟩

/-- Every action is allowed. -/
def Free (_ : σ) (_ : α) : Prop := True

instance (s : σ) (a : α) : Decidable (Free s a) := .isTrue trivial

end Otsos.Transition
