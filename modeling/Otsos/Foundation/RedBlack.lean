import Mathlib.Data.List.Nodup

/-! Red-black trees with a cursor. A context is the path from a subtree to the root; directions make
one statement serve a case and its mirror image. -/
namespace RedBlack

inductive Color where
  | red
  | black
deriving DecidableEq, Inhabited

inductive Dir where
  | left
  | right
deriving DecidableEq

def Dir.opp : Dir → Dir
  | .left => .right
  | .right => .left

@[simp] theorem Dir.opp_opp (d : Dir) : d.opp.opp = d := by cases d <;> rfl

@[simp] theorem Dir.opp_ne (d : Dir) : d.opp ≠ d := by cases d <;> simp [Dir.opp]

@[simp] theorem Dir.ne_opp (d : Dir) : d ≠ d.opp := by cases d <;> simp [Dir.opp]

theorem Dir.eq_or_eq_opp (d e : Dir) :
    e = d ∨ e = d.opp := by cases d <;> cases e <;> simp [Dir.opp]

inductive Tree (α : Type*) where
  | leaf
  | node (color : Color) (left : Tree α) (key : α) (right : Tree α)

namespace Tree
/-- A node whose child on side `d` is `near`. -/
def branch (d : Dir) (c : Color) (near : Tree α) (x : α) (far : Tree α) : Tree α :=
  match d with
  | .left => node c near x far
  | .right => node c far x near

def toList : Tree α → List α
  | leaf => []
  | node _ l x r => l.toList ++ x :: r.toList

def root? : Tree α → Option α
  | leaf => none
  | node _ _ x _ => some x

/-- Empty subtrees count as black. -/
def color : Tree α → Color
  | leaf => .black
  | node c _ _ _ => c

/-- No red node has a red child, and every path down passes `n` black nodes. -/
def Balanced : Tree α → Nat → Prop
  | leaf, n => n = 0
  | node .red l _ r, n => l.color = .black ∧ r.color = .black ∧ l.Balanced n ∧ r.Balanced n
  | node .black l _ r, n => ∃ m, n = m + 1 ∧ l.Balanced m ∧ r.Balanced m

/-- The red-black conditions of a whole tree. -/
def Valid (t : Tree α) : Prop := t.color = .black ∧ ∃ n, t.Balanced n

def blacken : Tree α → Tree α
  | leaf => leaf
  | node _ l x r => node .black l x r

variable {t : Tree α} {x : α}

theorem branch_opp : branch d.opp c a x b = branch d c b x a := by cases d <;> rfl

@[simp] theorem root?_branch : (branch d c a x b).root? = some x := by cases d <;> rfl

@[simp] theorem color_branch : (branch d c a x b).color = c := by cases d <;> rfl

theorem toList_rotate :
    (branch d c a x (branch d c' b y e)).toList = (branch d c' (branch d c a x b) y e).toList := by
  cases d <;> simp [branch, toList]

theorem toList_recolor : (branch d c a x b).toList = (branch d c' a x b).toList := by
  cases d <;> rfl

theorem balanced_red : (branch d .red a x b).Balanced n ↔
    a.color = .black ∧ b.color = .black ∧ a.Balanced n ∧ b.Balanced n := by
  cases d with
  | left => rfl
  | right =>
    constructor
    · rintro ⟨second, first, right, left⟩
      exact ⟨first, second, left, right⟩
    · rintro ⟨first, second, left, right⟩
      exact ⟨second, first, right, left⟩

theorem balanced_black : (branch d .black a x b).Balanced (n + 1) ↔ a.Balanced n ∧
    b.Balanced n := by
  cases d <;> simp only [branch, Balanced, Nat.add_right_cancel_iff, exists_eq_left', and_comm]

theorem not_balanced_black_zero : ¬(branch d .black a x b).Balanced 0 := by
  cases d <;> simp [branch, Balanced]

theorem exists_branch (d : Dir) (t : Tree α) (nonempty : t ≠ leaf) :
    ∃ c a x b, t = branch d c a x b := by
  cases t with
  | leaf => exact absurd rfl nonempty
  | node c l x r =>
    cases d with
    | left => exact ⟨c, l, x, r, rfl⟩
    | right => exact ⟨c, r, x, l, rfl⟩

@[simp] theorem blacken_branch : (branch d c a x b).blacken = branch d .black a x b := by
  cases d <;> rfl

theorem blacken_of_black (black : t.color = .black) : t.blacken = t := by
  cases t with
  | leaf => rfl
  | node c l x r =>
    cases black
    rfl

theorem blacken_balanced (red : t.color = .red) (balanced : t.Balanced n) :
    t.blacken.Balanced (n + 1) := by
  cases t with
  | leaf => cases red
  | node c l x r =>
    cases red
    exact ⟨n, rfl, balanced.2.2⟩

theorem color_blacken : t.blacken.color = .black := by cases t <;> rfl

theorem blacken_valid (balanced : t.Balanced n) : t.blacken.Valid := by
  refine ⟨color_blacken, ?_⟩
  cases painted : t.color with
  | red => exact ⟨n + 1, blacken_balanced painted balanced⟩
  | black => exact ⟨n, by rwa [blacken_of_black painted]⟩

theorem ne_leaf_of_balanced_succ (balanced : t.Balanced (n + 1)) : t ≠ leaf := by
  rintro rfl
  exact absurd balanced (Nat.succ_ne_zero n)

/-- One black node is missing on every path down, unless painting the root makes up for it. -/
def Short (t : Tree α) (n : Nat) : Prop :=
  (t.color = .black ∧ t.Balanced n) ∨ (t.color = .red ∧ t.blacken.Balanced (n + 1))

theorem short_of_balanced (balanced : t.Balanced n) : t.Short n := by
  cases painted : t.color with
  | red => exact .inr ⟨painted, blacken_balanced painted balanced⟩
  | black => exact .inl ⟨painted, balanced⟩

theorem Short.valid (short : t.Short n) : t.blacken.Valid := by
  rcases short with ⟨_, balanced⟩ | ⟨_, balanced⟩
  · exact blacken_valid balanced
  · exact ⟨color_blacken, n + 1, balanced⟩

end Tree

open RedBlack.Tree

/-- One step of the path: the hole is the child of `key` on side `dir`. -/
structure Frame (α : Type*) where
  dir : Dir
  color : Color
  key : α
  sibling : Tree α

abbrev Ctx (α : Type*) := List (Frame α)

@[local simp] def Frame.fill (f : Frame α) (t : Tree α) : Tree α :=
  branch f.dir f.color t f.key f.sibling

def plug : Ctx α → Tree α → Tree α
  | [], t => t
  | f :: k, t => plug k (f.fill t)

/-- The node above the hole. -/
def parent? (k : Ctx α) : Option α := k.head?.map Frame.key

-- The keys to the left and to the right of the hole.
def before : Ctx α → List α
  | [] => []
  | f :: k => before k ++ match f.dir with
    | .left => []
    | .right => f.sibling.toList ++ [f.key]

def after : Ctx α → List α
  | [] => []
  | f :: k => (match f.dir with
    | .left => f.key :: f.sibling.toList
    | .right => []) ++ after k

/-- A balanced tree of black height `n` may stand in the hole, except for a red child of a red
node. -/
def Fits : Ctx α → Nat → Prop
  | [], _ => True
  | f :: k, n => f.sibling.Balanced n ∧
    (f.color = .red → f.sibling.color = .black ∧ ∃ g k', k = g :: k' ∧ g.color = .black) ∧
    Fits k (match f.color with | .red => n | .black => n + 1)

variable {k k' : Ctx α} {t : Tree α} {n : Nat}

theorem toList_plug : (plug k t).toList = before k ++ (t.toList ++ after k) := by
  induction k generalizing t with
  | nil => simp [plug, before, after]
  | cons f k ih =>
    obtain ⟨d, c, x, s⟩ := f
    rw [plug, ih]
    cases d <;> simp [branch, before, after, toList]

theorem plug_append : plug (k ++ k') t = plug k' (plug k t) := by
  induction k generalizing t with
  | nil => rfl
  | cons f k ih => exact ih

theorem exists_plug_of_mem (member : x ∈ t.toList) : ∃ k c l r, t = plug k (node c l x r) := by
  induction t with
  | leaf => cases member
  | node c l y r ihl ihr =>
    simp only [toList, List.mem_append, List.mem_cons] at member
    rcases member with member | rfl | member
    · obtain ⟨k, c', l', r', rfl⟩ := ihl member
      exact ⟨k ++ [⟨.left, c, y, r⟩], c', l', r', by simp [plug_append, plug, branch]⟩
    · exact ⟨[], c, l, r, rfl⟩
    · obtain ⟨k, c', l', r', rfl⟩ := ihr member
      exact ⟨k ++ [⟨.right, c, y, l⟩], c', l', r', by simp [plug_append, plug, branch]⟩

theorem before_append : before (k ++ k') = before k' ++ before k := by
  induction k with
  | nil => simp [before]
  | cons f k ih => rw [List.cons_append, before, ih, before, List.append_assoc]

theorem plug_valid (fits : Fits k n) (balanced : t.Balanced n)
    (top : t.color = .black ∨ ∃ g k', k = g :: k' ∧ g.color = .black) : (plug k t).Valid := by
  induction k generalizing t n with
  | nil =>
    rcases top with black | ⟨g, k', _, _⟩
    · exact ⟨black, n, balanced⟩
    · contradiction
  | cons f k ih =>
    obtain ⟨d, c, x, s⟩ := f
    obtain ⟨sibling, redAbove, rest⟩ := fits
    cases c with
    | black => exact ih rest (balanced_black.mpr ⟨balanced, sibling⟩) (.inl color_branch)
    | red =>
      obtain ⟨black, above⟩ := redAbove rfl
      refine ih rest (balanced_red.mpr ⟨?_, black, balanced, sibling⟩) (.inr above)
      rcases top with black | ⟨g, k', same, black⟩
      · exact black
      · cases same
        cases black

theorem fits_of_valid (valid : (plug k t).Valid) : ∃ n, Fits k n ∧ t.Balanced n ∧
    (t.color = .black ∨ ∃ g k', k = g :: k' ∧ g.color = .black) := by
  induction k generalizing t with
  | nil => exact ⟨valid.2.choose, trivial, valid.2.choose_spec, .inl valid.1⟩
  | cons f k ih =>
    obtain ⟨d, c, x, s⟩ := f
    obtain ⟨n, rest, balanced, top⟩ := ih valid
    cases c with
    | red =>
      obtain ⟨black, black', here, sibling⟩ := balanced_red.mp balanced
      refine ⟨n, ⟨sibling, fun _ => ⟨black', ?_⟩, rest⟩, here, .inl black⟩
      exact top.resolve_left (by simp)
    | black =>
      cases n with
      | zero => exact absurd balanced not_balanced_black_zero
      | succ n =>
        obtain ⟨here, sibling⟩ := balanced_black.mp balanced
        exact ⟨n, ⟨sibling, by simp, rest⟩, here, .inr ⟨_, k, rfl, rfl⟩⟩

theorem Fits.rekey (y : α) (fits : Fits (k' ++ ⟨d, c, x, s⟩ :: k) n) :
    Fits (k' ++ ⟨d, c, y, s⟩ :: k) n := by
  induction k' generalizing n with
  | nil => exact fits
  | cons f k' ih =>
    obtain ⟨sibling, redAbove, rest⟩ := fits
    refine ⟨sibling, fun red => ⟨(redAbove red).1, ?_⟩, ih rest⟩
    obtain ⟨g, _, same, black⟩ := (redAbove red).2
    cases k' with
    | nil =>
      cases same
      exact ⟨_, _, rfl, black⟩
    | cons h k' =>
      cases same
      exact ⟨_, _, rfl, black⟩

/-- A node of the given colour is missing above the cursor: a red one is not missed, a black one
leaves the subtree short. -/
def Missing (k : Ctx α) (t : Tree α) : Color → Prop
  | .red => ∃ n, Fits k n ∧ t.Balanced n ∧ t.color = .black
  | .black => ∃ n, Fits k (n + 1) ∧ t.Short n

theorem missing_splice (valid : (plug k (branch d c leaf x t)).Valid) : Missing k t c := by
  obtain ⟨n, fits, balanced, _⟩ := fits_of_valid valid
  cases c with
  | red =>
    obtain ⟨_, black, _, balanced⟩ := balanced_red.mp balanced
    exact ⟨n, fits, balanced, black⟩
  | black =>
    cases n with
    | zero => exact absurd balanced not_balanced_black_zero
    | succ n => exact ⟨n, fits, short_of_balanced (balanced_black.mp balanced).2⟩

theorem Missing.rekey (y : α) (missing : Missing (k' ++ ⟨d, c, x, s⟩ :: k) t c') :
    Missing (k' ++ ⟨d, c, y, s⟩ :: k) t c' := by
  cases c' with
  | red =>
    obtain ⟨n, fits, rest⟩ := missing
    exact ⟨n, fits.rekey y, rest⟩
  | black =>
    obtain ⟨n, fits, rest⟩ := missing
    exact ⟨n, fits.rekey y, rest⟩

theorem length_le_toList : k.length ≤ (plug k t).toList.length := by
  rw [toList_plug]
  induction k with
  | nil => simp
  | cons f k ih =>
    obtain ⟨d, c, x, s⟩ := f
    cases d <;> simp [before, after] at ih ⊢ <;> omega

end RedBlack
