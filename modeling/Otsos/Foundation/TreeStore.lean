import Mathlib.Logic.Function.Basic
import Otsos.Foundation.RedBlack

/-! Red-black trees stored as nodes with child and parent links. A store holds a subtree under a
cursor when the links below the cursor spell the subtree and the links on the path to the root spell
the context. -/
namespace RedBlack
open RedBlack.Tree List
attribute [local simp] toList

structure Store (α : Type*) where
  root : Option α
  child : Dir → α → Option α
  parent : α → Option α
  color : α → Color

variable {α : Type*}

namespace Store
variable [DecidableEq α]

def setChild (s : Store α) (d : Dir) (x : α) (v : Option α) : Store α :=
  { s with child := fun e y => if e = d ∧ y = x then v else s.child e y }

def setParent (s : Store α) (x : α) (v : Option α) : Store α :=
  { s with parent := Function.update s.parent x v }

def setColor (s : Store α) (x : α) (c : Color) : Store α :=
  { s with color := Function.update s.color x c }

variable (s : Store α) (d e : Dir) (x y : α) (v : Option α) (c : Color)

@[simp] theorem setChild_root : (s.setChild d x v).root = s.root := rfl

@[simp] theorem setChild_parent : (s.setChild d x v).parent = s.parent := rfl

@[simp] theorem setChild_color : (s.setChild d x v).color = s.color := rfl

@[simp] theorem setChild_child : (s.setChild d x v).child e y = if e = d ∧ y = x then v
    else s.child e y := rfl

@[simp] theorem setParent_root : (s.setParent x v).root = s.root := rfl

@[simp] theorem setParent_child : (s.setParent x v).child = s.child := rfl

@[simp] theorem setParent_color : (s.setParent x v).color = s.color := rfl

@[simp] theorem setColor_root : (s.setColor x c).root = s.root := rfl

@[simp] theorem setColor_child : (s.setColor x c).child = s.child := rfl

@[simp] theorem setColor_parent : (s.setColor x c).parent = s.parent := rfl

@[simp] theorem setParent_parent : (s.setParent x v).parent y = if y = x then v else s.parent y :=
  Function.update_apply s.parent x v y
@[simp] theorem setColor_color : (s.setColor x c).color y = if y = x then c else s.color y :=
  Function.update_apply s.color x c y

end Store

/-- All keys on the path and in the subtrees hanging off it. -/
def keys : Ctx α → List α
  | [] => []
  | f :: k => f.key :: (f.sibling.toList ++ keys k)

theorem toList_branch_perm : (branch d c a x b).toList.Perm (x :: (a.toList ++ b.toList)) := by
  cases d with
  | left => exact perm_middle
  | right => exact perm_middle.trans (.cons x perm_append_comm)

theorem toList_plug_perm {t : RedBlack.Tree α} : (plug k t).toList.Perm (t.toList ++ keys k) := by
  induction k generalizing t with
  | nil => simp [plug, keys]
  | cons f k ih =>
    refine ih.trans ((toList_branch_perm.append_right _).trans ?_)
    rw [cons_append, append_assoc]
    exact perm_middle.symm

theorem mem_branch :
    y ∈ (branch d c a x b).toList ↔ y = x ∨ y ∈ a.toList ∨ y ∈ b.toList := by
  rw [toList_branch_perm.mem_iff]
  simp

theorem root?_mem {t : RedBlack.Tree α} (root : t.root? = some x) : x ∈ t.toList := by
  cases t with
  | leaf => cases root
  | node c l y r =>
    cases root
    simp

/-- The store spells the tree `t`, whose root hangs below `p`. -/
def Rep (s : Store α) : Option α → RedBlack.Tree α → Prop
  | _, leaf => True
  | p, node c l x r => s.color x = c ∧ s.parent x = p ∧ s.child .left x = l.root? ∧
      s.child .right x = r.root? ∧ Rep s (some x) l ∧ Rep s (some x) r

/-- The store spells the path `k` from a hole, occupied by `hole`, up to the root. -/
def Path (s : Store α) : Ctx α → Option α → Prop
  | [], hole => s.root = hole
  | f :: k, hole => s.color f.key = f.color ∧ s.parent f.key = parent? k ∧
      s.child f.dir f.key = hole ∧ s.child f.dir.opp f.key = f.sibling.root? ∧
      Rep s (some f.key) f.sibling ∧ Path s k (some f.key)

/-- The store holds the tree `plug k t`; the cursor is at `t`. -/
structure At (s : Store α) (k : Ctx α) (t : RedBlack.Tree α) : Prop where
  path : Path s k t.root?
  rep : Rep s (parent? k) t
  nodup : (t.toList ++ keys k).Nodup

variable {k : Ctx α} {p : Option α} {x : α}

theorem rep_branch : Rep s p (branch d c a x b) ↔ s.color x = c ∧ s.parent x = p ∧
    s.child d x = a.root? ∧ s.child d.opp x = b.root? ∧ Rep s (some x) a ∧ Rep s (some x) b := by
  cases d with
  | left => rfl
  | right =>
    simp only [branch, Rep]
    tauto

/-- The two stores agree on the node `x`. -/
def Agree (s s' : Store α) (x : α) : Prop :=
  s'.color x = s.color x ∧ s'.parent x = s.parent x ∧ ∀ d, s'.child d x = s.child d x

theorem Agree.trans (first : Agree s s' x) (second : Agree s' s'' x) : Agree s s'' x := by
  obtain ⟨color, parent, child⟩ := first
  obtain ⟨color', parent', child'⟩ := second
  exact ⟨color'.trans color, parent'.trans parent, fun d => (child' d).trans (child d)⟩

theorem Rep.frame (rep : Rep s p t) (same : ∀ x ∈ t.toList, Agree s s' x) : Rep s' p t := by
  induction t generalizing p with
  | leaf => trivial
  | node c l x r ihl ihr =>
    obtain ⟨color, parent, left, right, repl, repr⟩ := rep
    obtain ⟨color', parent', child'⟩ := same x (by simp)
    exact ⟨color'.trans color, parent'.trans parent, (child' _).trans left, (child' _).trans right,
      ihl repl fun y member => same y (by simp [member]),
      ihr repr fun y member => same y (by simp [member])⟩

theorem Rep.reparent (rep : Rep s p t) (nodup : t.toList.Nodup)
    (root : ∀ x, t.root? = some x → s'.color x = s.color x ∧ s'.parent x = q ∧ ∀ d, s'.child d x = s.child d x)
    (same : ∀ x ∈ t.toList, t.root? ≠ some x → Agree s s' x) : Rep s' q t := by
  cases t with
  | leaf => trivial
  | node c l x r =>
    obtain ⟨color, _, left, right, repl, repr⟩ := rep
    obtain ⟨color', parent', child'⟩ := root x rfl
    have apart : ∀ y, y ∈ l.toList ∨ y ∈ r.toList → (node c l x r).root? ≠ some y := by
      rintro y member ⟨⟩
      simp only [toList, nodup_append, nodup_cons] at nodup
      rcases member with member | member
      · exact nodup.2.2 x member x (by simp) rfl
      · exact nodup.2.1.1 member
    refine ⟨color'.trans color, parent', (child' _).trans left, (child' _).trans right,
      repl.frame fun y member => ?_, repr.frame fun y member => ?_⟩
    · exact same y (by simp [member]) (apart y (.inl member))
    · exact same y (by simp [member]) (apart y (.inr member))

theorem Path.frame (path : Path s k hole) (root : s'.root = s.root)
    (same : ∀ x ∈ keys k, Agree s s' x) : Path s' k hole := by
  induction k generalizing hole with
  | nil => exact root.trans path
  | cons f k ih =>
    obtain ⟨color, parent, child, other, sibling, rest⟩ := path
    obtain ⟨color', parent', child'⟩ := same f.key (by simp [keys])
    exact ⟨color'.trans color, parent'.trans parent, (child' _).trans child,
      (child' _).trans other, sibling.frame fun y member => same y (by simp [keys, member]),
      ih rest fun y member => same y (by simp [keys, member])⟩

theorem Path.refill (path : Path s k hole) (nodup : (keys k).Nodup)
    (root : k = [] → s'.root = hole') (keep : k ≠ [] → s'.root = s.root)
    (top : ∀ f k', k = f :: k' → s'.color f.key = s.color f.key ∧ s'.parent f.key = s.parent f.key ∧
      s'.child f.dir f.key = hole' ∧ s'.child f.dir.opp f.key = s.child f.dir.opp f.key)
    (same : ∀ x ∈ keys k, parent? k ≠ some x → Agree s s' x) : Path s' k hole' := by
  cases k with
  | nil => exact root rfl
  | cons f k =>
    obtain ⟨color, parent, _, other, sibling, rest⟩ := path
    obtain ⟨color', parent', child', other'⟩ := top f k rfl
    have fresh := (nodup_cons.mp nodup).1
    have apart : ∀ y ∈ f.sibling.toList ++ keys k, parent? (f :: k) ≠ some y := by
      rintro y member ⟨⟩
      exact fresh member
    refine ⟨color'.trans color, parent'.trans parent, child', other'.trans other,
      sibling.frame fun y member => ?_, rest.frame (keep (by simp)) fun y member => ?_⟩
    iterate 2
      · have member : y ∈ f.sibling.toList ++ keys k := by simp [member]
        exact same y (mem_cons_of_mem _ member) (apart y member)

namespace At

theorem up_iff : At s (f :: k) t ↔ At s k (f.fill t) := by
  have perm : ((f.fill t).toList ++ keys k).Perm (t.toList ++ keys (f :: k)) := by
    refine (toList_branch_perm.append_right _).trans ?_
    rw [cons_append, append_assoc]
    exact perm_middle.symm
  constructor
  · rintro ⟨⟨color, parent, child, other, sibling, _⟩, rep, nodup⟩
    refine ⟨by rwa [Frame.fill, root?_branch], ?_, perm.nodup_iff.mpr nodup⟩
    exact rep_branch.mpr ⟨color, parent, child, other, rep, sibling⟩
  · rintro ⟨path, rep, nodup⟩
    obtain ⟨color, parent, child, other, rep, sibling⟩ := rep_branch.mp rep
    rw [Frame.fill, root?_branch] at path
    exact ⟨⟨color, parent, child, other, sibling, path⟩, rep, perm.nodup_iff.mp nodup⟩

theorem up (here : At s (f :: k) t) : At s k (f.fill t) := up_iff.mp here

theorem down (here : At s k (branch d c a x b)) : At s (⟨d, c, x, b⟩ :: k) a := up_iff.mpr here

theorem left (here : At s k (node c a x b)) : At s (⟨.left, c, x, b⟩ :: k) a := up_iff.mpr here

theorem right (here : At s k (node c a x b)) : At s (⟨.right, c, x, a⟩ :: k) b := up_iff.mpr here

theorem down_far (here : At s k (branch d c a x b)) : At s (⟨d.opp, c, x, a⟩ :: k) b := by
  rw [← branch_opp] at here
  exact here.down

theorem plug_iff : At s k t ↔ At s [] (plug k t) := by
  induction k generalizing t with
  | nil => rfl
  | cons f k ih => rw [up_iff, ih, plug]

theorem fresh (here : At s k t) (member : y ∈ t.toList) : y ∉ keys k := fun other =>
  (nodup_append.mp here.nodup).2.2 y member y other rfl

theorem frame (here : At s k t) (root : s'.root = s.root)
    (same : ∀ x ∈ t.toList ++ keys k, Agree s s' x) : At s' k t :=
  ⟨here.path.frame root fun x member => same x (by simp [member]),
    here.rep.frame fun x member => same x (by simp [member]), here.nodup⟩

theorem branch_nodup (here : At s k (branch d c a x b)) : x ∉ a.toList ∧ x ∉ b.toList ∧
    x ∉ keys k ∧ (∀ y ∈ a.toList, y ∉ b.toList) ∧ a.toList.Nodup ∧ b.toList.Nodup ∧
    (keys k).Nodup ∧ (∀ y ∈ a.toList, y ∉ keys k) ∧ ∀ y ∈ b.toList, y ∉ keys k := by
  have nodup := (toList_branch_perm.append_right _).nodup_iff.mp here.nodup
  simp only [cons_append, nodup_cons, nodup_append, mem_append, not_or] at nodup
  obtain ⟨⟨⟨far, near⟩, outer⟩, ⟨nodupa, nodupb, apart⟩, nodupk, above⟩ := nodup
  exact ⟨far, near, outer, fun y ha hb => apart y ha y hb rfl, nodupa, nodupb, nodupk,
    fun y ha hk => above y (.inl ha) y hk rfl, fun y hb hk => above y (.inr hb) y hk rfl⟩

theorem setColor [DecidableEq α] (here : At s k (branch d c a x b)) (c' : Color) :
    At (s.setColor x c') k (branch d c' a x b) := by
  obtain ⟨neara, nearb, outer, -⟩ := here.branch_nodup
  have same : ∀ y, y ≠ x → Agree s (s.setColor x c') y := fun y other =>
    ⟨by simp [other], rfl, fun _ => rfl⟩
  have off : ∀ {l : List α}, x ∉ l → ∀ y ∈ l, Agree s (s.setColor x c') y :=
    fun fresh y member => same y fun equal => fresh (equal ▸ member)
  obtain ⟨_, parent, near, far, repa, repb⟩ := rep_branch.mp here.rep
  have path := here.path
  rw [root?_branch] at path
  refine ⟨by rw [root?_branch]; exact path.frame rfl (off outer),
    rep_branch.mpr ⟨?_, parent, near, far, ?_, ?_⟩, ?_⟩
  · simp
  · exact repa.frame (off neara)
  · exact repb.frame (off nearb)
  · rw [toList_recolor]
    exact here.nodup

end At

end RedBlack
