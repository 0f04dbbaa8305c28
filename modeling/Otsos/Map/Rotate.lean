import Otsos.Map.Tree

/-! What the pointer moves of the red-black tree do to the tree that the links spell. -/
namespace Otsos.VmMap
open RedBlack RedBlack.Tree

namespace RbTree

/-- Only nodes of `l` were written. -/
def Within (l : List Nat) (s s' : RbTree) : Prop := ∀ z, z ∉ l → Agree s s' z

theorem Within.refl : Within l s s := fun _ _ => ⟨rfl, rfl, fun _ => rfl⟩

theorem Within.trans (first : Within l s s') (second : Within l s' s'') : Within l s s'' :=
  fun z off => (first z off).trans (second z off)

theorem Within.mono (within : Within l s s') (sub : l ⊆ l') :
    Within l' s s' := fun z off => within z fun member => off (sub member)

theorem Within.setColor (member : x ∈ l) (c : Color) :
    Within l s (s.setColor x c) := fun z off =>
  ⟨by rw [Store.setColor_color, if_neg (ne_of_mem_of_not_mem member off).symm], rfl, fun _ => rfl⟩

variable {s : RbTree} {k : Ctx Nat} {x : Nat}

@[simp] theorem replaceChild_parent : (replaceChild s d x v).parent = s.parent := by
  unfold replaceChild
  cases s.parent x with
  | none => rfl
  | some p => dsimp only; split <;> rfl

@[simp] theorem replaceChild_color : (replaceChild s d x v).color = s.color := by
  unfold replaceChild
  cases s.parent x with
  | none => rfl
  | some p => dsimp only; split <;> rfl

theorem replaceChild_child (other : s.parent x ≠ some y) :
    (replaceChild s d x v).child e y = s.child e y := by
  unfold replaceChild
  cases above : s.parent x with
  | none => rfl
  | some p =>
    have apart : y ≠ p := fun equal => other (above.trans (congrArg some equal.symm))
    dsimp only
    split <;> simp [apart]

theorem parent?_mem (above : parent? k = some p) : p ∈ keys k := by
  cases k with
  | nil => cases above
  | cons f k =>
    cases above
    simp [keys]

theorem replaceChild_path (path : Path s k (some x)) (parent : s.parent x = parent? k)
    (fresh : x ∉ keys k) (nodup : (keys k).Nodup) : Path (replaceChild s d x v) k v := by
  cases k with
  | nil => simp [replaceChild, parent, parent?, RedBlack.Path]
  | cons f k =>
    have above : s.parent x = some f.key := parent
    have hole : s.child f.dir f.key = some x := path.2.2.1
    have other : s.child f.dir.opp f.key ≠ some x := by
      intro same
      rw [path.2.2.2.1] at same
      exact fresh (by simp [keys, root?_mem same])
    have stored : replaceChild s d x v = s.setChild f.dir f.key v := by
      simp only [replaceChild, above]
      rcases Dir.eq_or_eq_opp d f.dir with same | same
      · rw [if_pos (same ▸ hole), same]
      · rw [if_neg, same]
        rwa [same, Dir.opp_opp] at other
    rw [stored]
    refine path.refill nodup (by simp) (fun _ => rfl) ?_ ?_
    · rintro g _ ⟨⟩
      exact ⟨rfl, rfl, by simp, by simp⟩
    · intro y _ apart
      have apart : y ≠ f.key := fun equal => apart (congrArg some equal.symm)
      exact ⟨rfl, rfl, fun e => by simp [apart]⟩

@[simp] theorem setParent?_child : (setParent? s v w).child = s.child := by
  cases v <;> rfl

@[simp] theorem setParent?_color : (setParent? s v w).color = s.color := by
  cases v <;> rfl

@[simp] theorem setParent?_root : (setParent? s v w).root = s.root := by
  cases v <;> rfl

@[local simp] theorem setParent?_parent : (setParent? s v w).parent y = if v = some y then w
    else s.parent y := by
  cases v with
  | none => simp [setParent?]
  | some z => simp [setParent?, eq_comm]

/-- The stores of a rotation, with `y` the child that moves up. -/
@[local simp] def turn (d : Dir) (s : RbTree) (x y : Nat) : RbTree :=
  let s := setParent? (s.setChild d.opp x (s.child d y)) (s.child d y) (some x)
  let s := replaceChild (s.setParent y (s.parent x)) d x (some y)
  (s.setChild d y (some x)).setParent x (some y)

theorem rbRotate_eq (far : s.child d.opp x = some y) : rbRotate d s x = some (turn d s x y) := by
  simp [rbRotate, far]

theorem turn_color : (turn d s x y).color = s.color := by simp

theorem turn_parent (apart : s.child d y ≠ some x) : (turn d s x y).parent z =
    if z = x then some y else if z = y then s.parent x else
      if s.child d y = some z then some x else s.parent z := by
  simp [apart]

theorem turn_child (apart : s.child d y ≠ some x) (off : s.parent x ≠ some z) :
    (turn d s x y).child e z =
    if e = d ∧ z = y then some x else if e = d.opp ∧ z = x then s.child d y else s.child e z := by
  have above : ((setParent? (s.setChild d.opp x (s.child d y)) (s.child d y) (some x)).setParent y
      ((setParent? (s.setChild d.opp x (s.child d y)) (s.child d y) (some x)).parent x)).parent x
      ≠ some z := by
    simpa [apart] using off
  simp only [turn, Store.setParent_child, Store.setChild_child, replaceChild_child above,
    setParent?_child]

theorem turn_path (path : Path s k (some x)) (parent : s.parent x = parent? k)
    (fresh : x ∉ keys k) (fresh' : y ∉ keys k) (nodup : (keys k).Nodup)
    (below : ∀ z, s.child d y = some z → z ≠ x ∧ z ∉ keys k) :
    Path (turn d s x y) k (some y) := by
  have apart : s.child d y ≠ some x := fun same => (below x same).1 rfl
  have inner : ∀ z ∈ keys k, z ≠ x ∧ z ≠ y ∧ s.child d y ≠ some z := fun z member =>
    ⟨ne_of_mem_of_not_mem member fresh, ne_of_mem_of_not_mem member fresh', fun same => (below z same).2 member⟩
  have stored : Path (replaceChild ((setParent? (s.setChild d.opp x (s.child d y)) (s.child d y)
      (some x)).setParent y ((setParent? (s.setChild d.opp x (s.child d y)) (s.child d y)
      (some x)).parent x)) d x (some y)) k (some y) := by
    refine replaceChild_path (path.frame (by simp) fun z member => ?_) ?_ fresh nodup
    · obtain ⟨zx, zy, zb⟩ := inner z member
      exact ⟨by simp, by simp [zy, zb],
        fun e => by simp [zx]⟩
    · simp [apart, parent]
  refine stored.frame (by simp) fun z member => ?_
  obtain ⟨zx, zy, zb⟩ := inner z member
  exact ⟨by simp, by simp [zx], fun e => by simp [zy]⟩

theorem rbRotate_spec (here : At s k (branch d c a x (branch d c' b y t))) :
    ∃ s', rbRotate d s x = some s' ∧ At s' k (branch d c' (branch d c a x b) y t) ∧
      Within (plug k (branch d c a x (branch d c' b y t))).toList s s' := by
  obtain ⟨color, parent, near, far, repa, repy⟩ := rep_branch.mp here.rep
  obtain ⟨color', _, near', far', repb, rept⟩ := rep_branch.mp repy
  obtain ⟨xa, xy, xk, ay, -, -, nodupk, ak, yk⟩ := here.branch_nodup
  obtain ⟨yb, yt, -, bt, nodupb, -, -, -, -⟩ := here.down_far.branch_nodup
  simp only [mem_branch, not_or] at xy ay yk
  obtain ⟨other, xb, xt⟩ := xy
  have yk' : y ∉ keys k := yk y (.inl rfl)
  have below : ∀ z, s.child d y = some z → z ∈ b.toList := fun z same =>
    root?_mem (near' ▸ same)
  have apart : s.child d y ≠ some x := fun same => xb (below x same)
  have agree : ∀ z, z ≠ x → z ≠ y → b.root? ≠ some z → z ∉ keys k → Agree s (turn d s x y) z := by
    intro z zx zy zb zk
    have off : s.parent x ≠ some z := fun same => zk (parent?_mem (parent ▸ same))
    refine ⟨by rw [turn_color], ?_, fun e => ?_⟩
    · rw [turn_parent apart, if_neg zx, if_neg zy, if_neg (near' ▸ zb)]
    · rw [turn_child apart off, if_neg (by simp [zy]), if_neg (by simp [zx])]
  refine ⟨turn d s x y, rbRotate_eq (by rw [far, root?_branch]), ⟨?_, ?_, ?_⟩, ?_⟩
  · have path := here.path
    rw [root?_branch] at path ⊢
    refine turn_path path parent xk yk' nodupk fun z same => ?_
    exact ⟨ne_of_mem_of_not_mem (below z same) xb, yk z (.inr (.inl (below z same)))⟩
  · have offx : s.parent x ≠ some x := fun same => xk (parent?_mem (parent ▸ same))
    have offy : s.parent x ≠ some y := fun same => yk' (parent?_mem (parent ▸ same))
    have framed : ∀ u : RedBlack.Tree Nat, (∀ z ∈ u.toList, z ≠ x ∧ z ≠ y ∧ z ∉ b.toList ∧
        z ∉ keys k) → ∀ z ∈ u.toList, Agree s (turn d s x y) z := by
      intro u fresh z member
      obtain ⟨zx, zy, zb, zk⟩ := fresh z member
      exact agree z zx zy (fun same => zb (root?_mem same)) zk
    have repb' : Rep (turn d s x y) (some x) b := by
      refine repb.reparent nodupb (fun z root => ?_) fun z member root => ?_
      · have zb := root?_mem root
        have off : s.parent x ≠ some z := fun same =>
          yk z (.inr (.inl zb)) (parent?_mem (parent ▸ same))
        have zx : z ≠ x := ne_of_mem_of_not_mem zb xb
        have zy : z ≠ y := ne_of_mem_of_not_mem zb yb
        refine ⟨by rw [turn_color], ?_, fun e => ?_⟩
        · rw [turn_parent apart, if_neg zx, if_neg zy, if_pos (near'.trans root)]
        · rw [turn_child apart off, if_neg (by simp [zy]), if_neg (by simp [zx])]
      · exact agree z (ne_of_mem_of_not_mem member xb) (ne_of_mem_of_not_mem member yb) root
          (yk z (.inr (.inl member)))
    refine rep_branch.mpr ⟨by rw [turn_color, color'], ?_, ?_, ?_, rep_branch.mpr
      ⟨by rw [turn_color, color], ?_, ?_, ?_, repa.frame (framed a fun z za => ?_), repb'⟩,
      rept.frame (framed t fun z zt => ?_)⟩
    · rw [turn_parent apart, if_neg (Ne.symm other), if_pos rfl, parent]
    · rw [turn_child apart offy, if_pos ⟨rfl, rfl⟩, root?_branch]
    · rw [turn_child apart offy, if_neg (by simp), if_neg (by simp [Ne.symm other]), far']
    · rw [turn_parent apart, if_pos rfl]
    · rw [turn_child apart offx, if_neg (by simp [other]), if_neg (by simp), near]
    · rw [turn_child apart offx, if_neg (by simp), if_pos ⟨rfl, rfl⟩, near']
    · obtain ⟨zy, zb, _⟩ := ay z za
      exact ⟨ne_of_mem_of_not_mem za xa, zy, zb, ak z za⟩
    · exact ⟨ne_of_mem_of_not_mem zt xt, ne_of_mem_of_not_mem zt yt, fun zb => bt z zb zt, yk z (.inr (.inr zt))⟩
  · rw [← toList_rotate]
    exact here.nodup
  · intro z off
    simp only [toList_plug_perm.mem_iff, List.mem_append, mem_branch, not_or] at off
    obtain ⟨⟨zx, za, zy, zb, zt⟩, zk⟩ := off
    exact agree z zx zy (fun same => zb (root?_mem same)) zk

/-- A sequence of pointer moves from `s₀` has written only nodes of `l` and left a tree with the
keys `l`, in this order; the cursor is at `t`. -/
structure Moved (l : List Nat) (s₀ s : RbTree) (k : Ctx Nat) (t : RedBlack.Tree Nat) : Prop where
  here : At s k t
  order : (plug k t).toList = l
  within : Within l s₀ s

namespace Moved
theorem start (here : At s k t) : Moved (plug k t).toList s s k t := ⟨here, rfl, .refl⟩

theorem up (moved : Moved l s₀ s (f :: k) t) : Moved l s₀ s k (f.fill t) :=
  ⟨moved.here.up, moved.order, moved.within⟩

theorem down (moved : Moved l s₀ s k (branch d c a x b)) : Moved l s₀ s (⟨d, c, x, b⟩ :: k) a :=
  ⟨moved.here.down, moved.order, moved.within⟩

theorem flip (moved : Moved l s₀ s k (branch d c a x b)) :
    Moved l s₀ s k (branch d.opp c b x a) := by
  rwa [branch_opp]

theorem whole (moved : Moved l s₀ s k t) : Moved l s₀ s [] (plug k t) :=
  ⟨At.plug_iff.mp moved.here, moved.order, moved.within⟩

theorem mem (moved : Moved l s₀ s k (branch d c a x b)) : x ∈ l := by
  rw [← moved.order, toList_plug_perm.mem_iff]
  simp [mem_branch]

theorem setColor (moved : Moved l s₀ s k (branch d c a x b)) (c' : Color) :
    Moved l s₀ (s.setColor x c') k (branch d c' a x b) := by
  refine ⟨moved.here.setColor c', ?_, moved.within.trans (.setColor moved.mem c')⟩
  rw [← moved.order, toList_plug, toList_plug, toList_recolor]

theorem rotate (moved : Moved l s₀ s k (branch d c a x (branch d c' b y t))) :
    ∃ s', rbRotate d s x = some s' ∧ Moved l s₀ s' k (branch d c' (branch d c a x b) y t) := by
  obtain ⟨s', computed, here, within⟩ := rbRotate_spec moved.here
  rw [moved.order] at within
  refine ⟨s', computed, here, ?_, moved.within.trans within⟩
  rw [← moved.order, toList_plug, toList_plug, toList_rotate]

end Moved

end RbTree

end Otsos.VmMap
