import Otsos.Map.Rotate

/-! Insertion: the fix-up turns a tree whose only flaw is a red node below a red node into a
red-black tree with the same keys. -/
namespace Otsos.VmMap
open RedBlack RedBlack.Tree

namespace RbTree
variable {s s₀ : RbTree} {k : Ctx Nat} {t : RedBlack.Tree Nat} {f g : Frame Nat} {d : Dir} {n : Nat}
  {l : List Nat}

theorem side_eq {hole : Option Nat} (path : Path s (f :: k) hole) (apart : hole ≠ f.sibling.root?) :
    (if s.child .left f.key = hole then Dir.left else Dir.right) = f.dir := by
  obtain ⟨_, _, child, other, _⟩ := path
  rcases Dir.eq_or_eq_opp .left f.dir with side | side
  · rw [if_pos (side ▸ child), side]
  · rw [side] at other
    rw [if_neg (fun same => apart (same.symm.trans other)), side]
    rfl

variable {p : Option Nat}

theorem isRed_root? (rep : Rep s p t) : isRed s t.root? = decide (t.color = .red) := by
  cases t with
  | leaf => rfl
  | node c l x r =>
    simp only [root?, isRed, rep.1]
    cases c <;> rfl

theorem rbIsBlack_root? (rep : Rep s p t) : rbIsBlack s t.root? = decide (t.color = .black) := by
  cases t with
  | leaf => rfl
  | node c l x r =>
    simp only [root?, rbIsBlack, rep.1]
    cases c <;> rfl

theorem parent_root {x : Nat} (here : At s k t) (root : t.root? = some x) :
    s.parent x = parent? k := by
  cases t with
  | leaf => cases root
  | node c l y r =>
    cases root
    exact here.rep.2.1

theorem root?_ne_sibling {x : Nat} (here : At s (f :: k) t) (root : t.root? = some x) :
    some x ≠ f.sibling.root? := by
  intro same
  exact here.fresh (root?_mem root) (by simp [keys, root?_mem same.symm])

variable {z : Nat}

theorem rbInsertLoop_stop (fuel : Nat) (here : At s k t) (root : t.root? = some z)
    (stop : k = [] ∨ ∃ g k', k = g :: k' ∧ g.color = .black) :
    rbInsertLoop (fuel + 1) s z = some s := by
  rcases stop with rfl | ⟨g, k', rfl, black⟩
  · simp [rbInsertLoop, parent_root here root, parent?]
  · have color : s.color g.key = .black := here.path.1.trans black
    simp [rbInsertLoop, parent_root here root, parent?, color]

theorem rotateOuter {sib u : RedBlack.Tree Nat} {p g : Nat}
    (moved : Moved l s₀ s k (branch d .black (branch d .red t p sib) g u)) :
    ∃ s', rbRotate d.opp ((s.setColor p .black).setColor g .red) g = some s' ∧
      Moved l s₀ s' k (branch d.opp .black (branch d.opp .red u g sib) p t) := by
  have painted : Moved l s₀ ((s.setColor p .black).setColor g .red) k
      (branch d .red (branch d .black t p sib) g u) := (moved.down.setColor .black).up.setColor .red
  have flipped : Moved l s₀ ((s.setColor p .black).setColor g .red) k
      (branch d.opp .red u g (branch d.opp .black sib p t)) := by
    rwa [branch_opp, branch_opp]
  exact flipped.rotate

theorem rotateUp_spec {sib u : RedBlack.Tree Nat} {side : Dir} {p g : Nat}
    (moved : Moved l s₀ s (⟨side, .red, p, sib⟩ :: ⟨d, .black, g, u⟩ :: k) t)
    (root : t.root? = some z) (red : t.color = .red) (balanced : t.Balanced n)
    (sibling : sib.Balanced n) (black : sib.color = .black) :
    ∃ s' z' p' t' rest, rotateUp d s z p g = some (s', z') ∧
      Moved l s₀ s' k (branch d.opp .black (branch d.opp .red u g rest) p' t') ∧
      t'.root? = some z' ∧ t'.Balanced n ∧ rest.Balanced n ∧ rest.color = .black := by
  have hole : s.child side p = t.root? := moved.here.path.2.2.1
  have other : s.child side.opp p = sib.root? := moved.here.path.2.2.2.1
  rcases Dir.eq_or_eq_opp d side with rfl | rfl
  · have outer : s.child side.opp p ≠ some z := fun same =>
      root?_ne_sibling moved.here root (same.symm.trans other)
    obtain ⟨s', computed, done⟩ := rotateOuter (moved.up.up)
    exact ⟨s', z, p, t, sib, by simp [rotateUp, outer, computed], done, root, balanced, sibling, black⟩
  · -- `z` is the inner child: turning its parent makes it the outer one
    have inner : s.child d.opp p = some z := hole.trans root
    obtain ⟨c, near, z', far, rfl⟩ := exists_branch d t (by rintro rfl; cases root)
    rw [root?_branch] at root
    cases root
    rw [color_branch] at red
    cases red
    obtain ⟨nearBlack, farBlack, nearBalanced, farBalanced⟩ := balanced_red.mp balanced
    have above := moved.up.flip
    rw [Dir.opp_opp] at above
    obtain ⟨s₁, first, turned⟩ := above.rotate
    have parent : s₁.parent p = some z := parent_root turned.down.here root?_branch
    have grand : s₁.parent z = some g := parent_root turned.here root?_branch
    obtain ⟨s', computed, done⟩ := rotateOuter turned.up
    refine ⟨s', p, z, branch d .red sib p near, far, ?_, done, root?_branch, ?_, farBalanced, farBlack⟩
    · simp [rotateUp, inner, first, parent, grand, computed]
    · exact balanced_red.mpr ⟨black, nearBlack, sibling, nearBalanced⟩

variable {fuel : Nat}

theorem rbInsertLoop_spec (moved : Moved l s₀ s k t)
    (root : t.root? = some z) (red : t.color = .red) (balanced : t.Balanced n) (fits : Fits k n)
    (enough : k.length < fuel) :
    ∃ s' t', rbInsertLoop fuel s z = some s' ∧ Moved l s₀ s' [] t' ∧ t'.blacken.Valid := by
  induction fuel generalizing s k t z n with
  | zero => cases enough
  | succ fuel ih =>
    match k, moved, fits with
    | [], moved, _ =>
      exact ⟨s, t, rbInsertLoop_stop fuel moved.here root (.inl rfl), moved, blacken_valid balanced⟩
    | ⟨side, .black, p, sib⟩ :: k, moved, fits =>
      have stop : rbInsertLoop (fuel + 1) s z = some s :=
        rbInsertLoop_stop fuel moved.here root (.inr ⟨_, k, rfl, rfl⟩)
      have valid := plug_valid fits balanced (.inr ⟨_, k, rfl, rfl⟩)
      exact ⟨s, _, stop, moved.whole, by rwa [blacken_of_black valid.1]⟩
    | ⟨side, .red, p, sib⟩ :: k, moved, fits =>
      obtain ⟨sibling, redAbove, rest⟩ := fits
      obtain ⟨black, ⟨d, c, g, u⟩, k, rfl, rfl : c = .black⟩ := redAbove rfl
      obtain ⟨uncle, _, rest⟩ := rest
      have parent : s.parent z = some p := parent_root moved.here root
      have grand : s.parent p = some g := moved.here.path.2.1
      have painted : s.color p = .red := moved.here.path.1
      have found : (if s.child .left g = some p then Dir.left else Dir.right) = d :=
        side_eq moved.here.path.2.2.2.2.2 (root?_ne_sibling moved.up.here root?_branch)
      have repu : Rep s (some g) u := moved.here.path.2.2.2.2.2.2.2.2.2.1
      have below : s.child d.opp g = u.root? := moved.here.path.2.2.2.2.2.2.2.2.1
      by_cases redUncle : u.color = .red
      · obtain ⟨c, ua, x, ub, rfl⟩ := exists_branch d u (by rintro rfl; cases redUncle)
        rw [color_branch] at redUncle
        cases redUncle
        obtain ⟨_, _, nearBalanced, farBalanced⟩ := balanced_red.mp uncle
        rw [root?_branch] at below
        -- paint the parent, then the uncle, then the grandparent
        have first : Moved l s₀ (s.setColor p .black) k
            (branch d .black (branch side .black t p sib) g (branch d .red ua x ub)) :=
          (moved.up.setColor .black).up
        have second : Moved l s₀ ((s.setColor p .black).setColor x .black) k
            (branch d.opp .black (branch d .black ua x ub) g (branch side .black t p sib)) :=
          (first.flip.down.setColor .black).up
        have third := second.setColor .red
        have lifted : (branch d.opp .red (branch d .black ua x ub) g (branch side .black t p sib)).Balanced (n + 1) :=
          balanced_red.mpr ⟨color_branch, color_branch,
            balanced_black.mpr ⟨nearBalanced, farBalanced⟩, balanced_black.mpr ⟨balanced, sibling⟩⟩
        obtain ⟨s', t', computed, done, valid⟩ := ih third root?_branch color_branch lifted rest
          (by simp only [List.length_cons] at enough; omega)
        refine ⟨s', t', ?_, done, valid⟩
        simp only [rbInsertLoop, parent, painted, grand, found, below]
        rw [← root?_branch, isRed_root? repu]
        simpa [setColor?] using computed
      · obtain ⟨s₁, z', p', t₁, sib', turned, done, root', balanced', sibling', black'⟩ :=
          rotateUp_spec moved root red balanced sibling black
        have fuelLeft : ∃ m, fuel = m + 1 :=
          ⟨fuel - 1, by simp only [List.length_cons] at enough; omega⟩
        obtain ⟨m, rfl⟩ := fuelLeft
        have stop : rbInsertLoop (m + 1) s₁ z' = some s₁ :=
          rbInsertLoop_stop m done.flip.down.here root' (.inr ⟨_, k, rfl, rfl⟩)
        have uncleBlack : u.color = .black := by cases painted : u.color <;> simp_all
        have inner : (branch d.opp .red u g sib').Balanced n :=
          balanced_red.mpr ⟨uncleBlack, black', uncle, sibling'⟩
        have valid : (plug k (branch d.opp .black (branch d.opp .red u g sib') p' t₁)).Valid :=
          plug_valid rest (balanced_black.mpr ⟨inner, balanced'⟩) (.inl color_branch)
        refine ⟨s₁, _, ?_, done.whole, by rwa [blacken_of_black valid.1]⟩
        rw [rbInsertLoop]
        simp only [parent, painted, grand, found, below]
        simp [isRed_root? repu, redUncle, turned, stop]

theorem rbInsertFixup_spec (here : At s k t)
    (root : t.root? = some z) (red : t.color = .red) (balanced : t.Balanced n) (fits : Fits k n)
    (enough : k.length < fuel) :
    ∃ s' t', rbInsertFixup fuel s z = some s' ∧ Moved (plug k t).toList s s' [] t' ∧ t'.Valid := by
  obtain ⟨s₁, t₁, computed, moved, valid⟩ :=
    rbInsertLoop_spec (.start here) root red balanced fits enough
  have nonempty : t₁ ≠ leaf := by
    rintro rfl
    have member : z ∈ (plug k t).toList := by simp [toList_plug_perm.mem_iff, root?_mem root]
    rw [← moved.order] at member
    cases member
  obtain ⟨c, a, x, b, rfl⟩ := exists_branch .left t₁ nonempty
  have top : s₁.root = some x := moved.here.path.trans root?_branch
  exact ⟨_, _, by simp [rbInsertFixup, computed, top], moved.setColor .black, valid⟩

end RbTree

end Otsos.VmMap
