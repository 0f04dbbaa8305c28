import Otsos.Map.Insert

/-! Removal: the fix-up restores the black height of a tree in which one black node is missing on
the paths through the cursor. -/
namespace Otsos.VmMap
open RedBlack RedBlack.Tree

namespace RbTree
variable {s s₀ : RbTree} {k : Ctx Nat} {t wa wb xa xb : RedBlack.Tree Nat} {f : Frame Nat} {d : Dir}
  {c : Color} {n p w x : Nat} {l : List Nat}

variable {c' : Color}

theorem Moved.setFar (moved : Moved l s₀ s k (branch d c t p (branch d c' wa w wb)))
    (c'' : Color) : Moved l s₀ (s.setColor w c'') k (branch d c t p (branch d c'' wa w wb)) := by
  have painted : Moved l s₀ (s.setColor w c'') k (branch d.opp c (branch d c'' wa w wb) p t) :=
    (moved.flip.down.setColor c'').up
  rwa [branch_opp] at painted

theorem far_eq (moved : Moved l s₀ s k (branch d c t p (branch d c' wa w wb))) :
    s.child d.opp p = some w ∧ s.color p = c ∧ s.color w = c' ∧ s.child d w = wa.root? ∧
      s.child d.opp w = wb.root? ∧ Rep s (some w) wa ∧ Rep s (some w) wb := by
  obtain ⟨color, _, _, far, _, rep⟩ := rep_branch.mp moved.here.rep
  obtain ⟨color', _, near', far', repa, repb⟩ := rep_branch.mp rep
  exact ⟨far.trans root?_branch, color, color', near', far', repa, repb⟩

/-- Afterwards the sibling is black. The path may have become longer, but then it starts with a red
node. -/
theorem raiseSibling_spec {sib : RedBlack.Tree Nat} (moved : Moved l s₀ s (⟨d, c, p, sib⟩ :: k) t)
    (fits : Fits (⟨d, c, p, sib⟩ :: k) (n + 1)) :
    ∃ s' c' w wa wb k', raiseSibling d s p = some (s', some w) ∧
      Moved l s₀ s' k' (branch d c' t p (branch d .black wa w wb)) ∧
      Fits (⟨d, c', p, branch d .black wa w wb⟩ :: k') (n + 1) ∧
      (c' = .red ∨ k' = k) := by
  obtain ⟨c', wa, w, wb, rfl⟩ := exists_branch d sib (ne_leaf_of_balanced_succ fits.1)
  obtain ⟨far, _, color, -⟩ := far_eq moved.up
  cases c' with
  | black => exact ⟨s, c, w, wa, wb, k, by simp [raiseSibling, far, color], moved.up, fits, .inr rfl⟩
  | red =>
    obtain ⟨sibling, redAbove, rest⟩ := fits
    obtain ⟨nearBlack, _, nearBalanced, farBalanced⟩ := balanced_red.mp sibling
    obtain rfl : c = .black := by
      cases c with
      | black => rfl
      | red => cases (redAbove rfl).1.symm.trans color_branch
    obtain ⟨s', computed, turned⟩ := ((moved.up.setFar .black).setColor .red).rotate
    obtain ⟨c', va, v, vb, rfl⟩ := exists_branch d wa (ne_leaf_of_balanced_succ nearBalanced)
    rw [color_branch] at nearBlack
    cases nearBlack
    have far' := (far_eq turned.down).1
    refine ⟨s', .red, v, va, vb, _, ?_, turned.down, ⟨nearBalanced, fun _ => ?_, ?_⟩, .inl rfl⟩
    · simp [raiseSibling, far, color, computed, far']
    · exact ⟨color_branch, _, _, rfl, rfl⟩
    · exact ⟨farBalanced, by simp, rest⟩

theorem turnParent_spec
    (moved : Moved l s₀ s k (branch d c t p (branch d .black wa w (branch d .red xa x xb)))) :
      ∃ s', turnParent d s p (some w) = some s' ∧
      Moved l s₀ s' k (branch d c (branch d .black t p wa) w (branch d .black xa x xb)) := by
  obtain ⟨_, color, _, _, below, _⟩ := far_eq moved
  have first := moved.setFar c
  have second : Moved l s₀ ((s.setColor w c).setColor x .black) k
      (branch d.opp c (branch d c wa w (branch d .black xa x xb)) p t) :=
    (first.flip.down.setFar .black).up
  rw [branch_opp] at second
  obtain ⟨s', computed, done⟩ := (second.setColor .black).rotate
  exact ⟨s', by simpa [turnParent, color, below, setColor?] using computed, done⟩

theorem borrow_spec (moved : Moved l s₀ s k (branch d c t p (branch d .black wa w wb)))
    (fits : Fits (⟨d, c, p, branch d .black wa w wb⟩ :: k) (n + 1)) (balanced : t.Balanced n)
    (red : ¬(wa.color = .black ∧ wb.color = .black)) :
    ∃ s' t', borrow d s p w = some s' ∧ Moved l s₀ s' k t' ∧ (plug k t').Valid := by
  obtain ⟨sibling, redAbove, rest⟩ := fits
  obtain ⟨nearBalanced, farBalanced⟩ := balanced_black.mp sibling
  obtain ⟨_, _, _, near', far', _, repb⟩ := far_eq moved
  -- the tree after the last rotation, with `u` in the middle
  have valid : ∀ {u v v' : RedBlack.Tree Nat} {y z : Nat}, u.Balanced n → v.Balanced n → v'.Balanced n →
      (plug k (branch d c (branch d .black t p u) y (branch d .black v z v'))).Valid := by
    intro u v v' y z middle left right
    have low : (branch d .black t p u).Balanced (n + 1) := balanced_black.mpr ⟨balanced, middle⟩
    have high : (branch d .black v z v').Balanced (n + 1) := balanced_black.mpr ⟨left, right⟩
    cases c with
    | red =>
      exact plug_valid rest (balanced_red.mpr ⟨color_branch, color_branch, low, high⟩)
        (.inr (redAbove rfl).2)
    | black => exact plug_valid rest (balanced_black.mpr ⟨low, high⟩) (.inl color_branch)
  cases outer : wb.color with
  | red =>
    obtain ⟨c', xa, x, xb, rfl⟩ := exists_branch d wb (by rintro rfl; cases outer)
    rw [color_branch] at outer
    cases outer
    obtain ⟨_, _, left, right⟩ := balanced_red.mp farBalanced
    obtain ⟨s', computed, done⟩ := turnParent_spec moved
    have notBlack : rbIsBlack s (s.child d.opp w) = false := by
      rw [far', rbIsBlack_root? repb, color_branch]
      rfl
    exact ⟨s', _, by simp [borrow, notBlack, computed], done, valid nearBalanced left right⟩
  | black =>
    have inner : wa.color = .red := by cases painted : wa.color <;> simp_all
    obtain ⟨c', xa, x, xb, rfl⟩ := exists_branch d wa (by rintro rfl; cases inner)
    rw [color_branch] at inner
    cases inner
    obtain ⟨_, _, left, middle⟩ := balanced_red.mp nearBalanced
    have sub := moved.flip.down
    have first : Moved l s₀ (s.setColor x .black) _ (branch d .black (branch d .black xa x xb) w wb) :=
      (sub.down.setColor .black).up
    have second := first.setColor .red
    have flipped : Moved l s₀ ((s.setColor x .black).setColor w .red) (⟨d.opp, c, p, t⟩ :: k)
        (branch d.opp .red wb w (branch d.opp .black xb x xa)) := by
      rwa [branch_opp, branch_opp]
    obtain ⟨s₁, raised, turned⟩ := flipped.rotate
    have ready : Moved l s₀ s₁ k (branch d c t p (branch d .black xa x (branch d .red xb w wb))) := by
      have up := turned.up
      rwa [Frame.fill, branch_opp, branch_opp, branch_opp] at up
    obtain ⟨s', computed, done⟩ := turnParent_spec ready
    refine ⟨s', _, ?_, done, valid left middle farBalanced⟩
    have raised' : raiseNephew d s w = some s₁ := by
      simpa [raiseNephew, near', setColor?] using raised
    simp [borrow, far', rbIsBlack_root? repb, outer, raised', (far_eq ready).1, computed]

theorem root_mem {hole : Option Nat} (path : Path s (f :: k) hole) :
    ∃ r ∈ keys (f :: k), s.root = some r := by
  induction k generalizing f hole with
  | nil => exact ⟨f.key, by simp [keys], path.2.2.2.2.2⟩
  | cons g k ih =>
    obtain ⟨r, member, root⟩ := ih path.2.2.2.2.2
    exact ⟨r, by rw [keys]; simp [member], root⟩

theorem root?_ne_root (here : At s (f :: k) t) : t.root? ≠ s.root := by
  obtain ⟨r, member, root⟩ := root_mem here.path
  rw [root]
  exact fun same => here.fresh (root?_mem same) member

theorem nephews_black (moved : Moved l s₀ s k (branch d c t p (branch d .black wa w wb))) :
    (rbIsBlack s (s.child .left w) ∧ rbIsBlack s (s.child .right w)) ↔ wa.color = .black ∧
    wb.color = .black := by
  obtain ⟨_, _, _, near, far, repa, repb⟩ := far_eq moved
  cases d with
  | left =>
    change s.child .right w = wb.root? at far
    simp [near, far, rbIsBlack_root? repa, rbIsBlack_root? repb]
  | right =>
    change s.child .left w = wb.root? at far
    simp [near, far, rbIsBlack_root? repa, rbIsBlack_root? repb, and_comm]

theorem rbRemoveLoop_step {x : Option Nat} {s₁ : RbTree} (fuel : Nat) (inside : x ≠ s.root)
    (black : rbIsBlack s x = true)
    (side : (if x = s.child .left p then Dir.left else Dir.right) = d)
    (raised : raiseSibling d s p = some (s₁, some w)) : rbRemoveLoop (fuel + 1) s x (some p) =
      if rbIsBlack s₁ (s₁.child .left w) ∧ rbIsBlack s₁ (s₁.child .right w) then
        rbRemoveLoop fuel (s₁.setColor w .red) (some p) (s₁.parent p)
      else (borrow d s₁ p w).bind fun s' => rbRemoveLoop fuel s' s'.root none := by
  simp [rbRemoveLoop, inside, black, side, raised]

variable {fuel : Nat}

theorem rbRemoveLoop_spec (moved : Moved l s₀ s k t) (short : t.Short n)
    (fits : Fits k (n + 1)) (enough : 0 < fuel ∧ (t.color = .red ∨ k.length < fuel)) :
    ∃ s' k' t', rbRemoveLoop fuel s t.root? (parent? k) = some (s', t'.root?) ∧
      Moved l s₀ s' k' t' ∧ (plug k' t'.blacken).Valid := by
  induction fuel generalizing s k t n with
  | zero => cases enough.1
  | succ fuel ih =>
    match k, moved, fits with
    | [], moved, _ =>
      exact ⟨s, [], t, by simp [rbRemoveLoop, show s.root = t.root? from moved.here.path], moved, short.valid⟩
    | ⟨d, c, p, sib⟩ :: k, moved, fits =>
      have inside := root?_ne_root moved.here
      rcases short with ⟨black, balanced⟩ | ⟨red, balanced⟩
      · have apart : t.root? ≠ sib.root? := by
          cases root : t.root? with
          | some x => exact root?_ne_sibling moved.here root
          | none =>
            obtain ⟨_, _, x, _, same⟩ := exists_branch d sib (ne_leaf_of_balanced_succ fits.1)
            rw [same, root?_branch]
            exact nofun
        have side : (if t.root? = s.child .left p then Dir.left else Dir.right) = d := by
          have found := side_eq moved.here.path apart
          simpa only [eq_comm] using found
        have entered : rbIsBlack s t.root? = true := by rw [rbIsBlack_root? moved.here.rep, black]; rfl
        have deep : k.length < fuel := by
          rcases enough.2 with red | deep
          · cases black.symm.trans red
          · simpa using deep
        obtain ⟨s₁, c', w, wa, wb, k', raised, ready, fits', depth⟩ := raiseSibling_spec moved fits
        have step := rbRemoveLoop_step fuel inside entered side raised
        have fuelLeft : 0 < fuel := by omega
        by_cases nephews : wa.color = .black ∧ wb.color = .black
        · -- the sibling gives up its black node as well; the parent is short now
          rw [if_pos ((nephews_black ready).mpr nephews)] at step
          have painted := ready.setFar .red
          obtain ⟨nearBalanced, farBalanced⟩ := balanced_black.mp fits'.1
          have sibling : (branch d .red wa w wb).Balanced n :=
            balanced_red.mpr ⟨nephews.1, nephews.2, nearBalanced, farBalanced⟩
          have parent : s₁.parent p = parent? k' := parent_root ready.here root?_branch
          have shorter : ∃ m, (branch d c' t p (branch d .red wa w wb)).Short m ∧ Fits k' (m + 1) := by
            cases c' with
            | red => exact ⟨n, .inr ⟨color_branch, by
                rw [blacken_branch]; exact balanced_black.mpr ⟨balanced, sibling⟩⟩, fits'.2.2⟩
            | black =>
              exact ⟨n + 1, .inl ⟨color_branch, balanced_black.mpr ⟨balanced, sibling⟩⟩, fits'.2.2⟩
          obtain ⟨m, short, rest⟩ := shorter
          have bound : 0 < fuel ∧ ((branch d c' t p (branch d .red wa w wb)).color = .red ∨
              k'.length < fuel) := by
            rw [color_branch]
            exact ⟨fuelLeft, depth.imp_right fun same => by rwa [same]⟩
          obtain ⟨s', k'', t', computed, done, valid⟩ := ih painted short rest bound
          rw [root?_branch, ← parent] at computed
          exact ⟨s', k'', t', step.trans computed, done, valid⟩
        · rw [if_neg (fun both => nephews ((nephews_black ready).mp both))] at step
          obtain ⟨s', t', computed, done, valid⟩ := borrow_spec ready fits' balanced nephews
          obtain ⟨m, rfl⟩ : ∃ m, fuel = m + 1 := ⟨fuel - 1, by omega⟩
          have top : s'.root = (plug k' t').root? := done.whole.here.path
          refine ⟨s', [], plug k' t', ?_, done.whole, by rwa [blacken_of_black valid.1]⟩
          rw [← top]
          refine step.trans ?_
          simp [computed, rbRemoveLoop]
      · have stop : rbRemoveLoop (fuel + 1) s t.root? (parent? (⟨d, c, p, sib⟩ :: k)) =
            some (s, t.root?) := by
          simp [rbRemoveLoop, rbIsBlack_root? moved.here.rep, red]
        exact ⟨s, _, t, stop, moved, plug_valid fits balanced (.inl color_blacken)⟩

theorem rbRemoveFixup_spec (moved : Moved l s₀ s k t) (short : t.Short n)
    (fits : Fits k (n + 1)) (enough : k.length < fuel) :
    ∃ s' t', rbRemoveFixup fuel s t.root? (parent? k) = some s' ∧ Moved l s₀ s' [] t' ∧
    t'.Valid := by
  obtain ⟨s₁, k', t', computed, done, valid⟩ :=
    rbRemoveLoop_spec moved short fits ⟨by omega, .inr enough⟩
  cases t' with
  | leaf =>
    exact ⟨s₁, _, by rw [rbRemoveFixup, computed]; rfl, done.whole, valid⟩
  | node c a x b =>
    have painted : Moved l s₀ (s₁.setColor x .black) k' (node .black a x b) :=
      Moved.setColor (show Moved l s₀ s₁ k' (branch .left c a x b) from done) .black
    exact ⟨_, _, by rw [rbRemoveFixup, computed]; rfl, painted.whole, valid⟩

end RbTree

end Otsos.VmMap
