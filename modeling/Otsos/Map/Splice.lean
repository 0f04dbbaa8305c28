import Otsos.Map.Remove

/-! Cutting a node out of the tree: directly when one subtree is empty, otherwise by putting its
successor in its place. -/
namespace Otsos.VmMap
open RedBlack RedBlack.Tree List

namespace RbTree
attribute [local simp] toList
variable {s : RbTree} {y : Nat}
theorem transplant_child (other : s.parent u ≠ some z) :
    (rbTransplant s u v).child side z = s.child side z := by
  rw [rbTransplant, setParent?_child, replaceChild_child other]

theorem transplant_parent : (rbTransplant s u v).parent z = if v = some z then s.parent u
    else s.parent z := by
  rw [rbTransplant, setParent?_parent, replaceChild_parent]

@[simp] theorem transplant_color : (rbTransplant s u v).color = s.color := by
  rw [rbTransplant, setParent?_color, replaceChild_color]

theorem transplant_path (path : Path s k (some u))
    (parent : s.parent u = parent? k) (fresh : u ∉ keys k) (nodup : (keys k).Nodup)
    (fresh' : ∀ z, v = some z → z ∉ keys k) : Path (rbTransplant s u v) k v := by
  have replaced := replaceChild_path (d := .left) (v := v) path parent fresh nodup
  refine replaced.frame (by rw [rbTransplant, setParent?_root]) fun z member => ?_
  refine ⟨by rw [rbTransplant, setParent?_color], ?_,
    fun _ => by rw [rbTransplant, setParent?_child]⟩
  rw [rbTransplant, setParent?_parent, if_neg (fun same => fresh' z same member)]

theorem liftChild (here : At s k (branch d c leaf x t)) : At (rbTransplant s x t.root?) k t ∧
      Within (plug k (branch d c leaf x t)).toList s (rbTransplant s x t.root?) := by
  obtain ⟨_, parent, _, _, _, rep⟩ := rep_branch.mp here.rep
  obtain ⟨_, _, xk, _, _, nodupt, nodupk, _, tk⟩ := here.branch_nodup
  have path := here.path
  rw [root?_branch] at path
  have nodup := (toList_branch_perm.append_right _).nodup_iff.mp here.nodup
  have agree : ∀ z, z ∉ keys k → t.root? ≠ some z → Agree s (rbTransplant s x t.root?) z := by
    intro z zk zt
    refine ⟨by simp, by rw [transplant_parent, if_neg zt], fun side => ?_⟩
    exact transplant_child fun same => zk (parent?_mem (parent ▸ same))
  refine ⟨⟨?_, ?_, (nodup_cons.mp nodup).2⟩, fun z off => ?_⟩
  · exact transplant_path path parent xk nodupk fun z root => tk z (root?_mem root)
  · refine rep.reparent nodupt (fun z root => ?_) fun z member root => agree z (tk z member) root
    refine ⟨by simp, by rw [transplant_parent, if_pos root, parent], fun side => ?_⟩
    exact transplant_child fun same => tk z (root?_mem root) (parent?_mem (parent ▸ same))
  · simp only [toList_plug_perm.mem_iff, mem_append, mem_branch, not_or] at off
    exact agree z off.2 fun same => off.1.2.2 (root?_mem same)

/-- The place of `e` is taken by a node `y` that is not in the tree but already heads the right
subtree. -/
theorem replaceEntry_spec (path : Path s k (some e)) (color : s.color e = c)
    (parent : s.parent e = parent? k) (left : s.child .left e = l.root?) (nonempty : l ≠ leaf)
    (repl : Rep s (some e) l) (right : s.child .right y = r.root?) (repr : Rep s (some y) r)
    (nodup : (y :: e :: (l.toList ++ (r.toList ++ keys k))).Nodup) :
    ∃ s', replaceEntry s e y = some s' ∧ At s' k (node c l y r) ∧
    Within (y :: (l.toList ++ keys k)) s s' := by
  obtain ⟨_, la, h, lb, rfl⟩ := exists_branch .left l nonempty
  set l := branch .left _ la h lb with l_eq
  have root : l.root? = some h := root?_branch
  have without := nodup.sublist ((sublist_cons_self e _).cons_cons y)
  simp only [nodup_cons, nodup_append, mem_cons, mem_append, not_or] at nodup
  obtain ⟨⟨_, yl, yr, yk⟩, ⟨_, _, ek⟩, nodupl, ⟨_, nodupk, rk⟩, lrk⟩ := nodup
  have hl := root?_mem root
  have hy : h ≠ y := ne_of_mem_of_not_mem hl yl
  have hk : h ∉ keys k := fun member => lrk h hl h (.inr member) rfl
  have above : ∀ {z}, z ∉ keys k → s.parent e ≠ some z := fun zk same =>
    zk (parent?_mem (parent ▸ same))
  set s₁ := rbTransplant s e (some y) with s₁_eq
  set s' := ((s₁.setChild .left y (some h)).setParent h (some y)).setColor y c with s'_eq
  have computed : replaceEntry s e y = some s' := by
    have first : s₁.child .left e = some h := by rw [transplant_child (above ek), left, root]
    have painted : s₁.color e = c := by rw [transplant_color, color]
    simp [replaceEntry, ← s₁_eq, first, painted, s'_eq]
  have agree : ∀ z, z ≠ y → z ≠ h → z ∉ keys k → Agree s s' z := by
    intro z zy zh zk
    refine ⟨by simp [s'_eq, zy, s₁_eq], ?_, fun side => ?_⟩
    · simp [s'_eq, zh, s₁_eq, transplant_parent, Ne.symm zy]
    · simp [s'_eq, zy, s₁_eq, transplant_child (above zk)]
  refine ⟨s', computed, ⟨?_, ?_, ?_⟩, ?_⟩
  · have moved : Path s₁ k (some y) := transplant_path path parent ek nodupk fun z same => by
      cases same
      exact yk
    refine moved.frame (by simp [s'_eq]) fun z member => ?_
    have zy : z ≠ y := ne_of_mem_of_not_mem member yk
    have zh : z ≠ h := ne_of_mem_of_not_mem member hk
    exact ⟨by simp [s'_eq, zy], by simp [s'_eq, zh],
      fun side => by simp [s'_eq, zy]⟩
  · refine ⟨by simp [s'_eq], ?_, ?_, ?_, ?_, ?_⟩
    · simp [s'_eq, Ne.symm hy, s₁_eq, transplant_parent, parent]
    · simp [s'_eq, root]
    · simp [s'_eq, s₁_eq, transplant_child (above yk), right]
    · refine repl.reparent nodupl (fun z same => ?_) fun z member other => ?_
      · obtain rfl : h = z := Option.some.inj (root.symm.trans same)
        refine ⟨by simp [s'_eq, hy, s₁_eq], ?_, fun side => ?_⟩
        · simp [s'_eq]
        · simp [s'_eq, hy, s₁_eq, transplant_child (above hk)]
      · refine agree z (ne_of_mem_of_not_mem member yl) ?_ fun zk => lrk z member z (.inr zk) rfl
        rintro rfl
        exact other root
    · refine repr.frame fun z member => agree z (ne_of_mem_of_not_mem member yr) ?_ fun zk =>
        rk z member z zk rfl
      rintro rfl
      exact lrk z hl z (.inl member) rfl
  · rw [show node c l y r = branch .left c l y r from rfl, (toList_branch_perm.append_right _).nodup_iff]
    simpa using without
  · intro z off
    simp only [mem_cons, mem_append, not_or] at off
    exact agree z off.1 (fun same => off.2.1 (same ▸ hl)) off.2.2

theorem at_append : At s (k' ++ k) t ↔ At s k (plug k' t) := by
  rw [At.plug_iff, plug_append, ← At.plug_iff]

theorem rbMinimum_spec (here : At s k t) (root : t.root? = some x)
    (enough : t.toList.length ≤ fuel) : ∃ y k' c r, rbMinimum fuel s x = some y ∧
    t = plug k' (branch .left c leaf y r) ∧ before k' = [] := by
  induction t generalizing k x fuel with
  | leaf => cases root
  | node c l z r ihl =>
    cases root
    cases fuel with
    | zero => simp at enough
    | succ fuel =>
      have left : s.child .left z = l.root? := here.rep.2.2.1
      cases l with
      | leaf => exact ⟨z, [], c, r, by simp [rbMinimum, left, root?], rfl, rfl⟩
      | node c' a w b =>
        obtain ⟨y, k', c₁, r₁, computed, same, first⟩ := ihl here.left rfl
          (show (node c' a w b).toList.length ≤ fuel by
            simp only [toList, length_append, length_cons] at enough ⊢
            omega)
        refine ⟨y, k' ++ [⟨.left, c, z, r⟩], c₁, r₁, ?_, ?_, ?_⟩
        · simpa [rbMinimum, left, root?] using computed
        · rw [plug_append, ← same]
          rfl
        · rw [before_append, first]
          rfl

theorem plug_leaf_perm : (plug k' (branch d c leaf y r)).toList.Perm (y :: (plug k' r).toList) :=
  toList_plug_perm.trans ((toList_branch_perm.append_right _).trans (.cons y toList_plug_perm.symm))

theorem liftSuccessor_spec (here : At s k (node c l e (plug k' (branch .left c' leaf y r)))) :
    ∃ s', liftSuccessor s e y = some (s', parent? (k' ++ ⟨.right, c, y, l⟩ :: k)) ∧
      Path s' k (some e) ∧ s'.color e = c ∧ s'.parent e = parent? k ∧
      s'.child .left e = l.root? ∧ Rep s' (some e) l ∧
      s'.child .right y = (plug k' r).root? ∧ Rep s' (some y) (plug k' r) ∧
      (y :: e :: (l.toList ++ ((plug k' r).toList ++ keys k))).Nodup ∧
      Within (plug k (node c l e (plug k' (branch .left c' leaf y r)))).toList s s' := by
  have place : At s (k' ++ ⟨.right, c, e, l⟩ :: k) (branch .left c' leaf y r) :=
    at_append.mpr here.right
  obtain ⟨_, above, _, below, _, repr⟩ := rep_branch.mp place.rep
  change s.child .right y = r.root? at below
  have nodup : (y :: e :: (l.toList ++ ((plug k' r).toList ++ keys k))).Nodup := by
    have inner : (l.toList ++ (plug k' (branch .left c' leaf y r)).toList).Perm
        (l.toList ++ y :: (plug k' r).toList) := plug_leaf_perm.append_left _
    have order := (toList_branch_perm (d := .left) (c := c) (x := e)).trans
      (.cons e (inner.trans perm_middle))
    have nodup := ((order.trans (.swap y e _)).append_right (keys k)).nodup here.nodup
    simpa using nodup
  cases k' with
  | nil =>
    obtain ⟨color, parent, left, _, repl, _⟩ := here.rep
    have path : Path s k (some e) := here.path
    refine ⟨s, ?_, path, color, parent, left, repl, below, repr, nodup, .refl⟩
    rw [liftSuccessor, if_pos (show s.parent y = some e from above)]
    rfl
  | cons f k' =>
    have member : f.key ∈ (plug (f :: k') r).toList := by
      rw [toList_plug_perm.mem_iff]
      simp [RedBlack.keys]
    have fresh := nodup
    simp only [nodup_cons, nodup_append, mem_cons, mem_append, not_or] at fresh
    obtain ⟨⟨ye, yl, yr, yk⟩, ⟨_, er, _⟩, _, ⟨nodupr, _, rk⟩, lrk⟩ := fresh
    have elsewhere : s.parent y ≠ some e := by
      rw [show s.parent y = some f.key from above]
      simpa using ne_of_mem_of_not_mem member er
    obtain ⟨lifted, within⟩ := liftChild place
    rw [plug_append] at within
    have covers : ∀ z, z = y ∨ z ∈ (plug (f :: k') r).toList →
        z ∈ (plug k (node c l e (plug (f :: k') (branch .left c' leaf y r)))).toList := by
      intro z inside
      rw [toList_plug_perm.mem_iff]
      have below : z ∈ (plug (f :: k') (branch .left c' leaf y r)).toList :=
        plug_leaf_perm.mem_iff.mpr (mem_cons.mpr inside)
      exact mem_append_left _ ((mem_branch (d := .left)).mpr (.inr (.inr below)))
    have tree : At (rbTransplant s y r.root?) k (node c l e (plug (f :: k') r)) :=
      (at_append.mp lifted).up
    obtain ⟨color, parent, left, right, repl, repr⟩ := tree.rep
    have path : Path (rbTransplant s y r.root?) k (some e) := tree.path
    generalize plug (f :: k') r = right' at *
    obtain ⟨_, _, m, _, same⟩ := exists_branch .left right' (by rintro rfl; cases member)
    have root : right'.root? = some m := by rw [same, root?_branch]
    have mr := root?_mem root
    set s₁ := rbTransplant s y r.root? with s₁_eq
    set s' := (s₁.setChild .right y (some m)).setParent m (some y) with s'_eq
    have computed : liftSuccessor s e y = some (s', some f.key) := by
      have first : s₁.child .right e = some m := right.trans root
      rw [liftSuccessor, if_neg elsewhere]
      simp [below, ← s₁_eq, first, s'_eq, show s.parent y = some f.key from above]
    have agree : ∀ z, z ≠ y → z ≠ m → Agree s₁ s' z := fun z zy zm =>
      ⟨rfl, by simp [s'_eq, zm], fun side => by simp [s'_eq, zy]⟩
    have me : e ≠ m := fun equal => er (equal ▸ mr)
    obtain ⟨colore, parente, childe⟩ := agree e (Ne.symm ye) me
    refine ⟨s', computed, ?_, colore.trans color, parente.trans parent, (childe _).trans left, ?_, ?_, ?_, nodup, ?_⟩
    · exact path.frame rfl fun z zk => agree z (ne_of_mem_of_not_mem zk yk) fun equal =>
        rk m mr z zk equal.symm
    · exact repl.frame fun z zl => agree z (ne_of_mem_of_not_mem zl yl) fun equal =>
        lrk z zl m (.inl mr) equal
    · simp [s'_eq, root]
    · refine repr.reparent nodupr (fun z rootz => ?_) fun z zr other =>
        agree z (ne_of_mem_of_not_mem zr yr) ?_
      · obtain rfl : m = z := Option.some.inj (root.symm.trans rootz)
        exact ⟨rfl, by simp [s'_eq], fun side => by
          simp [s'_eq, ne_of_mem_of_not_mem mr yr]⟩
      · rintro rfl
        exact other root
    · refine within.trans fun z off => agree z ?_ ?_
      · exact fun equal => off (covers z (.inl equal))
      · exact fun equal => off (covers z (.inr (equal ▸ mr)))

theorem rbSplice_spec (here : At s k (node c l e r))
    (valid : (plug k (node c l e r)).Valid)
    (enough : (plug k (node c l e r)).toList.length ≤ fuel) :
      ∃ s' k' t c', rbSplice fuel s e = some (s', t.root?, parent? k', c') ∧ At s' k' t ∧
      (plug k' t).toList = before k ++ (l.toList ++ (r.toList ++ after k)) ∧
      Within (plug k (node c l e r)).toList s s' ∧ Missing k' t c' := by
  obtain ⟨color, parent, left, right, _⟩ := here.rep
  cases l with
  | leaf =>
    have whole : At s k (branch .left c leaf e r) := here
    obtain ⟨lifted, within⟩ := liftChild whole
    refine ⟨_, k, r, c, ?_, lifted, ?_, within, missing_splice (d := .left) valid⟩
    · simp [rbSplice, left, right, parent, color, root?]
    · simp [toList_plug]
  | node cl la h lb =>
    cases r with
    | leaf =>
      have whole : At s k (branch .right c leaf e (node cl la h lb)) := here
      obtain ⟨lifted, within⟩ := liftChild whole
      refine ⟨_, k, node cl la h lb, c, ?_, lifted, ?_, within, missing_splice (d := .right) valid⟩
      · simp [rbSplice, left, right, parent, color, root?]
      · simp [toList_plug]
    | node cr ra m rb =>
      -- the successor moves up; what is missing is its old place
      have below := here.right
      obtain ⟨y, k', cy, ry, minimum, same, first⟩ := rbMinimum_spec below rfl
        (show (node cr ra m rb).toList.length ≤ fuel by
          simp only [toList_plug, toList, length_append, length_cons] at enough ⊢
          omega)
      rw [same] at here valid below
      obtain ⟨_, lifted, path, color₁, parent₁, left₁, repl₁, right₁, repr₁, nodup, within₁⟩ :=
        liftSuccessor_spec here
      obtain ⟨s', replaced, done, within⟩ := replaceEntry_spec path color₁ parent₁ left₁ (by simp)
        repl₁ right₁ repr₁ nodup
      have place : At s (k' ++ ⟨.right, c, e, node cl la h lb⟩ :: k) (branch .left cy leaf y ry) :=
        at_append.mpr below
      have final : At s' (k' ++ ⟨.right, c, y, node cl la h lb⟩ :: k) ry :=
        at_append.mpr done.right
      refine ⟨s', _, ry, cy, ?_, final, ?_, ?_, ?_⟩
      · obtain ⟨colory, _, _, righty, _⟩ := rep_branch.mp place.rep
        change s.child .right y = ry.root? at righty
        have left' : s.child .left e = some h := left
        have right' : s.child .right e = some m := right
        simp [rbSplice, left', right', minimum, lifted, replaced, righty, colory]
      · have order : (node cr ra m rb).toList = y :: (plug k' ry).toList := by
          rw [same, toList_plug, toList_plug, first]
          simp [branch]
        rw [plug_append, order]
        simp [plug, Frame.fill, branch, toList_plug]
      · rw [same]
        refine within₁.trans (within.mono fun z member => ?_)
        rw [toList_plug_perm.mem_iff]
        simp only [mem_cons, mem_append] at member
        rcases member with rfl | member | member
        · simp [plug_leaf_perm.mem_iff]
        · exact mem_append_left _ ((mem_branch (d := .left)).mpr (.inr (.inl member)))
        · simp [member]
      · have whole : (plug (k' ++ ⟨.right, c, e, node cl la h lb⟩ :: k)
            (branch .left cy leaf y ry)).Valid := by
          rw [plug_append]
          exact valid
        exact (missing_splice whole).rekey y

theorem rbRemove_spec (here : At s k (node c l e r)) (valid : (plug k (node c l e r)).Valid)
    (enough : (plug k (node c l e r)).toList.length < fuel) :
    ∃ s' t, rbRemove fuel s e = some s' ∧ At s' [] t ∧ t.Valid ∧
      t.toList = before k ++ (l.toList ++ (r.toList ++ after k)) ∧
      Within (plug k (node c l e r)).toList s s' := by
  obtain ⟨s₁, k', t, c', spliced, cut, order, within, missing⟩ :=
    rbSplice_spec here valid (Nat.le_of_lt enough)
  have old : (plug k (node c l e r)).toList = before k ++ (l.toList ++ e :: (r.toList ++ after k)) := by
    rw [toList_plug]
    simp
  have nodup : (before k ++ (l.toList ++ e :: (r.toList ++ after k))).Nodup := by
    rw [← old]
    exact toList_plug_perm.nodup_iff.mpr here.nodup
  have gone : e ∉ (plug k' t).toList := by
    grind
  have fewer : (plug k' t).toList ⊆ (plug k (node c l e r)).toList := by
    rw [order, old]
    intro z
    simp only [mem_append, mem_cons]
    tauto
  have fixed : ∃ s₂ t₂, (if c' = .black then rbRemoveFixup fuel s₁ t.root? (parent? k')
      else some s₁) = some s₂ ∧ Moved (plug k' t).toList s₁ s₂ [] t₂ ∧ t₂.Valid := by
    cases c' with
    | red =>
      obtain ⟨n, fits, balanced, black⟩ := missing
      exact ⟨s₁, plug k' t, rfl, (Moved.start cut).whole, plug_valid fits balanced (.inl black)⟩
    | black =>
      obtain ⟨n, fits, short⟩ := missing
      have depth : k'.length < fuel := by
        have bound := length_le_toList (k := k') (t := t)
        have sizes : (plug k' t).toList.length < (plug k (node c l e r)).toList.length := by
          rw [order, old]
          simp
        omega
      exact rbRemoveFixup_spec (.start cut) short fits depth
  obtain ⟨s₂, t₂, computed, done, valid₂⟩ := fixed
  have order₂ : t₂.toList = (plug k' t).toList := done.order
  set s' := ((s₂.setChild .left e none).setChild .right e none).setParent e none with s'_eq
  have agree : ∀ z, z ≠ e → Agree s₂ s' z := fun z other =>
    ⟨rfl, by simp [s'_eq, other], fun _ => by simp [s'_eq, other]⟩
  refine ⟨s', t₂, ?_, done.here.frame rfl fun z member => ?_, valid₂, order₂.trans order, ?_⟩
  · by_cases black : c' = .black
    · rw [if_pos black] at computed
      simp [rbRemove, spliced, black, computed, s'_eq]
    · rw [if_neg black] at computed
      cases computed
      simp [rbRemove, spliced, black, s'_eq]
  · refine agree z (ne_of_mem_of_not_mem ?_ gone)
    simpa [RedBlack.keys, order₂] using member
  · refine within.trans ((done.within.mono fewer).trans fun z off => agree z ?_)
    rintro rfl
    exact off (by simp [old])

end RbTree

end Otsos.VmMap
