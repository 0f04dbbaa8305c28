import Otsos.Foundation.Intrusive
import Otsos.Map.Model
import Otsos.Map.Splice

/-! The two views of a map, tree and thread, and what linking and unlinking an entry do to both. -/
namespace Otsos.VmMaps
open Function (update update_apply update_idem update_of_ne update_self)
open List (mem_append mem_cons mem_of_getLast? mem_of_mem_head?)
open RedBlack RedBlack.Tree VmMap.RbTree
attribute [local simp] setHeader setTree toList

variable {s : VmMaps ω} {k : Ctx Nat}

/-- Tree and thread of the map hold the entries `l`, in this order. -/
structure Shape (s : VmMaps ω) (m : Nat) (l : List Nat) : Prop where
  tree : ∃ t, At (s.tree m) [] t ∧ t.Valid ∧ t.toList = l
  thread : Intrusive.Queue s.next s.prev (s.header m).head (s.header m).tail l
  count : (s.header m).entryCount = l.length

/-- All links of an entry are the same in both states. -/
def SameLinks (s s' : VmMaps ω) (x : Nat) : Prop :=
  Agree (s.tree 0) (s'.tree 0) x ∧ s'.next x = s.next x ∧ s'.prev x = s.prev x

theorem SameLinks.agree (same : SameLinks s s' x) (m : Nat) : Agree (s.tree m) (s'.tree m) x :=
  same.1

theorem SameLinks.trans (first : SameLinks s s' x) (second : SameLinks s' s'' x) :
    SameLinks s s'' x :=
  ⟨first.1.trans second.1, second.2.1.trans first.2.1, second.2.2.trans first.2.2⟩

theorem Shape.frame (shape : Shape s m l) (root : (s'.header m).rbRoot = (s.header m).rbRoot)
    (head : (s'.header m).head = (s.header m).head) (tail : (s'.header m).tail = (s.header m).tail)
    (count : (s'.header m).entryCount = (s.header m).entryCount)
    (same : ∀ x ∈ l, SameLinks s s' x) : Shape s' m l := by
  obtain ⟨t, here, valid, rfl⟩ := shape.tree
  refine ⟨⟨t, here.frame root fun x member => ?_, valid, rfl⟩, ?_, count.trans shape.count⟩
  · exact (same x (by simpa [keys] using member)).agree m
  · rw [head, tail]
    exact shape.thread.frame (fun x member => (same x member).2.1) fun x member => (same x member).2.2

/-- The side of the parent on which the hole is. -/
def leftOf : Ctx Nat → Bool
  | [] => false
  | f :: _ => f.dir = .left

theorem findParent_spec (start fuel : Nat) (here : At (s.tree m) k t)
    (below : ∀ a ∈ before k, ¬start < (s.entry a).start)
    (above : ∀ b ∈ after k, start < (s.entry b).start)
    (sorted : t.toList.Pairwise fun a b => start < (s.entry a).start → start < (s.entry b).start)
    (enough : t.toList.length < fuel) :
      ∃ k', findParent s start fuel t.root? (parent? k) (leftOf k) = some (parent? k', leftOf k') ∧
      At (s.tree m) k' leaf ∧ plug k' leaf = plug k t ∧
      (∀ a ∈ before k', ¬start < (s.entry a).start) ∧
      ∀ b ∈ after k', start < (s.entry b).start := by
  induction t generalizing k fuel with
  | leaf =>
    obtain ⟨fuel, rfl⟩ := Loop.fuel_succ enough
    exact ⟨k, rfl, here, rfl, below, above⟩
  | node c l x r ihl ihr =>
    obtain ⟨fuel, rfl⟩ := Loop.fuel_succ enough
    simp only [toList, List.length_append, List.length_cons] at enough
    simp only [toList, List.pairwise_append, List.pairwise_cons, mem_cons] at sorted
    obtain ⟨sortedl, ⟨sortedx, sortedr⟩, across⟩ := sorted
    have left : (s.tree m).child .left x = l.root? := here.rep.2.2.1
    have right : (s.tree m).child .right x = r.root? := here.rep.2.2.2.1
    by_cases less : start < (s.entry x).start
    · obtain ⟨k', found, rest⟩ := ihl fuel here.left (by simpa [before] using below)
        (by
          intro b member
          simp only [after, List.cons_append, mem_cons, mem_append] at member
          rcases member with rfl | member | member
          · exact less
          · exact sortedx b member less
          · exact above b member) sortedl (by omega)
      refine ⟨k', ?_, rest⟩
      rw [← found]
      change findParent s start (fuel + 1) (some x) _ _ = _
      rw [findParent, if_pos less]
      exact congrArg (fun c => findParent s start fuel c (some x) true) left
    · obtain ⟨k', found, rest⟩ := ihr fuel here.right
        (by
          intro a member
          simp only [before, mem_append, List.mem_singleton] at member
          rcases member with member | member | rfl
          · exact below a member
          · exact fun lessa => less (across a member x (.inl rfl) lessa)
          · exact less) (by simpa [after] using above) sortedr
        (by omega)
      refine ⟨k', ?_, rest⟩
      rw [← found]
      change findParent s start (fuel + 1) (some x) _ _ = _
      rw [findParent, if_neg less]
      exact congrArg (fun c => findParent s start fuel c (some x) false) right

theorem treeInsert_spec {r : VmMap.RbTree} (here : At r k leaf) (fresh : e ∉ keys k) :
    At (treeInsert r e (parent? k) (leftOf k)) k (node .red leaf e leaf) ∧
      Within (e :: keys k) r (treeInsert r e (parent? k) (leftOf k)) := by
  set base := (((r.setParent e (parent? k)).setChild .left e none).setChild .right e none).setColor
    e .red with base_eq
  have agree : ∀ z, z ≠ e → Agree r base z := fun z other =>
    ⟨by simp [base_eq, other], by simp [base_eq, other],
      fun d => by simp [base_eq, other]⟩
  have leafRep : Rep base (parent? k) (node .red leaf e leaf) := by
    refine ⟨?_, ?_, ?_, ?_, trivial, trivial⟩
    · simp [base_eq]
    · simp [base_eq]
    · simp [base_eq, root?]
    · simp [base_eq, root?]
  have path : Path base k none := here.path.frame rfl fun z member =>
    agree z (ne_of_mem_of_not_mem member fresh)
  have nodup : ((node .red leaf e leaf).toList ++ keys k).Nodup := by
    simpa [fresh] using here.nodup
  cases k with
  | nil => exact ⟨⟨rfl, leafRep, nodup⟩, fun z off => agree z (by simp_all)⟩
  | cons f k =>
    have side : (if leftOf (f :: k) then Dir.left else Dir.right) = f.dir := by
      cases same : f.dir <;> simp [leftOf, same]
    have stored : treeInsert r e (parent? (f :: k)) (leftOf (f :: k)) =
        base.setChild f.dir f.key (some e) := by
      rw [← side]
      rfl
    have top : f.key ∈ keys (f :: k) := by simp [keys]
    have other : e ≠ f.key := fun same => fresh (same ▸ top)
    rw [stored]
    refine ⟨⟨?_, ?_, nodup⟩, ?_⟩
    · refine path.refill (by simpa using here.nodup) (by simp) (fun _ => rfl) ?_ ?_
      · rintro g _ ⟨⟩
        exact ⟨rfl, rfl, by simp [root?], by simp⟩
      · intro y _ apart
        have apart : y ≠ f.key := fun equal => apart (congrArg some equal.symm)
        exact ⟨rfl, rfl, fun d => by simp [apart]⟩
    · obtain ⟨color, parent, left, right, _⟩ := leafRep
      refine ⟨color, parent, ?_, ?_, trivial, trivial⟩
      · simpa [other] using left
      · simpa [other] using right
    · intro z off
      simp only [mem_cons, not_or] at off
      have apart : z ≠ f.key := (ne_of_mem_of_not_mem top off.2).symm
      obtain ⟨color, parent, child⟩ := agree z off.1
      exact ⟨color, parent, fun d => by simpa [apart] using child d⟩

theorem neighbours_spec (thread : Intrusive.Queue s.next s.prev (s.header m).head (s.header m).tail
    (before k ++ after k)) :
    neighbours s (parent? k) (leftOf k) = ((before k).getLast?, (after k).head?) := by
  cases k with
  | nil => rfl
  | cons f k =>
    obtain ⟨d, c, x, sib⟩ := f
    cases d with
    | left =>
      simp [neighbours, parent?, leftOf, thread.toLinked.links_at.1, after]
    | right =>
      have split : before (⟨.right, c, x, sib⟩ :: k) ++ after (⟨.right, c, x, sib⟩ :: k) =
          (before k ++ sib.toList) ++ x :: after k := by simp [before, after]
      rw [split] at thread
      have last : before (⟨.right, c, x, sib⟩ :: k) = (before k ++ sib.toList) ++ [x] := by simp [before]
      rw [last]
      simp [neighbours, parent?, leftOf, thread.toLinked.links_at.2, after]

section Thread
variable (s : VmMaps ω) (m e : Nat) (b a : Option Nat)

theorem threadInsert_eq : s.threadInsert m e b a = { s with
    next := fun x => if b = some x then some e else if x = e then a else s.next x
    prev := fun x => if a = some x then some e else if x = e then b else s.prev x
    header := update s.header m { s.header m with
      head := if b = none then some e else (s.header m).head
      tail := if a = none then some e else (s.header m).tail } } := by
  cases b <;> cases a <;> simp [threadInsert, funext_iff, update_apply, eq_comm]

theorem threadRemove_eq (apart : s.prev e ≠ some e) : s.threadRemove m e = { s with
    next := fun x => if s.prev e = some x then s.next e else s.next x
    prev := fun x => if s.next e = some x then s.prev e else s.prev x
    header := update s.header m { s.header m with
      head := if s.prev e = none then s.next e else (s.header m).head
      tail := if s.next e = none then s.prev e else (s.header m).tail } } := by
  have stored : ∀ (f : Nat → Option Nat) (y : Nat) (v : Option Nat),
      update f y v = fun x => if some y = some x then v else f x := by
    intro f y v
    funext x
    simp only [update_apply, Option.some.injEq, eq_comm]
  cases before : s.prev e with
  | none =>
    cases after : s.next e with
    | none => simp [threadRemove, before, after]
    | some a => simp [threadRemove, before, after, stored]
  | some b =>
    have other : b ≠ e := fun same => apart (before.trans (congrArg some same))
    cases after : s.next e with
    | none => simp [threadRemove, before, after, stored]
    | some a => simp [threadRemove, before, after, stored]

end Thread

/-- Links of entries in `l` and of the map `m` may have changed, nothing else. -/
structure Relinked (s s' : VmMaps ω) (m : Nat) (l : List Nat) : Prop where
  entry : s'.entry = s.entry
  live : s'.live = s.live
  env : s'.env = s.env
  bounds : (s'.header m).minAddr = (s.header m).minAddr ∧
    (s'.header m).maxAddr = (s.header m).maxAddr ∧ (s'.header m).hint = (s.header m).hint
  header : ∀ m', m' ≠ m → s'.header m' = s.header m'
  links : ∀ x, x ∉ l → SameLinks s s' x

theorem link_spec (shape : Shape s m l) (fresh : e ∉ l) (sorted : l.Pairwise fun a b =>
      (s.entry e).start < (s.entry a).start → (s.entry e).start < (s.entry b).start) :
    ∃ s' l₁ l₂, s.link m e = some s' ∧ l = l₁ ++ l₂ ∧ (∀ a ∈ l₁, ¬(s.entry e).start < (s.entry a).start) ∧
      (∀ b ∈ l₂, (s.entry e).start < (s.entry b).start) ∧
      Shape s' m (l₁ ++ e :: l₂) ∧ Relinked s s' m (e :: l) := by
  obtain ⟨t, here, valid, rfl⟩ := shape.tree
  obtain ⟨k, found, bottom, same, below, above⟩ := findParent_spec (s.entry e).start
    ((s.header m).entryCount + 2) here (by simp [before]) (by simp [after]) sorted
    (by rw [shape.count]; omega)
  change plug k leaf = t at same
  have split : t.toList = before k ++ after k := by
    rw [← same, toList_plug]
    simp
  have inside : ∀ z ∈ keys k, z ∈ t.toList := by
    intro z member
    rw [← same, toList_plug_perm.mem_iff]
    simp [member]
  obtain ⟨leafAt, within⟩ := treeInsert_spec bottom fun member => fresh (inside e member)
  -- the new leaf is red, so only the colour of its parent may be wrong
  obtain ⟨n, fits, balanced, _⟩ := fits_of_valid (same ▸ valid)
  have depth : k.length < (s.header m).entryCount + 2 := by
    have bound := length_le_toList (k := k) (t := leaf)
    rw [same, ← shape.count] at bound
    omega
  obtain ⟨r, t', fixed, moved, valid'⟩ := rbInsertFixup_spec leafAt rfl rfl
    (⟨rfl, rfl, balanced, balanced⟩ : (node .red leaf e leaf).Balanced n) fits depth
  have order : t'.toList = before k ++ e :: after k := by
    rw [show t'.toList = (plug [] t').toList from rfl, moved.order, toList_plug]
    simp
  have thread := shape.thread
  rw [split] at thread
  have nodup : e ∉ before k ++ after k := split ▸ fresh
  set s' := ((s.threadInsert m e (before k).getLast? (after k).head?).setTree m r).setHeader m
    (fun h => { h with entryCount := h.entryCount + 1 }) with s'_eq
  have computed : s.link m e = some s' := by
    have root : (s.header m).rbRoot = t.root? := here.path
    change findParent s (s.entry e).start ((s.header m).entryCount + 2) t.root? none false = _ at found
    simp only [link, root, found, neighbours_spec thread, fixed, Option.bind_eq_bind, Option.bind_some]
    rfl
  have next_eq : s'.next = fun x => if (before k).getLast? = some x then some e else
      if x = e then (after k).head? else s.next x := by
    simp [s'_eq, threadInsert_eq]
  have prev_eq : s'.prev = fun x => if (after k).head? = some x then some e else
      if x = e then (before k).getLast? else s.prev x := by
    simp [s'_eq, threadInsert_eq]
  have header_eq : s'.header = update s.header m
      { s.header m with
        rbRoot := r.root
        head := if before k = [] then some e else (s.header m).head
        tail := if after k = [] then some e else (s.header m).tail
        entryCount := (s.header m).entryCount + 1 } := by
    simp [s'_eq, threadInsert_eq, List.getLast?_eq_none_iff]
  have inList : ∀ {y : Nat}, (before k).getLast? = some y ∨ (after k).head? = some y → y ≠ e := by
    intro y member same
    refine nodup (same ▸ mem_append.mpr ?_)
    exact member.imp mem_of_getLast? mem_of_mem_head?
  refine ⟨s', before k, after k, computed, split, below, above, ⟨⟨t', ?_, valid', order⟩, ?_, ?_⟩,
    ?_⟩
  · have root : s'.tree m = r := by simp [tree, s'_eq]
    rw [root]
    exact moved.here
  · rw [header_eq, update_self]
    refine thread.insert (thread.toLinked.insert nodup ?_ ?_ ?_ ?_ ?_ ?_)
    · rw [prev_eq]
      simp only [if_true]
      exact if_neg fun same => inList (.inr same) rfl
    · rw [next_eq]
      simp only [if_true]
      exact if_neg fun same => inList (.inl same) rfl
    · exact fun y last => by rw [next_eq]; simp [last]
    · exact fun y first => by rw [prev_eq]; simp [first]
    all_goals
      intro y member other
      have apart := ne_of_mem_of_not_mem member nodup
    · simp [next_eq, other, apart]
    · simp [prev_eq, other, apart]
  · rw [header_eq, update_self]
    have length := congrArg List.length split
    simp only [List.length_append, List.length_cons, shape.count, length]
    omega
  · refine ⟨?_, ?_, ?_, ?_, ?_, ?_⟩
    iterate 3
      · simp [s'_eq, threadInsert_eq]
    · simp [header_eq]
    · exact fun _ other => by rw [header_eq, update_of_ne other]
    · intro x off
      simp only [mem_cons, not_or] at off
      have agree : Agree (s.tree m) r x := by
        refine Within.trans (l := e :: t.toList) (within.mono ?_) (moved.within.mono ?_) x (by simp [off])
        · exact List.cons_subset_cons e inside
        · intro z member
          simp only [toList_plug, toList, List.nil_append, mem_append, mem_cons, List.not_mem_nil] at member
          simp only [split, mem_cons, mem_append]
          tauto
      rw [split, mem_append, not_or] at off
      refine ⟨agree, ?_, ?_⟩
      · rw [next_eq]
        simp only [if_neg off.1]
        exact if_neg fun last => off.2.1 (mem_of_getLast? last)
      · rw [prev_eq]
        simp only [if_neg off.1]
        exact if_neg fun first => off.2.2 (mem_of_mem_head? first)

theorem unlink_spec (shape : Shape s m (l₁ ++ e :: l₂)) :
    ∃ s', s.unlink m e = some s' ∧ Shape s' m (l₁ ++ l₂) ∧ Relinked s s' m (l₁ ++ e :: l₂) := by
  obtain ⟨t, here, valid, order⟩ := shape.tree
  obtain ⟨k, c, l, r, rfl⟩ := exists_plug_of_mem (t := t) (x := e) (by simp [order])
  have cursor := At.plug_iff.mpr here
  obtain ⟨off₁, off₂⟩ := shape.thread.toLinked.fresh
  have split : before k ++ l.toList = l₁ ∧ r.toList ++ after k = l₂ := by
    have whole : l₁ ++ e :: l₂ = (before k ++ l.toList) ++ e :: (r.toList ++ after k) := by
      rw [← order, toList_plug]
      simp
    obtain ⟨first, _, second⟩ := (List.append_cons_inj_of_notMem off₁ off₂).mp whole
    exact ⟨first.symm, second.symm⟩
  obtain ⟨r', t', removed, done, valid', order', within⟩ := rbRemove_spec
    cursor valid (show _ < (s.header m).entryCount + 1 by rw [order, shape.count]; omega)
  obtain ⟨prev, next⟩ := shape.thread.toLinked.links_at
  have apart : s.prev e ≠ some e := fun same => off₁ (mem_of_getLast? (prev.symm.trans same))
  set s' := VmMaps.setHeader { (s.threadRemove m e).setTree m r' with
      next := update ((s.threadRemove m e).setTree m r').next e none
      prev := update ((s.threadRemove m e).setTree m r').prev e none } m
    (fun h => { h with entryCount := h.entryCount - 1 }) with s'_eq
  have computed : s.unlink m e = some s' := by
    simp only [unlink, removed, Option.bind_eq_bind]
    rfl
  have next_eq : s'.next = fun x => if x = e then none else
      if l₁.getLast? = some x then l₂.head? else s.next x := by
    funext x
    simp [s'_eq, threadRemove_eq _ _ _ apart, prev, next, update_apply]
  have prev_eq : s'.prev = fun x => if x = e then none else
      if l₂.head? = some x then l₁.getLast? else s.prev x := by
    funext x
    simp [s'_eq, threadRemove_eq _ _ _ apart, prev, next, update_apply]
  have header_eq : s'.header = update s.header m
      { s.header m with
        rbRoot := r'.root
        head := if l₁ = [] then l₂.head? else (s.header m).head
        tail := if l₂ = [] then l₁.getLast? else (s.header m).tail
        entryCount := (s.header m).entryCount - 1 } := by
    simp [s'_eq, threadRemove_eq _ _ _ apart, prev, next, List.getLast?_eq_none_iff]
  have other : ∀ {y : Nat}, y ∈ l₁ ++ l₂ → y ≠ e := by
    intro y member same
    exact (mem_append.mp member).elim (fun member => off₁ (same ▸ member)) fun member =>
      off₂ (same ▸ member)
  refine ⟨s', computed, ⟨⟨t', ?_, valid', ?_⟩, ?_, ?_⟩, ⟨?_, ?_, ?_, ?_, ?_, ?_⟩⟩
  · have root : s'.tree m = r' := by simp [tree, s'_eq]
    rw [root]
    exact done
  · rw [order', ← split.1, ← split.2]
    simp
  · rw [header_eq, update_self]
    refine shape.thread.remove (shape.thread.toLinked.remove ?_ ?_ ?_ ?_)
    · intro y last
      rw [next_eq]
      simp [last, other (List.mem_append_left l₂ (mem_of_getLast? last))]
    · intro y first
      rw [prev_eq]
      simp [first, other (List.mem_append_right l₁ (mem_of_mem_head? first))]
    · intro y member last
      rw [next_eq]
      simp [last, other member]
    · intro y member first
      rw [prev_eq]
      simp [first, other member]
  · rw [header_eq]
    simp [shape.count]
  iterate 3
    · simp [s'_eq, threadRemove_eq _ _ _ apart]
  · simp [header_eq]
  · exact fun _ different => by rw [header_eq, update_of_ne different]
  · intro x off
    have agree := within x (order ▸ off)
    simp only [mem_append, mem_cons, not_or] at off
    refine ⟨agree, ?_, ?_⟩
    · rw [next_eq]
      simp only [if_neg off.2.1]
      exact if_neg fun last => off.1 (mem_of_getLast? last)
    · rw [prev_eq]
      simp only [if_neg off.2.1]
      exact if_neg fun first => off.2.2 (mem_of_mem_head? first)

end Otsos.VmMaps
