import Otsos.Hivec.Build

/-! The nodes that the compiler makes of the keys of a hive: one for each path of a key and each
path above it, each below its parent, with the flags and the values of the key that is declared
there. -/
namespace Otsos.Hivec
open Loop (except_bind_ok)
open List

/-- A part of a path. -/
structure Part (part : Text) : Prop where
  some_ : part ≠ []
  plain : '.' ∉ part

/-- The parts of a path, none for the root. -/
def partsOf (path : Text) : List Text := if path = [] then [] else Parser.splitDots path

variable {path : Text} {nodes : List Node} {keys named : List Key} {key : Key}

theorem partsOf_of_ne (some_ : path ≠ []) : partsOf path = Parser.splitDots path := if_neg some_

theorem partsOf_extend (part_ : Part part) :
    partsOf (extend path part) = partsOf path ++ [part] := by
  have single : Parser.splitDots part = [part] := splitOn_eq_singleton part_.plain
  by_cases root : path = []
  · subst root
    rw [extend, if_pos rfl, partsOf_of_ne part_.some_, single]
    rfl
  · rw [extend, if_neg root, partsOf_of_ne root, partsOf_of_ne (by simp), Parser.splitDots,
      splitOn_append_cons_self, ← Parser.splitDots, ← Parser.splitDots, single]

theorem partsOf_injective : Function.Injective partsOf := by
  have ne_nil : ∀ {a : Text}, a ≠ [] → partsOf a ≠ [] := fun some_ => by
    rw [partsOf_of_ne some_]
    exact splitOn_ne_nil _ _
  intro a b same
  by_cases left : a = [] <;> by_cases right : b = []
  · rw [left, right]
  · subst left
    exact absurd same.symm (ne_nil right)
  · subst right
    exact absurd same (ne_nil left)
  · rw [partsOf_of_ne left, partsOf_of_ne right] at same
    have joined := congrArg (intercalate ['.']) same
    rwa [Parser.splitDots, Parser.splitDots, intercalate_splitOn, intercalate_splitOn] at joined

theorem extend_ne_nil (part_ : Part part) : extend path part ≠ [] := by
  rw [extend]
  split
  · exact part_.some_
  · simp

theorem parentPath_extend (part_ : Part part) : parentPath (extend path part) = path := by
  by_cases root : path = []
  · rw [extend, if_pos root, parentPath, if_neg part_.plain, root]
  have skip : ∀ c ∈ part.reverse, (decide (c ≠ '.')) = true := fun c member => by
    rw [decide_eq_true_eq]
    rintro rfl
    exact part_.plain (mem_reverse.mp member)
  rw [extend, if_neg root, parentPath, reverse_append, reverse_cons, append_assoc,
    dropWhile_append_of_pos skip]
  simp

theorem extend_injective (part_ : Part part) (other : Part part')
    (same : extend path part = extend path' part') : path = path' ∧ part = part' := by
  have parts := congrArg partsOf same
  rw [partsOf_extend part_, partsOf_extend other] at parts
  obtain ⟨front, last⟩ := append_inj' parts rfl
  exact ⟨partsOf_injective front, singleton_inj.mp last⟩

/-- A node below the root: its path is that of its parent and its name. -/
structure Linked (paths : List Text) (node : Node) : Prop where
  part : Part node.name
  path : node.path = extend (parentPath node.path) node.name
  parent : parentPath node.path ∈ paths

/-- Every path is there once, with the paths above it. -/
structure Closed (nodes : List Node) : Prop where
  distinct : (nodes.map (·.path)).Nodup
  root : [] ∈ nodes.map (·.path)
  linked : ∀ node ∈ nodes, node.path ≠ [] → Linked (nodes.map (·.path)) node

@[elab_as_elim]
theorem Closed.path_induction (closed : Closed nodes) {motive : Text → Prop} (root : motive [])
    (below : ∀ path part, path ∈ nodes.map (·.path) → Part part → extend path part ∈ nodes.map (·.path) →
      motive path → motive (extend path part)) : ∀ path ∈ nodes.map (·.path), motive path := by
  intro path
  -- the parent has one part less
  induction size : (partsOf path).length generalizing path with
  | zero =>
    intro
    have empty : path = [] := partsOf_injective (length_eq_zero_iff.mp size)
    exact empty ▸ root
  | succ n ih =>
    intro member
    obtain ⟨node, inside, rfl⟩ := mem_map.mp member
    have some_ : node.path ≠ [] := fun empty => by
      rw [empty] at size
      cases size
    have linked := closed.linked node inside some_
    rw [linked.path, partsOf_extend linked.part, length_append] at size
    rw [linked.path] at member ⊢
    exact below _ _ linked.parent linked.part member (ih _ (Nat.succ.inj size) linked.parent)

theorem Closed.parts (closed : Closed nodes) (member : path ∈ nodes.map (·.path)) :
    ∀ part ∈ partsOf path, Part part := by
  refine closed.path_induction nofun ?_ path member
  intro path part _ part_ _ above p inside
  rw [partsOf_extend part_] at inside
  rcases mem_append.mp inside with front | last
  · exact above p front
  · exact mem_singleton.mp last ▸ part_

theorem Closed.perm (closed : Closed nodes) (order : nodes'.Perm nodes) : Closed nodes' where
  distinct := (order.map _).nodup_iff.mpr closed.distinct
  root := (order.map _).mem_iff.mpr closed.root
  linked := fun node inside some_ =>
    have linked := closed.linked node (order.mem_iff.mp inside) some_
    ⟨linked.part, linked.path, (order.map _).mem_iff.mpr linked.parent⟩

/-- The key that is declared with a path. -/
def keyAt (keys : List Key) (path : Text) : Option Key := keys.find? (·.path = path)

/-- The nodes of some keys: those in `named` have given the names, those in `keys` their flags and
values as well. -/
structure Built (named keys : List Key) (nodes : List Node) : Prop extends Closed nodes where
  present : ∀ key ∈ keys, key.path ∈ nodes.map (·.path)
  origin : ∀ node ∈ nodes, node.path ≠ [] → ∃ key ∈ named, node.name ∈ Parser.splitDots key.path
  flags : ∀ node ∈ nodes, node.flags = ((keyAt keys node.path).map (·.flags)).getD 0
  values : ∀ node ∈ nodes, node.values = ((keyAt keys node.path).map (·.values)).getD []

theorem Built.perm (built : Built named keys nodes) (order : nodes'.Perm nodes) :
    Built named keys nodes' where
  toClosed := built.toClosed.perm order
  present := fun key member => (order.map _).mem_iff.mpr (built.present key member)
  origin := fun node inside => built.origin node (order.mem_iff.mp inside)
  flags := fun node inside => built.flags node (order.mem_iff.mp inside)
  values := fun node inside => built.values node (order.mem_iff.mp inside)

theorem keyAt_none (absent : path ∉ keys.map (·.path)) : keyAt keys path = none := by
  rw [keyAt, find?_eq_none]
  intro key member same
  rw [decide_eq_true_eq] at same
  exact absent (mem_map.mpr ⟨key, member, same⟩)

theorem keyAt_append (keys : List Key) (key : Key) (path : Text) :
    keyAt (keys ++ [key]) path = (keyAt keys path).or (if key.path = path then some key else none) := by
  rw [keyAt, keyAt]
  by_cases same : key.path = path <;> simp

theorem keyAt_self (distinct : (keys.map (·.path)).Nodup) (member : key ∈ keys) :
    keyAt keys key.path = some key := by
  cases found : keyAt keys key.path with
  | none =>
    rw [keyAt, find?_eq_none] at found
    exact absurd (decide_eq_true rfl) (found key member)
  | some other =>
    have same := find?_some found
    rw [decide_eq_true_eq] at same
    exact congrArg some (inj_on_of_nodup_map distinct (mem_of_find?_eq_some found) member same)

theorem Built.setdefault (growing : Built named keys nodes) (above : path ∈ nodes.map (·.path))
    (part_ : Part part) (among : key ∈ named) (own : part ∈ Parser.splitDots key.path) :
    Built named keys (setdefault nodes (extend path part) part) ∧
      extend path part ∈ (setdefault nodes (extend path part) part).map (·.path) := by
  rw [Hivec.setdefault]
  split
  · next there => exact ⟨growing, there⟩
  next fresh =>
  have paths : (nodes ++ [(⟨extend path part, part, 0, []⟩ : Node)]).map (·.path) =
      nodes.map (·.path) ++ [extend path part] := by simp
  have older : ∀ {p : Text}, p ∈ nodes.map (·.path) →
      p ∈ (nodes ++ [(⟨extend path part, part, 0, []⟩ : Node)]).map (·.path) := fun member => by
    rw [paths]
    exact mem_append_left _ member
  -- no key has been declared there
  have undeclared : keyAt keys (extend path part) = none := keyAt_none fun member => by
    obtain ⟨k, inside, same⟩ := mem_map.mp member
    exact fresh (same ▸ growing.present k inside)
  have grow : ∀ {P : Node → Prop}, (∀ node ∈ nodes, P node) → P ⟨extend path part, part, 0, []⟩ →
      ∀ node ∈ nodes ++ [⟨extend path part, part, 0, []⟩], P node :=
    fun old new => forall_mem_append.mpr ⟨old, forall_mem_singleton.mpr new⟩
  refine ⟨⟨⟨?_, older growing.root, grow (fun node old some_ => ?_) fun _ => ?_⟩,
    fun k inside => older (growing.present k inside), grow growing.origin
    fun _ => ⟨key, among, own⟩, grow growing.flags (by rw [undeclared]; rfl),
      grow growing.values (by rw [undeclared]; rfl)⟩, by simp⟩
  · rw [paths]
    exact Parser.nodup_snoc growing.distinct fresh
  · have linked := growing.linked node old some_
    exact ⟨linked.part, linked.path, older linked.parent⟩
  · exact ⟨part_, by rw [parentPath_extend part_], by rw [parentPath_extend part_]; exact older above⟩

theorem Built.addParts (growing : Built named keys nodes) (among : key ∈ named)
    (above : path ∈ nodes.map (·.path)) (own : ∀ part ∈ parts, part ∈ Parser.splitDots key.path ∧ '.' ∉ part)
    (ran : addParts hive key parts path nodes = .ok nodes') : Built named keys nodes' := by
  induction parts generalizing path nodes with
  | nil =>
    cases ran
    exact growing
  | cons part parts ih =>
    rw [Hivec.addParts] at ran
    split at ran
    · cases ran
    next some_ =>
    obtain ⟨here, plain⟩ := own part mem_cons_self
    obtain ⟨next, there⟩ := growing.setdefault above ⟨some_, plain⟩ among here
    exact ih next there (fun p later => own p (mem_cons_of_mem _ later)) ran

@[simp] theorem declare_path (node : Node) : (declare key node).path = node.path := by
  rw [declare]
  split <;> rfl

@[simp] theorem declare_name (node : Node) : (declare key node).name = node.name := by
  rw [declare]
  split <;> rfl

theorem map_declare_path : (nodes.map (declare key)).map (·.path) = nodes.map (·.path) := by
  simp [map_map]

theorem splitDots_chars : ∀ part ∈ Parser.splitDots text, ∀ c ∈ part, c ∈ text ∧ c ≠ '.' := by
  rw [Parser.splitDots, splitOn]
  induction text with
  | nil => simp
  | cons d text ih =>
    have later : ∀ part ∈ splitOnP (· == '.') text, ∀ c ∈ part, c ∈ d :: text ∧ c ≠ '.' :=
      fun part member c inside => ⟨mem_cons_of_mem d (ih part member c inside).1, (ih part member c inside).2⟩
    rw [splitOnP_cons_eq_if_modifyHead]
    split
    · intro part member
      rcases mem_cons.mp member with rfl | rest
      · simp
      · exact later part rest
    next other =>
    cases split_ : splitOnP (· == '.') text with
    | nil => simp
    | cons first rest =>
      rw [split_] at later
      intro part member c inside
      rcases mem_cons.mp member with rfl | rest
      · rcases mem_cons.mp inside with rfl | deeper
        · exact ⟨mem_cons_self, by simpa using other⟩
        · exact later first mem_cons_self c deeper
      · exact later part (mem_cons_of_mem _ rest) c inside

theorem notMem_dot (member : part ∈ Parser.splitDots text) : '.' ∉ part :=
  fun inside => (splitDots_chars part member '.' inside).2 rfl

theorem Built.addKey (built : Built keys keys nodes) (fresh : key.path ∉ keys.map (·.path))
    (ran : addKey hive nodes key = .ok nodes') : Built (keys ++ [key]) (keys ++ [key]) nodes' := by
  obtain ⟨_, grown, ran⟩ := except_bind_ok ran
  have start : Built (keys ++ [key]) keys nodes :=
    ⟨built.toClosed, built.present, fun node inside some_ => by
      obtain ⟨k, member, named⟩ := built.origin node inside some_
      exact ⟨k, mem_append_left _ member, named⟩, built.flags, built.values⟩
  have growing :=
    start.addParts (by simp) built.root (fun _ inside => ⟨inside, notMem_dot inside⟩) grown
  split at ran
  case isFalse => cases ran
  next declared =>
  cases ran
  have undeclared := keyAt_none fresh
  refine ⟨⟨?_, ?_, forall_mem_map.mpr fun old inside some_ => ?_⟩, ?_, forall_mem_map.mpr
    fun old inside some_ => ?_, forall_mem_map.mpr fun old inside => ?_, forall_mem_map.mpr
    fun old inside => ?_⟩
  · rw [map_declare_path]
    exact growing.distinct
  · rw [map_declare_path]
    exact growing.root
  · rw [declare_path] at some_
    have linked := growing.linked old inside some_
    constructor
    · rw [declare_name]
      exact linked.part
    · rw [declare_path, declare_name]
      exact linked.path
    · rw [declare_path, map_declare_path]
      exact linked.parent
  · rw [map_declare_path]
    exact forall_mem_append.mpr ⟨growing.present, forall_mem_singleton.mpr declared⟩
  · rw [declare_path] at some_
    rw [declare_name]
    exact growing.origin old inside some_
  all_goals
    rw [declare_path, keyAt_append]
    by_cases same : old.path = key.path
  · rw [declare, growing.flags old inside, same, undeclared]
    simp
  · rw [declare, if_neg same, if_neg (Ne.symm same), Option.or_none]
    exact growing.flags old inside
  · rw [declare, growing.values old inside, same, undeclared]
    simp
  · rw [declare, if_neg same, if_neg (Ne.symm same), Option.or_none]
    exact growing.values old inside

theorem built_root : Built [] [] [⟨[], [], 0, []⟩] where
  distinct := nodup_singleton _
  root := mem_singleton_self _
  linked := fun _ member some_ => absurd (congrArg Node.path (mem_singleton.mp member)) some_
  present := nofun
  origin := fun _ member some_ => absurd (congrArg Node.path (mem_singleton.mp member)) some_
  flags := fun _ member => congrArg Node.flags (mem_singleton.mp member)
  values := fun _ member => congrArg Node.values (mem_singleton.mp member)

theorem Built.addKeys (built : Built keys keys nodes)
    (distinct : ((keys ++ later).map (·.path)).Nodup)
    (ran : later.foldlM (Hivec.addKey hive) nodes = .ok nodes') :
    Built (keys ++ later) (keys ++ later) nodes' := by
  induction later generalizing keys nodes with
  | nil =>
    cases ran
    rw [append_nil]
    exact built
  | cons key later ih =>
    obtain ⟨_, added, ran⟩ := except_bind_ok ran
    have fresh : key.path ∉ keys.map (·.path) := fun member => by
      rw [map_append, nodup_append] at distinct
      exact distinct.2.2 _ member _ (mem_map_of_mem mem_cons_self) rfl
    have split : keys ++ key :: later = (keys ++ [key]) ++ later := by simp
    rw [split] at distinct ⊢
    exact ih (built.addKey fresh added) distinct ran

theorem buildNodes_built (distinct : (hive.keys.map (·.path)).Nodup)
    (ran : buildNodes hive = .ok nodes) : Built hive.keys hive.keys nodes ∧ ∃ node,
    nodes[0]? = some node ∧ node.path = [] := by
  obtain ⟨unsorted, added, ran⟩ := except_bind_ok ran
  have built := built_root.addKeys distinct added
  cases ran
  constructor
  · refine built.perm ?_
    refine ((perm_insertionSort _ _).append_left _).trans ?_
    simpa using filter_append_perm (fun node : _ => decide (node.path = [])) unsorted
  · obtain ⟨root, inside, rootPath⟩ := mem_map.mp built.root
    have member : root ∈ unsorted.filter (·.path = []) := mem_filter.mpr ⟨inside, decide_eq_true rootPath⟩
    cases first : unsorted.filter (·.path = []) with
    | nil =>
      rw [first] at member
      cases member
    | cons node rest =>
      have here : node ∈ unsorted.filter (·.path = []) := first ▸ mem_cons_self
      exact ⟨node, rfl, of_decide_eq_true (mem_filter.mp here).2⟩

end Otsos.Hivec
