import Otsos.Foundation.Transition
import Otsos.Map.Fork

/-! Runs of the map functions, over all maps at once. -/
namespace Otsos.VmMaps
open Function (update)
open RedBlack RedBlack.Tree
open Transition (Reaches exec)

/-- The entry points with their arguments; `pick` is what the entry zone answers. -/
inductive Op (ω : Type) where
  | init (m : Nat) (minAddr maxAddr : UInt64)
  | insert (pick : VmMaps ω → Option Nat) (m : Nat) (start stop : UInt64)
      (prot flags gemHandle : UInt32) (object : Option Nat) (objectOffset : UInt64)
  | remove (m : Nat) (addr : UInt64)
  | removeRange (pick : VmMaps ω → Option Nat) (m : Nat) (start stop : UInt64)
  | clipRange (pick : VmMaps ω → Option Nat) (m : Nat) (start stop : UInt64)
  | relocate (m e : Nat) (newStart newStop : UInt64)
  | fork (pick : VmMaps ω → Option Nat) (parent child : Nat)
  | freeAll (m : Nat)

/-- The state of a run, with the maps that have been initialised. -/
structure Session (ω : Type) where
  state : VmMaps ω
  ready : List Nat

namespace Session

def step (env : Backing ω) (r : Session ω) : Op ω → Option (Session ω)
  | .init m minAddr maxAddr =>
    let (s, result) := r.state.init m minAddr.toNat maxAddr.toNat
    some ⟨s, if result = 0 then m :: r.ready else r.ready⟩
  | .insert pick m start stop prot flags gemHandle object objectOffset =>
    (r.state.insert env pick m start.toNat stop.toNat prot flags gemHandle object
      objectOffset.toNat).map fun answer => ⟨answer.1, r.ready⟩
  | .remove m addr => (r.state.remove env m addr.toNat).map fun answer => ⟨answer.1, r.ready⟩
  | .removeRange pick m start stop =>
    (r.state.removeRange env pick m start.toNat stop.toNat).map fun answer => ⟨answer.1, r.ready⟩
  | .clipRange pick m start stop =>
    (r.state.clipRange env pick m start.toNat stop.toNat).map fun answer => ⟨answer.1, r.ready⟩
  | .relocate m e newStart newStop =>
    (r.state.relocate m e newStart.toNat newStop.toNat).map fun answer => ⟨answer.1, r.ready⟩
  | .fork pick parent child =>
    (r.state.fork env pick parent child).map fun answer => ⟨answer.1, r.ready⟩
  | .freeAll m => (r.state.freeAll env m).map fun s => ⟨s, r.ready⟩

end Session

/-- The entries of a map, along its thread. -/
def entries (s : VmMaps ω) (m : Nat) : List Nat :=
  Intrusive.walk s.next (s.header m).entryCount (s.header m).head

/-- The pointers passed are to initialised maps and to an entry of the map. -/
def Accepts (r : Session ω) : Op ω → Prop
  | .init .. => True
  | .insert _ m .. | .remove m _ | .removeRange _ m .. | .clipRange _ m .. | .freeAll m =>
    m ∈ r.ready
  | .relocate m e .. => m ∈ r.ready ∧ e ∈ entries r.state m
  | .fork _ parent child => parent ∈ r.ready ∧ child ∈ r.ready

/-- Entries that the child of a fork has already overlap none of the parent's and fit into the
parent's bounds. A child that has just been initialised has none. -/
def Separate (r : Session ω) : Op ω → Prop
  | .fork _ parent child =>
    (∀ x ∈ entries r.state parent,
      Unused r.state (r.state.entry x).start (r.state.entry x).stop none (entries r.state child)) ∧
    ∀ y ∈ entries r.state child, (r.state.header parent).minAddr ≤ (r.state.entry y).start ∧
      (r.state.entry y).stop ≤ (r.state.header parent).maxAddr
  | _ => True

def AcceptedStep (env : Backing ω) (r r' : Session ω) : Prop :=
  ∃ op, Accepts r op ∧ r.step env op = some r'

def SeparateStep (env : Backing ω) (r r' : Session ω) : Prop :=
  ∃ op, Accepts r op ∧ Separate r op ∧ r.step env op = some r'

/-- The representation invariant of a map: the tree `t` is a red-black search tree on the start
addresses, the thread is its in-order traversal, and the ranges are proper and disjoint. -/
structure Represents (s : VmMaps ω) (m : Nat) (t : RedBlack.Tree Nat) : Prop where
  links : At (s.tree m) [] t
  redBlack : t.Valid
  search : t.toList.Pairwise fun a b => (s.entry a).start < (s.entry b).start
  thread : Intrusive.Queue s.next s.prev (s.header m).head (s.header m).tail t.toList
  nonempty : ∀ e ∈ t.toList, (s.entry e).start < (s.entry e).stop
  disjoint : t.toList.Pairwise fun a b =>
    (s.entry a).stop ≤ (s.entry b).start ∨ (s.entry b).stop ≤ (s.entry a).start
  inside : ∀ e ∈ t.toList, (s.header m).minAddr ≤ (s.entry e).start ∧
    (s.entry e).stop ≤ (s.header m).maxAddr
  count : (s.header m).entryCount = t.toList.length

def WellFormed (s : VmMaps ω) (m : Nat) : Prop := ∃ t, Represents s m t

theorem MapInv.wellFormed (inv : MapInv s m l) : WellFormed s m := by
  obtain ⟨t, links, valid, rfl⟩ := inv.shape.tree
  refine ⟨t, links, valid, ?_, inv.shape.thread, inv.ranges.nonempty, ?_, inv.ranges.inside,
    inv.shape.count⟩
  · refine inv.ranges.sorted.imp_of_mem fun {a b} ina _ order => ?_
    exact Nat.lt_of_lt_of_le (inv.ranges.nonempty a ina) order
  · exact inv.ranges.sorted.imp fun order => .inl order

theorem MapInv.entries_eq (inv : MapInv s m l) : entries s m = l := by
  rw [entries, inv.shape.count, inv.shape.thread.head_eq]
  exact Intrusive.walk_seg inv.shape.thread.seg

/-- The initialised maps of a session and their entries. -/
def Session.Good (r : Session ω) : Prop :=
  ∃ own, Maps r.state own ∧ ∀ m, m ∈ r.ready ↔ (own m).isSome

variable {r : Session ω}

theorem Session.Good.inv (good : r.Good) (ready : m ∈ r.ready) :
    MapInv r.state m (entries r.state m) := by
  obtain ⟨_, maps, domain⟩ := good
  obtain ⟨l, holds⟩ := Option.isSome_iff_exists.mp ((domain m).mp ready)
  have inv := maps.inv m l holds
  rwa [inv.entries_eq]

theorem Session.Good.update {own : Owners} {ready : List Nat}
    (maps : Maps s' (update own m (some l'))) (holds : own m = some l)
    (domain : ∀ m, m ∈ ready ↔ (own m).isSome) : Session.Good ⟨s', ready⟩ := by
  refine ⟨_, maps, fun m' => ?_⟩
  by_cases here : m' = m
  · subst here
    simp [domain, holds]
  · simp [domain, here]

/-- A call on an initialised map that leaves the maps in order. -/
theorem Session.Good.call (good : r.Good) (ready : m ∈ r.ready)
    {answer : Option (VmMaps ω × Int)} (spec : ∀ own l, Maps r.state own →
      (∀ m, m ∈ r.ready ↔ (own m).isSome) → own m = some l → Kept own m answer) :
    ∃ r', answer.map (fun answer => ⟨answer.1, r.ready⟩) = some r' ∧ Session.Good r' := by
  obtain ⟨own, maps, domain⟩ := good
  obtain ⟨l, holds⟩ := Option.isSome_iff_exists.mp ((domain m).mp ready)
  obtain ⟨s', result, l', rfl, maps'⟩ := spec own l maps domain holds
  exact ⟨⟨s', r.ready⟩, rfl, .update maps' holds domain⟩

theorem MapInv.empty (s : VmMaps ω) (m lo hi hint : Nat) (fits : hi < 2 ^ 64) :
    MapInv (s.setHeader m fun _ => ⟨none, none, none, lo, hi, hint, 0⟩) m [] := by
  refine ⟨⟨⟨leaf, ⟨?_, trivial, by simp [toList, keys]⟩, ⟨rfl, 0, rfl⟩, rfl⟩, ?_, ?_⟩,
    ⟨List.Pairwise.nil, by simp, by simp⟩, by simp, by simpa [setHeader] using fits⟩
  · simp [tree, setHeader, RedBlack.Path, root?]
  · simpa [setHeader] using Intrusive.Queue.nil
  · simp [setHeader]

variable {env : Backing ω}

theorem init_good (good : r.Good) (m : Nat) (lo hi : UInt64) :
    ∃ r', r.step env (.init m lo hi) = some r' ∧ r'.Good := by
  obtain ⟨own, maps, domain⟩ := good
  by_cases bad : lo.toNat ≥ hi.toNat ∨ lo.toNat % pageSize ≠ 0 ∨ hi.toNat % pageSize ≠ 0
  · exact ⟨r, by simp [Session.step, VmMaps.init, bad], own, maps, domain⟩
  have empty := MapInv.empty r.state m lo.toNat hi.toNat lo.toNat hi.toNat_lt
  refine ⟨⟨_, m :: r.ready⟩, by simp only [Session.step, VmMaps.init, if_neg bad]; rfl,
    update own m (some []), maps.assign empty (by simp) (fun m' other => ?_) fun _ _ _ _ x _ =>
    .of_links rfl rfl rfl rfl rfl rfl rfl, fun m' => ?_⟩
  · simp [other]
  · by_cases here : m' = m
    · simp [here]
    · simp [here, domain]

theorem step_good (env : Backing ω) (good : r.Good) (accepted : Accepts r op)
    (separate : Separate r op) : ∃ r', r.step env op = some r' ∧ r'.Good := by
  cases op with
  | init m lo hi => exact init_good good m lo hi
  | insert pick m start stop prot flags gemHandle object objectOffset =>
    exact good.call accepted fun own l maps _ holds => insert_spec env pick maps holds start.toNat
      stop.toNat prot flags gemHandle object objectOffset.toNat
  | remove m addr =>
    exact good.call accepted fun own l maps _ holds => remove_spec env maps holds addr.toNat
  | removeRange pick m start stop =>
    exact good.call accepted fun own l maps _ holds =>
      removeRange_spec env pick maps holds start.toNat stop.toNat
  | clipRange pick m start stop =>
    exact good.call accepted fun own l maps _ holds =>
      clipRange_spec env pick maps holds start.toNat stop.toNat
  | relocate m e newStart newStop =>
    refine good.call accepted.1 fun own l maps _ holds => ?_
    have member : e ∈ l := (maps.inv m l holds).entries_eq ▸ accepted.2
    exact relocate_spec maps holds member newStart.toNat newStop.toNat
  | fork pick parent child =>
    refine good.call accepted.2 fun own lc maps domain holdsc => ?_
    obtain ⟨lp, holdsp⟩ := Option.isSome_iff_exists.mp ((domain parent).mp accepted.1)
    simp only [Separate, (maps.inv parent lp holdsp).entries_eq,
      (maps.inv child lc holdsc).entries_eq] at separate
    exact fork_spec env pick maps holdsp holdsc separate.1 separate.2
  | freeAll m =>
    obtain ⟨own, maps, domain⟩ := good
    obtain ⟨l, holds⟩ := Option.isSome_iff_exists.mp ((domain m).mp accepted)
    obtain ⟨s', computed, maps'⟩ := freeFrom_spec env ((r.state.header m).entryCount + 1) maps holds
      (by rw [(maps.inv m l holds).shape.count]; omega)
    exact ⟨⟨s', r.ready⟩, by simp [Session.step, freeAll, computed], .update maps' holds domain⟩

theorem run_good (run : Relation.ReflTransGen (SeparateStep env) ⟨s₀, []⟩ r) : r.Good := by
  induction run with
  | refl => exact ⟨fun _ => none, ⟨by simp, by simp⟩, by simp⟩
  | tail _ stepped ih =>
    obtain ⟨_, accepted, separate, computed⟩ := stepped
    obtain ⟨_, computed', _⟩ := step_good env ih accepted separate
    rw [computed, Option.some.injEq] at computed'
    rwa [computed']

/-- In every run from any memory contents, whatever the other components do, every initialised map
has its representation invariant, and the next accepted call does not fault. -/
theorem run_wellFormed (env : Backing ω) (s₀ : VmMaps ω) (r : Session ω)
    (run : Relation.ReflTransGen (SeparateStep env) ⟨s₀, []⟩ r) : (∀ m ∈ r.ready, WellFormed r.state m) ∧
      ∀ op, Accepts r op → Separate r op → ∃ r', r.step env op = some r' := by
  have good := run_good run
  constructor
  · exact fun m ready => (good.inv ready).wellFormed
  · intro op accepted separate
    obtain ⟨r', computed, _⟩ := step_good env good accepted separate
    exact ⟨r', computed⟩

section Concrete

instance (r : Session ω) : (op : Op ω) → Decidable (Accepts r op)
  | .init .. => isTrue trivial
  | .insert _ m .. | .remove m _ | .removeRange _ m .. | .clipRange _ m .. | .freeAll m =>
    inferInstanceAs (Decidable (m ∈ r.ready))
  | .relocate m e .. => inferInstanceAs (Decidable (m ∈ r.ready ∧ e ∈ entries r.state m))
  | .fork _ parent child => inferInstanceAs (Decidable (parent ∈ r.ready ∧ child ∈ r.ready))

instance (s : VmMaps ω) (start stop : Nat) (ignore : Option Nat) (l : List Nat) :
    Decidable (Unused s start stop ignore l) :=
  inferInstanceAs (Decidable (∀ e ∈ l, _))

instance (r : Session ω) : (op : Op ω) → Decidable (Separate r op)
  | .fork .. => inferInstanceAs (Decidable (_ ∧ _))
  | .init .. | .insert .. | .remove .. | .removeRange .. | .clipRange .. | .relocate .. | .freeAll .. =>
    isTrue trivial

/-- Components that keep no state; a shadow of an object is the next one. -/
def stateless : Backing Unit where
  objectRef w _ := w
  objectUnref w _ := w
  createShadow w object := (w, some (object + 1))
  isShm _ _ := false
  shmAttach w _ := w
  shmDetach w _ := w
  extract _ _ := 0
  freePhys w _ := w
  pmapRemove w _ := w

def firstUnused (s : VmMaps ω) : Option Nat := (List.range 8).find? fun e => !s.live e

def blank : VmMaps Unit where
  rbChild _ _ := none
  rbParent _ := none
  rbColor _ := .red
  next _ := none
  prev _ := none
  entry _ := default
  live _ := false
  header _ := default
  env := ()

/-- Two regions and a hole cut into the second, then a fork into a new map. -/
def forkRun : List (Op Unit) :=
  [.init 0 0x1000 0x100000, .init 1 0x1000 0x100000,
    .insert firstUnused 0 0x1000 0x3000 3 2 0 (some 0) 0,
    .insert firstUnused 0 0x8000 0xc000 3 2 0 (some 4) 0, .removeRange firstUnused 0 0x9000 0xa000,
    .fork firstUnused 0 1]

/-- Two mapped files, the second from its third page on. -/
def fileRun : List (Op Unit) :=
  [.init 0 0x1000 0x100000, .insert firstUnused 0 0x1000 0x3000 1 2 0 (some 0) 0,
    .insert firstUnused 0 0x8000 0xc000 1 2 0 (some 4) 0x2000]

/-- Run the calls as long as each is accepted and separate. -/
def runSeparate (ops : List (Op Unit)) : Option (Session Unit) :=
  exec (Session.step stateless) (fun r op => Accepts r op ∧ Separate r op) ⟨blank, []⟩ ops

theorem runSeparate_reached {r : Session Unit} (ran : runSeparate ops = some r) :
    Relation.ReflTransGen (SeparateStep stateless) ⟨blank, []⟩ r :=
  Relation.ReflTransGen.mono (fun _ _ ⟨op, both, taken⟩ => ⟨op, both.1, both.2, taken⟩) _ _
    (Reaches.of_exec ran)

theorem run_wellFormed_forkRun : ∃ r : Session Unit,
    Relation.ReflTransGen (SeparateStep stateless) ⟨blank, []⟩ r ∧ r.ready = [1, 0] ∧
      (entries r.state 0).length = 3 ∧ (entries r.state 1).length = 3 ∧
      ∀ m ∈ r.ready, WellFormed r.state m := by
  obtain ⟨r, ran, ready, first, second⟩ : ∃ r, runSeparate forkRun = some r ∧ r.ready = [1, 0] ∧
      (entries r.state 0).length = 3 ∧ (entries r.state 1).length = 3 := Loop.exists_of_any (by decide +kernel)
  have reached := runSeparate_reached ran
  exact ⟨r, reached, ready, first, second, (run_wellFormed stateless blank r reached).1⟩

/-- Nothing keeps `vm_map_fork` from linking the copies over entries that the child has already. -/
theorem fork_overlaps_used_child : ∃ r : Session Unit,
    Relation.ReflTransGen (AcceptedStep stateless) ⟨blank, []⟩ r ∧ 1 ∈ r.ready ∧
    ¬WellFormed r.state 1 := by
  obtain ⟨r, ran, ready, starts⟩ : ∃ r, exec (Session.step stateless) Accepts ⟨blank, []⟩ [.init 0 0x1000 0x100000,
      .init 1 0x1000 0x100000, .insert firstUnused 0 0x1000 0x3000 3 2 0 (some 0) 0,
      .insert firstUnused 1 0x1000 0x2000 3 2 0 (some 4) 0, .fork firstUnused 0 1] = some r ∧
      1 ∈ r.ready ∧ ((entries r.state 1).map fun e => (r.state.entry e).start) = [0x1000, 0x1000] :=
    Loop.exists_of_any (by decide +kernel)
  refine ⟨r, Reaches.of_exec ran, ready, ?_⟩
  rintro ⟨t, represents⟩
  have walked : entries r.state 1 = t.toList := by
    rw [entries, represents.count, represents.thread.head_eq]
    exact Intrusive.walk_seg represents.thread.seg
  have sorted : ((entries r.state 1).map fun e => (r.state.entry e).start).Pairwise (· < ·) := by
    rw [walked]
    exact List.pairwise_map.mpr represents.search
  rw [starts] at sorted
  simp at sorted

end Concrete

end Otsos.VmMaps
