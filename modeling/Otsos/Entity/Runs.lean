import Mathlib.Algebra.Order.BigOperators.Group.Finset
import Otsos.Entity.Effects

/-! Runs of the handle calls by any threads: the lists stay apart, and handles are good until the
generation of a slot no longer fits in the upper half of a positive `int`. -/
namespace Otsos.Entity
open Function (update update_self)
open Intrusive
open List

variable {gen : Nat} {id : UInt64} {e : Event} {src : Source}

/-! ### The slots and their lists -/

/-- Where a slot is: on a list, or in the hands of the kernel, which has no list. -/
inductive Place where
  | free
  | process (p : Pid)
  | kernel

@[local simp] def HandleTable.byKernel (t : HandleTable) (i : Nat) : Bool :=
  t.used i && t.pid i == 0

def At (t : HandleTable) (free : List Nat) (own : Pid → List Nat) (i : Nat) : Place → Prop
  | .free => i ∈ free
  | .process p => i ∈ own p
  | .kernel => t.byKernel i = true

/-- The links lead to the lists `free` and `own`, every slot is in one place, and the counts are the
numbers of slots. A process record that is still cleared has no list yet. -/
structure Parts (t : HandleTable) (free : List Nat) (own : Pid → List Nat) : Prop where
  chain : Chain t.next t.freeHead free
  linked : ∀ p, (t.procs p).zeroed = false → Linked t.next t.prev (t.procs p).head (own p)
  cleared : ∀ p, (t.procs p).zeroed = true → own p = []
  place : ∀ i < entityMaxHandles, ∃! place, At t free own i place
  range : ∀ i, i ∈ free ∨ (∃ p, i ∈ own p) → i < entityMaxHandles
  countProc : ∀ p, (t.procs p).count = (own p).length
  count : ∃ ps : Finset Pid, (∀ p, p ∉ ps → own p = []) ∧
    t.count = ∑ p ∈ ps,
    (own p).length + {i ∈ Finset.range entityMaxHandles | t.byKernel i = true}.card
  countFree : t.count + free.length = entityMaxHandles

def Partitioned (t : HandleTable) : Prop := ∃ free own, Parts t free own

namespace Lists

theorem nodup_own (lists : Lists t free own) (p : Pid) : (own p).Nodup := by
  cases set : (t.procs p).zeroed with
  | true =>
    rw [lists.cleared p set]
    exact nodup_nil
  | false => exact (lists.linked p set).nodup

theorem place (lists : Lists t free own) (range : i < entityMaxHandles) :
    ∃! place, At t free own i place := by
  have freed := lists.mem_free i
  have owned := lists.mem_own
  cases used : t.used i with
  | false =>
    refine ⟨.free, freed.mpr ⟨range, used⟩, fun place there => ?_⟩
    cases place with
    | free => rfl
    | process p =>
      have other := ((owned p i).mp there).2.1
      rw [used] at other
      cases other
    | kernel => simp [At, used] at there
  | true =>
    have notFree : i ∉ free := fun here => by
      have other := (freed.mp here).2
      rw [used] at other
      cases other
    by_cases kernel : t.pid i = 0
    · refine ⟨.kernel, by simp [At, used, kernel], fun place there => ?_⟩
      cases place with
      | free => exact absurd there notFree
      | process p => exact absurd (((owned p i).mp there).2.2.symm.trans kernel) p.pos
      | kernel => rfl
    · refine ⟨.process ⟨t.pid i, kernel⟩, (owned _ i).mpr ⟨range, used, rfl⟩, fun place there => ?_⟩
      cases place with
      | free => exact absurd there notFree
      | process p => rw [Pid.val_inj (p := p) (q := ⟨t.pid i, kernel⟩) ((owned p i).mp there).2.2.symm]
      | kernel => simp [At, kernel] at there

/-- The processes that have a slot. -/
def owners (t : HandleTable) : Finset Pid :=
  ((range entityMaxHandles).filterMap fun i =>
    if pos : t.pid i = 0 then none else some ⟨t.pid i, pos⟩).toFinset

section
variable (lists : Lists t free own)
include lists

theorem mem_owners (here : i ∈ own p) : p ∈ owners t := by
  obtain ⟨range, _, owner⟩ := (lists.mem_own p i).mp here
  rw [owners, mem_toFinset, mem_filterMap]
  refine ⟨i, mem_range.mpr range, ?_⟩
  rw [dif_neg (owner ▸ p.pos)]
  exact congrArg some (Pid.val_inj owner)

theorem count_used : t.count = {i ∈ Finset.range entityMaxHandles | t.used i = true}.card := by
  have split := Finset.card_filter_add_card_filter_not (s := Finset.range entityMaxHandles)
    (fun i => t.used i = true)
  have unused : {i ∈ Finset.range entityMaxHandles | ¬t.used i = true} = free.toFinset := by
    ext i
    rw [Finset.mem_filter, Finset.mem_range, mem_toFinset, lists.mem_free, Bool.not_eq_true]
  rw [unused, toFinset_card_of_nodup lists.chain.nodup, Finset.card_range] at split
  have total := lists.count
  omega

theorem count_sum :
    t.count = ∑ p ∈ owners t,
    (own p).length + {i ∈ Finset.range entityMaxHandles | t.byKernel i = true}.card := by
  have split : {i ∈ Finset.range entityMaxHandles | t.used i = true} =
      (owners t).biUnion (fun p => (own p).toFinset) ∪
        {i ∈ Finset.range entityMaxHandles | t.byKernel i = true} := by
    ext i
    simp only [Finset.mem_filter, Finset.mem_range, Finset.mem_union, Finset.mem_biUnion,
      mem_toFinset, HandleTable.byKernel, Bool.and_eq_true, beq_iff_eq]
    constructor
    · rintro ⟨range, used⟩
      by_cases kernel : t.pid i = 0
      · exact .inr ⟨range, used, kernel⟩
      · have mine : i ∈ own ⟨t.pid i, kernel⟩ := (lists.mem_own _ i).mpr ⟨range, used, rfl⟩
        exact .inl ⟨_, lists.mem_owners mine, mine⟩
    · rintro (⟨p, _, mine⟩ | ⟨range, used, _⟩)
      · obtain ⟨range, used, _⟩ := (lists.mem_own p i).mp mine
        exact ⟨range, used⟩
      · exact ⟨range, used⟩
  have apart : Disjoint ((owners t).biUnion fun p => (own p).toFinset)
      {i ∈ Finset.range entityMaxHandles | t.byKernel i = true} := by
    rw [Finset.disjoint_left]
    intro i
    simp only [Finset.mem_filter, Finset.mem_biUnion, mem_toFinset, HandleTable.byKernel, Bool.and_eq_true, beq_iff_eq]
    rintro ⟨p, _, mine⟩ ⟨_, _, kernel⟩
    exact p.pos (((lists.mem_own p i).mp mine).2.2.symm.trans kernel)
  have pairwise : ∀ p ∈ owners t, ∀ q ∈ owners t, p ≠ q → Disjoint (own p).toFinset (own q).toFinset := by
    intro p _ q _ other
    rw [Finset.disjoint_left]
    intro i here there
    exact other (lists.own_unique (mem_toFinset.mp here) (mem_toFinset.mp there))
  have lengths : ∑ p ∈ owners t, (own p).toFinset.card = ∑ p ∈ owners t, (own p).length :=
    Finset.sum_congr rfl fun p _ => toFinset_card_of_nodup (lists.nodup_own p)
  rw [lists.count_used, split, Finset.card_union_of_disjoint apart, Finset.card_biUnion pairwise,
    lengths]

theorem parts : Parts t free own where
  chain := lists.chain
  linked := lists.linked
  cleared := lists.cleared
  place _ range := lists.place range
  range i := by
    rintro (here | ⟨p, here⟩)
    · exact ((lists.mem_free i).mp here).1
    · exact ((lists.mem_own p i).mp here).1
  countProc p := (lists.length_own p).symm
  count := by
    refine ⟨owners t, fun p outside => ?_, lists.count_sum⟩
    exact eq_nil_iff_forall_not_mem.mpr fun i here => outside (lists.mem_owners here)
  countFree := lists.count

end

end Lists

/-! ### Runs -/

namespace Run

section
variable (run : Run s es hs s')
include run

theorem inv (inv : s.Inv) : s'.Inv := by
  induction run with
  | nil s => exact inv
  | cons allowed rest ih => exact ih (inv.step_effect allowed).2

theorem gen_eq (inv : s.Inv) (small : s.table.gen i + allocations i hs < 0x100000000) :
    s'.table.gen i = s.table.gen i + allocations i hs := by
  induction run with
  | nil s => rfl
  | @cons s s' e es hs allowed rest ih =>
    obtain ⟨eff, inv'⟩ := inv.step_effect allowed
    rw [allocations_append] at small ⊢
    have first := eff.gen_eq (i := i) (by omega)
    rw [ih inv' (by omega), first, Nat.add_assoc]

theorem held (inv : s.Inv) (held : Held s.table p i id access gen)
    (notGiven : .gave p i (handleOf gen i) ∉ hs) : Held s'.table p i id access gen := by
  induction run with
  | nil s => exact held
  | @cons s s' e es hs allowed rest ih =>
    obtain ⟨eff, inv'⟩ := inv.step_effect allowed
    obtain ⟨_, _, lists⟩ := inv.lists
    rw [mem_append, not_or] at notGiven
    rcases eff.held lists held with still | given
    · exact ih inv' still notGiven.2
    · rw [given, HandleTable.handleAt, held.gen] at notGiven
      exact absurd (mem_singleton_self _) notGiven.1

theorem unused (inv : s.Inv) (unused : s.table.used i = false)
    (quiet : allocations i hs = 0) : s'.table.used i = false := by
  induction run with
  | nil s => exact unused
  | @cons s s' e es hs allowed rest ih =>
    obtain ⟨eff, inv'⟩ := inv.step_effect allowed
    rw [allocations_append] at quiet
    rcases eff.unused unused with still | _
    · exact ih inv' still (Nat.eq_zero_of_add_eq_zero_left quiet)
    · omega

end

theorem append (run : Run s es₁ hs₁ m) (run' : Run m es₂ hs₂ s') :
    Run s (es₁ ++ es₂) (hs₁ ++ hs₂) s' := by
  induction run with
  | nil s => exact run'
  | cons allowed rest ih =>
    rw [append_assoc]
    exact .cons allowed (ih run')

theorem split (run : Run s (es₁ ++ es₂) hs s') : ∃ m hs₁ hs₂, Run s es₁ hs₁ m ∧ Run m es₂ hs₂ s' ∧
    hs = hs₁ ++ hs₂ := by
  induction es₁ generalizing s hs with
  | nil => exact ⟨s, [], hs, .nil s, run, rfl⟩
  | cons e es ih =>
    cases run with
    | cons allowed rest =>
      obtain ⟨m, hs₁, hs₂, first, second, rfl⟩ := ih rest
      exact ⟨m, _, hs₂, .cons allowed first, second, (append_assoc _ _ _).symm⟩

theorem deterministic (run : Run s es hs₁ m) (run' : Run s es hs₂ s') : hs₁ = hs₂ ∧ m = s' := by
  induction run generalizing hs₂ with
  | nil s =>
    cases run'
    exact ⟨rfl, rfl⟩
  | cons allowed rest ih =>
    cases run' with
    | cons allowed' rest' =>
      obtain ⟨rfl, rfl⟩ := ih rest'
      exact ⟨rfl, rfl⟩

theorem reaches (run : Run s es hs s') (more : n < allocations i hs) :
    ∃ es₁ e es₂ hs₁ m, es = es₁ ++ e :: es₂ ∧ Run s es₁ hs₁ m ∧ m.Allowed e ∧ allocations i hs₁ = n ∧
      ∃ p id access handle src, (m.step e).2 = some (.took p i id access handle src) := by
  induction run generalizing n with
  | nil s => cases more
  | @cons s s' e es hs allowed rest ih =>
    rw [allocations_append] at more
    have later : ∀ k, k < allocations i hs → allocations i (s.step e).2.toList + k = n →
        ∃ es₁ e' es₂ hs₁ m, e :: es = es₁ ++ e' :: es₂ ∧ Run s es₁ hs₁ m ∧ m.Allowed e' ∧ allocations i hs₁ = n ∧
          ∃ p id access handle src, (m.step e').2 = some (.took p i id access handle src) := by
      intro k below sum
      obtain ⟨es₁, e', es₂, hs₁, m, rfl, first, allowed', number, taken⟩ := ih below
      refine ⟨e :: es₁, e', es₂, _, m, rfl, .cons allowed first, allowed', ?_, taken⟩
      rw [allocations_append, number, sum]
    rcases allocations_toList i (s.step e).2 with _ | ⟨_, taken⟩
    · exact later n (by omega) (by omega)
    · cases n with
      | zero => exact ⟨[], e, es, [], s, rfl, .nil s, allowed, rfl, taken⟩
      | succ k => exact later k (by omega) (by omega)

theorem length_le (run : Run s es hs s') : hs.length ≤ es.length := by
  induction run with
  | nil s => exact Nat.le_refl _
  | @cons s s' e es hs allowed rest ih =>
    have short : (s.step e).2.toList.length ≤ 1 := by
      cases (s.step e).2 <;> simp
    rw [length_append, length_cons]
    omega

end Run

/-! ### Handles over whole runs -/

/-- In every state of the run every slot is in one place, and an allocation for a live entity takes
a slot if one is free; a handle that was given out is not negative and is found until it is given
back; and one that was given back is not found again while its slot is taken less than 2^15
times. -/
structure Valid (es : List Event) : Prop where
  lists : ∀ es₁ es₂ hs s, es = es₁ ++ es₂ → Run .init es₁ hs s → Partitioned s.table
  granted : ∀ es₁ es₂ hs s thread p id access src o, es = es₁ ++ es₂ → Run .init es₁ hs s →
    s.threads thread = .alloc p id access src → id ≠ 0 → access ≠ 0 → o.retained = true →
    (∃ i < entityMaxHandles, s.table.used i = false) →
    ∃ slot handle, (s.step (.step thread o)).2 = some (.took p slot id access handle src)
  taken : ∀ es₁ e es₂ es₃ hs₁ hs₂ s s' p i id access handle src, es = es₁ ++ e :: (es₂ ++ es₃) →
    Run .init es₁ hs₁ s → s.Allowed e → (s.step e).2 = some (.took p i id access handle src) →
    Run (s.step e).1 es₂ hs₂ s' →
    0 ≤ handle ∧ (.gave p i handle ∉ hs₂ → s'.table.lookup p handle = .ok (id, access))
  freed : ∀ es₁ e es₂ es₃ hs₁ hs₂ s s' p i handle, es = es₁ ++ e :: (es₂ ++ es₃) →
    Run .init es₁ hs₁ s → s.Allowed e → (s.step e).2 = some (.gave p i handle) →
    Run (s.step e).1 es₂ hs₂ s' → allocations i hs₂ < 2 ^ 15 →
    ∀ q, s'.table.lookup q handle = .error errBadHandle

theorem Run.partitioned (run : Run .init es hs s) : Partitioned s.table := by
  obtain ⟨free, own, lists⟩ := (run.inv Config.init_inv).lists
  exact ⟨free, own, lists.parts⟩

theorem Run.granted (run : Run .init es hs s) (at_ : s.threads thread = .alloc p id access src)
    (named : id ≠ 0) (asked : access ≠ 0) (live : o.retained = true)
    (room : ∃ i < entityMaxHandles, s.table.used i = false) :
    ∃ slot handle, (s.step (.step thread o)).2 = some (.took p slot id access handle src) := by
  obtain ⟨free, _, lists⟩ := (run.inv Config.init_inv).lists
  obtain ⟨i, range, unused⟩ := room
  obtain ⟨slot, first⟩ : ∃ slot, s.table.freeHead = some slot := by
    have member := (lists.mem_free i).mpr ⟨range, unused⟩
    rw [lists.chain.head_eq]
    exact ⟨_, head?_eq_some_head (ne_nil_of_mem member)⟩
  obtain ⟨t', took⟩ : ∃ t', s.table.take p id access = some (t', slot) := by
    rw [HandleTable.take, first]
    cases p <;> exact ⟨_, rfl⟩
  refine ⟨slot, t'.handleAt slot, ?_⟩
  simp [Config.step, at_, Pc.step, HandleTable.alloc, named, asked, live, took]

theorem Run.taken (run : Run .init es hs s) (allowed : s.Allowed e)
    (took : (s.step e).2 = some (.took p i id access handle src))
    (few : allocations i hs < 2 ^ 15) :
      i < entityMaxHandles ∧ handle = handleOf (allocations i hs + 1) i ∧
      Held (s.step e).1.table p i id access (allocations i hs + 1) := by
  have inv := run.inv Config.init_inv
  obtain ⟨eff, _⟩ := inv.step_effect allowed
  obtain ⟨_, _, lists⟩ := inv.lists
  have before : s.table.gen i = 0 + allocations i hs := run.gen_eq Config.init_inv (by
    show 0 + allocations i hs < _
    omega)
  rw [took] at eff
  generalize (s.step e).1.table = t' at eff
  cases eff with
  | took src ready ran =>
    obtain ⟨_, rfl, _⟩ := lists.take ready ran
    obtain ⟨uses, pids, ids, flags, gens⟩ := HandleTable.take_fields ran
    have after : t'.gen i = allocations i hs + 1 := by
      rw [gens, update_self, succGen_of_lt (by omega)]
      omega
    refine ⟨((lists.mem_free i).mp mem_cons_self).1, by rw [HandleTable.handleAt, after], ?_⟩
    constructor
    · rw [uses, update_self]
    · rw [pids, update_self]
    · rw [ids, update_self]
    · rw [flags, update_self]
    · exact after

theorem Run.allocations_lt (run : Run .init (es₁ ++ e :: es₃) hs s') (first : Run .init es₁ hs₁ s)
    (took : (s.step e).2 = some (.took p i id access handle src)) (few : allocations i hs < n) :
    allocations i hs₁ + 1 < n := by
  obtain ⟨m, _, _, run₁, run₂, rfl⟩ := run.split
  obtain ⟨rfl, rfl⟩ := first.deterministic run₁
  cases run₂ with
  | cons allowed rest =>
    have once : allocations i (some (Happening.took p i id access handle src)).toList = 1 := by
      simp [allocations, Happening.takes]
    rw [took, allocations_append, allocations_append] at few
    omega

theorem Held.lookup (held : Held t p i id access gen) (range : i < entityMaxHandles)
    (small : gen < 0x8000) : t.lookup p (handleOf gen i) = .ok (id, access) := by
  have found := HandleTable.find_handleAt range held.used held.pid (held.gen ▸ small)
  rw [HandleTable.handleAt, held.gen] at found
  rw [HandleTable.lookup, found]
  dsimp only
  rw [held.id, held.flags]

/-- A handle that was given back is refused, whatever happens before its slot has gone through all
generations. -/
theorem Run.refused (run : Run .init es hs s) (allowed : s.Allowed e)
    (gave : (s.step e).2 = some (.gave p i handle)) (later : Run (s.step e).1 es₁ hs₁ s')
    (few : allocations i hs₁ < 2 ^ 15) (q : Owner) :
    s'.table.lookup q handle = .error errBadHandle := by
  have inv := run.inv Config.init_inv
  obtain ⟨eff, inv'⟩ := inv.step_effect allowed
  rw [gave] at eff
  have facts : handle < 0x80000000 ∧ handle = handleOf ((s.step e).1.table.gen i) i ∧
      (s.step e).1.table.gen i < 0x8000 ∧ (s.step e).1.table.used i = false ∧ i < entityMaxHandles := by
    generalize (s.step e).1.table = t' at eff
    cases eff with
    | gave small ran =>
      have found := (HandleTable.drop_inv ran).1
      obtain ⟨uses, _, _, _, gens⟩ := HandleTable.drop_fields ran
      obtain ⟨_, _, range, _⟩ := HandleTable.find_inv found
      obtain ⟨same, bound⟩ := HandleTable.find_handle small found
      rw [gens, uses, update_self]
      exact ⟨small, same, bound, rfl, range⟩
  obtain ⟨small, same, bound, unused, range⟩ := facts
  have grown := later.gen_eq (i := i) inv' (by omega)
  rw [HandleTable.lookup]
  cases found : s'.table.find q handle with
  | none => rfl
  | some j =>
    obtain ⟨again, bound'⟩ := HandleTable.find_handle small found
    obtain ⟨_, _, _, used, _⟩ := HandleTable.find_inv found
    have max : entityMaxHandles = 0x1000 := rfl
    rw [HandleTable.handleAt, handleOf_small bound' (by omega)] at again
    rw [handleOf_small bound (by omega)] at same
    obtain rfl : j = i := by omega
    rw [later.unused inv' unused (by omega)] at used
    cases used

theorem Run.not_valid (run : Run .init es hs s) (many : 2 ^ 15 ≤ allocations i hs) : ¬Valid es := by
  intro valid
  obtain ⟨es₁, e, es₂, hs₁, m, rfl, first, allowed, number, p, id, access, handle, src, took⟩ :=
    run.reaches (i := i) (n := 2 ^ 15 - 1) (by omega)
  have sign :=
    (valid.taken es₁ e [] es₂ hs₁ [] m _ p i id access handle src rfl first allowed took (.nil _)).1
  obtain ⟨_, same, _⟩ := first.taken allowed took (by omega)
  have max : entityMaxHandles = 0x1000 := rfl
  rw [same, number, show 2 ^ 15 - 1 + 1 = 0x8000 from rfl, handleOf_half (by omega)] at sign
  omega

/-- The handles of a run are valid exactly if no slot is taken 2^15 times in it. -/
theorem handles_valid_iff (run : Run .init es hs s) :
    Valid es ↔ ∀ i, allocations i hs < 2 ^ 15 := by
  constructor
  · intro valid i
    by_contra many
    exact run.not_valid (i := i) (by omega) valid
  · intro few
    refine ⟨fun es₁ es₂ hs s _ first => first.partitioned, ?_, ?_, ?_⟩
    · exact fun _ _ _ _ _ _ _ _ _ _ _ first at_ named asked live room => first.granted at_ named asked live room
    · rintro es₁ e es₂ es₃ hs₁ hs₂ s s' p i _ _ handle _ rfl first allowed took later
      have below := run.allocations_lt first took (few i)
      obtain ⟨range, same, held⟩ := first.taken allowed took (by omega)
      have max : entityMaxHandles = 0x1000 := rfl
      have number : handleOf (allocations i hs₁ + 1) i = ↑(allocations i hs₁ + 1) * 0x10000 + i :=
        handleOf_small (by omega) (by omega)
      refine ⟨by omega, fun notGiven => ?_⟩
      have inv := ((first.inv Config.init_inv).step_effect allowed).2
      rw [same] at notGiven ⊢
      exact (later.held inv held notGiven).lookup range (by omega)
    · rintro es₁ e es₂ es₃ hs₁ hs₂ s s' p i handle rfl first allowed gave later few q
      exact first.refused allowed gave later few q

/-- The kernel makes a handle to the entity 1. -/
def allocOne : List Event := [.call 0 (.alloc none 1 1), .step 0 ⟨true, true⟩]

/-- It makes the handle and gives it back. -/
def openClose (handle : Int32) : List Event :=
  allocOne ++ [.call 0 (.free none handle), .step 0 ⟨true, true⟩]

theorem openClose_valid : Valid (openClose 0x10000) := by
  have run : ∃ hs s, Run .init (openClose 0x10000) hs s := by
    refine ⟨_, _, .cons ⟨⟨0, rfl⟩, nofun⟩ (.cons trivial (.cons ⟨⟨_, rfl⟩, nofun⟩ (.cons trivial (.nil _))))⟩
  obtain ⟨hs, s, run⟩ := run
  refine (handles_valid_iff run).mpr fun i => ?_
  have few : allocations i hs ≤ hs.length := countP_le_length
  have short : hs.length ≤ 4 := run.length_le
  omega

/-- The first slot is the next to be taken, for the `gen + 1`st time. -/
structure Config.Next (s : Config) (gen : Nat) : Prop where
  freeHead : s.table.freeHead = some 0
  gen : s.table.gen 0 = gen
  done : ∃ ret, s.threads 0 = .done ret

theorem Run.call {ret : Int}
    (idle : ∃ ret, s.threads 0 = .done ret) (allowed : c.Allowed s.table)
    (starts : c.start s.table = (s.table, pc))
    (steps : pc.step ⟨true, true⟩ s.table = (t', .done ret, what)) :
    ∃ s', Run s [.call 0 c, .step 0 ⟨true, true⟩] what.toList s' ∧ s'.table = t' ∧
    s'.threads 0 = .done ret := by
  have first : s.step (.call 0 c) = (⟨s.table, update s.threads 0 pc⟩, none) := by
    rw [Config.step, starts]
  have second : (⟨s.table, update s.threads 0 pc⟩ : Config).step (.step 0 ⟨true, true⟩) =
      (⟨t', update (update s.threads 0 pc) 0 (.done ret)⟩, what) := by
    rw [Config.step]
    dsimp only
    rw [update_self, steps]
  have run := Run.cons (e := .call 0 c) (s := s) ⟨idle, allowed⟩
    (.cons (e := .step 0 ⟨true, true⟩) trivial (.nil _))
  rw [first, second] at run
  exact ⟨_, by simpa only [Option.toList_none, nil_append, append_nil] using run, rfl, by simp⟩

theorem Config.Next.alloc (next : s.Next gen) (room : gen + 1 < 0x100000000) :
    ∃ s', Run s allocOne [.took none 0 1 1 (handleOf (gen + 1) 0) .granted] s' ∧
      (∃ ret, s'.threads 0 = .done ret) ∧ Held s'.table none 0 1 1 (gen + 1) := by
  have took : s.table.take none 1 1 = some (s.table.mark none 1 1 0, 0) := by
    rw [HandleTable.take, next.freeHead]
    rfl
  obtain ⟨uses, pids, ids, flags, gens⟩ := HandleTable.take_fields took
  have number : (s.table.mark none 1 1 0).gen 0 = gen + 1 := by
    rw [gens, update_self, next.gen, succGen_of_lt room]
  have steps : (Pc.alloc none 1 1 .granted).step ⟨true, true⟩ s.table =
      (s.table.mark none 1 1 0, .done (handleOf (gen + 1) 0),
        some (.took none 0 1 1 (handleOf (gen + 1) 0) .granted)) := by
    rw [Pc.step, HandleTable.alloc, if_neg (by decide), took]
    simp only [Bool.not_true, Bool.false_eq_true, if_false, HandleTable.handleAt, number, Option.map_some]
  obtain ⟨s', run, table, done⟩ :=
    Run.call (c := .alloc none 1 1) next.done (by simp [Call.Allowed]) rfl steps
  refine ⟨s', run, ⟨_, done⟩, ?_⟩
  rw [table]
  exact ⟨by rw [uses, update_self], by rw [pids, update_self],
    by rw [ids, update_self], by rw [flags, update_self], number⟩

theorem Config.Next.openClose (next : s.Next gen) (small : gen + 1 < 0x8000) :
    ∃ handle hs s', Run s (openClose handle) hs s' ∧ allocations 0 hs = 1 ∧ s'.Next (gen + 1) := by
  obtain ⟨m, run, idle, held⟩ := next.alloc (by omega)
  have range : 0 < entityMaxHandles := by decide
  have found := HandleTable.find_handleAt range held.used held.pid (held.gen ▸ small)
  rw [HandleTable.handleAt, held.gen] at found
  have number := handleOf_small small (show 0 < 0x10000 by decide)
  have argument : (Int32.ofInt (handleOf (gen + 1) 0)).toInt = handleOf (gen + 1) 0 := by
    rw [Int32.toInt_ofInt_of_le] <;> omega
  have dropped : m.table.drop none (handleOf (gen + 1) 0) = some (m.table.clear 0, 0) := by
    rw [HandleTable.drop, found]
    rfl
  have steps : (Pc.free none (Int32.ofInt (handleOf (gen + 1) 0))).step ⟨true, true⟩ m.table =
      (m.table.clear 0, .done 0, some (.gave none 0 (handleOf (gen + 1) 0))) := by
    rw [Pc.step, argument, dropped]
  obtain ⟨s', run', table, done⟩ :=
    Run.call (c := .free none _) idle (by simp [Call.Allowed]) rfl steps
  refine ⟨_, _, s', run.append run', rfl, ?_⟩
  constructor
  · rw [table]
    rfl
  · rw [table]
    exact held.gen
  · exact ⟨0, done⟩

theorem run_openClose (gen : Nat) (small : gen < 0x8000) :
    ∃ es hs s, Run .init es hs s ∧ allocations 0 hs = gen ∧ s.Next gen := by
  induction gen with
  | zero => exact ⟨[], [], .init, .nil _, rfl, ⟨rfl, rfl, 0, rfl⟩⟩
  | succ gen ih =>
    obtain ⟨es, hs, s, run, number, next⟩ := ih (by omega)
    obtain ⟨_, _, s', run', once, next'⟩ := next.openClose small
    refine ⟨_, _, s', run.append run', ?_, next'⟩
    rw [allocations_append, number, once]

/-- Opening and closing 2^15 times: the last handle is negative, though it holds a slot. -/
theorem handle_negative : ∃ es hs s, Run .init es hs s ∧
    .took none 0 1 1 (-0x80000000) .granted ∈ hs ∧ s.table.used 0 = true ∧
    s.table.lookup none (-0x80000000) = .error errBadHandle ∧ ¬Valid es := by
  obtain ⟨es, hs, m, run, number, next⟩ := run_openClose 0x7FFF (by decide)
  obtain ⟨s, last, _, held⟩ := next.alloc (by decide)
  have negative : handleOf (0x7FFF + 1) 0 = -0x80000000 := handleOf_half (by decide)
  rw [negative] at last
  have many : 2 ^ 15 ≤ allocations 0 (hs ++ [.took none 0 1 1 (-0x80000000) .granted]) := by
    rw [allocations_append, number]
    decide
  exact ⟨_, _, s, run.append last, by simp, held.used, rfl, (run.append last).not_valid many⟩

end Otsos.Entity
