import Mathlib.Data.List.Perm.Subperm
import Otsos.Foundation.Chain
import Otsos.Entity.Handle

/-! The free list and the lists of the processes, through every change of the table. -/
namespace Otsos.Entity
open Function (update update_of_ne update_self)
open Intrusive
open List Option

/-- `free` is the free list and `own p` the list of the process `p`. -/
structure Lists (t : HandleTable) (free : List Nat) (own : Pid → List Nat) : Prop where
  chain : Chain t.next t.freeHead free
  mem_free : ∀ i, i ∈ free ↔ i < entityMaxHandles ∧ t.used i = false
  linked : ∀ p, (t.procs p).zeroed = false → Linked t.next t.prev (t.procs p).head (own p)
  cleared : ∀ p, (t.procs p).zeroed = true → own p = []
  mem_own : ∀ p i, i ∈ own p ↔ i < entityMaxHandles ∧ t.used i = true ∧ t.pid i = p.val
  length_own : ∀ p, ((own p).length : Int) = (t.procs p).count
  count : t.count + free.length = entityMaxHandles

variable {t : HandleTable} {q : Pid} {id : UInt64} {handle : Int}

theorem Pid.val_inj (same : p.val = q.val) : p = q := by
  cases p
  cases q
  cases same
  rfl

/-- The owner of a new handle gets it at the front of its list. -/
def push (own : Pid → List Nat) (p : Owner) (slot : Nat) : Pid → List Nat :=
  match p with
  | none => own
  | some p => update own p (slot :: own p)

namespace HandleTable

/-- Whether the owner may make calls. -/
def Ready (t : HandleTable) (p : Owner) : Prop := ∀ q, p = some q → (t.procs q).zeroed = false

/-- The table once the slot has been taken, before it is linked. -/
def mark (t : HandleTable) (p : Owner) (id : UInt64) (access : UInt32) (slot : Nat) : HandleTable :=
  { t with
    freeHead := t.next slot
    used := update t.used slot true
    pid := update t.pid slot p.pid
    id := update t.id slot id
    flags := update t.flags slot access
    gen := update t.gen slot (succGen (t.gen slot))
    count := t.count + 1 }

/-- The table once the slot has been given back, up to the count of the process. -/
def clear (t : HandleTable) (slot : Nat) : HandleTable :=
  { t with
    used := update t.used slot false
    pid := update t.pid slot 0
    id := update t.id slot 0
    flags := update t.flags slot 0
    next := update t.next slot t.freeHead
    freeHead := some slot
    count := t.count - 1 }

theorem take_inv (ran : t.take p id access = some (t', slot)) :
    t.freeHead = some slot ∧ t' = p.elim (t.mark p id access slot) fun q =>
    (t.mark p id access slot).link q slot := by
  rw [take] at ran
  split at ran
  · cases ran
  next here =>
  cases p <;> cases ran <;> exact ⟨here, rfl⟩

theorem find_inv (found : t.find p handle = some slot) :
    0 ≤ handle ∧ slot = handleWord handle % 0x10000 ∧ slot < entityMaxHandles ∧ t.used slot = true ∧
      t.pid slot = p.pid ∧ t.gen slot = handleWord handle / 0x10000 := by
  rw [find] at found
  iterate 3
    split at found
    · cases found
  next sign range held =>
  cases found
  simp only [not_or, not_not, Bool.not_eq_eq_eq_not, Bool.not_true, Bool.not_eq_false] at held
  exact ⟨by omega, rfl, by omega, held.1, held.2.1, held.2.2⟩

theorem drop_inv (ran : t.drop p handle = some (t', slot)) :
    t.find p handle = some slot ∧ t' = p.elim (t.clear slot) fun q =>
      let u := (t.unlink q slot).clear slot
      { u with procs := update u.procs q { u.procs q with count := max ((u.procs q).count - 1) 0 } } := by
  rw [drop] at ran
  split at ran
  · cases ran
  next here =>
  cases p <;> cases ran <;> exact ⟨here, rfl⟩

theorem link_eq (t : HandleTable) (q : Pid) (slot : Nat) : t.link q slot = { t with
      prev := (t.procs q).head.elim (update t.prev slot none) fun h =>
        update (update t.prev slot none) h (some slot)
      next := update t.next slot (t.procs q).head
      procs := update t.procs q ⟨some slot, (t.procs q).count + 1⟩ } := by
  rw [link]
  cases (t.procs q).head <;> rfl

theorem unlink_eq (t : HandleTable) (q : Pid) (slot : Nat) : t.unlink q slot = { t with
      prev := update ((t.next slot).elim t.prev fun a => update t.prev a (t.prev slot)) slot none
      next := update ((t.prev slot).elim t.next fun b => update t.next b (t.next slot)) slot none
      procs := if t.prev slot = none ∧ (t.procs q).head = some slot then
          update t.procs q { t.procs q with head := t.next slot }
        else t.procs } := by
  rw [unlink]
  cases t.prev slot <;> cases t.next slot <;> by_cases first : (t.procs q).head = some slot <;>
    simp [first, setHead]

theorem initProcess_self : (t.initProcess q).procs q = ⟨none, 0⟩ := update_self _ _ _

theorem initProcess_of_ne (other : p ≠ q) : (t.initProcess q).procs p = t.procs p :=
  update_of_ne other _ _

end HandleTable

namespace Lists
open HandleTable (initProcess_self initProcess_of_ne)

section
variable (lists : Lists t free own)
include lists

theorem own_unique (here : i ∈ own p) (there : i ∈ own q) : p = q :=
  Pid.val_inj (((lists.mem_own p i).mp here).2.2.symm.trans ((lists.mem_own q i).mp there).2.2)

theorem not_free (here : i ∈ own q) : i ∉ free := by
  intro there
  have used := ((lists.mem_own q i).mp here).2.1
  rw [((lists.mem_free i).mp there).2] at used
  cases used

theorem take (ready : t.Ready p) (ran : t.take p id access = some (t', slot)) :
    ∃ rest, free = slot :: rest ∧ Lists t' rest (push own p slot) := by
  obtain ⟨first, rfl⟩ := HandleTable.take_inv ran
  obtain ⟨rest, rfl⟩ : ∃ rest, free = slot :: rest := by
    have head := lists.chain.head_eq
    rw [first] at head
    exact ⟨free.tail, (cons_head?_tail head.symm).symm⟩
  refine ⟨rest, rfl, ?_⟩
  obtain ⟨fresh, _⟩ := nodup_cons.mp lists.chain.nodup
  obtain ⟨range, _⟩ := (lists.mem_free slot).mp mem_cons_self
  have notOwned : ∀ q, slot ∉ own q := fun q here => lists.not_free here mem_cons_self
  have freed : ∀ i, i ∈ rest ↔ i < entityMaxHandles ∧ update t.used slot true i = false := by
    intro i
    by_cases same : i = slot
    · subst same
      simp [fresh]
    · rw [update_of_ne same, ← lists.mem_free]
      simp [same]
  have counted : t.count + 1 + rest.length = entityMaxHandles := by
    have total := lists.count
    rw [length_cons] at total
    omega
  cases p with
  | none =>
    have owned : ∀ q i, i ∈ own q ↔ i < entityMaxHandles ∧ update t.used slot true i = true ∧
        update t.pid slot 0 i = q.val := by
      intro q i
      by_cases same : i = slot
      · subst same
        simp [notOwned, q.pos.symm]
      · rw [update_of_ne same, update_of_ne same, lists.mem_own]
    exact ⟨lists.chain.2, freed, lists.linked, lists.cleared, owned, lists.length_own, counted⟩
  | some p =>
    have set := ready p rfl
    have linked := lists.linked p set
    rw [elim_some, HandleTable.link_eq]
    refine ⟨?_, freed, ?_, ?_, ?_, ?_, counted⟩
    · refine lists.chain.2.frame fun i member => update_of_ne ?_ _ _
      rintro rfl
      exact fresh member
    · intro q notCleared
      by_cases same : q = p
      · subst same
        simp only [push, update_self]
        exact linked.pushFront (notOwned q)
      simp only [push, update_of_ne same] at notCleared ⊢
      refine (lists.linked q notCleared).frame (fun i member => ?_) fun i member => ?_
      all_goals have apart : i ≠ slot := fun here => notOwned q (here ▸ member)
      · exact update_of_ne apart _ _
      · have notFirst : (t.procs p).head ≠ some i := fun here =>
          same (lists.own_unique member (mem_of_mem_head? (linked.head_eq.symm.trans here)))
        exact (Linked.elim_update_of_ne notFirst).trans (update_of_ne apart _ _)
    · intro q cleared
      by_cases same : q = p
      · subst same
        have length := lists.length_own q
        simp only [update_self, ProcHandles.zeroed, decide_eq_true_eq, HandleTable.mark] at cleared
        omega
      · simp only [push, update_of_ne same] at cleared ⊢
        exact lists.cleared q cleared
    · intro q i
      by_cases here : i = slot
      · subst here
        by_cases same : q = p
        · subst same
          simp [push, range, HandleTable.mark, Owner.pid]
        · have other : p.val ≠ q.val := fun eq => same (Pid.val_inj eq).symm
          simp [push, same, notOwned, HandleTable.mark, Owner.pid, other]
      · have kept : i ∈ push own (some p) slot q ↔ i ∈ own q := by
          by_cases same : q = p
          · subst same
            simp [push, here]
          · simp [push, same]
        simp only [kept, HandleTable.mark, update_of_ne here, lists.mem_own]
    · intro q
      by_cases same : q = p
      · subst same
        simp only [push, update_self, HandleTable.mark, ← lists.length_own]
        rfl
      · simp only [push, update_of_ne same]
        exact lists.length_own q

theorem count_pos (range : slot < entityMaxHandles) (used : t.used slot = true) : 0 < t.count := by
  have fresh : slot ∉ free := fun here => by
    rw [((lists.mem_free slot).mp here).2] at used
    cases used
  have inside : slot :: free ⊆ List.range entityMaxHandles := by
    intro i member
    rw [mem_range]
    rcases mem_cons.mp member with rfl | here
    · exact range
    · exact ((lists.mem_free i).mp here).1
  have short := (List.Nodup.subperm (nodup_cons.mpr ⟨fresh, lists.chain.nodup⟩) inside).length_le
  rw [length_cons, length_range] at short
  have total := lists.count
  omega

theorem take_set (ran : t.take p id access = some (t', slot))
    (set : (t.procs q).zeroed = false) : (t'.procs q).zeroed = false := by
  obtain ⟨_, rfl⟩ := HandleTable.take_inv ran
  cases p with
  | none => exact set
  | some p =>
    rw [elim_some, HandleTable.link_eq]
    dsimp only
    by_cases same : q = p
    · subst same
      have length := lists.length_own q
      rw [update_self, ProcHandles.zeroed, decide_eq_false_iff_not]
      rintro ⟨_, zero⟩
      have positive : (t.procs q).count + 1 = 0 := zero
      omega
    · rwa [update_of_ne same]

theorem head_unlink (set : (t.procs q).zeroed = false) (split : own q = l₁ ++ slot :: l₂) :
    ((t.unlink q slot).procs q).head = (l₁ ++ l₂).head? := by
  have linked := lists.linked q set
  rw [split] at linked
  obtain ⟨before, after⟩ := linked.links_at
  rw [HandleTable.unlink_eq]
  cases l₁ with
  | nil =>
    rw [if_pos ⟨before, linked.head_eq⟩]
    simpa using after
  | cons first l =>
    have notFirst : ¬(t.prev slot = none ∧ (t.procs q).head = some slot) := by
      rintro ⟨none, _⟩
      rw [before] at none
      simp at none
    rw [if_neg notFirst, linked.head_eq]
    rfl

end

theorem procs_unlink (t : HandleTable) (q : Pid) (slot : Nat) :
    (∀ q', q' ≠ q → (t.unlink q slot).procs q' = t.procs q') ∧
      ((t.unlink q slot).procs q).count = (t.procs q).count := by
  rw [HandleTable.unlink_eq]
  refine ⟨fun q' other => ?_, ?_⟩
  · split
    · exact update_of_ne other _ _
    · rfl
  · dsimp only
    split
    · rw [update_self]
    · rfl

theorem drop_set (lists : Lists t free own) (ran : t.drop p handle = some (t', slot))
    (set : (t.procs q).zeroed = false) : (t'.procs q).zeroed = false := by
  obtain ⟨found, rfl⟩ := HandleTable.drop_inv ran
  obtain ⟨_, _, range, used, owner, _⟩ := HandleTable.find_inv found
  cases p with
  | none => exact set
  | some p =>
    obtain ⟨others, _⟩ := procs_unlink t p slot
    have procs : ((t.unlink p slot).clear slot).procs = (t.unlink p slot).procs := rfl
    rw [elim_some]
    dsimp only
    rw [procs]
    by_cases same : q = p
    · subst same
      obtain ⟨_, _, split⟩ := append_of_mem ((lists.mem_own q slot).mpr ⟨range, used, owner⟩)
      have length := lists.length_own q
      rw [split, length_append, length_cons] at length
      rw [update_self, ProcHandles.zeroed, decide_eq_false_iff_not]
      rintro ⟨first, zero⟩
      -- a list with a first node is not of length 0
      dsimp only at zero
      rw [lists.head_unlink set split] at first
      have nonempty := length_pos_of_mem (mem_of_mem_head? first)
      rw [length_append] at nonempty
      omega
    · rwa [update_of_ne same, others q same]

theorem drop (lists : Lists t free own) (ran : t.drop p handle = some (t', slot)) :
    ∃ own', Lists t' (slot :: free) own' := by
  obtain ⟨found, result⟩ := HandleTable.drop_inv ran
  obtain ⟨_, _, range, used, owner, _⟩ := HandleTable.find_inv found
  have counted := lists.count
  have positive := lists.count_pos range used
  have fresh : slot ∉ free := fun here => by
    rw [((lists.mem_free slot).mp here).2] at used
    cases used
  have freed : ∀ i, i ∈ slot :: free ↔ i < entityMaxHandles ∧ update t.used slot false i = false := by
    intro i
    by_cases same : i = slot
    · subst same
      simp [range]
    · rw [update_of_ne same, ← lists.mem_free]
      simp [same]
  have total : t.count - 1 + (slot :: free).length = entityMaxHandles := by
    rw [length_cons]
    omega
  cases p with
  | none =>
    subst result
    have notOwned : ∀ q, slot ∉ own q := fun q here =>
      q.pos (((lists.mem_own q slot).mp here).2.2.symm.trans owner)
    refine ⟨own, ⟨⟨rfl, ?_⟩, freed, ?_, lists.cleared, ?_, lists.length_own, total⟩⟩
    · rw [elim_none, HandleTable.clear]
      dsimp only
      rw [update_self]
      refine lists.chain.frame fun i member => update_of_ne ?_ _ _
      exact fun same => fresh (same ▸ member)
    · intro q set
      refine (lists.linked q set).frame (fun i member => update_of_ne ?_ _ _) fun _ _ => rfl
      exact fun same => notOwned q (same ▸ member)
    · intro q i
      by_cases same : i = slot
      · subst same
        simp [notOwned, HandleTable.clear]
      · simp [HandleTable.clear, same, lists.mem_own]
  | some p =>
    have mine : slot ∈ own p := (lists.mem_own p slot).mpr ⟨range, used, owner⟩
    obtain ⟨l₁, l₂, split⟩ := append_of_mem mine
    have set : (t.procs p).zeroed = false := by
      by_contra cleared
      rw [lists.cleared p (by simpa using cleared)] at mine
      cases mine
    have linked := lists.linked p set
    rw [split] at linked
    obtain ⟨fresh₁, fresh₂⟩ := linked.fresh
    obtain ⟨others, sameCount⟩ := procs_unlink t p slot
    have length := lists.length_own p
    rw [split, length_append, length_cons] at length
    have head := lists.head_unlink set split
    -- where a list of another owner is, nothing is written
    have apart : ∀ i, i ≠ slot → i ∉ own p → t.prev slot ≠ some i ∧ t.next slot ≠ some i := by
      intro i _ notMine
      obtain ⟨before, after⟩ := linked.links_at
      rw [before, after]
      refine ⟨fun last => notMine ?_, fun first => notMine ?_⟩
      · exact split ▸ mem_append_left _ (mem_of_getLast? last)
      · exact split ▸ mem_append_right _ (mem_cons_of_mem _ (mem_of_mem_head? first))
    have nexts : ((t.unlink p slot).clear slot).next =
        update ((t.prev slot).elim t.next fun b => update t.next b (t.next slot)) slot t.freeHead := by
      rw [HandleTable.unlink_eq, HandleTable.clear, Function.update_idem]
    have prevs : ((t.unlink p slot).clear slot).prev =
        update ((t.next slot).elim t.prev fun a => update t.prev a (t.prev slot)) slot none := by
      rw [HandleTable.unlink_eq, HandleTable.clear]
    have uses : ((t.unlink p slot).clear slot).used = update t.used slot false := by
      rw [HandleTable.unlink_eq, HandleTable.clear]
    have pids : ((t.unlink p slot).clear slot).pid = update t.pid slot 0 := by
      rw [HandleTable.unlink_eq, HandleTable.clear]
    have procs : ((t.unlink p slot).clear slot).procs = (t.unlink p slot).procs := rfl
    have notMine : ∀ i ∈ free, i ∉ own p := fun i here there => lists.not_free there here
    have still := fun q => lists.drop_set (q := q) ran
    subst result
    rw [elim_some]
    refine ⟨update own p (l₁ ++ l₂), ⟨?_, ?_, ?_, ?_, ?_, ?_, ?_⟩⟩
    · refine ⟨rfl, ?_⟩
      rw [nexts, update_self]
      refine lists.chain.frame fun i member => ?_
      have other : i ≠ slot := fun same => fresh (same ▸ member)
      rw [update_of_ne other, Linked.elim_update_of_ne (apart i other (notMine i member)).1]
    · rw [uses]
      exact freed
    · intro q notCleared
      dsimp only at notCleared ⊢
      rw [nexts, prevs]
      by_cases same : q = p
      · subst same
        rw [update_self, update_self, procs, head]
        exact linked.unlink _ _
      rw [update_of_ne same, update_of_ne same, procs, others q same]
      rw [update_of_ne same, procs, others q same] at notCleared
      refine (lists.linked q notCleared).frame (fun i member => ?_) fun i member => ?_
      all_goals
        have notMine : i ∉ own p := fun here => same (lists.own_unique member here)
        have other : i ≠ slot := fun here => notMine (here ▸ mine)
      · rw [update_of_ne other, Linked.elim_update_of_ne (apart i other notMine).1]
      · rw [update_of_ne other, Linked.elim_update_of_ne (apart i other notMine).2]
    · intro q cleared
      rw [elim_some] at still
      have before : (t.procs q).zeroed = true := by
        by_contra set
        rw [still q (by simpa using set)] at cleared
        cases cleared
      have other : q ≠ p := by
        rintro rfl
        rw [set] at before
        cases before
      rw [update_of_ne other]
      exact lists.cleared q before
    · intro q i
      rw [uses, pids]
      by_cases here : i = slot
      · subst here
        by_cases same : q = p
        · subst same
          simp [fresh₁, fresh₂]
        · have notOwned : i ∉ own q := fun there => same (lists.own_unique there mine)
          simp [same, notOwned]
      · have kept : i ∈ update own p (l₁ ++ l₂) q ↔ i ∈ own q := by
          by_cases same : q = p
          · subst same
            simp [split, here]
          · simp [same]
        rw [kept, update_of_ne here, update_of_ne here, lists.mem_own]
    · intro q
      dsimp only
      by_cases same : q = p
      · subst same
        rw [update_self, update_self, procs, length_append]
        dsimp only
        omega
      · rw [update_of_ne same, update_of_ne same, procs, others q same]
        exact lists.length_own q
    · rw [HandleTable.unlink_eq]
      exact total

theorem initProcess (lists : Lists t free own) (cleared : (t.procs q).zeroed = true) :
    Lists (t.initProcess q) free own := by
  have empty := lists.cleared q cleared
  refine ⟨lists.chain, lists.mem_free, fun p set => ?_, fun p set => ?_, lists.mem_own, fun p => ?_,
    lists.count⟩
  all_goals by_cases same : p = q
  · subst same
    rw [empty, initProcess_self]
    exact .nil
  · rw [initProcess_of_ne same] at set ⊢
    exact lists.linked p set
  · rw [same, empty]
  · rw [initProcess_of_ne same] at set
    exact lists.cleared p set
  · subst same
    rw [empty, initProcess_self]
    rfl
  · rw [initProcess_of_ne same]
    exact lists.length_own p

end Lists

end Otsos.Entity
