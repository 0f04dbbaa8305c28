import Otsos.Entity.Lists

/-! What a step of a thread can do to the handle table, and to the handles in it. -/
namespace Otsos.Entity
open Function (update update_of_ne update_self)
open Intrusive

variable {t : HandleTable} {q : Pid} {id : UInt64} {handle : Int} {s : Config} {o : Outcome}

/-! ### What a step can do -/

/-- Everything that a step does to the table. -/
inductive Effect (t : HandleTable) : HandleTable → Option Happening → Prop where
  | same : Effect t t none
  | init (q : Pid) (cleared : (t.procs q).zeroed = true) : Effect t (t.initProcess q) none
  | took {t' : HandleTable} {p : Owner} {slot : Nat} {id : UInt64} {access : UInt32} (src : Source)
    (ready : t.Ready p) (ran : t.take p id access = some (t', slot)) :
    Effect t t' (some (.took p slot id access (t'.handleAt slot) src))
  | gave {t' : HandleTable} {p : Owner} {slot : Nat} {handle : Int} (small : handle < 0x80000000)
    (ran : t.drop p handle = some (t', slot)) : Effect t t' (some (.gave p slot handle))

/-- The processes that a thread still makes handles for are set up. -/
def Pc.Ready (t : HandleTable) : Pc → Prop
  | .alloc p .. | .dup p .. => t.Ready p
  | .snap dst .. | .copying dst .. => (t.procs dst).zeroed = false
  | .free .. | .releasing .. | .done _ => True

theorem handleOf_lt (gen slot : Nat) : handleOf gen slot < 0x80000000 := by
  have bound := @Int.bmod_lt ((gen <<< 16 ||| slot : Nat) : Int) 0x100000000 (by omega)
  unfold handleOf
  omega

theorem alloc_effect (ready : t.Ready p) (src : Source) {retained : Bool} {ret : Int}
    {slot : Option Nat} (ran : t.alloc retained p id access = (t', ret, slot)) :
    Effect t t' (slot.map fun slot => .took p slot id access ret src) := by
  rw [HandleTable.alloc] at ran
  iterate 3
    split at ran
    · cases ran
      exact .same
  next t₁ slot taken =>
    simp only [Prod.mk.injEq] at ran
    obtain ⟨rfl, rfl, rfl⟩ := ran
    exact .took src ready taken

theorem Call.start_effect (c : Call) (allowed : c.Allowed t) :
    Effect t (c.start t).1 none ∧ (c.start t).2.Ready (c.start t).1 := by
  cases c with
  | initProcess p => exact ⟨.init p allowed, trivial⟩
  | alloc p id access => exact ⟨.same, allowed⟩
  | dup p handle access => exact ⟨.same, allowed⟩
  | free p handle => exact ⟨.same, trivial⟩
  | copyAll dst src =>
    cases dst with
    | none => exact ⟨.same, trivial⟩
    | some dst =>
      cases src with
      | none => exact ⟨.same, trivial⟩
      | some src =>
        by_cases cleared : (t.procs dst).zeroed = true
        · rw [start, if_pos cleared]
          refine ⟨.init dst cleared, ?_⟩
          rw [Pc.Ready, HandleTable.initProcess_self]
          rfl
        · rw [start, if_neg cleared]
          exact ⟨.same, eq_false_of_ne_true cleared⟩
  | releaseAll p =>
    cases p with
    | none => exact ⟨.same, trivial⟩
    | some p =>
      by_cases cleared : (t.procs p).zeroed = true
      · rw [start, if_pos cleared]
        exact ⟨.init p cleared, trivial⟩
      · rw [start, if_neg cleared]
        exact ⟨.same, trivial⟩

theorem Pc.step_effect (pc : Pc) (ready : pc.Ready t) :
    Effect t (pc.step o t).1 (pc.step o t).2.2 ∧ (pc.step o t).2.1.Ready t := by
  cases pc with
  | alloc p id access src => exact ⟨alloc_effect ready src rfl, trivial⟩
  | dup p handle access =>
    rw [step]
    split
    · exact ⟨.same, trivial⟩
    · exact ⟨.same, ready⟩
  | free p handle =>
    rw [step]
    split
    · exact ⟨.same, trivial⟩
    next dropped =>
      have small := handle.toInt_lt
      exact ⟨.gave (by omega) dropped, trivial⟩
  | snap dst src cap tries =>
    rw [step]
    split
    · exact ⟨.same, trivial⟩
    split
    · exact ⟨.same, trivial⟩
    split
    · exact ⟨.same, ready⟩
    split
    · exact ⟨.same, trivial⟩
    · exact ⟨.same, ready⟩
  | copying dst src rest =>
    cases rest with
    | nil => exact ⟨.same, trivial⟩
    | cons x rest =>
      have set : t.Ready (some dst) := fun q same => by
        cases same
        exact ready
      refine ⟨alloc_effect set _ rfl, ?_⟩
      rw [step]
      dsimp only
      split
      · trivial
      · exact ready
  | releasing p ret =>
    rw [step]
    iterate 3
      split
      · exact ⟨.same, trivial⟩
    next dropped => exact ⟨.gave (handleOf_lt _ _) dropped, trivial⟩
  | done ret => exact ⟨.same, trivial⟩

/-! ### The lists -/

theorem Effect.lists (eff : Effect t t' what) (lists : Lists t free own) :
    ∃ free' own', Lists t' free' own' := by
  cases eff with
  | same => exact ⟨free, own, lists⟩
  | init q cleared => exact ⟨free, own, lists.initProcess cleared⟩
  | took src ready ran =>
    obtain ⟨rest, _, lists'⟩ := lists.take ready ran
    exact ⟨rest, _, lists'⟩
  | gave small ran => exact ⟨_, lists.drop ran⟩

theorem Effect.set (eff : Effect t t' what) (lists : Lists t free own)
    (set : (t.procs q).zeroed = false) : (t'.procs q).zeroed = false := by
  cases eff with
  | same => exact set
  | init q' cleared =>
    have other : q ≠ q' := by
      rintro rfl
      rw [set] at cleared
      cases cleared
    rwa [HandleTable.initProcess_of_ne other]
  | took src ready ran => exact lists.take_set ran set
  | gave small ran => exact lists.drop_set ran set

theorem Pc.Ready.mono {pc : Pc} (ready : pc.Ready t)
    (keep : ∀ q, (t.procs q).zeroed = false → (t'.procs q).zeroed = false) : pc.Ready t' := by
  cases pc with
  | alloc p id access src => exact fun q same => keep q (ready q same)
  | dup p handle access => exact fun q same => keep q (ready q same)
  | snap dst src cap tries => exact keep dst ready
  | copying dst src rest => exact keep dst ready
  | free p handle => trivial
  | releasing p ret => trivial
  | done ret => trivial

structure Config.Inv (s : Config) : Prop where
  lists : ∃ free own, Lists s.table free own
  ready : ∀ n, (s.threads n).Ready s.table

theorem Config.Inv.step_effect (inv : s.Inv) (allowed : s.Allowed e) :
    Effect s.table (s.step e).1.table (s.step e).2 ∧ (s.step e).1.Inv := by
  obtain ⟨_, _, lists⟩ := inv.lists
  cases e with
  | call n c =>
    obtain ⟨eff, ready⟩ := c.start_effect allowed.2
    refine ⟨eff, ⟨eff.lists lists, fun m => ?_⟩⟩
    by_cases same : m = n
    · subst same
      simpa only [Config.step, update_self] using ready
    · simpa only [Config.step, update_of_ne same] using (inv.ready m).mono fun q => eff.set lists
  | step n o =>
    obtain ⟨eff, ready⟩ := (s.threads n).step_effect (o := o) (inv.ready n)
    refine ⟨eff, ⟨eff.lists lists, fun m => ?_⟩⟩
    by_cases same : m = n
    · subst same
      simpa only [Config.step, update_self] using ready.mono fun q => eff.set lists
    · simpa only [Config.step, update_of_ne same] using (inv.ready m).mono fun q => eff.set lists

theorem Config.init_inv : Config.init.Inv := by
  have chain : ∀ n i, i + n = entityMaxHandles →
      Chain HandleTable.init.next (if n = 0 then none else some i) (List.range' i n) := by
    intro n
    induction n with
    | zero => exact fun i _ => rfl
    | succ n ih =>
      intro i _
      refine ⟨rfl, ?_⟩
      have following : HandleTable.init.next i = if n = 0 then none else some (i + 1) := by
        rw [HandleTable.init]
        dsimp only
        split <;> split <;> first | rfl | omega
      rw [following]
      exact ih (i + 1) (by omega)
  refine ⟨⟨List.range' 0 entityMaxHandles, fun _ => [], ?_⟩, fun _ => trivial⟩
  refine ⟨chain _ 0 (Nat.zero_add _), ?_, ?_, fun _ _ => rfl, ?_, fun _ => rfl,
    List.length_range'.symm ▸ rfl⟩
  · simp [HandleTable.init, Config.init]
  · intro p set
    cases set
  · simp [HandleTable.init, Config.init]

/-! ### Generations and handles -/

theorem handleOf_small (small : gen < 0x8000) (range : slot < 0x10000) :
    handleOf gen slot = gen * 0x10000 + slot := by
  have word : gen <<< 16 ||| slot = gen * 0x10000 + slot := by
    rw [← Nat.shiftLeft_add_eq_or_of_lt (show slot < 2 ^ 16 from range), Nat.shiftLeft_eq]
  unfold handleOf
  simp only [Int.bmod_def]
  split <;> omega

theorem handleOf_half (range : slot < 0x10000) : handleOf 0x8000 slot = slot - 0x80000000 := by
  have word : 0x8000 <<< 16 ||| slot = 0x80000000 + slot := by
    rw [← Nat.shiftLeft_add_eq_or_of_lt (show slot < 2 ^ 16 from range), Nat.shiftLeft_eq]
  unfold handleOf
  simp only [Int.bmod_def]
  split <;> omega

theorem succGen_of_lt (small : gen + 1 < 0x100000000) : succGen gen = gen + 1 := by
  rw [succGen, Nat.mod_eq_of_lt small, if_neg (by omega)]

namespace HandleTable

theorem find_handle (small : handle < 0x80000000) (found : t.find p handle = some slot) :
    handle = t.handleAt slot ∧ t.gen slot < 0x8000 := by
  obtain ⟨_, rfl, _, _, _, present⟩ := find_inv found
  have word : (handleWord handle : Int) = handle := by
    rw [handleWord]
    omega
  have bound : t.gen (handleWord handle % 0x10000) < 0x8000 := by omega
  refine ⟨?_, bound⟩
  rw [handleAt, handleOf_small bound (Nat.mod_lt _ (by omega))]
  omega

theorem find_handleAt (range : slot < entityMaxHandles) (used : t.used slot = true)
    (owner : t.pid slot = p.pid) (small : t.gen slot < 0x8000) :
    t.find p (t.handleAt slot) = some slot := by
  have below : slot < 0x10000 := Nat.lt_trans range (by decide)
  have word : handleWord (t.handleAt slot) = t.gen slot * 0x10000 + slot := by
    rw [handleAt, handleOf_small small below, handleWord]
    omega
  have sign : ¬t.handleAt slot < 0 := by
    rw [handleAt, handleOf_small small below]
    omega
  have low : handleWord (t.handleAt slot) % 0x10000 = slot := by omega
  have high : handleWord (t.handleAt slot) / 0x10000 = t.gen slot := by omega
  rw [find, if_neg sign, low, high, if_neg (by omega), if_neg (by simp [used, owner])]

theorem take_fields (ran : t.take p id access = some (t', slot)) :
    t'.used = update t.used slot true ∧ t'.pid = update t.pid slot p.pid ∧ t'.id = update t.id slot id ∧
      t'.flags = update t.flags slot access ∧ t'.gen = update t.gen slot (succGen (t.gen slot)) := by
  obtain ⟨_, rfl⟩ := take_inv ran
  cases p with
  | none => exact ⟨rfl, rfl, rfl, rfl, rfl⟩
  | some q =>
    rw [Option.elim_some, link_eq]
    exact ⟨rfl, rfl, rfl, rfl, rfl⟩

theorem drop_fields (ran : t.drop p handle = some (t', slot)) :
    t'.used = update t.used slot false ∧ t'.pid = update t.pid slot 0 ∧ t'.id = update t.id slot 0 ∧
      t'.flags = update t.flags slot 0 ∧ t'.gen = t.gen := by
  obtain ⟨_, rfl⟩ := drop_inv ran
  cases p with
  | none => exact ⟨rfl, rfl, rfl, rfl, rfl⟩
  | some q =>
    rw [Option.elim_some, unlink_eq]
    exact ⟨rfl, rfl, rfl, rfl, rfl⟩

end HandleTable

theorem Owner.pid_inj {q : Owner} (same : p.pid = q.pid) : p = q := by
  cases p with
  | none =>
    cases q with
    | none => rfl
    | some q => exact absurd same.symm q.pos
  | some p =>
    cases q with
    | none => exact absurd same p.pos
    | some q => rw [Pid.val_inj same]

/-- The slot holds a handle of `p`. -/
structure Held (t : HandleTable) (p : Owner) (slot : Nat) (id : UInt64) (access : UInt32)
    (gen : Nat) : Prop where
  used : t.used slot = true
  pid : t.pid slot = p.pid
  id : t.id slot = id
  flags : t.flags slot = access
  gen : t.gen slot = gen

@[local simp] def Happening.takes (i : Nat) : Happening → Bool
  | .took _ slot .. => slot = i
  | .gave .. => false

/-- How often the slot was taken. -/
@[local simp] def allocations (i : Nat) (hs : List Happening) : Nat := hs.countP (·.takes i)

theorem allocations_append (i : Nat) (hs hs' : List Happening) :
    allocations i (hs ++ hs') = allocations i hs + allocations i hs' := List.countP_append

theorem allocations_toList (i : Nat) (what : Option Happening) :
    allocations i what.toList = 0 ∨ (allocations i what.toList = 1 ∧
      ∃ p id access handle src, what = some (.took p i id access handle src)) := by
  cases what with
  | none => exact .inl rfl
  | some h =>
    cases h with
    | took p slot id access handle src =>
      by_cases here : slot = i
      · subst here
        exact .inr ⟨by simp, p, id, access, handle, src, rfl⟩
      · exact .inl (by simp [here])
    | gave p slot handle => exact .inl rfl

namespace Effect

theorem gen_eq (eff : Effect t t' what)
    (small : t.gen i + allocations i what.toList < 0x100000000) :
    t'.gen i = t.gen i + allocations i what.toList := by
  cases eff with
  | same => rfl
  | init q cleared => rfl
  | @took t' p slot id access src ready ran =>
    obtain ⟨_, _, _, _, gens⟩ := HandleTable.take_fields ran
    rw [gens]
    by_cases here : i = slot
    · subst here
      have once : allocations i [.took p i id access (t'.handleAt i) src] = 1 := by
        simp
      rw [Option.toList_some, once] at small ⊢
      rw [update_self, succGen_of_lt small]
    · rw [update_of_ne here]
      simp [Ne.symm here]
  | gave small ran =>
    obtain ⟨_, _, _, _, gens⟩ := HandleTable.drop_fields ran
    rw [gens]
    rfl

theorem held (eff : Effect t t' what) (lists : Lists t free own) (held : Held t p i id access gen) :
    Held t' p i id access gen ∨ what = some (.gave p i (t.handleAt i)) := by
  cases eff with
  | same => exact .inl held
  | init q cleared => exact .inl ⟨held.used, held.pid, held.id, held.flags, held.gen⟩
  | @took t' p' slot id' access' src ready ran =>
    obtain ⟨_, rfl, _⟩ := lists.take ready ran
    have other : i ≠ slot := by
      rintro rfl
      have unused := ((lists.mem_free i).mp List.mem_cons_self).2
      rw [held.used] at unused
      cases unused
    obtain ⟨uses, pids, ids, flags, gens⟩ := HandleTable.take_fields ran
    left
    constructor
    · rw [uses, update_of_ne other, held.used]
    · rw [pids, update_of_ne other, held.pid]
    · rw [ids, update_of_ne other, held.id]
    · rw [flags, update_of_ne other, held.flags]
    · rw [gens, update_of_ne other, held.gen]
  | @gave t' p' slot handle small ran =>
    have found := (HandleTable.drop_inv ran).1
    obtain ⟨uses, pids, ids, flags, gens⟩ := HandleTable.drop_fields ran
    by_cases same : i = slot
    · subst same
      right
      obtain ⟨_, _, _, _, owner, _⟩ := HandleTable.find_inv found
      rw [Owner.pid_inj (owner.symm.trans held.pid), ← (HandleTable.find_handle small found).1]
    · left
      constructor
      · rw [uses, update_of_ne same, held.used]
      · rw [pids, update_of_ne same, held.pid]
      · rw [ids, update_of_ne same, held.id]
      · rw [flags, update_of_ne same, held.flags]
      · rw [gens, held.gen]

theorem unused (eff : Effect t t' what) (unused : t.used i = false) :
    t'.used i = false ∨ allocations i what.toList = 1 := by
  cases eff with
  | same => exact .inl unused
  | init q cleared => exact .inl unused
  | @took t' p slot id access src ready ran =>
    obtain ⟨uses, _⟩ := HandleTable.take_fields ran
    by_cases here : i = slot
    · subst here
      simp
    · rw [uses, update_of_ne here]
      exact .inl unused
  | @gave t' p slot handle small ran =>
    obtain ⟨uses, _⟩ := HandleTable.drop_fields ran
    left
    rw [uses]
    by_cases here : i = slot
    · rw [here, update_self]
    · rw [update_of_ne here, unused]

end Effect

end Otsos.Entity
