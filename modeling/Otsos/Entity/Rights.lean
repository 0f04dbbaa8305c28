import Otsos.Entity.Api
import Otsos.Entity.Effects

/-! The rights of handles. A handle is granted by a check or copied from another one, so behind
every handle there is a chain of handles that ends in a grant. A copy has the rights that its caller
asks for. -/
namespace Otsos.Entity
open Function (update update_of_ne update_self)
open List Option

/-- No right in `a` that is not in `b`. -/
def Within (a b : UInt32) : Prop := a &&& b = a

instance (a b : UInt32) : Decidable (Within a b) := inferInstanceAs (Decidable (_ = _))

theorem Within.refl (a : UInt32) : Within a a := UInt32.and_self

theorem Within.trans (ab : Within a b) (bc : Within b c) : Within a c := by
  rw [Within] at *
  rw [← ab, UInt32.and_assoc, bc]

theorem Within.has (ab : Within a b) (here : a &&& r = r) : b &&& r = r :=
  calc b &&& r = b &&& (a &&& r) := by rw [here]
    _ = (b &&& a) &&& r := (UInt32.and_assoc _ _ _).symm
    _ = (a &&& b) &&& r := by rw [UInt32.and_comm b a]
    _ = a &&& r := by rw [ab]
    _ = r := here

/-- The handle `h` of `p` to the entity leads back to a grant of `g`. -/
inductive Leads (hs : List Happening) : Owner → Int → UInt64 → UInt32 → Prop where
  | granted {id : UInt64} {g : UInt32} {h : Int} (made : .took p i id g h .granted ∈ hs) : Leads hs p h id g
  | copied {q : Owner} {i : Nat} {id : UInt64} {a held asked g : UInt32} {h h' : Int}
    (made : .took p i id a h (.copied q h' held asked) ∈ hs) (from_ : Leads hs q h' id g) :
    Leads hs p h id g

/-- The handle has no right beyond the grant that it leads back to. -/
def Backed (hs : List Happening) (p : Owner) (h : Int) (id : UInt64) (a : UInt32) : Prop :=
  ∃ g, Leads hs p h id g ∧ Within a g

/-- Every copy was asked for with no right that the handle copied did not have. -/
def AsksWithin (hs : List Happening) : Prop :=
  ∀ p i id a h q h' held asked, .took p i id a h (.copied q h' held asked) ∈ hs → asked = 0 ∨
    Within asked held

/-- Rights have not grown: what a look-up finds is backed by a grant, no copy has a right that the
handle copied did not have, and a segment that was only granted for reading cannot be mapped for
writing. -/
structure RightsKept (hs : List Happening) (t : HandleTable) : Prop where
  backed : ∀ p (h : Int32) id a, t.lookup p h.toInt = .ok (id, a) → Backed hs p h.toInt id a
  copies : ∀ p i id a h q h' held asked, .took p i id a h (.copied q h' held asked) ∈ hs →
    Within a held
  readOnly : ∀ id, (∀ p i g h, .took p i id g h .granted ∈ hs →
    g &&& entityAccessWrite ≠ entityAccessWrite) → ∀ w p (h : Int32) a prot,
      t.lookup (some p) h.toInt = .ok (id, a) → prot &&& apiMapWrite ≠ 0 →
      w.userAddress = true → apiShmMap w t p h.toInt prot = .error errBadHandle

variable {t : HandleTable} {id : UInt64} {h : Int} {s : Config} {src : Source}

theorem Leads.mono (leads : Leads hs p h id a) (more : hs ⊆ hs') : Leads hs' p h id a := by
  induction leads with
  | granted made => exact .granted (more made)
  | copied made _ ih => exact .copied (more made) ih

theorem Backed.mono (backed : Backed hs p h id a) (more : hs ⊆ hs') : Backed hs' p h id a := by
  obtain ⟨g, leads, within⟩ := backed
  exact ⟨g, leads.mono more, within⟩

/-! ### What a copy asks for -/

def Source.Asks (a : UInt32) : Source → Prop
  | .granted => True
  | .copied _ _ held asked => a = if asked = 0 then held else asked

def Pc.Asks : Pc → Prop
  | .alloc _ _ access src => src.Asks access
  | _ => True

def Happening.Asks : Happening → Prop
  | .took _ _ _ access _ src => src.Asks access
  | .gave .. => True

/-! ### Grants behind the handles -/

def Source.Backed (hs : List Happening) (id : UInt64) : Source → Prop
  | .granted => True
  | .copied q h held _ => Entity.Backed hs q h id held

def Pc.Backed (hs : List Happening) : Pc → Prop
  | .alloc _ id _ src => src.Backed hs id
  | .copying _ src rest => ∀ x ∈ rest, Entity.Backed hs (some src) x.handle x.id x.access
  | _ => True

/-- A new handle comes from a grant, or it has no more rights than the handle copied, which is
backed. -/
def Happening.Backed (hs : List Happening) : Happening → Prop
  | .took _ _ id _ _ src => src.Backed hs id
  | .gave .. => True

/-- What every slot in use holds is backed. -/
def Slots (hs : List Happening) (t : HandleTable) : Prop :=
  ∀ i, t.used i = true → ∃ p : Owner, p.pid = t.pid i ∧
    Backed hs p (t.handleAt i) (t.id i) (t.flags i)

theorem Source.Backed.mono (backed : src.Backed hs id) (more : hs ⊆ hs') : src.Backed hs' id := by
  cases src with
  | granted => trivial
  | copied q h held asked => exact Entity.Backed.mono backed more

theorem Pc.Backed.mono {pc : Pc} (backed : pc.Backed hs) (more : hs ⊆ hs') : pc.Backed hs' := by
  cases pc with
  | alloc p id access src => exact Source.Backed.mono backed more
  | copying dst src rest => exact fun x member => (backed x member).mono more
  | _ => trivial

theorem Slots.mono (slots : Slots hs t) (more : hs ⊆ hs') : Slots hs' t := by
  intro i used
  obtain ⟨p, owner, backed⟩ := slots i used
  exact ⟨p, owner, backed.mono more⟩

theorem Slots.lookup (slots : Slots hs t) (small : h < 0x80000000)
    (found : t.lookup p h = .ok (id, a)) : Backed hs p h id a := by
  rw [HandleTable.lookup] at found
  split at found
  · cases found
  next slot there =>
    cases found
    obtain ⟨_, _, _, used, owner, _⟩ := HandleTable.find_inv there
    obtain ⟨q, owner', backed⟩ := slots slot used
    obtain rfl : q = p := Owner.pid_inj (owner'.trans owner)
    rwa [← (HandleTable.find_handle small there).1] at backed

variable {all : List Snap}

theorem snapshotFrom_mem {prev : Option Nat} (ran : t.snapshotFrom q room link prev = some all) :
    ∀ x ∈ all, ∃ slot, t.used slot = true ∧ t.pid slot = q.val ∧ x = t.snap slot := by
  induction room generalizing link prev all with
  | zero =>
    cases link with
    | none =>
      cases ran
      nofun
    | some slot => cases ran
  | succ room ih =>
    cases link with
    | none =>
      cases ran
      nofun
    | some slot =>
      rw [HandleTable.snapshotFrom] at ran
      split at ran
      · cases ran
      next held =>
      obtain ⟨_, inner, rfl⟩ := map_eq_some_iff.mp ran
      intro x member
      rcases mem_cons.mp member with rfl | later
      · refine ⟨slot, ?_, ?_, rfl⟩
        · by_contra unused
          exact held (.inr (.inl (by simpa using unused)))
        · by_contra other
          exact held (.inr (.inr (.inl other)))
      · exact ih inner x later

theorem Slots.snapshot (slots : Slots hs t) (ran : t.snapshot q = some all) :
    ∀ x ∈ all, Backed hs (some q) x.handle x.id x.access := by
  rw [HandleTable.snapshot] at ran
  split at ran
  · cases ran
  intro x member
  obtain ⟨slot, used, owner, rfl⟩ := snapshotFrom_mem (filter_eq_some_iff.mp ran).1 x member
  obtain ⟨p, owner', backed⟩ := slots slot used
  obtain rfl : p = some q := Owner.pid_inj (owner'.trans owner)
  simpa only [HandleTable.snap] using backed

/-- What a step of a thread leaves behind: copies with the rights that are asked for, of handles
that are backed. -/
structure Pc.Keeps (hs : List Happening) (t : HandleTable) (pc next : Pc)
    (made : Option Happening) : Prop where
  asks : next.Asks
  backed : Slots hs t → pc.Backed hs → next.Backed hs
  asksMade : ∀ h ∈ made, h.Asks
  backedMade : pc.Backed hs → ∀ h ∈ made, h.Backed hs

namespace Pc

variable {next : Pc}

theorem Keeps.quiet (asks : next.Asks) (backed : next.Backed hs) : Keeps hs t pc next none :=
  ⟨asks, fun _ _ => backed, nofun, fun _ => nofun⟩

theorem Keeps.gave (asks : next.Asks) (backed : next.Backed hs) :
    Keeps hs t pc next (some (.gave p slot h)) := by
  refine ⟨asks, fun _ _ => backed, fun h made => ?_, fun _ h made => ?_⟩ <;> cases made <;> trivial

theorem Keeps.took {slot : Option Nat} (asks : next.Asks) (backed : pc.Backed hs → next.Backed hs)
    (asksMade : src.Asks a) (backedMade : pc.Backed hs → src.Backed hs id) :
    Keeps hs t pc next (slot.map fun slot => .took p slot id a h src) := by
  refine ⟨asks, fun _ => backed, fun h made => ?_, fun backed h made => ?_⟩ <;>
    rw [mem_def, map_eq_some_iff] at made <;> obtain ⟨slot, _, rfl⟩ := made
  · exact asksMade
  · exact backedMade backed

theorem step_keeps (hs : List Happening) (o : Outcome) (t : HandleTable) (pc : Pc)
    (asks : pc.Asks) : Keeps hs t pc (pc.step o t).2.1 (pc.step o t).2.2 := by
  cases pc with
  | alloc p id access src => exact .took trivial (fun _ => trivial) asks fun backed => backed
  | dup p handle access =>
    rw [step]
    split
    · exact .quiet trivial trivial
    next found =>
      have small := handle.toInt_lt
      exact ⟨rfl, fun slots _ => slots.lookup (by omega) found, by simp, by simp⟩
  | free p handle =>
    rw [step]
    split
    · exact .quiet trivial trivial
    · exact .gave trivial trivial
  | snap dst src cap tries =>
    rw [step]
    split
    · exact .quiet trivial trivial
    split
    · exact .quiet trivial trivial
    next taken =>
    split
    · exact ⟨trivial, fun slots _ => slots.snapshot taken, by simp, by simp⟩
    split <;> exact .quiet trivial trivial
  | copying dst src rest =>
    cases rest with
    | nil => exact .quiet trivial trivial
    | cons x rest =>
      rw [step]
      refine .took ?_ (fun backed => ?_) rfl fun backed => backed x mem_cons_self <;> dsimp only <;> split
      · trivial
      · trivial
      · trivial
      · exact fun y member => backed y (mem_cons_of_mem _ member)
  | releasing p ret =>
    rw [step]
    iterate 3
      split
      · exact .quiet trivial trivial
    · exact .gave trivial trivial
  | done ret => exact .quiet trivial trivial

end Pc

theorem Call.start_quiet (hs : List Happening) (c : Call) :
    (c.start t).2.Asks ∧ (c.start t).2.Backed hs := by
  cases c with
  | initProcess | alloc | dup | free => exact ⟨trivial, trivial⟩
  | copyAll dst src => cases dst <;> cases src <;> exact ⟨trivial, trivial⟩
  | releaseAll p =>
    cases p with
    | none => exact ⟨trivial, trivial⟩
    | some p =>
      rw [start]
      split <;> exact ⟨trivial, trivial⟩

theorem Config.step_asks (asks : ∀ n, (s.threads n).Asks) :
    (∀ n, ((s.step e).1.threads n).Asks) ∧ ∀ h ∈ (s.step e).2.toList, h.Asks := by
  cases e with
  | call m c =>
    refine ⟨fun n => ?_, nofun⟩
    by_cases same : n = m
    · subst same
      simpa only [Config.step, update_self] using (c.start_quiet []).1
    · simpa only [Config.step, update_of_ne same] using asks n
  | step m o =>
    have keeps := (s.threads m).step_keeps [] o s.table (asks m)
    refine ⟨fun n => ?_, fun h member => keeps.asksMade h (mem_toList.mp member)⟩
    by_cases same : n = m
    · subst same
      simpa only [Config.step, update_self] using keeps.asks
    · simpa only [Config.step, update_of_ne same] using asks n

theorem Run.asks (run : Run s es hs s') (asks : ∀ n, (s.threads n).Asks) : ∀ h ∈ hs, h.Asks := by
  induction run with
  | nil s => nofun
  | cons allowed rest ih =>
    obtain ⟨next, made⟩ := Config.step_asks (e := _) asks
    intro h member
    rcases mem_append.mp member with here | later
    · exact made h here
    · exact ih next h later

theorem Effect.slots (eff : Effect t t' what) (slots : Slots hs t)
    (backed : ∀ h ∈ what, h.Backed hs) (asks : ∀ h ∈ what, h.Asks)
    (within : AsksWithin (hs ++ what.toList)) : Slots (hs ++ what.toList) t' := by
  have more : hs ⊆ hs ++ what.toList := subset_append_left _ _
  intro i used
  cases eff with
  | same => exact slots.mono more i used
  | init q cleared => exact slots.mono more i used
  | @took t' p slot id access src ready ran =>
    obtain ⟨uses, pids, ids, flags, gens⟩ := HandleTable.take_fields ran
    have made : Happening.took p slot id access (t'.handleAt slot) src ∈
        hs ++ (some (Happening.took p slot id access (t'.handleAt slot) src)).toList := by simp
    by_cases here : i = slot
    · subst here
      refine ⟨p, by rw [pids, update_self], ?_⟩
      rw [ids, flags, update_self, update_self]
      cases src with
      | granted => exact ⟨access, .granted made, .refl _⟩
      | copied q h' held asked =>
        obtain ⟨g, leads, below⟩ := backed _ rfl
        refine ⟨g, .copied made (leads.mono more), .trans ?_ below⟩
        have asked' : access = if asked = 0 then held else asked := asks _ rfl
        rcases within _ _ _ _ _ _ _ _ _ made with zero | fits
        · rw [asked', if_pos zero]
          exact .refl _
        · rw [asked']
          split
          · exact .refl _
          · exact fits
    · have handles : t'.handleAt i = t.handleAt i := by
        rw [HandleTable.handleAt, gens, update_of_ne here, HandleTable.handleAt]
      rw [uses, update_of_ne here] at used
      rw [handles, pids, ids, flags, update_of_ne here, update_of_ne here, update_of_ne here]
      exact slots.mono more i used
  | @gave t' p slot handle small ran =>
    obtain ⟨uses, pids, ids, flags, gens⟩ := HandleTable.drop_fields ran
    by_cases here : i = slot
    · rw [uses, here, update_self] at used
      cases used
    · have handles : t'.handleAt i = t.handleAt i := by
        rw [HandleTable.handleAt, gens, HandleTable.handleAt]
      rw [uses, update_of_ne here] at used
      rw [handles, pids, ids, flags, update_of_ne here, update_of_ne here, update_of_ne here]
      exact slots.mono more i used

structure Config.Rights (hs : List Happening) (s : Config) : Prop where
  slots : Slots hs s.table
  backed : ∀ n, (s.threads n).Backed hs
  asks : ∀ n, (s.threads n).Asks

theorem Config.Rights.step (rights : s.Rights hs) (inv : s.Inv) (allowed : s.Allowed e)
    (within : AsksWithin (hs ++ (s.step e).2.toList)) :
    (s.step e).1.Rights (hs ++ (s.step e).2.toList) := by
  obtain ⟨eff, _⟩ := inv.step_effect allowed
  obtain ⟨asksNext, asksMade⟩ := Config.step_asks (e := e) rights.asks
  have more : hs ⊆ hs ++ (s.step e).2.toList := subset_append_left _ _
  cases e with
  | call m c =>
    refine ⟨eff.slots rights.slots nofun nofun within, fun n => ?_, asksNext⟩
    by_cases same : n = m
    · subst same
      simpa only [Config.step, update_self] using (c.start_quiet _).2
    · simpa only [Config.step, update_of_ne same] using (rights.backed n).mono more
  | step m o =>
    have keeps := (s.threads m).step_keeps hs o s.table (rights.asks m)
    refine ⟨eff.slots rights.slots (keeps.backedMade (rights.backed m))
      (fun h member => asksMade h (mem_toList.mpr member)) within, fun n => ?_, asksNext⟩
    by_cases same : n = m
    · subst same
      simpa only [Config.step, update_self] using (keeps.backed rights.slots (rights.backed _)).mono more
    · simpa only [Config.step, update_of_ne same] using (rights.backed n).mono more

theorem Run.rights (run : Run s es hs s') (inv : s.Inv) (rights : s.Rights hs₀)
    (within : AsksWithin (hs₀ ++ hs)) : s'.Rights (hs₀ ++ hs) := by
  induction run generalizing hs₀ with
  | nil s => rwa [append_nil]
  | @cons s s' e es hs allowed rest ih =>
    rw [← append_assoc] at within ⊢
    have first := rights.step inv allowed fun p i id a h q h' held asked member =>
      within p i id a h q h' held asked (mem_append_left _ member)
    exact ih (inv.step_effect allowed).2 first within

theorem Config.init_rights : Config.init.Rights [] := ⟨nofun, fun _ => trivial, fun _ => trivial⟩

/-! ### Rights over whole runs -/

theorem Leads.grant (leads : Leads hs p h id a) : ∃ q i h', .took q i id a h' .granted ∈ hs := by
  induction leads with
  | granted made => exact ⟨_, _, _, made⟩
  | copied _ _ ih => exact ih

theorem apiShmMap_readOnly (found : t.lookup (some q) h = .ok (id, a))
    (readOnly : a &&& entityAccessWrite ≠ entityAccessWrite) (writes : prot &&& apiMapWrite ≠ 0)
    (address : w.userAddress = true) : apiShmMap w t q h prot = .error errBadHandle := by
  rw [apiShmMap, address]
  simp only [if_pos writes]
  generalize wanted : (if prot &&& apiMapRead ≠ 0 then entityAccessRead
    else 0) ||| entityAccessWrite = required
  have writing : required &&& entityAccessWrite = entityAccessWrite := by
    subst wanted
    split <;> decide
  have some_ : required ≠ 0 := by
    rintro rfl
    revert writing
    decide
  have lacks : a &&& required ≠ required := fun all => readOnly (by
    rw [← writing, ← UInt32.and_assoc, all])
  rw [if_neg some_, shmHandleGet, found]
  simp only [lacks, or_true, ne_eq, not_false_eq_true]
  rfl

theorem Run.rightsKept_iff (run : Run .init es hs s) : RightsKept hs s.table ↔ AsksWithin hs := by
  have asks := run.asks fun _ => trivial
  constructor
  · intro kept p i id a h q h' held asked made
    have same : a = if asked = 0 then held else asked := asks _ made
    have within := kept.copies p i id a h q h' held asked made
    by_cases zero : asked = 0
    · exact .inl zero
    · rw [same, if_neg zero] at within
      exact .inr within
  · intro within
    have rights := run.rights Config.init_inv Config.init_rights within
    have backed : ∀ p (h : Int32) id a, s.table.lookup p h.toInt = .ok (id, a) → Backed hs p h.toInt id a := by
      intro p h id a found
      have small := h.toInt_lt
      exact rights.slots.lookup (by omega) found
    refine ⟨backed, ?_, ?_⟩
    · intro p i id a h q h' held asked made
      have same : a = if asked = 0 then held else asked := asks _ made
      rcases within p i id a h q h' held asked made with zero | fits
      · rw [same, if_pos zero]
        exact .refl _
      · rw [same]
        split
        · exact .refl _
        · exact fits
    · intro id grants w q h a _ found writes address
      obtain ⟨g, leads, below⟩ := backed (some q) h id a found
      obtain ⟨q', i, h', made⟩ := leads.grant
      exact apiShmMap_readOnly found (fun here => grants q' i g h' made (below.has here)) writes address

theorem ApiRun.run {s : ApiConfig} (run : ApiRun s hs s') : ∃ es, Run s.config es hs s'.config := by
  induction run with
  | nil s => exact ⟨[], .nil _⟩
  | setUp n p allowed rest ih =>
    obtain ⟨es, run⟩ := ih
    exact ⟨_, .cons allowed run⟩
  | begin n p w a idle granted allowed rest ih =>
    obtain ⟨es, run⟩ := ih
    exact ⟨_, .cons allowed run⟩
  | resume n done next allowed rest ih =>
    obtain ⟨es, run⟩ := ih
    exact ⟨_, .cons allowed run⟩
  | finish n done next rest ih => exact ih
  | step n o rest ih =>
    obtain ⟨es, run⟩ := ih
    exact ⟨_, .cons trivial run⟩

/-- In every state that user programs reach, rights have not grown exactly if every copy so far was
asked for with no right that the handle copied did not have. -/
theorem rights_kept_iff {s : ApiConfig} (run : ApiRun .init hs s) :
    RightsKept hs s.config.table ↔ AsksWithin hs := by
  obtain ⟨_, run⟩ := run.run
  exact run.rightsKept_iff

/-! ### A segment for reading only -/

def userPid : Pid := ⟨1, by decide⟩

/-- A segment of another user that everyone may read. -/
def readOnlyWorld : World where
  creds _ := ⟨false, 1000, 1000⟩
  ids _ := some ⟨0, 0, 0, 0⟩
  isPath _ := true
  nsLookup _ := .error errNotFound
  isShm _ := true
  segments := [⟨true, false, 7, 4096, 0x124, 5⟩]
  backing _ := some ⟨true, false, 7, 4096, 0x124, 5⟩
  userAddress := true
  memory := true
  created := none

namespace ApiConfig

def stepped (s : ApiConfig) : ApiConfig := ⟨(s.config.step (.step 0 ⟨true, true⟩)).1, s.after⟩

def ready : ApiConfig := init.call 0 (.initProcess userPid) .return

/-- The program has got a handle for reading. -/
def opened : ApiConfig := (ready.call 0 (.alloc (some userPid) 5 1) .return).stepped

/-- The handle has been looked up for a copy with the given rights, and the copy made. -/
def copied (asked : UInt32) : ApiConfig :=
  ((opened.call 0 (.dup (some userPid) 0x10000 asked) .return).stepped).stepped

end ApiConfig

theorem ApiRun.stepped {s : ApiConfig} (made : (s.config.step (.step 0 ⟨true, true⟩)).2 = what)
    (rest : ApiRun s.stepped hs s') : ApiRun s (what.toList ++ hs) s' :=
  made ▸ .step 0 ⟨true, true⟩ rest

/-- What happens when the program asks for a copy with these rights. -/
def copyTrace (asked : UInt32) : List Happening :=
  [.took (some userPid) 0 5 1 0x10000 .granted,
    .took (some userPid) 1 5 asked 0x10001 (.copied (some userPid) 0x10000 1 asked)]

theorem run_copied (asked : UInt32)
    (made : ((ApiConfig.opened.call 0 (.dup (some userPid) 0x10000 asked) .return).stepped.config.step
      (.step 0 ⟨true, true⟩)).2 = some (.took (some userPid) 1 5 asked 0x10001 (.copied (some userPid) 0x10000 1 asked))) :
    ApiRun .init (copyTrace asked) (.copied asked) := by
  have set : (ApiConfig.ready.config.table.procs userPid).zeroed = false := by decide +kernel
  have idle : ApiConfig.opened.config.threads 0 = .done 0x10000 := by decide +kernel
  have set' : (ApiConfig.opened.config.table.procs userPid).zeroed = false := by decide +kernel
  have first : ((ApiConfig.ready.call 0 (.alloc (some userPid) 5 1) .return).config.step (.step 0 ⟨true, true⟩)).2 =
      some (.took (some userPid) 0 5 1 0x10000 .granted) := by decide +kernel
  have looked : ((ApiConfig.opened.call 0 (.dup (some userPid) 0x10000 asked) .return).config.step
      (.step 0 ⟨true, true⟩)).2 = none := by
    simp only [ApiConfig.call, Config.step, Call.start, update_self, Pc.step]
    split <;> rfl
  have fresh : (ApiConfig.init.config.table.procs userPid).zeroed = true := by decide +kernel
  refine .setUp 0 userPid ⟨⟨0, rfl⟩, fresh⟩ ?_
  refine .begin 0 userPid readOnlyWorld (.shmGet 7 0 0x1000) rfl (c := .alloc (some userPid) 5 1)
    rfl ⟨⟨0, by decide +kernel⟩, fun q same => ?_⟩ ?_
  · cases same
    exact set
  refine ApiRun.stepped first ?_
  refine .begin 0 userPid readOnlyWorld (.entityDup 0x10000 asked) rfl
    (c := .dup (some userPid) 0x10000 asked) rfl ⟨⟨_, idle⟩, fun q same => ?_⟩ ?_
  · cases same
    exact set'
  exact ApiRun.stepped looked (ApiRun.stepped made (.nil _))

theorem rights_kept_copied : RightsKept (copyTrace 1) (ApiConfig.copied 1).config.table := by
  refine (rights_kept_iff (run_copied 1 (by decide +kernel))).mpr fun p i _ a h q _ _ _ made => ?_
  simp only [copyTrace, mem_cons, not_mem_nil, or_false, Happening.took.injEq, reduceCtorEq,
    and_false, false_or] at made
  obtain ⟨_, _, _, _, _, _, _, rfl, rfl⟩ := made
  exact .inr (by decide)

/-- A copy with the right to write of the handle for reading: the segment can be mapped for
writing. -/
theorem readOnly_mapped : ApiRun .init (copyTrace 3) (.copied 3) ∧
    (apiShmMap readOnlyWorld (ApiConfig.copied 3).config.table userPid 0x10000 apiMapWrite).isOk =
    false ∧ (apiShmMap readOnlyWorld (ApiConfig.copied 3).config.table userPid 0x10001
      apiMapWrite).isOk = true ∧
    ¬RightsKept (copyTrace 3) (ApiConfig.copied 3).config.table := by
  refine ⟨run_copied 3 (by decide +kernel), by decide +kernel, by decide +kernel, fun kept => ?_⟩
  have within := kept.copies _ _ _ _ _ _ _ _ _ (mem_cons_of_mem _ mem_cons_self)
  revert within
  decide

end Otsos.Entity
