import Mathlib.Data.List.Nodup
import Mathlib.Data.List.Perm.Subperm
import Otsos.Foundation.RingBuffer
import Otsos.Foundation.Transition

/-! A queue pair of the NVMe driver (`kernel/drivers/disk/nvme/nvme_queue.c`), for I/O or for
administration, with the controller behind it. A step is what the driver does under the queue lock,
or one move of the controller. -/
namespace Otsos.Nvme
open Transition RingBuffer Function
open List

/-- What a command is for: a block request, or a call of `nvme_admin_cmd`. -/
inductive Request where
  | bio (id : Nat)
  | admin (caller : Nat)
deriving DecidableEq

/-- `nvme_sqe_t`: the id, and the rest of the command, which tells what it was made for. -/
structure Sqe where
  cid : Nat
  command : Request
deriving DecidableEq

/-- `nvme_tracker_t`; `status` is the status word, given by the command that it is the status of. -/
structure Tracker where
  (busy complete : Bool)
  bio : Option Nat
  status : Option Request
deriving DecidableEq

/-- The ids of a queue. -/
structure Pool where
  -- `free_cids`, the last one first
  freeCids : List Nat
  trackers : Nat → Tracker
  -- the calls of `nvme_admin_cmd` that wait, and their ids
  polling : List (Nat × Nat)
  -- who was given a status, and of which command
  delivered : List (Request × Option Request)

/-- `nvme_queue_t` and the controller: the tail of `sq` is `sq_tail`, its head is the controller's,
and what is between was submitted and not fetched. -/
structure Queue extends Pool where
  sq : RingBuffer Sqe
  fetched : List Sqe
  -- the entries of the completion ring with the new phase, the oldest first
  posted : List Sqe

def nvmeQueueInit (qdepth : Nat) : Option Queue :=
  if qdepth < 2 then none
  else some
    { sq := .empty fun _ => ⟨0, .bio 0⟩
      freeCids := (range qdepth).reverse
      trackers := fun _ => ⟨false, false, none, none⟩
      polling := []
      fetched := []
      posted := []
      delivered := [] }

def nvmeTrackerGet (p : Pool) : Option (Nat × Pool) :=
  match p.freeCids with
  | [] => none
  | cid :: rest =>
    some (cid, { p with freeCids := rest, trackers := update p.trackers cid ⟨true, false, none, none⟩ })

def nvmeTrackerPut (p : Pool) (cid : Nat) : Pool :=
  let tr := p.trackers cid
  if !tr.busy then p
  else { p with
    trackers := update p.trackers cid { tr with busy := false, complete := false, bio := none }
    freeCids := cid :: p.freeCids }

/-- `nvme_sq_ring`. -/
def nvmeSqRing (n : Nat) (q : Queue) (p : Pool) (sqe : Sqe) : Queue :=
  { q with toPool := p, sq := q.sq.push n sqe }

/-- `nvme_submit`; `mapped` says that the buffer is mapped and its page list is built. -/
def nvmeSubmit (n : Nat) (q : Queue) (bio : Nat) (mapped : Bool) : Queue :=
  match nvmeTrackerGet q.toPool with
  | none => q
  | some (cid, p) =>
    let p := { p with trackers := update p.trackers cid { p.trackers cid with bio := some bio } }
    if mapped then nvmeSqRing n q p ⟨cid, .bio bio⟩ else { q with toPool := nvmeTrackerPut p cid }

/-- `nvme_admin_cmd` up to the loop that waits. -/
def nvmeAdminCmd (n : Nat) (q : Queue) (caller : Nat) : Queue :=
  match nvmeTrackerGet q.toPool with
  | none => q
  | some (cid, p) => nvmeSqRing n q { p with polling := (caller, cid) :: p.polling } ⟨cid, .admin caller⟩

/-- What `nvme_cq_drain` does with a completion. -/
def nvmeCqDrain (n : Nat) (p : Pool) (cqe : Sqe) : Pool :=
  let tr := p.trackers cqe.cid
  if cqe.cid ≥ n then p
  else if !tr.busy then p
  else
    let p := { p with
      trackers := update p.trackers cqe.cid { tr with status := some cqe.command, complete := true } }
    match tr.bio with
    | none => p
    | some bio => nvmeTrackerPut { p with delivered := (.bio bio, some cqe.command) :: p.delivered } cqe.cid

inductive Event where
  | submit (bio : Nat) (mapped : Bool)
  | admin (caller : Nat)
  -- the controller reads the entry at its head, unless the tail it was told is there
  | fetch
  -- the controller completes any of the commands that it has fetched
  | complete (sqe : Sqe)
  | drain
  -- a call of `nvme_admin_cmd` finds its command complete
  | finish (caller cid : Nat)
  -- or stops to wait
  | expire (caller cid : Nat)
deriving DecidableEq

local instance lawfulPairs : LawfulBEq (Nat × Nat) := inferInstance

def step (n : Nat) (q : Queue) : Event → Option Queue
  | .submit bio mapped => some (nvmeSubmit n q bio mapped)
  | .admin caller => some (nvmeAdminCmd n q caller)
  | .fetch =>
    if q.sq.head = q.sq.tail then none
    else some { q with sq := q.sq.removeAt n 0, fetched := q.sq.get n 0 :: q.fetched }
  | .complete sqe =>
    if sqe ∈ q.fetched then some { q with fetched := q.fetched.erase sqe, posted := q.posted ++ [sqe] } else none
  | .drain =>
    match q.posted with
    | [] => none
    | cqe :: rest => some { q with toPool := nvmeCqDrain n q.toPool cqe, posted := rest }
  | .finish caller cid =>
    if (caller, cid) ∈ q.polling ∧ (q.trackers cid).complete then
      some { q with toPool := nvmeTrackerPut { q.toPool with
        polling := q.polling.erase (caller, cid)
        delivered := (.admin caller, (q.trackers cid).status) :: q.delivered } cid }
    else none
  | .expire caller cid =>
    if (caller, cid) ∈ q.polling then some { q with polling := q.polling.erase (caller, cid) } else none

/-- The commands that were submitted and not drained. -/
def Queue.live (n : Nat) (q : Queue) : List Sqe := q.sq.contents n ++ q.fetched ++ q.posted

/-- The tracker of a command that is under way. -/
def Tracker.Carries (tr : Tracker) : Request → Prop
  | .bio id => tr = ⟨true, false, some id, none⟩
  | .admin _ => tr = ⟨true, false, none, none⟩

/-- The ids: the free ones are those without a busy tracker, and a command that is under way, or a
call that waits for one, has an id of its own. -/
structure Ids (n : Nat) (p : Pool) (live : List Sqe) : Prop where
  nodup : p.freeCids.Nodup
  free : ∀ cid, cid ∈ p.freeCids ↔ cid < n ∧ (p.trackers cid).busy = false
  inside : ∀ cid, (p.trackers cid).busy = true → cid < n
  live_nodup : (live.map Sqe.cid).Nodup
  carried : ∀ sqe ∈ live, (p.trackers sqe.cid).Carries sqe.command
  waits_nodup : (p.polling.map Prod.snd).Nodup
  waits : ∀ wait ∈ p.polling, (p.trackers wait.2).busy = true ∧ (p.trackers wait.2).bio = none ∧
    ((p.trackers wait.2).complete = true → (p.trackers wait.2).status = some (.admin wait.1))
  asked : ∀ wait ∈ p.polling, ∀ sqe ∈ live, sqe.cid = wait.2 → sqe.command = .admin wait.1
  delivered : ∀ given ∈ p.delivered, given.2 = some given.1

variable {tr : Tracker} {delivered : List (Request × Option Request)}

theorem Tracker.Carries.busy (carries : tr.Carries command) :
    tr.busy = true ∧ tr.complete = false := by
  cases command <;> cases carries <;> exact ⟨rfl, rfl⟩

namespace Ids

theorem mono (ids : Ids n p live) (part : live'.Subperm live) : Ids n p live' := by
  have nodup : (live'.map Sqe.cid).Nodup := by
    obtain ⟨l, same, sub⟩ := part
    exact (same.map _).nodup_iff.mp (ids.live_nodup.sublist (sub.map _))
  exact { ids with
    live_nodup := nodup
    carried := fun sqe member => ids.carried sqe (part.subset member)
    asked := fun wait waits sqe member => ids.asked wait waits sqe (part.subset member) }

theorem busy (ids : Ids n p live) (member : cid ∈ live.map Sqe.cid) :
    (p.trackers cid).busy = true ∧ (p.trackers cid).complete = false := by
  obtain ⟨sqe, under, rfl⟩ := mem_map.mp member
  exact (ids.carried sqe under).busy

/-- As long as an id is free, fewer commands are under way than there are ids. -/
theorem length_lt (ids : Ids n p live) (top : p.freeCids = cid :: rest) : live.length < n := by
  have idle := (ids.free cid).mp (by simp [top])
  have nodup : (cid :: live.map Sqe.cid).Nodup :=
    nodup_cons.mpr ⟨fun member => Bool.noConfusion (idle.2.symm.trans (ids.busy member).1), ids.live_nodup⟩
  have small : cid :: live.map Sqe.cid ⊆ range n := by
    intro i member
    rw [mem_range]
    rcases mem_cons.mp member with rfl | member
    · exact idle.1
    · exact ids.inside _ (ids.busy member).1
  have short := (nodup.subperm small).length_le
  rwa [length_cons, length_map, length_range] at short

theorem get (ids : Ids n p live) (top : p.freeCids = cid :: rest) (carries : tr.Carries command)
    (waits : polling = p.polling ∨ ∃ caller, command = .admin caller ∧ polling = (caller, cid) :: p.polling) :
    Ids n { p with freeCids := rest, trackers := update p.trackers cid tr, polling }
    (⟨cid, command⟩ :: live) := by
  have idle := (ids.free cid).mp (by simp [top])
  have out : cid ∉ live.map Sqe.cid :=
    fun member => Bool.noConfusion (idle.2.symm.trans (ids.busy member).1)
  have busy := carries.busy
  obtain ⟨nodup, free, _, live_nodup, _, _, _, _, delivered⟩ := ids
  rw [top] at nodup
  have own : (polling.map Prod.snd).Nodup := by grind
  refine ⟨(nodup_cons.mp nodup).2, ?_, ?_, nodup_cons.mpr ⟨out, live_nodup⟩, ?_, own, ?_, ?_,
    delivered⟩ <;> grind [update_apply, Tracker.Carries]

theorem put (ids : Ids n p live) (busy : (p.trackers cid).busy = true)
    (out : cid ∉ live.map Sqe.cid) (unasked : cid ∉ p.polling.map Prod.snd) :
    Ids n (nvmeTrackerPut p cid) live := by
  obtain ⟨_, _, _, live_nodup, _, waits_nodup, _, asked, delivered⟩ := ids
  rw [nvmeTrackerPut, if_neg (by simp [busy])]
  refine ⟨?_, ?_, ?_, live_nodup, ?_, waits_nodup, ?_, asked, delivered⟩ <;> grind [update_apply]

theorem drain (ids : Ids n p (sqe :: live)) : Ids n (nvmeCqDrain n p sqe) live := by
  obtain ⟨cid, command⟩ := sqe
  obtain ⟨out, nodup⟩ := nodup_cons.mp ids.live_nodup
  have carries := ids.carried _ mem_cons_self
  have busy := carries.busy.1
  have mine : ∀ wait ∈ p.polling, wait.2 = cid → command = .admin wait.1 := fun wait asks same =>
    ids.asked wait asks _ mem_cons_self same.symm
  rw [nvmeCqDrain, if_neg (Nat.not_le.mpr (ids.inside _ busy)), if_neg (by simp [busy])]
  obtain ⟨free_nodup, _, _, -, _, waits_nodup, _, _, right⟩ := ids
  have mark : ∀ delivered, (∀ given ∈ delivered, given.2 = some given.1) →
      Ids n { p with
        delivered
        trackers := update p.trackers cid { p.trackers cid with status := some command, complete := true } } live := by
    intro delivered right
    refine ⟨free_nodup, ?_, ?_, nodup, ?_, waits_nodup, ?_, ?_, right⟩ <;> grind [update_apply]
  cases command with
  | bio id =>
    have bio : (p.trackers cid).bio = some id := by rw [carries]
    simp only [bio] at mark ⊢
    exact (mark _ (by grind)).put (by simp [busy]) out (by grind)
  | admin caller =>
    have bio : (p.trackers cid).bio = none := by rw [carries]
    simp only [bio] at mark ⊢
    exact mark _ right

theorem leave (ids : Ids n p live) (wait : Nat × Nat)
    (right : ∀ given ∈ delivered, given.2 = some given.1) :
    Ids n { p with polling := p.polling.erase wait, delivered } live :=
  { ids with
    waits_nodup := ids.waits_nodup.sublist (erase_sublist.map _)
    waits := fun wait member => ids.waits wait (mem_of_mem_erase member)
    asked := fun wait member => ids.asked wait (mem_of_mem_erase member)
    delivered := right }

end Ids

structure Inv (n : Nat) (q : Queue) : Prop where
  sound : q.sq.Sound n
  ids : Ids n q.toPool (q.live n)

namespace Inv

theorem init (start : nvmeQueueInit n = some q) : Inv n q := by
  rw [nvmeQueueInit] at start
  split_ifs at start with small
  cases start
  refine ⟨sound_empty (by omega), ?_⟩
  constructor <;> simp [Queue.live, nodup_reverse.mpr nodup_range]

theorem room (inv : Inv n q) (top : q.freeCids = cid :: rest) : q.sq.count < n := by
  have short := inv.ids.length_lt top
  simp only [Queue.live, length_append, length_contents] at short
  omega

theorem ring (inv : Inv n q) (top : q.freeCids = cid :: rest) (carries : tr.Carries command)
    (waits : polling = q.polling ∨ ∃ caller, command = .admin caller ∧ polling = (caller, cid) :: q.polling) :
    Inv n (nvmeSqRing n q { q.toPool with freeCids := rest, trackers := update q.trackers cid tr, polling }
      ⟨cid, command⟩) := by
  have room := inv.room top
  refine ⟨inv.sound.push room, (inv.ids.get top carries waits).mono (List.Perm.subperm ?_)⟩
  simp only [Queue.live, nvmeSqRing, inv.sound.contents_push room]
  grind

theorem submit (inv : Inv n q) (bio : Nat) (mapped : Bool) : Inv n (nvmeSubmit n q bio mapped) := by
  rw [nvmeSubmit, nvmeTrackerGet]
  cases top : q.freeCids with
  | nil => exact inv
  | cons cid rest =>
    dsimp only
    rw [update_idem, update_self]
    have carries : Tracker.Carries ⟨true, false, some bio, none⟩ (.bio bio) := rfl
    split
    · exact inv.ring top carries (.inl rfl)
    · have ids := inv.ids.get top carries (.inl rfl)
      have out := (nodup_cons.mp ids.live_nodup).1
      refine ⟨inv.sound, (ids.mono (sublist_cons_self _ _).subperm).put (by simp) out ?_⟩
      have := ids.waits
      grind

theorem admin (inv : Inv n q) (caller : Nat) : Inv n (nvmeAdminCmd n q caller) := by
  rw [nvmeAdminCmd, nvmeTrackerGet]
  cases top : q.freeCids with
  | nil => exact inv
  | cons cid rest =>
    have carries : Tracker.Carries ⟨true, false, none, none⟩ (.admin caller) := rfl
    exact inv.ring top carries (.inr ⟨caller, rfl, rfl⟩)

theorem count_pos (inv : Inv n q) (apart : q.sq.head ≠ q.sq.tail) : 0 < q.sq.count := by
  refine Nat.pos_of_ne_zero fun none => apart ?_
  rw [inv.sound.tail, none, index, Nat.add_zero, Nat.mod_eq_of_lt inv.sound.head]

theorem first (inv : Inv n q) (posted : q.posted = cqe :: rest) :
    Ids n q.toPool (cqe :: (q.sq.contents n ++ q.fetched ++ rest)) := by
  refine inv.ids.mono (List.Perm.subperm ?_)
  rw [Queue.live, posted]
  exact perm_middle.symm

theorem next (inv : Inv n q) (taken : step n q e = some q') : Inv n q' := by
  cases e with
  | submit bio mapped =>
    cases taken
    exact inv.submit bio mapped
  | admin caller =>
    cases taken
    exact inv.admin caller
  | fetch =>
    rw [step] at taken
    split_ifs at taken with apart
    cases taken
    have some := inv.count_pos apart
    refine ⟨inv.sound.removeAt some, inv.ids.mono (List.Perm.subperm ?_)⟩
    have inside : 0 < (q.sq.contents n).length := by rwa [length_contents]
    simp only [Queue.live, inv.sound.contents_removeAt some, ← getElem_contents inside]
    generalize q.sq.contents n = contents at inside
    cases contents with
    | nil => cases inside
    | cons => grind
  | complete sqe =>
    rw [step] at taken
    split_ifs at taken with fetched
    cases taken
    refine ⟨inv.sound, inv.ids.mono (List.Perm.subperm ?_)⟩
    simp only [Queue.live]
    grind
  | drain =>
    rw [step] at taken
    split at taken
    · cases taken
    · next cqe rest posted =>
      cases taken
      exact ⟨inv.sound, (inv.first posted).drain⟩
  | finish caller cid =>
    rw [step] at taken
    split_ifs at taken with waits
    cases taken
    obtain ⟨waits, complete⟩ := waits
    obtain ⟨busy, -, status⟩ := inv.ids.waits _ waits
    have own : cid ∉ (q.polling.erase (caller, cid)).map Prod.snd :=
      (nodup_cons.mp (((perm_cons_erase waits).map Prod.snd).nodup_iff.mp inv.ids.waits_nodup)).1
    refine ⟨inv.sound, (inv.ids.leave _ ?_).put busy (fun member => ?_) own⟩
    · exact forall_mem_cons.mpr ⟨status complete, inv.ids.delivered⟩
    · exact Bool.noConfusion (complete.symm.trans (inv.ids.busy member).2)
  | expire caller cid =>
    rw [step] at taken
    split_ifs at taken
    cases taken
    exact ⟨inv.sound, inv.ids.leave _ inv.ids.delivered⟩

end Inv

/-- A completion that is drained reaches its request and frees its id: a block request is completed
at once, and a call of `nvme_admin_cmd` finds its status. -/
def Reached (n : Nat) (q q' : Queue) (cqe : Sqe) : Prop :=
  match cqe.command with
  | .bio id => q'.delivered = (.bio id, some (.bio id)) :: q.delivered ∧ cqe.cid ∈ q'.freeCids
  | .admin caller => ∃ q'', step n q' (.finish caller cqe.cid) = some q'' ∧
      q''.delivered = (.admin caller, some (.admin caller)) :: q.delivered ∧ cqe.cid ∈ q''.freeCids

/-- What a step has to keep: no entry that was not fetched is written, the tail is not moved onto
the head of the controller, the ids are free or busy, a status goes to whom the command was for, and
a completion reaches it. -/
structure Kept (n : Nat) (q : Queue) (e : Event) (q' : Queue) : Prop where
  entries : ∀ i < q.sq.count, q'.sq.cells (index n q.sq.head i) = q.sq.get n i
  apart : q'.sq.tail ≠ q.sq.tail → q'.sq.tail ≠ q'.sq.head
  nodup : q'.freeCids.Nodup
  free : ∀ cid, cid ∈ q'.freeCids ↔ cid < n ∧ (q'.trackers cid).busy = false
  delivered : ∀ given ∈ q'.delivered, given.2 = some given.1
  reached : ∀ cqe rest, e = .drain → q.posted = cqe :: rest → Reached n q q' cqe

end Otsos.Nvme
