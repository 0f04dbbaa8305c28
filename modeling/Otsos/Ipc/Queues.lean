import Otsos.Ipc.Model

/-! The queues as lists, and the tables of cancelled calls. Whatever a step does to them is said by
what happens in it, and that by where the thread is. -/
namespace Otsos.Ipc
open Function (update update_eq_self update_of_ne update_self)
open List Option

/-- The ids of calls that have given up, as an endpoint holds them. -/
structure Table where
  canceled : Nat → UInt64
  pos : Nat

namespace Table

def empty : Table := ⟨fun _ => 0, 0⟩

def add (t : Table) (id : UInt64) : Table :=
  if id = 0 then t else ⟨update t.canceled t.pos id, (t.pos + 1) % ipcCancelSlots⟩

def take (t : Table) (id : UInt64) : Option Table :=
  if id = 0 then none
  else ((range ipcCancelSlots).find? fun i => t.canceled i = id).map fun i =>
    { t with canceled := update t.canceled i 0 }

end Table

structure View where
  queue : Nat → List Msg
  table : Nat → Table

namespace View

def setQueue (v : View) (e : Nat) (l : List Msg) : View := { v with queue := update v.queue e l }

def setTable (v : View) (e : Nat) (t : Table) : View := { v with table := update v.table e t }

end View

/-- What a happening does to the queues and tables. -/
inductive Acts (v : View) : Happening → View → Prop where
  | queued (e : Nat) (m : Msg) : Acts v (.queued e m) (v.setQueue e (v.queue e ++ [m]))
  | dropped (taken : (v.table e).take m.replyTo = some t) : Acts v (.dropped e m) (v.setTable e t)
  | received (there : (v.queue e)[i]? = some m)
    (first : call = none → i = 0) :
    Acts v (.received e m call) (v.setQueue e ((v.queue e).eraseIdx i))
  | lost (there : (v.queue e)[i]? = some m) : Acts v (.lost e m) (v.setQueue e ((v.queue e).eraseIdx i))
  | putBack (there : (v.queue e)[i]? = some m) : Acts v (.putBack e m i) (v.setQueue e (m :: (v.queue e).eraseIdx i))
  | gaveUp (e : Nat) (id : UInt64) (request : Nat) : Acts v (.gaveUp e id request) (v.setTable e ((v.table e).add id))
  | freed (e : Nat) : Acts v (.freed e (v.queue e)) ((v.setQueue e []).setTable e .empty)

/-- One after the other. -/
inductive ActsAll : View → List Happening → View → Prop where
  | nil (v : View) : ActsAll v [] v
  | cons {h : Happening} {hs : List Happening} (act : Acts v h v') (rest : ActsAll v' hs v'') : ActsAll v (h :: hs) v''

namespace ActsAll

theorem one (act : Acts v h v') : ActsAll v [h] v' := .cons act (.nil _)

theorem append (first : ActsAll v hs v') (second : ActsAll v' hs' v'') :
    ActsAll v (hs ++ hs') v'' := by
  induction first with
  | nil v => exact second
  | cons act _ ih => exact .cons act (ih second)

end ActsAll

/-- The endpoint, the id and the request of a thread that waits for a message. -/
def Pc.expects : Pc → Option (Nat × UInt64 × Option Nat)
  | .receiving own .. => some (own, 0, none)
  | .awaiting own id request .. => some (own, id, some request)
  | .idle | .sending .. | .requesting .. | .done .. => none

/-- What a turn of a thread comes to: what happens, and where the thread is then. -/
inductive Turns : View → Pc → List Happening → Pc → Prop where
  | stays (pc : Pc) : Turns v pc [] pc
  | fails {own : Nat} {ret : Int} (mine : pc.own = some own) (negative : ret < 0) : Turns v pc [] (.done own ret)
  | sent (own target : Nat) (m : Msg) (flags : UInt32) :
    Turns v (.sending own target m flags) [.queued target m] (.done own 0)
  | took {own : Nat} {id : UInt64} {call : Option Nat} {m : Msg} {ret : Int}
    (expects : pc.expects = some (own, id, call)) (wanted : Mem.wants id m = true)
    (positive : 0 ≤ ret) : Turns v pc [.received own m call] (.done own ret)
  | lost {own : Nat} {id : UInt64} {call : Option Nat} {m : Msg} {ret : Int}
    (expects : pc.expects = some (own, id, call)) (negative : ret < 0) :
    Turns v pc [.lost own m] (.done own ret)
  | putBack {own : Nat} {id : UInt64} {call : Option Nat} {m : Msg} {i : Nat}
    (expects : pc.expects = some (own, id, call)) :
    Turns v pc [.putBack own m i] (.done own errTooBig)
  | gaveUp {id : UInt64} {request : Nat} {space : Space} {patience : Patience} {ret : Int}
    (missing : ∀ m ∈ v.queue own, Mem.wants id m = false) (negative : ret < 0) :
    Turns v (.awaiting own id request space patience) [.gaveUp own id request] (.done own ret)
  | busy (own target : Nat) (m : Msg) (flags : UInt32) (space : Space) (patience : Patience) :
    Turns v (.requesting own target m flags space patience) [.queued target m,
      .gaveUp own m.id m.stamp] (.done own errBusy)
  | requested {own target : Nat} {m : Msg} {flags : UInt32} {space : Space} {patience : Patience}
    {what : List Happening} {pc : Pc}
    (rest : Turns (v.setQueue target (v.queue target ++ [m])) (.awaiting own m.id m.stamp space patience) what pc) :
    Turns v (.requesting own target m flags space patience) (.queued target m :: what) pc

/-- No message is dropped or lost or put back in front of others. -/
def Happening.Orderly : Happening → Prop
  | .dropped .. | .lost .. => False
  | .putBack _ _ i => i = 0
  | .queued .. | .received .. | .gaveUp .. | .freed .. => True

/-- The space is large enough for the message. -/
def Space.Fits (space : Space) (m : Msg) : Prop :=
  (m.length ≤ space.capacity ∨ space.flags &&& ipcMsgTrunc ≠ 0) ∧
    m.handles.length ≤ space.handleCapacity
deriving Decidable

/-- There is a buffer for the payload, and a process whose table has places for the handles. -/
def Outcome.Takes (o : Outcome) (space : Space) (m : Msg) : Prop :=
  (min m.length space.capacity = 0 ∨ space.payload) ∧ (m.handles = [] ∨ o.caller) ∧
    ∀ j ∈ range m.handles.length, 0 ≤ o.install j
deriving Decidable

/-- The message that would be taken, the first one wanted, can be copied; if it is too big, it is
the first of all. -/
def Ready (queue : List Msg) (o : Outcome) (id : UInt64) (space : Space) : Prop :=
  ∀ m ∈ queue.find? (Mem.wants id), o.Takes space m ∧ (space.Fits m ∨ queue.head? = some m)
deriving Decidable

namespace Pc

def Ready (v : View) (o : Outcome) : Pc → Prop
  | .receiving own space _ => Ipc.Ready (v.queue own) o 0 space
  | .awaiting own id _ space _ => Ipc.Ready (v.queue own) o id space
  | .requesting own _ m _ space _ => Ipc.Ready (v.queue own) o m.id space
  | .idle | .sending .. | .done .. => True

instance (v : View) (o : Outcome) (pc : Pc) : Decidable (pc.Ready v o) := by
  cases pc <;> unfold Ready <;> infer_instance

/-- A call does not send to the endpoint that it waits on. -/
def Apart : Pc → Prop
  | .requesting own target .. => own ≠ target
  | .idle | .sending .. | .receiving .. | .awaiting .. | .done .. => True

end Pc

theorem copyout_of_takes (takes : o.Takes space m) :
    copyout o m space = errTooBig ∧ ¬ space.Fits m ∨ 0 ≤ copyout o m space := by
  obtain ⟨buffer, caller, places⟩ := takes
  rw [copyout]
  split
  · next big => exact .inl ⟨rfl, fun fits => fits.1.elim (Nat.not_le.mpr big.1) fun cut => cut big.2⟩
  dsimp only
  split
  · next none_ => simp [buffer.resolve_left (Nat.ne_of_gt none_.1)] at none_
  split
  · next big => exact .inl ⟨rfl, fun fits => Nat.not_lt.mpr fits.2 big⟩
  split
  · next none_ => simp [caller.resolve_left none_.1] at none_
  right
  cases refused : ((range m.handles.length).map o.install).find? (· < 0) with
  | none => exact Int.natCast_nonneg _
  | some ret =>
    obtain ⟨j, inside, rfl⟩ := mem_map.mp (mem_of_find?_eq_some refused)
    exact places j inside

def Endpoint.table (ep : Endpoint) : Table := ⟨ep.canceled, ep.cancelPos⟩

namespace Mem

def queue (m : Mem) (e : Nat) : List Msg := (m.eps e).elim [] Endpoint.contents

def table (m : Mem) (e : Nat) : Table := (m.eps e).elim .empty Endpoint.table

def view (m : Mem) : View := ⟨m.queue, m.table⟩

/-- The rings are sound, the next id is not zero, and no endpoint is where the next one goes. -/
structure Sound (m : Mem) : Prop where
  ring : ∀ e ep, m.eps e = some ep → ep.queue.Sound ipcQueueMessages
  ids : ∀ e ep, m.eps e = some ep → ep.nextId ≠ 0
  fresh : ∀ e, m.fresh ≤ e → m.eps e = none

variable {m m' : Mem} {target : Nat} {ep : Endpoint} {flags : UInt32} {id : UInt64} {p : Progress}
  {pc : Pc}

theorem queue_of (here : m.eps e = some ep) : m.queue e = ep.contents := by
  rw [queue, here]
  rfl

theorem table_of (here : m.eps e = some ep) : m.table e = ep.table := by
  rw [table, here]
  rfl

theorem set_self : (m.set e ep).eps e = some ep := update_self _ _ _

theorem set_of_ne (other : x ≠ e) : (m.set e ep).eps x = m.eps x := update_of_ne other _ _

theorem set_some (there : (m.set e ep).eps x = some epx) : epx = ep ∨ m.eps x = some epx := by
  by_cases same : x = e
  · subst same
    rw [set_self] at there
    exact .inl (some.inj there).symm
  · rw [set_of_ne same] at there
    exact .inr there

theorem queue_set : (m.set e ep).queue = update m.queue e ep.contents :=
  Function.comp_update (Option.elim · [] Endpoint.contents) m.eps e (some ep)

theorem table_set : (m.set e ep).table = update m.table e ep.table :=
  Function.comp_update (Option.elim · Table.empty Endpoint.table) m.eps e (some ep)

theorem view_set_ring (here : m.eps e = some ep) (q : RingBuffer Msg) :
    (m.set e { ep with queue := q }).view = m.view.setQueue e (q.contents ipcQueueMessages) := by
  have table : update m.table e ep.table = m.table := by
    rw [← table_of here, update_eq_self]
  rw [view, queue_set, table_set]
  exact congrArg (View.mk _) table

theorem view_set_table (here : m.eps e = some ep) (same : ep'.queue = ep.queue) :
    (m.set e ep').view = m.view.setTable e ep'.table := by
  rw [view, queue_set, table_set, Endpoint.contents, same, ← Endpoint.contents, ← queue_of here,
    update_eq_self]
  rfl

theorem view_set_same (here : m.eps e = some ep) (queue : ep'.queue = ep.queue)
    (table : ep'.table = ep.table) : (m.set e ep').view = m.view := by
  rw [view_set_table here queue, table, ← table_of here]
  exact congrArg (View.mk m.queue) (update_eq_self _ _)

section
variable (sound : m.Sound)
include sound

theorem Sound.set (here : m.eps e = some ep) (ring : ep'.queue.Sound ipcQueueMessages)
    (ids : ep'.nextId ≠ 0) : (m.set e ep').Sound := by
  constructor
  · intro x epx there
    rcases set_some there with rfl | before
    · exact ring
    · exact sound.ring x epx before
  · intro x epx there
    rcases set_some there with rfl | before
    · exact ids
    · exact sound.ids x epx before
  · intro x above
    have other : x ≠ e := by
      rintro rfl
      rw [sound.fresh x above] at here
      cases here
    rw [set_of_ne other]
    exact sound.fresh x above

theorem Sound.set_same (here : m.eps e = some ep) (queue : ep'.queue = ep.queue)
    (ids : ep'.nextId = ep.nextId) : (m.set e ep').Sound :=
  sound.set here (queue ▸ sound.ring e ep here) (ids ▸ sound.ids e ep here)

theorem Sound.short (e : Nat) : (m.queue e).length ≤ ipcQueueMessages := by
  cases here : m.eps e with
  | none =>
    rw [queue, here]
    exact Nat.zero_le _
  | some ep =>
    rw [queue_of here, Endpoint.contents, RingBuffer.length_contents]
    exact (sound.ring e ep here).count

theorem push_spec (ran : m.push target msg flags = some (m', ret)) :
    (ret = some 0 ∧ m'.view = m.view.setQueue target (m.queue target ++ [msg]) ∧ m'.Sound ∧
      m'.stamps = m.stamps) ∨ ((∀ r, ret = some r → r < 0) ∧ m' = m) := by
  rw [push] at ran
  split at ran
  · cases ran
  next ep here =>
  split at ran
  · right
    have negative : ∀ r : Int, r < 0 → ∀ r', some r = some r' → r' < 0 := by
      intro r below r' same
      cases same
      exact below
    iterate 2
      split at ran
      · cases ran
        exact ⟨negative _ (by decide), rfl⟩
    · cases ran
      exact ⟨nofun, rfl⟩
  next room =>
    left
    have ring := sound.ring target ep here
    have below : ep.queue.count < ipcQueueMessages := Nat.lt_of_not_le room
    cases ran
    refine ⟨rfl, ?_, sound.set here (ring.push below) (sound.ids target ep here), rfl⟩
    rw [view_set_ring here, queue_of here, Endpoint.contents, ring.contents_push below]

theorem pop_spec (ran : m.pop own replyTo nonblock = some (m', popped)) :
    (∃ msg i, popped = .got msg i ∧ (m.queue own)[i]? = some msg ∧ wants replyTo msg = true ∧
      (m.queue own).find? (wants replyTo) = some msg ∧ (replyTo = 0 → i = 0) ∧ ((m.queue own)[0]? = some msg → i = 0) ∧
      m'.view = m.view.setQueue own ((m.queue own).eraseIdx i) ∧ m'.Sound ∧ m'.stamps = m.stamps) ∨
    ((∀ msg i, popped ≠ .got msg i) ∧ (∀ r, popped = .error r → r < 0) ∧ m' = m ∧
      ∀ msg ∈ m.queue own, wants replyTo msg = false) := by
  rw [pop] at ran
  split at ran
  · cases ran
  next ep here =>
  have ring := sound.ring own ep here
  have cell : ∀ j, j < ep.queue.count → (m.queue own)[j]? = some (ep.queue.get ipcQueueMessages j) := by
    intro j inside
    rw [queue_of here, Endpoint.contents, getElem?_eq_getElem (by simpa using inside), RingBuffer.getElem_contents]
  split at ran
  · next i found =>
    left
    obtain ⟨inside, wanted, before⟩ := RingBuffer.find_inv found
    cases ran
    refine ⟨_, i, rfl, cell i inside, wanted, ?_, ?_, ?_, ?_,
      sound.set here (ring.removeAt inside) (sound.ids own ep here), rfl⟩
    · rw [queue_of here, find?_eq_some_iff_getElem]
      refine ⟨wanted, i, by simpa [Endpoint.contents] using inside, RingBuffer.getElem_contents _, fun j lt => ?_⟩
      rw [Bool.not_eq_true', ← before j lt]
      exact congrArg _ (RingBuffer.getElem_contents _)
    · intro plain
      by_contra later
      have missed := before 0 (Nat.pos_of_ne_zero later)
      simp [wants, plain] at missed
    · intro first
      by_contra later
      have missed := before 0 (Nat.pos_of_ne_zero later)
      rw [cell 0 (by omega)] at first
      rw [some.inj first, wanted] at missed
      cases missed
    · rw [view_set_ring here, queue_of here, Endpoint.contents, ring.contents_removeAt inside]
  · next missing =>
    right
    have none_ := RingBuffer.find_none missing
    rw [← Endpoint.contents, ← queue_of here] at none_
    have negative : ∀ r : Int, r < 0 → ∀ r', Popped.error r = .error r' → r' < 0 := by
      intro r below r' same
      cases same
      exact below
    iterate 2
      split at ran
      · cases ran
        exact ⟨nofun, negative _ (by decide), rfl, none_⟩
    · cases ran
      exact ⟨nofun, nofun, rfl, none_⟩

end

/-- What a turn of a thread in `pc` does. -/
structure Moves (m : Mem) (o : Outcome) (pc : Pc) (p : Progress) : Prop where
  acts : ActsAll m.view p.what p.mem.view
  sound : p.mem.Sound
  stamps : p.mem.stamps = m.stamps
  turns : Turns m.view pc p.what p.pc
  orderly : pc.Apart → pc.Ready m.view o → ∀ h ∈ p.what, h.Orderly

theorem deliver_moves {call : Option Nat} (sound : m.Sound) (sound' : m'.Sound)
    (there : (m.queue own)[i]? = some msg) (front : (m.queue own)[0]? = some msg → i = 0)
    (wanted : wants id msg = true)
    (taken : m'.view = m.view.setQueue own ((m.queue own).eraseIdx i))
    (stamps : m'.stamps = m.stamps) (first : call = none → i = 0)
    (expects : pc.expects = some (own, id, call)) (ready : pc.Ready m.view o → o.Takes space msg ∧
      (space.Fits msg ∨ (m.queue own).head? = some msg))
    (ran : m'.deliver o own msg i space call = some p) : m.Moves o pc p := by
  have takenQueue : m'.queue = update m.queue own ((m.queue own).eraseIdx i) :=
    congrArg View.queue taken
  rw [deliver] at ran
  split at ran
  · next tooBig =>
    split at ran
    · cases ran
    next ep here =>
    cases ran
    have ring := sound'.ring own ep here
    have inside : i < (m.queue own).length := (List.getElem?_eq_some_iff.mp there).1
    have contents : ep.contents = (m.queue own).eraseIdx i := by
      rw [← queue_of here, takenQueue, update_self]
    have room : ep.queue.count < ipcQueueMessages := by
      have short := sound.short own
      have length := congrArg length contents
      rw [Endpoint.contents, RingBuffer.length_contents, length_eraseIdx, if_pos inside] at length
      omega
    refine ⟨?_, sound'.set here (ring.unpop room) (sound'.ids own ep here), stamps,
      tooBig ▸ .putBack expects, fun _ fine => forall_mem_singleton.mpr ?_⟩
    rotate_left
    · obtain ⟨takes, fits⟩ := ready fine
      rcases copyout_of_takes takes with ⟨-, big⟩ | positive
      · exact front (head?_eq_getElem? ▸ fits.resolve_left big)
      · rw [tooBig] at positive
        exact absurd positive (by decide)
    have result : (m'.set own { ep with queue := ep.queue.unpop ipcQueueMessages msg }).view =
        m.view.setQueue own (msg :: (m.queue own).eraseIdx i) := by
      rw [view_set_ring here, ring.contents_unpop room, ← Endpoint.contents, contents, taken,
        View.setQueue, View.setQueue, View.setQueue, Function.update_idem]
    rw [result]
    exact .one (.putBack there)
  split at ran
  · next negative =>
    cases ran
    refine ⟨taken ▸ .one (.lost there), sound', stamps, .lost expects negative, fun _ fine => ?_⟩
    rcases copyout_of_takes (ready fine).1 with ⟨big, -⟩ | positive
    · exact absurd big (by assumption)
    · exact absurd negative (Int.not_lt.mpr positive)
  · next positive =>
    cases ran
    exact ⟨taken ▸ .one (.received there first), sound', stamps,
      .took expects wanted (Int.not_lt.mp positive), fun _ _ => forall_mem_singleton.mpr trivial⟩

theorem cancelAdd_table : (ep.cancelAdd id).table = ep.table.add id := by
  rw [Endpoint.cancelAdd, Table.add]
  split <;> rfl

section
variable (sound : m.Sound)
include sound

theorem giveUp_acts (ran : m.giveUp own id request r = some p) :
    p.what = [.gaveUp own id request] ∧ p.pc = .done own r ∧ ActsAll m.view p.what p.mem.view ∧
      p.mem.Sound ∧ p.mem.stamps = m.stamps := by
  rw [giveUp] at ran
  split at ran
  · cases ran
  next ep here =>
  have same : (ep.cancelAdd id).queue = ep.queue ∧ (ep.cancelAdd id).nextId = ep.nextId := by
    rw [Endpoint.cancelAdd]
    split <;> exact ⟨rfl, rfl⟩
  cases ran
  refine ⟨rfl, rfl, ?_, sound.set_same here same.1 same.2, rfl⟩
  rw [view_set_table here same.1, cancelAdd_table, ← table_of here]
  exact .one (.gaveUp own id request)

theorem Moves.none_ (turns : Turns m.view pc [] pc') : m.Moves o pc ⟨m, pc', []⟩ :=
  ⟨.nil _, sound, rfl, turns, fun _ _ => nofun⟩

theorem recvTurn_moves (ran : m.recvTurn o own space flags = some p) :
    m.Moves o (.receiving own space flags) p := by
  obtain ⟨⟨_, popped⟩, turned, ran⟩ := bind_eq_some_iff.mp ran
  rcases pop_spec sound turned with ⟨msg, i, rfl, there, wanted, found, first, front, taken, sound',
    stamps⟩ | ⟨notGot, negative, rfl, _⟩
  · exact deliver_moves sound sound' there front wanted taken stamps (fun _ => first rfl) rfl (· msg found) ran
  · cases popped with
    | got msg i => exact absurd rfl (notGot msg i)
    | asleep =>
      cases ran
      exact .none_ sound (.stays _)
    | error r =>
      cases ran
      exact .none_ sound (.fails rfl (negative r rfl))

theorem callTurn_moves (ran : m.callTurn o own id request space patience = some p) :
    m.Moves o (.awaiting own id request space patience) p := by
  obtain ⟨⟨m', popped⟩, turned, ran⟩ := bind_eq_some_iff.mp ran
  rcases pop_spec sound turned with ⟨msg, i, rfl, there, wanted, found, _, front, taken, sound',
    stamps⟩ | ⟨notGot, negative, rfl, missing⟩
  · have notPlain : some request = none → i = 0 := nofun
    exact deliver_moves sound sound' there front wanted taken stamps notPlain rfl (· msg found) ran
  · have gives : ∀ r : Int, r < 0 → m'.giveUp own id request r = some p →
        m'.Moves o (.awaiting own id request space patience) p := by
      intro r below ran
      obtain ⟨what, pc, acts, sound', stamps⟩ := giveUp_acts sound ran
      refine ⟨acts, sound', stamps, ?_, fun _ _ => ?_⟩
      · rw [what, pc]
        exact .gaveUp missing below
      · rw [what]
        exact forall_mem_singleton.mpr trivial
    cases popped with
    | got msg i => exact absurd rfl (notGot msg i)
    | asleep =>
      cases ran
      exact .none_ sound (.stays _)
    | error r =>
      dsimp only at ran
      iterate 2
        split at ran
        · cases ran
          exact .none_ sound (.fails rfl (negative r rfl))
      · exact gives _ (by decide) ran
      split at ran
      · exact gives _ (by decide) ran
      · cases ran
        exact .none_ sound (.stays _)

theorem sendTurn_moves (ran : m.sendTurn own target msg flags = some p) :
    m.Moves o (.sending own target msg flags) p := by
  obtain ⟨⟨_, r⟩, pushed, ran⟩ := bind_eq_some_iff.mp ran
  rcases push_spec sound pushed with ⟨rfl, view, sound', stamps⟩ | ⟨negative, rfl⟩
  · cases ran
    exact ⟨view ▸ .one (.queued target msg), sound', stamps, .sent own target msg flags,
      fun _ _ => forall_mem_singleton.mpr trivial⟩
  cases r with
  | none =>
    cases ran
    exact .none_ sound (.stays _)
  | some r =>
    have below := negative r rfl
    simp only [if_neg (Int.ne_of_lt below)] at ran
    cases ran
    exact .none_ sound (.fails rfl below)

theorem requestTurn_moves (ran : m.requestTurn o own target msg flags space patience = some p) :
    m.Moves o (.requesting own target msg flags space patience) p := by
  obtain ⟨⟨m', r⟩, pushed, ran⟩ := bind_eq_some_iff.mp ran
  rcases push_spec sound pushed with ⟨rfl, view, sound', stamps⟩ | ⟨negative, rfl⟩
  · obtain ⟨_, awaited, ran⟩ := bind_eq_some_iff.mp ran
    cases ran
    have acts : ∀ {what v}, ActsAll m'.view what v → ActsAll m.view (.queued target msg :: what) v :=
      fun rest => .cons (.queued target msg) (view ▸ rest)
    rw [await] at awaited
    split at awaited
    · obtain ⟨what, pc, acts', sound'', stamps'⟩ := giveUp_acts sound' awaited
      refine ⟨acts acts', sound'', stamps'.trans stamps, ?_, fun _ _ => ?_⟩
      · rw [pc, what]
        exact .busy own target msg flags space patience
      · rw [what]
        exact forall_mem_cons.mpr ⟨trivial, forall_mem_singleton.mpr trivial⟩
    · have moves := callTurn_moves sound' awaited
      have turns := moves.turns
      have orderly := moves.orderly trivial
      rw [view] at turns orderly
      refine ⟨acts moves.acts, moves.sound, moves.stamps.trans stamps, .requested turns, fun apart ready => ?_⟩
      refine forall_mem_cons.mpr ⟨trivial, orderly ?_⟩
      have same : (m.view.setQueue target (m.queue target ++ [msg])).queue own = m.queue own := update_of_ne apart ..
      rw [Pc.Ready, same]
      exact ready
  · cases r with
    | none =>
      cases ran
      exact .none_ sound (.stays _)
    | some r =>
      have below := negative r rfl
      simp only [if_pos (Int.ne_of_lt below)] at ran
      cases ran
      exact .none_ sound (.fails rfl below)

end

/-- The id of a message made from a request. -/
def idFor (m : Mem) (own : Nat) (req : Request) : UInt64 :=
  if req.id ≠ 0 then req.id else (m.eps own).elim 0 Endpoint.nextId

/-- The message made from a request has its fields, and the next number. -/
structure Made (m : Mem) (own : Nat) (req : Request) (msg : Msg) : Prop where
  id : msg.id = m.idFor own req
  replyTo : msg.replyTo = req.replyTo
  answers : msg.answers = req.answers
  stamp : msg.stamp = m.stamps
  peer : ∀ ep, m.eps own = some ep → ep.role ≠ .client → msg.peer = req.peer

/-- A client sends to its server, a server to its sessions. -/
def Peer (m : Mem) (own target : Nat) : Prop :=
  ∃ ep sv, m.eps own = some ep ∧ ep.service = some sv ∧
    ((ep.role = .client ∧ (m.services sv).server = some target) ∨ (ep.role = .server ∧ target ∈ m.sessions sv))

/-- What a send or a call starts with; `next` counts the messages then made. -/
inductive Begins (m : Mem) (own : Nat) (req : Request) : Bool → Nat → List Happening → Pc →
    Prop where
  | refused {next : Nat} (counted : m.stamps ≤ next) (ret : Int) : Begins m own req isCall next [] (.done own ret)
  | dropped {target : Nat} (made : m.Made own req msg) (peer : m.Peer own target) :
    Begins m own req false (m.stamps + 1) [.dropped target msg] (.done own 0)
  | sends {target : Nat} {flags : UInt32} {pc : Pc} (made : m.Made own req msg)
    (peer : m.Peer own target) (kept : (m.table target).take msg.replyTo = none)
    (turns : Turns m.view (.sending own target msg flags) what pc) : Begins m own req false (m.stamps + 1) what pc
  | calls {target : Nat} {flags : UInt32} {what : List Happening}
    {pc : Pc} (made : m.Made own req msg) (peer : m.Peer own target)
    (turns : Turns m.view (.requesting own target msg flags space patience) what pc) :
    Begins m own req true (m.stamps + 1) what pc

/-- The endpoint that a message goes to. -/
def addressee (m : Mem) (own : Nat) (req : Request) : Option Nat := do
  let ep ← m.eps own
  let sv ← ep.service
  (m.target ep sv req.peer).join

/-- A message is no reply, or one to a call that has not given up. -/
def Wanted (m : Mem) (own : Nat) (req : Request) : Prop :=
  ∀ target ∈ m.addressee own req, (m.table target).take req.replyTo = none
deriving Decidable

structure Enters (m : Mem) (own : Nat) (req : Request) (isCall : Bool) (safe : Prop)
    (p : Progress) : Prop where
  acts : ActsAll m.view p.what p.mem.view
  sound : p.mem.Sound
  begins : m.Begins own req isCall p.mem.stamps p.what p.pc
  orderly : (∀ target, m.Peer own target → own ≠ target) → safe → ∀ h ∈ p.what, h.Orderly

/-- Nothing but the next id is changed by making a message. -/
structure Numbered (ep ep' : Endpoint) : Prop where
  queue : ep'.queue = ep.queue
  table : ep'.table = ep.table
  role : ep'.role = ep.role
  face : (ep'.peerId, ep'.closed) = (ep.peerId, ep.closed)
  ids : ep.nextId ≠ 0 → ep'.nextId ≠ 0

theorem takeId_ne_zero : (ep.takeId req).nextId ≠ 0 := by
  rw [Endpoint.takeId]
  dsimp only
  generalize (if req.id ≠ 0 then ep.nextId else ep.nextId + 1) = next
  split
  · decide
  · assumption

theorem build_numbered (stamp : Nat) : Numbered ep (ep.build req stamp).1 := by
  rw [Endpoint.build]
  split
  · exact ⟨rfl, rfl, rfl, rfl, id⟩
  split
  · exact ⟨rfl, rfl, rfl, rfl, id⟩
  · exact ⟨rfl, rfl, rfl, rfl, fun _ => takeId_ne_zero⟩

theorem build_made (here : m.eps own = some ep) (builds : ep.build req m.stamps = (ep', .ok msg)) :
    m.Made own req msg := by
  rw [Endpoint.build] at builds
  split at builds
  · cases builds
  split at builds
  · cases builds
  simp only [Prod.mk.injEq] at builds
  obtain ⟨_, made⟩ := builds
  split at made
  · cases made
  obtain ⟨handles, _, rfl⟩ : ∃ handles, req.handles.mapM req.lookup = .ok handles ∧ _ = msg := by
    cases looked : req.handles.mapM req.lookup with
    | error e =>
      rw [looked] at made
      cases made
    | ok handles =>
      rw [looked] at made
      exact ⟨handles, rfl, Except.ok.inj made⟩
  refine ⟨?_, rfl, rfl, rfl, fun _ there server => ?_⟩
  · rw [idFor, here]
    rfl
  · cases here.symm.trans there
    exact if_neg server

theorem cancelTake_some (taken : ep.cancelTake id = some ep') :
    ep.table.take id = some ep'.table ∧ ep'.queue = ep.queue ∧ ep'.nextId = ep.nextId := by
  rw [Endpoint.cancelTake] at taken
  rw [Table.take]
  split at taken
  · cases taken
  · next notZero =>
    obtain ⟨i, found, rfl⟩ := map_eq_some_iff.mp taken
    rw [if_neg notZero]
    exact ⟨map_eq_some_iff.mpr ⟨i, found, rfl⟩, rfl, rfl⟩

theorem cancelTake_none (taken : ep.cancelTake id = none) : ep.table.take id = none := by
  rw [Endpoint.cancelTake] at taken
  rw [Table.take]
  split at taken
  · next zero => rw [if_pos zero]
  · next notZero =>
    rw [if_neg notZero]
    exact map_eq_none_iff.mpr (map_eq_none_iff.mp taken)

theorem serviceClient_mem (found : m.serviceClient peer cs = some (some target)) :
    target ∈ cs := by
  induction cs with
  | nil => cases found
  | cons c rest ih =>
    rw [serviceClient] at found
    split at found
    · cases found
    split at found
    · cases found
      exact mem_cons_self
    · exact mem_cons_of_mem _ (ih found)

theorem target_peer (found : m.target ep sv peer = some (some target)) :
    (ep.role = .client ∧ (m.services sv).server = some target) ∨
    (ep.role = .server ∧ target ∈ m.sessions sv) := by
  rw [Mem.target] at found
  split at found
  · next client => exact .inl ⟨client, some.inj found⟩
  next notClient =>
  have server : ep.role = .server := by
    cases role : ep.role with
    | server => rfl
    | client => exact absurd role notClient
  split at found
  · cases found
  · exact .inr ⟨server, serviceClient_mem found⟩

/-- What is read of the endpoints to find the one that a message goes to. -/
def Faces (m m' : Mem) : Prop :=
  ∀ c, (m'.eps c).map (fun ep => (ep.peerId, ep.closed)) = (m.eps c).map
    fun ep => (ep.peerId, ep.closed)

theorem Faces.set (here : m.eps e = some ep)
    (same : (ep'.peerId, ep'.closed) = (ep.peerId, ep.closed)) : Faces m (m.set e ep') := by
  intro c
  by_cases own : c = e
  · rw [own, set_self, here, map_some, map_some, same]
  · rw [set_of_ne own]

theorem Faces.serviceClient (faces : Faces m m') (cs : List Nat) :
    m'.serviceClient peer cs = m.serviceClient peer cs := by
  induction cs with
  | nil => rfl
  | cons c rest ih =>
    have same := faces c
    rw [Mem.serviceClient, Mem.serviceClient, ih]
    cases here : m.eps c <;> cases there : m'.eps c <;> simp_all

theorem Faces.target_eq (faces : Faces m m') (services : m'.services = m.services)
    (role : ep'.role = ep.role) : m'.target ep' sv peer = m.target ep sv peer := by
  rw [Mem.target, Mem.target, role, services, sessions, sessions, services, faces.serviceClient]

/-- The state in which a message has been built. -/
def built (m : Mem) (own : Nat) (ep : Endpoint) : Mem :=
  { m.set own ep with stamps := m.stamps + 1 }

theorem view_built (here : m.eps own = some ep) (numbered : Numbered ep ep') :
    (m.built own ep').view = m.view :=
  view_set_same here numbered.queue numbered.table

theorem Sound.numbered (sound : m.Sound) (here : m.eps own = some ep) (numbered : Numbered ep ep') :
    (m.set own ep').Sound :=
  sound.set here (numbered.queue ▸ sound.ring own ep here) (numbered.ids (sound.ids own ep here))

theorem Sound.built (sound : m.Sound) (here : m.eps own = some ep) (numbered : Numbered ep ep') :
    (m.built own ep').Sound :=
  have set := sound.numbered here numbered
  ⟨set.ring, set.ids, set.fresh⟩

theorem Enters.refused (sound : m'.Sound) (view : m'.view = m.view)
    (stamps : m.stamps ≤ m'.stamps) : m.Enters own req isCall safe ⟨m', .done own r, []⟩ :=
  ⟨view ▸ .nil _, sound, .refused stamps r, fun _ _ => nofun⟩

theorem Moves.enters (moves : (m.built own ep').Moves o pc p)
    (view : (m.built own ep').view = m.view)
    (begins : Turns m.view pc p.what p.pc → m.Begins own req isCall (m.stamps + 1) p.what p.pc)
    (apart : (∀ target, m.Peer own target → own ≠ target) → pc.Apart)
    (ready : safe → pc.Ready m.view o) : m.Enters own req isCall safe p := by
  have stamps : p.mem.stamps = m.stamps + 1 := moves.stamps
  exact ⟨view ▸ moves.acts, moves.sound, stamps ▸ begins (view ▸ moves.turns),
    fun others safe => moves.orderly (apart others) (view.symm ▸ ready safe)⟩

theorem send_enters (sound : m.Sound) (ran : m.send own req = some p) :
    m.Enters own req false (m.Wanted own req) p := by
  obtain ⟨ep, here, ran⟩ := bind_eq_some_iff.mp ran
  have numbered := @build_numbered ep req m.stamps
  split at ran
  iterate 2
    · cases ran
      exact .refused sound rfl (Nat.le_refl _)
  next sv _ service =>
  split at ran
  · next builds =>
    cases ran
    rw [builds] at numbered
    exact .refused (sound.numbered here numbered) (view_set_same here numbered.queue numbered.table) (Nat.le_refl _)
  next ep' msg builds =>
  rw [builds] at numbered
  have made := build_made here builds
  have sound' := sound.built here numbered
  have view := view_built here numbered
  have counted : m.stamps ≤ (m.built own ep').stamps := Nat.le_succ _
  obtain ⟨found, targeted, ran⟩ := bind_eq_some_iff.mp ran
  split at ran
  · cases ran
    exact .refused sound' view counted
  next target =>
  have peer : m.Peer own target := by
    have found := target_peer targeted
    rw [numbered.role] at found
    exact ⟨ep, sv, here, service, found⟩
  obtain ⟨there, at_, ran⟩ := bind_eq_some_iff.mp ran
  have table : m.table target = there.table := by
    have same : (m.built own ep').table target = m.table target := congrArg (View.table · target) view
    exact same.symm.trans (table_of at_)
  split at ran
  · cases ran
    exact .refused sound' view counted
  split at ran
  · next taken =>
    obtain ⟨take, queue, ids⟩ := cancelTake_some taken
    cases ran
    rw [← table] at take
    refine ⟨?_, sound'.set_same at_ queue ids, .dropped made peer, fun _ wanted => ?_⟩
    · rw [view_set_table at_ queue]
      exact view ▸ .one (.dropped (view ▸ take))
    · have same : m.target ep sv req.peer = some (some target) := by
        have faces : Faces m (m.built own ep') := Faces.set here numbered.face
        have same : m.target ep sv msg.peer = some (some target) :=
          (faces.target_eq rfl numbered.role).symm.trans targeted
        by_cases client : ep.role = .client
        · rw [Mem.target, if_pos client] at same ⊢
          exact same
        · rwa [made.peer ep here client] at same
      have addressed : target ∈ m.addressee own req := by simp [addressee, here, service, same]
      rw [made.replyTo, wanted target addressed] at take
      cases take
  · next kept =>
    exact (sendTurn_moves (o := ⟨true, fun _ => 0, true, true⟩) sound' ran).enters view
      (.sends made peer (table ▸ cancelTake_none kept)) (fun _ => trivial) fun _ => trivial

theorem call_enters (sound : m.Sound) (ran : m.call o own req space timeoutMs = some p) :
    m.Enters own req true (Ready (m.queue own) o (m.idFor own req) space) p := by
  obtain ⟨ep, here, ran⟩ := bind_eq_some_iff.mp ran
  have numbered := @build_numbered ep req m.stamps
  split at ran
  · next sv role _ service =>
    split at ran
    · cases ran
      exact .refused sound rfl (Nat.le_refl _)
    next server found =>
    split at ran
    · next builds =>
      cases ran
      rw [builds] at numbered
      exact .refused (sound.numbered here numbered) (view_set_same here numbered.queue numbered.table) (Nat.le_refl _)
    next ep' msg builds =>
    rw [builds] at numbered
    have made := build_made here builds
    have flagged : m.Made own req { msg with flags := msg.flags ||| ipcMsgRequest } :=
      ⟨made.id, made.replyTo, made.answers, made.stamp, made.peer⟩
    have peer : m.Peer own server := ⟨ep, sv, here, service, .inl ⟨role, found⟩⟩
    exact (requestTurn_moves (sound.built here numbered) ran).enters (view_built here numbered)
      (.calls flagged peer) (fun apart => apart server peer) (made.id ▸ ·)
  · cases ran
    exact .refused sound rfl (Nat.le_refl _)

theorem closeSessions_view (sound : m.Sound) (ran : m.closeSessions cs = some m') :
    m'.view = m.view ∧ m'.Sound := by
  induction cs generalizing m with
  | nil =>
    cases ran
    exact ⟨rfl, sound⟩
  | cons c rest ih =>
    obtain ⟨ep, here, ran⟩ := bind_eq_some_iff.mp ran
    have marked : (m.set c { ep with closed := true, service := none }).Sound := sound.set_same here rfl rfl
    obtain ⟨view, sound'⟩ := ih marked ran
    exact ⟨view.trans (view_set_same here rfl rfl), sound'⟩

theorem detach_view (sound : m.Sound) (ran : m.detach e ep = some m') :
    m'.view = m.view ∧ m'.Sound := by
  rw [detach] at ran
  split at ran
  · obtain ⟨_, closed, rfl⟩ := map_eq_some_iff.mp ran
    obtain ⟨view, sound'⟩ := closeSessions_view sound closed
    exact ⟨view, ⟨sound'.ring, sound'.ids, sound'.fresh⟩⟩
  · dsimp only at ran
    split at ran
    · cases ran
      exact ⟨rfl, ⟨sound.ring, sound.ids, sound.fresh⟩⟩
    · obtain ⟨_, _, rfl⟩ := map_eq_some_iff.mp ran
      exact ⟨rfl, ⟨sound.ring, sound.ids, sound.fresh⟩⟩
  · cases ran
    exact ⟨rfl, sound⟩

/-- The state once an endpoint is freed. -/
abbrev free (m : Mem) (e : Nat) : Mem := { m with eps := update m.eps e none }

theorem free_self : (m.free e).eps e = none := update_self _ _ _

theorem free_of_ne (other : x ≠ e) : (m.free e).eps x = m.eps x := update_of_ne other _ _

theorem free_some (there : (m.free e).eps x = some ep) : x ≠ e ∧ m.eps x = some ep := by
  have other : x ≠ e := by
    rintro rfl
    rw [free_self] at there
    cases there
  exact ⟨other, (free_of_ne other).symm.trans there⟩

theorem free_acts (sound : m.Sound) : ActsAll m.view [.freed e (m.queue e)] (m.free e).view ∧
    (m.free e).Sound := by
  refine ⟨?_, ?_, ?_, ?_⟩
  · have queue : (m.free e).queue = update m.queue e [] :=
      Function.comp_update (Option.elim · [] Endpoint.contents) m.eps e none
    have table : (m.free e).table = update m.table e .empty :=
      Function.comp_update (Option.elim · Table.empty Endpoint.table) m.eps e none
    have result : (m.free e).view = (m.view.setQueue e []).setTable e .empty := by
      rw [view, queue, table]
      rfl
    rw [result]
    exact .one (.freed e)
  · exact fun x ep there => sound.ring x ep (free_some there).2
  · exact fun x ep there => sound.ids x ep (free_some there).2
  · intro x above
    by_cases same : x = e
    · subst same
      exact free_self
    · exact (free_of_ne same).trans (sound.fresh x above)

theorem release_acts (sound : m.Sound) (ran : m.release e = some (m', hs)) :
    (hs = [] ∨ ∃ ms, hs = [.freed e ms]) ∧ ActsAll m.view hs m'.view ∧ m'.Sound := by
  obtain ⟨ep, here, ran⟩ := bind_eq_some_iff.mp ran
  split at ran
  · cases ran
    have same : (m.set e { ep with refcount := ep.refcount - 1 }).view = m.view := view_set_same here rfl rfl
    exact ⟨.inl rfl, same ▸ .nil _, sound.set_same here rfl rfl⟩
  obtain ⟨m₁, detached, made⟩ := map_eq_some_iff.mp ran
  cases made
  obtain ⟨view, sound'⟩ := detach_view sound detached
  have queue : m₁.queue = m.queue := congrArg View.queue view
  rw [← queue_of here, ← view, ← queue]
  exact ⟨.inr ⟨_, rfl⟩, free_acts sound'⟩

theorem Sound.new (sound : m.Sound) : (m.set m.fresh (.alloc role nonblock sv peer)).view = m.view ∧
      ∀ services held, Sound { m.set m.fresh (.alloc role nonblock sv peer) with
        services := services, held := held, fresh := m.fresh + 1 } := by
  have none_ := sound.fresh m.fresh (Nat.le_refl _)
  refine ⟨?_, fun services held => ⟨?_, ?_, ?_⟩⟩
  · have noQueue : m.queue m.fresh = [] := by
      rw [queue, none_]
      rfl
    have noTable : m.table m.fresh = .empty := by
      rw [table, none_]
      rfl
    have empty : (Endpoint.alloc role nonblock sv peer).contents = [] := RingBuffer.contents_empty
    have clear : (Endpoint.alloc role nonblock sv peer).table = .empty := rfl
    rw [view, queue_set, table_set, empty, clear, ← noQueue, ← noTable, update_eq_self, update_eq_self]
    rfl
  · intro x ep there
    rcases set_some there with rfl | before
    · exact RingBuffer.sound_empty (by decide)
    · exact sound.ring x ep before
  · intro x ep there
    rcases set_some there with rfl | before
    · exact (by decide : (1 : UInt64) ≠ 0)
    · exact sound.ids x ep before
  · intro x above
    have other : x ≠ m.fresh := by
      rintro rfl
      exact absurd above (Nat.not_succ_le_self _)
    exact (set_of_ne other).trans (sound.fresh x (Nat.le_of_succ_le above))

theorem create_view (nonblock : Bool) (sound : m.Sound) : (m.create nonblock).view = m.view ∧
    (m.create nonblock).Sound := by
  rw [create]
  split
  · exact ⟨rfl, sound⟩
  · obtain ⟨view, sound'⟩ := sound.new
    exact ⟨view, sound' _ _⟩

theorem connect_view (sound : m.Sound) (ran : m.connect sv nonblock = some m') :
    m'.view = m.view ∧ m'.Sound := by
  rw [connect] at ran
  split at ran
  · obtain ⟨_, _, ran⟩ := bind_eq_some_iff.mp ran
    split at ran
    · cases ran
      obtain ⟨view, sound'⟩ := sound.new
      exact ⟨view, sound' _ _⟩
    · cases ran
      exact ⟨rfl, sound⟩
  · cases ran
    exact ⟨rfl, sound⟩

end Mem

/-- Endpoints are made or go. -/
def Event.Manages : Event → Prop
  | .create .. | .connect .. | .close .. => True
  | .send .. | .recv .. | .call .. | .resume .. | .finish .. => False

/-- A thread sends or calls on an endpoint. -/
inductive Event.Asks (thread own : Nat) (req : Request) : Bool → Event → Prop where
  | send : Asks thread own req false (.send thread own req)
  | call (space : Space) (timeoutMs : Int) (o : Outcome) : Asks thread own req true (.call thread own req space timeoutMs o)

/-- What is asked of a call that begins: its message is wanted, and what it receives can be
copied. -/
def Mem.Safe (m : Mem) : Event → Prop
  | .send _ own req => m.Wanted own req
  | .recv _ own space _ o => Ready (m.queue own) o 0 space
  | .call _ own req space _ o => Ready (m.queue own) o (m.idFor own req) space
  | .create .. | .connect .. | .close .. | .resume .. | .finish .. => True

instance (m : Mem) (e : Event) : Decidable (m.Safe e) := by
  cases e <;> unfold Mem.Safe <;> infer_instance

namespace Config

variable {s : Config} {x : Nat}

theorem retain_view (sound : m.Sound) (ran : retain m x = some m') :
    m'.view = m.view ∧ m'.Sound ∧ m'.stamps = m.stamps := by
  obtain ⟨_, here, rfl⟩ := map_eq_some_iff.mp ran
  exact ⟨Mem.view_set_same here rfl rfl, sound.set_same here rfl rfl, rfl⟩

theorem enter_some {f : Mem → Option Progress} (sound : s.mem.Sound)
    (ran : ((retain s.mem x).bind fun m => (f m).map (s.put n)) = some (s', hs)) :
    ∃ m p, retain s.mem x = some m ∧ f m = some p ∧ s.put n p = (s', hs) ∧ m.view = s.mem.view ∧
    m.Sound := by
  obtain ⟨m, retained, ran⟩ := bind_eq_some_iff.mp ran
  obtain ⟨p, went, made⟩ := map_eq_some_iff.mp ran
  obtain ⟨view, sound', _⟩ := retain_view sound retained
  exact ⟨m, p, retained, went, made, view, sound'⟩

theorem turn_moves (sound : m.Sound) (ran : turn m o pc = some p) :
    m.Moves o pc p := by
  cases pc with
  | idle =>
    cases ran
    exact .none_ sound (.stays _)
  | sending own target msg flags => exact Mem.sendTurn_moves sound ran
  | requesting own target msg flags space patience => exact Mem.requestTurn_moves sound ran
  | receiving own space flags => exact Mem.recvTurn_moves sound ran
  | awaiting own id request space patience => exact Mem.callTurn_moves sound ran
  | done own ret =>
    cases ran
    exact .none_ sound (.stays _)

/-- What a step does: the endpoints are managed, or a thread starts a call, goes on in one or leaves
it. -/
inductive Does (s : Config) : Event → List Happening → Config → Prop where
  | manages (kind : e.Manages) (freed : ∀ h ∈ what, ∃ x ms, h = .freed x ms) : Does s e what ⟨m, s.threads⟩
  | sends {p : Progress}
    (asks : Event.Asks thread own req isCall e) (retained : retain s.mem own = some m)
    (enters : m.Enters own req isCall (m.Safe e) p) :
    Does s e p.what ⟨p.mem, s.threads.set thread p.pc⟩
  | receives (retained : retain s.mem own = some m) (moves : m.Moves o (.receiving own space flags) p) :
    Does s (.recv thread own space flags o) p.what ⟨p.mem, s.threads.set thread p.pc⟩
  | resumes (here : s.threads[thread]? = some pc)
    (moves : s.mem.Moves o pc p) :
    Does s (.resume thread o) p.what ⟨p.mem, s.threads.set thread p.pc⟩
  | leaves {what : List Happening}
    (here : s.threads[thread]? = some (.done own ret))
    (freed : what = [] ∨ ∃ ms, what = [.freed own ms]) :
    Does s (.finish thread) what ⟨m, s.threads.set thread .idle⟩

theorem step_does (sound : s.mem.Sound) (allowed : s.Allowed e) (ran : s.step e = some (s', hs)) :
    Does s e hs s' ∧ ActsAll s.mem.view hs s'.mem.view ∧ s'.mem.Sound := by
  cases e with
  | create nonblock =>
    cases ran
    obtain ⟨view, sound'⟩ := Mem.create_view nonblock sound
    exact ⟨.manages trivial nofun, view ▸ .nil _, sound'⟩
  | connect sv nonblock =>
    obtain ⟨m, connected, made⟩ := map_eq_some_iff.mp ran
    cases made
    obtain ⟨view, sound'⟩ := Mem.connect_view sound connected
    exact ⟨.manages trivial nofun, view ▸ .nil _, sound'⟩
  | close x =>
    obtain ⟨⟨m, what⟩, released, made⟩ := map_eq_some_iff.mp ran
    cases made
    have given : Mem.Sound { s.mem with held := update s.mem.held x false } := ⟨sound.ring, sound.ids, sound.fresh⟩
    obtain ⟨freed, acts, sound'⟩ := Mem.release_acts given released
    refine ⟨.manages trivial ?_, acts, sound'⟩
    rcases freed with rfl | ⟨ms, rfl⟩
    · exact nofun
    · exact fun h member => ⟨x, ms, mem_singleton.mp member⟩
  | send n x req =>
    obtain ⟨m, p, retained, sent, made, view, sound'⟩ := enter_some sound ran
    cases made
    have enters := Mem.send_enters sound' sent
    exact ⟨.sends .send retained enters, view ▸ enters.acts, enters.sound⟩
  | recv n x space flags o =>
    obtain ⟨m, p, retained, received, made, view, sound'⟩ := enter_some sound ran
    cases made
    have moves := Mem.recvTurn_moves sound' received
    exact ⟨.receives retained moves, view ▸ moves.acts, moves.sound⟩
  | call n x req space timeoutMs o =>
    obtain ⟨m, p, retained, called, made, view, sound'⟩ := enter_some sound ran
    cases made
    have enters := Mem.call_enters sound' called
    exact ⟨.sends (.call space timeoutMs o) retained enters, view ▸ enters.acts, enters.sound⟩
  | resume n o =>
    obtain ⟨_, here, ran⟩ := bind_eq_some_iff.mp ran
    obtain ⟨p, turned, made⟩ := map_eq_some_iff.mp ran
    cases made
    have moves := turn_moves sound turned
    exact ⟨.resumes here moves, moves.acts, moves.sound⟩
  | finish n =>
    obtain ⟨_, _, here⟩ := allowed
    rw [step, here] at ran
    obtain ⟨⟨m, what⟩, released, made⟩ := map_eq_some_iff.mp ran
    cases made
    obtain ⟨freed, acts, sound'⟩ := Mem.release_acts sound released
    exact ⟨.leaves here freed, acts, sound'⟩

theorem init_sound (threads : Nat) : (init threads).mem.Sound := ⟨nofun, nofun, fun _ _ => rfl⟩

end Config

namespace Run

theorem moves (run : Run s es hs s') (sound : s.mem.Sound) : ActsAll s.mem.view hs s'.mem.view ∧
    s'.mem.Sound := by
  induction run with
  | nil s => exact ⟨.nil _, sound⟩
  | cons allowed stepped rest ih =>
    obtain ⟨_, first, sound'⟩ := Config.step_does sound allowed stepped
    obtain ⟨second, sound''⟩ := ih sound'
    exact ⟨first.append second, sound''⟩

end Run

end Otsos.Ipc
