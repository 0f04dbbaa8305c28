import Otsos.Page.Queues

/-! Accounting of pages: queued pages are allocated and not wired, and the wired counter is the
number of wired pages. Each call of the page layer keeps the accounts. -/
namespace Otsos.VmPage

open Function (update update_of_ne update_self)
open Finset (range)
open VmPhys (Quiet)
open Option VmPhys

@[local simp] def wiredPages (s : VmPhys) : Finset Nat :=
  (range s.managed).filter fun i => (s.flags i).wired = true

structure Accounts (s : VmPage) : Prop where
  quiet : Quiet s.phys
  queues : Queues s
  queued : ∀ p < s.phys.managed, s.phys.queue p ≠ pqNone →
    (s.phys.flags p).allocated = true ∧ (s.phys.flags p).wired = false
  wiredAllocated : ∀ p < s.phys.managed, (s.phys.flags p).wired = true →
    (s.phys.flags p).allocated = true
  wiredCount : s.wired = (wiredPages s.phys).card

section Keep
variable {phys : VmPhys}

theorem Queues.congr (queues : Queues s) (managed : t.phys.managed = s.phys.managed)
    (total : t.phys.pageTotal = s.phys.pageTotal)
    (next : t.phys.qlinksNext = s.phys.qlinksNext) (prev : t.phys.qlinksPrev = s.phys.qlinksPrev)
    (queue : t.phys.queue = s.phys.queue) (head : t.queueHead = s.queueHead)
    (tail : t.queueTail = s.queueTail) (count : t.queueCount = s.queueCount) : Queues t := by
  refine ⟨?_, ?_, ?_⟩
  · simp only [next, prev, managed, queue, head, tail, count]
    exact queues.lists
  · simp only [managed, queue]
    exact queues.bounded
  · simp only [managed, total]
    exact queues.array

section
variable (accounts : Accounts s)
include accounts

theorem Accounts.onPhys (quiet : Quiet phys)
    (managed : phys.managed = s.phys.managed) (total : phys.pageTotal = s.phys.pageTotal)
    (next : phys.qlinksNext = s.phys.qlinksNext) (prev : phys.qlinksPrev = s.phys.qlinksPrev)
    (queue : phys.queue = s.phys.queue)
    (wired : ∀ i < s.phys.managed, (phys.flags i).wired = (s.phys.flags i).wired)
    (allocated : ∀ i < s.phys.managed, s.phys.queue i ≠ pqNone ∨ (s.phys.flags i).wired = true →
      (phys.flags i).allocated = true) : Accounts { s with phys := phys } := by
  refine ⟨quiet, accounts.queues.congr managed total next prev queue rfl rfl rfl, ?_, ?_, ?_⟩
  · intro i bound listed
    simp only [managed, queue] at bound listed
    exact ⟨allocated i bound (.inl listed), (wired i bound).trans (accounts.queued i bound listed).2⟩
  · intro i bound isWired
    simp only [managed] at bound
    rw [wired i bound] at isWired
    exact allocated i bound (.inr isWired)
  · have same : wiredPages phys = wiredPages s.phys := by
      ext i
      simp only [wiredPages, managed, Finset.mem_filter, Finset.mem_range]
      exact and_congr_right fun bound => by rw [wired i bound]
    simp only [same]
    exact accounts.wiredCount

theorem Accounts.allocated (bound : p < s.phys.managed)
    (used : s.phys.queue p ≠ pqNone ∨ (s.phys.flags p).wired = true) :
    (s.phys.flags p).allocated = true := by
  rcases used with listed | isWired
  · exact (accounts.queued p bound listed).1
  · exact accounts.wiredAllocated p bound isWired

theorem Accounts.access (bound : p < s.phys.managed) : s.phys.access p = some () :=
  access_eq (lt_of_lt_of_le bound accounts.queues.array)

theorem Accounts.onRest (quiet : Quiet phys) (rest : VmPhys.SameRest s.phys phys)
    (wired : ∀ i < s.phys.managed, (phys.flags i).wired = (s.phys.flags i).wired)
    (allocated : ∀ i < s.phys.managed, s.phys.queue i ≠ pqNone ∨ (s.phys.flags i).wired = true →
      (phys.flags i).allocated = true) : Accounts { s with phys := phys } :=
  accounts.onPhys quiet rest.managed rest.total rest.qlinksNext rest.qlinksPrev rest.queue wired
    allocated

theorem Accounts.restore (refCount wireCount pindex : Nat → Nat)
    (object : Nat → Option Nat) : Accounts { s with phys := { s.phys with
      refCount := refCount, wireCount := wireCount, object := object, pindex := pindex } } :=
  accounts.onPhys
    (accounts.quiet.retouch ⟨rfl, rfl, rfl, rfl⟩ rfl rfl rfl rfl rfl rfl fun _ => .inl rfl)
    rfl rfl rfl rfl rfl (fun _ _ => rfl) fun _ => accounts.allocated

theorem Accounts.setRefCount (n : Nat) : Accounts (s.setRefCount p n) :=
  accounts.restore _ _ _ _

theorem Accounts.setWireCount (n : Nat) : Accounts (s.setWireCount p n) :=
  accounts.restore _ _ _ _

theorem Accounts.setOwner (object : Option Nat) (pindex : Nat) :
    Accounts (s.setOwner p object pindex) :=
  accounts.restore _ _ _ _

theorem Accounts.not_free (bound : p < s.phys.managed)
    (allocated : (s.phys.flags p).allocated = true) : (s.phys.flags p).free = false := by
  by_contra free
  rw [Bool.not_eq_false] at free
  have := (accounts.quiet.available bound free).allocated
  rw [allocated] at this
  contradiction

theorem Accounts.setFlags (bound : p < s.phys.managed)
    (allocated : (s.phys.flags p).allocated = true) (flags : PageFlags) (n : Nat)
    (used : flags.free = false) (still : flags.allocated = true)
    (unlisted : flags.wired = true → s.phys.queue p = pqNone) (count : n + (if (s.phys.flags p).wired then 1 else 0) =
      s.wired + (if flags.wired then 1 else 0)) :
    Accounts { s.setFlags p flags with wired := n } := by
  have notFree := accounts.not_free bound allocated
  refine ⟨?_, accounts.queues.congr rfl rfl rfl rfl rfl rfl rfl rfl, ?_, ?_, ?_⟩
  · refine accounts.quiet.retouch ⟨rfl, rfl, rfl, rfl⟩ rfl rfl rfl rfl rfl rfl fun i => ?_
    by_cases same : i = p
    · subst same
      exact .inr ⟨notFree, by simp [VmPage.setFlags, used]⟩
    · exact .inl (update_of_ne same _ _)
  · intro i bound' listed
    change (update s.phys.flags p flags i).allocated = true ∧ (update s.phys.flags p flags i).wired = false
    by_cases same : i = p
    · subst same
      rw [update_self]
      refine ⟨still, ?_⟩
      by_contra isWired
      rw [Bool.not_eq_false] at isWired
      exact listed (unlisted isWired)
    · rw [update_of_ne same]
      exact accounts.queued i bound' listed
  · intro i bound' isWired
    change (update s.phys.flags p flags i).wired = true at isWired
    change (update s.phys.flags p flags i).allocated = true
    by_cases same : i = p
    · subst same
      rwa [update_self]
    · rw [update_of_ne same] at isWired ⊢
      exact accounts.wiredAllocated i bound' isWired
  · have before : (wiredPages s.phys).card = ((wiredPages s.phys).erase p).card +
        (if (s.phys.flags p).wired then 1 else 0) := by
      by_cases isWired : (s.phys.flags p).wired = true
      · have member : p ∈ wiredPages s.phys := by simp [bound, isWired]
        rw [if_pos isWired, Finset.card_erase_add_one member]
      · have absent : p ∉ wiredPages s.phys := by simp [isWired]
        rw [if_neg isWired, Finset.erase_eq_of_notMem absent, Nat.add_zero]
    have after : (wiredPages (s.setFlags p flags).phys).card = ((wiredPages s.phys).erase p).card +
        (if flags.wired then 1 else 0) := by
      have split : wiredPages (s.setFlags p flags).phys = if flags.wired = true then
          insert p ((wiredPages s.phys).erase p) else (wiredPages s.phys).erase p := by
        ext i
        change i ∈ (range s.phys.managed).filter (fun i =>
          (update s.phys.flags p flags i).wired = true) ↔ _
        by_cases same : i = p
        · subst same
          by_cases isWired : flags.wired = true <;> simp [bound, isWired]
        · by_cases isWired : flags.wired = true <;> simp [isWired, same]
      rw [split]
      by_cases isWired : flags.wired = true
      · rw [if_pos isWired, if_pos isWired, Finset.card_insert_of_notMem (Finset.notMem_erase p _)]
      · rw [if_neg isWired, if_neg isWired, Nat.add_zero]
    change n = (wiredPages (s.setFlags p flags).phys).card
    have := accounts.wiredCount
    omega

theorem Accounts.wired_pos (bound : p < s.phys.managed) (isWired : (s.phys.flags p).wired = true) :
    0 < s.wired := by
  rw [accounts.wiredCount, Finset.card_pos]
  exact ⟨p, by simp [bound, isWired]⟩

end

theorem SameButQueue.flags (same : SameButQueue phys t) : t.flags = phys.flags := by
  rw [same]

theorem SameButQueue.managed (same : SameButQueue phys t) : t.managed = phys.managed := by
  rw [same]
  rfl

theorem SameButQueue.retouch (same : SameButQueue phys t) (quiet : Quiet phys) : Quiet t := by
  rw [same]
  exact quiet.retouch ⟨rfl, rfl, rfl, rfl⟩ rfl rfl rfl rfl rfl rfl fun _ => .inl rfl

theorem Accounts.requeued (accounts : Accounts s) (queues : Queues t)
    (same : SameButQueue s.phys t.phys) (queue : t.phys.queue = update s.phys.queue p q)
    (wired : t.wired = s.wired) (allowed : q ≠ pqNone →
      (s.phys.flags p).allocated = true ∧ (s.phys.flags p).wired = false) : Accounts t := by
  have flags := same.flags
  have managed := same.managed
  refine ⟨same.retouch accounts.quiet, queues, ?_, ?_, ?_⟩
  · intro i bound listed
    rw [managed] at bound
    rw [queue] at listed
    rw [flags]
    by_cases here : i = p
    · subst here
      rw [update_self] at listed
      exact allowed listed
    · rw [update_of_ne here] at listed
      exact accounts.queued i bound listed
  · rw [flags, managed]
    exact accounts.wiredAllocated
  · rw [wired, accounts.wiredCount]
    simp only [wiredPages, managed, flags]

theorem Accounts.queueRemove (accounts : Accounts s) (bound : p < s.phys.managed) :
    ∃ t, s.queueRemove p = some t ∧ Accounts t ∧ SameButQueue s.phys t.phys ∧
      t.phys.queue = update s.phys.queue p pqNone ∧ t.wired = s.wired := by
  obtain ⟨t, runs, queues, same, queue, wired⟩ := queueRemove_spec accounts.queues bound
  exact ⟨t, runs, accounts.requeued queues same queue wired fun absurd' => absurd rfl absurd', same,
    queue, wired⟩

theorem Accounts.queueInsert (accounts : Accounts s) (bound : p < s.phys.managed)
    (unlisted : s.phys.queue p = pqNone) (valid : q ≠ pqNone) (small : q < pqCount)
    (allocated : (s.phys.flags p).allocated = true) (unwired : (s.phys.flags p).wired = false) :
    ∃ t, s.queueInsert p q = some t ∧ Accounts t := by
  obtain ⟨t, runs, queues, same, queue, wired⟩ :=
    queueInsert_spec accounts.queues bound unlisted valid small
  exact ⟨t, runs, accounts.requeued queues same queue wired fun _ => ⟨allocated, unwired⟩⟩

end Keep

section Calls
variable {phys : VmPhys}

theorem Accounts.granted (accounts : Accounts s) (granted : VmPhys.Granted s.phys phys p n) :
    Accounts { s with phys := phys } := by
  refine accounts.onRest granted.quiet granted.rest ?_ ?_
  · intro i bound
    by_cases run : p ≤ i ∧ i < p + n
    · rw [granted.taken i run]
      rfl
    · rcases granted.others i run with same | ⟨_, zeroed⟩
      · rw [same]
      · rw [zeroed]
  · intro i bound used
    have allocated := accounts.allocated bound used
    by_cases run : p ≤ i ∧ i < p + n
    · have free := accounts.not_free bound allocated
      rw [granted.free i run] at free
      contradiction
    · rcases granted.others i run with same | ⟨_, zeroed⟩
      · rw [same, allocated]
      · rw [zeroed]
        exact allocated

theorem Accounts.claimPage (accounts : Accounts s) (unlisted : s.phys.queue p = pqNone)
    (wireCount : Nat) : Accounts (s.claimPage p wireCount) ∧
    (s.claimPage p wireCount).phys.queue = s.phys.queue := by
  have queue : (s.claimPage p wireCount).phys.queue = s.phys.queue := by
    change update s.phys.queue p pqNone = _
    rw [← unlisted, Function.update_eq_self]
  refine ⟨?_, queue⟩
  have stored := accounts.restore (update s.phys.refCount p 1) (update s.phys.wireCount p wireCount)
    (update s.phys.pindex p 0) (update s.phys.object p none)
  refine ⟨?_, ⟨?_, ?_, accounts.queues.array⟩, ?_, accounts.wiredAllocated, accounts.wiredCount⟩
  · exact stored.quiet.retouch ⟨rfl, rfl, rfl, rfl⟩ rfl rfl rfl rfl rfl rfl fun _ => .inl rfl
  · intro q valid small
    obtain ⟨l, linked, members, count⟩ := accounts.queues.lists q valid small
    have absent : ∀ r ∈ l, r ≠ p := by
      rintro r member rfl
      exact valid (((members r).mp member).2.symm.trans unlisted)
    refine ⟨l, linked.frame ?_ ?_, ?_, count⟩
    iterate 2
      · intro r member
        exact update_of_ne (absent r member) _ _
    · rw [queue]
      exact members
  · rw [queue]
    exact accounts.queues.bounded
  · rw [queue]
    exact accounts.queued

/-- A page that has just been handed out: allocated, on no queue and not wired. -/
structure Fresh (s : VmPage) (p : Nat) : Prop where
  bound : p < s.phys.managed
  allocated : (s.phys.flags p).allocated = true
  unlisted : s.phys.queue p = pqNone
  unwired : (s.phys.flags p).wired = false

theorem Accounts.fresh (accounts : Accounts s) (granted : VmPhys.Granted s.phys phys p n)
    (run : p ≤ i ∧ i < p + n) : Fresh { s with phys := phys } i := by
  have bound : i < s.phys.managed := by
    have := granted.managed
    omega
  have unused := (accounts.quiet.available bound (granted.free i run)).allocated
  have flags := granted.taken i run
  refine ⟨granted.rest.managed ▸ bound, ?_, ?_, ?_⟩
  · simp only [flags]
    rfl
  · simp only [granted.rest.queue]
    by_contra listed
    rw [(accounts.queued i bound listed).1] at unused
    contradiction
  · simp only [flags]
    by_contra isWired
    rw [Bool.not_eq_false] at isWired
    rw [accounts.wiredAllocated i bound isWired] at unused
    contradiction

theorem Fresh.claimPage (fresh : Fresh s p) (wireCount : Nat) :
    Fresh (s.claimPage p wireCount) p := by
  refine ⟨fresh.bound, fresh.allocated, ?_, fresh.unwired⟩
  simp [VmPage.claimPage, setQueue]

section
variable (accounts : Accounts s)
include accounts

theorem Accounts.zeroPages (fresh : Fresh s p) : ∃ u, s.zeroPages p 1 = some u ∧ Accounts u ∧
    Fresh u p := by
  have access := accounts.access fresh.bound
  refine ⟨s.setFlags p { s.phys.flags p with zero := true }, ?_, ?_, fresh.bound, ?_,
    fresh.unlisted, ?_⟩
  · simp [VmPage.zeroPages, access]
  · exact accounts.setFlags fresh.bound fresh.allocated _ _
      (accounts.not_free fresh.bound fresh.allocated) fresh.allocated (fun _ => fresh.unlisted) rfl
  · simpa [VmPage.setFlags] using fresh.allocated
  · simpa [VmPage.setFlags] using fresh.unwired

theorem Accounts.wirePages (fresh : Fresh s p) :
    ∃ u, s.wirePages p 1 = some u ∧ Accounts { u with wired := u.wired + 1 } := by
  have access := accounts.access fresh.bound
  refine ⟨(s.setWireCount p 1).setFlags p { s.phys.flags p with wired := true }, ?_, ?_⟩
  · simp [VmPage.wirePages, access]
  · refine (accounts.setWireCount 1).setFlags fresh.bound fresh.allocated _ _
      (accounts.not_free fresh.bound fresh.allocated) fresh.allocated (fun _ => fresh.unlisted) ?_
    change s.wired + 1 + (if (s.phys.flags p).wired = true then 1 else 0) = s.wired + 1
    rw [fresh.unwired]
    rfl

theorem alloc_accounts (flags : AllocFlags) : ∃ page t, s.alloc flags = some (page, t) ∧
    Accounts t := by
  obtain ⟨r, runs, answer⟩ := alloc_answer accounts.quiet 0
  rcases answer with rfl | ⟨page, _, rfl, granted⟩
  · exact ⟨none, s, by simp [alloc, allocLocked, runs], accounts⟩
  have fresh := accounts.fresh granted (i := page) ⟨le_rfl, by simp⟩
  have taken := accounts.granted granted
  have access := taken.access fresh.bound
  obtain ⟨claimed, _⟩ := taken.claimPage fresh.unlisted 0
  have fresh := fresh.claimPage 0
  -- the page joins the wired pages or the active queue
  have settle : ∀ u, Accounts u → Fresh u page →
      ∃ t, (if flags.wired then do
          let u ← u.wirePages page 1
          return (some page, { u with wired := u.wired + 1 })
        else do
          let u ← u.queueInsert page pqActive
          return (some page, u) : Option (Option Nat × VmPage)) = some (some page, t) ∧
        Accounts t := by
    intro u accounts fresh
    by_cases wired : flags.wired = true
    · obtain ⟨v, wires, accounts⟩ := accounts.wirePages fresh
      exact ⟨_, by simp only [if_pos wired, wires, bind_eq_bind, bind_some, pure_def], accounts⟩
    · obtain ⟨v, inserts, accounts⟩ := accounts.queueInsert (q := pqActive) fresh.bound
        fresh.unlisted (by decide) (by decide) fresh.allocated fresh.unwired
      exact ⟨_, by simp only [if_neg wired, inserts, bind_eq_bind, bind_some, pure_def], accounts⟩
  by_cases zero : flags.zero = true
  · obtain ⟨u, zeroes, accounts, fresh⟩ := claimed.zeroPages fresh
    obtain ⟨t, settles, accounts⟩ := settle u accounts fresh
    refine ⟨some page, t, ?_, accounts⟩
    simpa [alloc, allocLocked, runs, access, zero, zeroes] using settles
  · obtain ⟨t, settles, accounts⟩ := settle _ claimed fresh
    refine ⟨some page, t, ?_, accounts⟩
    simpa [alloc, allocLocked, runs, access, zero] using settles

theorem claimRun_accounts (fresh : ∀ i, page ≤ i ∧ i < page + n → Fresh s i) :
    ∃ u, Loop.forUp (fun i s => s.claimWired (page + i)) 0 n s = some u ∧
    Accounts { u with wired := u.wired + n } := by
  obtain ⟨u, runs, last⟩ := Loop.forUp_spec (fun i s => s.claimWired (page + i)) 0 n s
    (fun j u => Accounts { u with wired := u.wired + j } ∧ ∀ i, page + j ≤ i ∧ i < page + n → Fresh u i)
    ⟨accounts, fun i run => fresh i ⟨by omega, run.2⟩⟩
    (by
      rintro j u - _ ⟨accounts, fresh⟩
      have here := fresh (page + j) ⟨le_rfl, by omega⟩
      have inArray := lt_of_lt_of_le here.bound accounts.queues.array
      have claimed := (accounts.claimPage (p := page + j) here.unlisted 1).1
      refine ⟨_, access_return inArray _, ?_, ?_⟩
      · refine claimed.setFlags here.bound here.allocated _ _
          (claimed.not_free here.bound here.allocated) here.allocated
          (fun _ => (here.claimPage 1).unlisted) ?_
        change u.wired + (j + 1) + (if (u.phys.flags (page + j)).wired = true then 1 else 0) = u.wired + j + 1
        rw [here.unwired]
        rfl
      · intro i run
        have other : i ≠ page + j := by omega
        obtain ⟨bound, allocated, unlisted, unwired⟩ := fresh i ⟨by omega, run.2⟩
        refine ⟨bound, ?_, ?_, ?_⟩
        all_goals simp only [VmPage.setFlags, VmPage.claimPage, setQueue, VmPage.setWireCount,
          VmPage.setRefCount, update_of_ne other]
        · exact allocated
        · exact unlisted
        · exact unwired)
  rw [Nat.zero_add] at last
  exact ⟨u, runs, last.1⟩

theorem allocContig_accounts (small : n < 2 ^ 64) (alignment_lt : alignment < 2 ^ 64)
    (runs : s.allocContig n alignment low high = some (addr, t)) : Accounts t := by
  simp only [allocContig] at runs
  split at runs
  · simp only [some.injEq, Prod.mk.injEq] at runs
    exact runs.2 ▸ accounts
  have bounded : (if alignment < pageSize then pageSize else alignment) < 2 ^ 64 := by
    split
    · decide
    · exact alignment_lt
  generalize (if high = 0 then 2 ^ 64 - 1 else high) = limit at runs
  split at runs
  · simp only [some.injEq, Prod.mk.injEq] at runs
    exact runs.2 ▸ accounts
  simp only [bind_eq_bind, bind_eq_some_iff] at runs
  obtain ⟨r, found, rest⟩ := runs
  rcases allocContig_spec accounts.quiet small bounded found with
    rfl | ⟨page, phys, rfl, granted⟩
  · simp only [pure_def, some.injEq, Prod.mk.injEq] at rest
    exact rest.2 ▸ accounts
  · obtain ⟨u, loop, claimed⟩ := claimRun_accounts (accounts.granted granted)
      fun i run => accounts.fresh granted run
    simp only [loop, bind_some, pure_def, some.injEq, Prod.mk.injEq] at rest
    exact rest.2 ▸ claimed

theorem Accounts.dropWiring (bound : p < s.phys.managed) :
    ∃ t, s.dropWiring p = some t ∧ Accounts t ∧ t.phys.managed = s.phys.managed ∧
      (t.phys.flags p).wired = false ∧ t.phys.queue = s.phys.queue ∧
      (t.phys.flags p).allocated = (s.phys.flags p).allocated ∧
      ∀ i, i ≠ p → t.phys.flags i = s.phys.flags i := by
  have access := accounts.access bound
  by_cases isWired : (s.phys.flags p).wired = true
  · have allocated := accounts.wiredAllocated p bound isWired
    have positive := accounts.wired_pos bound isWired
    have count : s.wired - 1 + (if (s.phys.flags p).wired = true then 1 else 0) = s.wired + 0 := by
      rw [if_pos isWired]
      omega
    have cleared := accounts.setFlags bound allocated { s.phys.flags p with wired := false }
      (s.wired - 1) (accounts.not_free bound allocated) allocated (fun bad => nomatch bad) count
    refine ⟨{ (s.setFlags p { s.phys.flags p with wired := false }).setWireCount p 0 with
      wired := s.wired - 1 }, ?_, cleared.setWireCount 0, rfl, ?_, rfl, ?_, ?_⟩
    · simp only [VmPage.dropWiring, access, isWired]
      rfl
    · simp [VmPage.setWireCount, VmPage.setFlags]
    · simp [VmPage.setWireCount, VmPage.setFlags]
    · intro i other
      simp [VmPage.setWireCount, VmPage.setFlags, other]
  · exact ⟨s, by simp [VmPage.dropWiring, access, isWired], accounts, rfl,
      by simpa using isWired, rfl, rfl, fun _ _ => rfl⟩

theorem Accounts.retirePage (bound : p < s.phys.managed) :
    ∃ t, s.retirePage p = some t ∧ Accounts t ∧ t.phys.managed = s.phys.managed ∧
      (t.phys.flags p).wired = false ∧ t.phys.queue = update s.phys.queue p pqNone ∧
      (t.phys.flags p).allocated = (s.phys.flags p).allocated ∧
      ∀ i, i ≠ p → t.phys.flags i = s.phys.flags i := by
  obtain ⟨u, drops, accounts, managed, wired, queue, allocated, others⟩ := accounts.dropWiring bound
  obtain ⟨v, removes, accounts, same, queue', _⟩ := accounts.queueRemove (managed ▸ bound)
  refine ⟨(v.setRefCount p 0).setOwner p none 0, ?_, (accounts.setRefCount 0).setOwner none 0,
    same.managed.trans managed, ?_, ?_, ?_, ?_⟩
  · simp only [VmPage.retirePage, drops, removes, bind_eq_bind, bind_some, pure_def]
  · exact (congrArg PageFlags.wired (congrFun same.flags p)).trans wired
  · exact queue'.trans (by rw [queue])
  · exact (congrArg PageFlags.allocated (congrFun same.flags p)).trans allocated
  · intro i other
    exact (congrFun same.flags i).trans (others i other)

theorem Accounts.freeLocked (bound : p < s.phys.managed) :
    ∃ t, s.freeLocked p = some t ∧ Accounts t := by
  obtain ⟨u, retires, accounts, managed, unwired, queue, _⟩ := accounts.retirePage bound
  rcases free_spec (i := p) accounts.quiet (managed ▸ bound) with
    ⟨frees, _⟩ | ⟨phys, frees, released⟩
  · exact ⟨u, by simp only [VmPage.freeLocked, retires, frees, bind_eq_bind, bind_some, pure_def], accounts⟩
  refine ⟨{ u with phys := phys }, by simp only [VmPage.freeLocked, retires, frees,
    bind_eq_bind, bind_some, pure_def], accounts.onRest released.quiet released.rest ?_ ?_⟩
  · intro i _
    rw [released.flags]
    simp only [onRun]
    split <;> rfl
  · intro i bound' used
    have other : i ≠ p := by
      rintro rfl
      rw [queue, unwired] at used
      simp at used
    rw [released.flags, onRun_out (by omega)]
    exact accounts.allocated bound' used

theorem freePhys_accounts (addr : Nat) : ∃ r t, s.freePhys addr = some (r, t) ∧ Accounts t := by
  cases found : s.phys.paddrToPage addr with
  | none => exact ⟨false, s, by simp [freePhys, found], accounts⟩
  | some p =>
    have bound := (paddrToPage_spec accounts.quiet.inv.layout found).1
    have access := accounts.access bound
    by_cases allocated : (s.phys.flags p).allocated = true
    · by_cases shared : s.phys.refCount p > 1
      · exact ⟨false, s.setRefCount p (s.phys.refCount p - 1),
          by simp [freePhys, found, access, allocated, shared], accounts.setRefCount _⟩
      · obtain ⟨t, frees, accounts⟩ := accounts.freeLocked bound
        exact ⟨true, t, by simp [freePhys, found, access, allocated, shared, frees], accounts⟩
    · exact ⟨false, s, by simp [freePhys, found, access, allocated], accounts⟩

theorem freeContig_accounts (inside : ∀ page, s.phys.paddrToPage addr = some page →
    page + n ≤ s.phys.managed) : ∃ t, s.freeContig addr n = some t ∧ Accounts t := by
  by_cases empty : n = 0
  · exact ⟨s, by simp [freeContig, empty], accounts⟩
  cases found : s.phys.paddrToPage addr with
  | none => exact ⟨s, by simp [freeContig, found], accounts⟩
  | some page =>
    have within := inside page found
    -- pages of the run that are allocated are retired one by one
    obtain ⟨u, loop, accounts, managed, done⟩ := Loop.forUp_spec
      (fun i s => s.retireAllocated (page + i)) 0 n s
      (fun j u => Accounts u ∧ u.phys.managed = s.phys.managed ∧ ∀ i, page ≤ i ∧ i < page + j →
        (u.phys.flags i).allocated = true → (u.phys.flags i).wired = false ∧ u.phys.queue i = pqNone)
      ⟨accounts, rfl, fun i run => by omega⟩
      (by
        rintro j u - _ ⟨accounts, managed, done⟩
        have bound : page + j < u.phys.managed := by omega
        have access := accounts.access bound
        by_cases allocated : (u.phys.flags (page + j)).allocated = true
        · obtain ⟨v, retires, accounts, managed', unwired, queue, _, others⟩ :=
            accounts.retirePage bound
          refine ⟨v, by simp [retireAllocated, access, allocated, retires], accounts, managed'.trans managed, ?_⟩
          intro i run used
          by_cases last : i = page + j
          · subst last
            exact ⟨unwired, by rw [queue, update_self]⟩
          · rw [others i last] at used ⊢
            rw [queue, update_of_ne last]
            exact done i (by omega) used
        · refine ⟨u, by simp [retireAllocated, access, allocated], accounts, managed, fun i run used => ?_⟩
          have other : i ≠ page + j := by
            rintro rfl
            exact allocated used
          exact done i (by omega) used)
    rw [Nat.zero_add] at done
    obtain ⟨phys, frees, released⟩ := freeContig_spec accounts.quiet
      (show page + n ≤ u.phys.managed by omega)
    refine ⟨{ u with phys := phys }, by simp [freeContig, empty, found, loop, frees],
      accounts.onRest released.quiet released.rest ?_ ?_⟩
    · intro i _
      by_cases inRun : (page ≤ i ∧ i < page + n) ∧ (u.phys.flags i).free = false ∧ (u.phys.flags i).excluded = false
      · rw [(released.inside i inRun.1 inRun.2.1 inRun.2.2).1]
        rfl
      have kept : ¬ (page ≤ i ∧ i < page + n) ∨ (u.phys.flags i).free = true ∨
          (u.phys.flags i).excluded = true := by
        rcases not_and_or.mp inRun with out | flags
        · exact .inl out
        · rw [not_and_or, Bool.not_eq_false, Bool.not_eq_false] at flags
          exact .inr flags
      rw [(released.outside i kept).1]
    · intro i bound used
      have allocated := accounts.allocated bound used
      have out : ¬ (page ≤ i ∧ i < page + n) := by
        intro run
        obtain ⟨unwired, unlisted⟩ := done i run allocated
        rw [unwired, unlisted] at used
        simp at used
      rw [(released.outside i (.inl out)).1, allocated]

theorem reserveRange_accounts (start size : Nat) (clear : ∀ i, VmPhys.InRange s.phys (pageFloor start)
        (pageFloor (u64 (u64 (start + size) + (pageSize - 1)))) i →
      s.phys.queue i = pqNone ∧ (s.phys.flags i).wired = false) :
    ∃ t, s.reserveRange start size = some t ∧ Accounts t := by
  by_cases empty : size = 0
  · exact ⟨s, by simp [reserveRange, empty], accounts⟩
  obtain ⟨phys, runs, excluded⟩ := exclude_spec accounts.quiet start (u64 (start + size))
  refine ⟨{ s with phys := phys }, by simp [reserveRange, empty, runs], accounts.onPhys
    excluded.quiet excluded.geom.managed excluded.geom.total excluded.qlinksNext excluded.qlinksPrev
    excluded.queue ?_ ?_⟩
  · intro i _
    by_cases inside : VmPhys.InRange s.phys (pageFloor start)
        (pageFloor (u64 (u64 (start + size) + (pageSize - 1)))) i
    · rw [(excluded.inside i inside).1, (clear i inside).2]
    · rw [(excluded.outside i inside).1]
  · intro i bound used
    have outside : ¬ VmPhys.InRange s.phys (pageFloor start)
        (pageFloor (u64 (u64 (start + size) + (pageSize - 1)))) i := by
      intro inside
      rw [(clear i inside).1, (clear i inside).2] at used
      simp at used
    rw [(excluded.outside i outside).1]
    exact accounts.allocated bound used

theorem ref_accounts (bound : p < s.phys.managed) : ∃ t, s.ref (some p) = some t ∧ Accounts t :=
  ⟨s.setRefCount p (u32 (s.phys.refCount p + 1)), by simp [ref, accounts.access bound],
    accounts.setRefCount _⟩

theorem unref_accounts (bound : p < s.phys.managed) : ∃ r t, s.unref (some p) = some (r, t) ∧
    Accounts t := by
  have access := accounts.access bound
  by_cases shared : s.phys.refCount p > 1
  · exact ⟨false, s.setRefCount p (s.phys.refCount p - 1), by simp [unref, access, shared], accounts.setRefCount _⟩
  by_cases last : s.phys.refCount p = 1
  · obtain ⟨t, frees, accounts⟩ := accounts.freeLocked bound
    exact ⟨true, t, by simp [unref, access, last, frees], accounts⟩
  · exact ⟨false, s, by simp [unref, access, shared, last], accounts⟩

theorem wire_accounts (bound : p < s.phys.managed) (allocated : (s.phys.flags p).allocated = true)
    (counted : s.phys.wireCount p = 0 → (s.phys.flags p).wired = false) :
    ∃ t, s.wire (some p) = some t ∧ Accounts t := by
  have access := accounts.access bound
  by_cases first : s.phys.wireCount p = 0
  · obtain ⟨u, removes, accounts', same, queue, wired⟩ := accounts.queueRemove bound
    have flags := congrFun same.flags p
    have allocated' : (u.phys.flags p).allocated = true := by rw [flags, allocated]
    have set := accounts'.setFlags (same.managed ▸ bound) allocated'
      { u.phys.flags p with wired := true } (u.wired + 1)
      (accounts'.not_free (same.managed ▸ bound) allocated') allocated'
      (fun _ => by rw [queue, update_self])
      (by rw [flags, counted first]; rfl)
    refine ⟨_, ?_, set.setWireCount (p := p) (u32 (u.phys.wireCount p + 1))⟩
    simp only [wire, access, first, removes, if_true]
    rfl
  · refine ⟨s.setWireCount p (u32 (s.phys.wireCount p + 1)), ?_, accounts.setWireCount _⟩
    simp [wire, access, first]

theorem unwire_accounts (bound : p < s.phys.managed)
    (allocated : (s.phys.flags p).allocated = true) :
    ∃ t, s.unwire (some p) = some t ∧ Accounts t := by
  have access := accounts.access bound
  obtain ⟨u, counts, accounts', managed, flags, _⟩ : ∃ u,
      (if s.phys.wireCount p > 0 then s.setWireCount p (s.phys.wireCount p - 1) else s) = u ∧
      Accounts u ∧ u.phys.managed = s.phys.managed ∧ u.phys.flags = s.phys.flags ∧
      u.phys.queue = s.phys.queue ∧ u.wired = s.wired := by
    refine ⟨_, rfl, ?_⟩
    split
    · exact ⟨accounts.setWireCount _, rfl, rfl, rfl, rfl⟩
    · exact ⟨accounts, rfl, rfl, rfl, rfl⟩
  by_cases last : u.phys.wireCount p = 0 ∧ (u.phys.flags p).wired = true
  · have bound' : p < u.phys.managed := managed ▸ bound
    have allocated' : (u.phys.flags p).allocated = true := by rw [flags, allocated]
    have positive := accounts'.wired_pos bound' last.2
    have unlisted : u.phys.queue p = pqNone := by
      by_contra listed
      have := (accounts'.queued p bound' listed).2
      rw [last.2] at this
      contradiction
    have cleared := accounts'.setFlags bound' allocated' { u.phys.flags p with wired := false }
      (u.wired - 1) (accounts'.not_free bound' allocated') allocated'
      (fun bad => nomatch bad)
      (by
        rw [if_pos last.2]
        simp only [Bool.false_eq_true, if_false]
        omega)
    obtain ⟨t, inserts, accounts''⟩ := cleared.queueInsert (p := p) (q := pqInactive) bound' unlisted
      (by decide) (by decide) (by simpa [VmPage.setFlags] using allocated') (by simp [VmPage.setFlags])
    refine ⟨t, ?_, accounts''⟩
    simp only [unwire, access, counts, if_pos last]
    exact inserts
  · refine ⟨u, ?_, accounts'⟩
    simp only [unwire, access, bind_eq_bind, bind_some, counts, if_neg last, pure_def]

theorem requeue_accounts (bound : p < s.phys.managed)
    (allocated : (s.phys.flags p).allocated = true) (valid : q ≠ pqNone) (small : q < pqCount) :
    ∃ t, s.requeue q (some p) = some t ∧ Accounts t := by
  have access := accounts.access bound
  by_cases isWired : (s.phys.flags p).wired = true
  · exact ⟨s, by simp [requeue, access, isWired], accounts⟩
  obtain ⟨u, removes, accounts', same, queue, _⟩ := accounts.queueRemove bound
  have flags := congrFun same.flags p
  obtain ⟨t, inserts, accounts''⟩ := accounts'.queueInsert (p := p) (same.managed ▸ bound)
    (by rw [queue, update_self]) valid small (by rw [flags, allocated])
    (by rw [flags]; simpa using isWired)
  exact ⟨t, by simp [requeue, access, isWired, removes, inserts], accounts''⟩

end

end Calls

end Otsos.VmPage
