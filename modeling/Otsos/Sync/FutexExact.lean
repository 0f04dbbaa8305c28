import Mathlib.Data.List.Nodup
import Otsos.Sync.Futex

/-! Whether `futex_wake` wakes exactly the threads of its address space that it should: any threads
of any processes wait and wake at any addresses. -/
namespace Otsos.Sync.Futex
open Function (update update_self update_of_ne)
open Sched Transition
open List

/-- The wait uses the entry. -/
def rests (fe : Nat) : Option Call → Bool
  | some (.waitRest _ f) => f = fe
  | _ => false

variable {s : Calls.State (calls isUser space n)} {t : Tid} {fe : Nat}

/-- The threads whose waits use the entry. -/
def users (s : Calls.State (calls isUser space n)) (fe : Nat) : List Tid :=
  (range n).filter fun t => rests fe (s.call t)

/-- Only the threads of the table run. -/
def InTable (_ : Calls.State (calls isUser space n)) : Calls.Act (calls isUser space n) → Prop
  | .enter t _ | .resume t => t < n
  | .user _ => True

/-- The entries and the waits that use them belong together. -/
structure Table (s : Calls.State (calls isUser space n)) : Prop where
  here : ∀ t, t < n → (s.threads.td t).used
  waits : ∀ t c, s.call t = some c → t < n ∧
    ∃ u fe, c = .waitRest u fe ∧ (Mem.entry s.mem fe).used ∧ (Mem.entry s.mem fe).uaddr = u ∧
    fe < maxFutexEntries
  count : ∀ fe, (Mem.entry s.mem fe).used → (Mem.entry s.mem fe).refcount = (users s fe).length ∧
    users s fe ≠ []
  keys : ∀ i j, (Mem.entry s.mem i).used → (Mem.entry s.mem j).used →
    (Mem.entry s.mem i).uaddr = (Mem.entry s.mem j).uaddr → i = j
  asleep : ∀ t, s.threads.Asleep t → ∃ u fe, s.call t = some (.waitRest u fe) ∧
    (s.threads.td t).waitChannel = some (futexChan fe)

theorem mem_users : t ∈ users s fe ↔ t < n ∧ rests fe (s.call t) := by simp [users]

theorem length_filter_update {α β : Type} [DecidableEq α] {l : List α} (nodup : l.Nodup) {a : α}
    (mem : a ∈ l) (f : β → Bool) (g : α → β) (v : β) :
    (l.filter fun x => f (update g a v x)).length + (f (g a)).toNat =
    (l.filter fun x => f (g x)).length + (f v).toNat := by
  obtain ⟨l₁, l₂, rfl⟩ := append_of_mem mem
  have apart := (nodup_cons.mp (nodup_middle.mp nodup)).1
  have same : ∀ l' : List α, l' ⊆ l₁ ++ l₂ → l'.filter (fun x => f (update g a v x)) = l'.filter
      fun x => f (g x) := by
    intro l' sub
    refine filter_congr fun x inside => ?_
    have other : x ≠ a := by
      rintro rfl
      exact apart (sub inside)
    rw [update_of_ne other]
  simp only [filter_append, filter_cons, same l₁ (subset_append_left ..),
    same l₂ (subset_append_right ..), update_self]
  cases f v <;> cases f (g a) <;> simp <;> omega

theorem users_update (m : Mem) (th : Threads) {c : Option Call} (before : rests fe (s.call t) = a)
    (after : rests fe c = b) (here : t < n) :
      (users (⟨m, th, update s.call t c⟩ : Calls.State (calls isUser space n)) fe).length +
      a.toNat = (users s fe).length + b.toNat := by
  subst before after
  exact length_filter_update nodup_range (mem_range.mpr here) (rests fe) s.call c

theorem rests_self : rests fe (some (.waitRest u fe)) = true := decide_eq_true rfl

variable {m : Mem}

theorem waitRest_entry : (waitRest m fe).entry i = if i = fe then
      if (m.entry fe).refcount - 1 ≤ 0 then .zero
      else { m.entry fe with refcount := (m.entry fe).refcount - 1 }
    else m.entry i := by
  rw [waitRest]
  by_cases own : i = fe
  · subst own
    rw [if_pos rfl]
    split <;> exact update_self ..
  · split <;> exact update_of_ne own ..

theorem Table.used_of_rouses (table : Table s) (rouses : s.threads.Rouses th) (here : t < n) :
    (th.td t).used := by
  rcases rouses t with same | ⟨-, used⟩
  · exact same ▸ table.here t here
  · exact used.trans (table.here t here)

theorem Table.asleep_of_rouses (table : Table s) (rouses : s.threads.Rouses th)
    (asleep : th.Asleep t) : ∃ u fe, s.call t = some (.waitRest u fe) ∧
    (th.td t).waitChannel = some (futexChan fe) := by
  have same := rouses.asleep asleep
  rw [Threads.Asleep, same] at asleep
  rw [same]
  exact table.asleep t asleep

theorem Table.idle (table : Table s) (out : s.call t = none) (rouses : s.threads.Rouses th) :
    Table (⟨s.mem, th, update s.call t none⟩ : Calls.State (calls isUser space n)) := by
  have same : update s.call t none = s.call := by rw [← out, Function.update_eq_self]
  rw [same]
  exact ⟨fun _ here => table.used_of_rouses rouses here, table.waits, table.count, table.keys,
    fun _ asleep => table.asleep_of_rouses rouses asleep⟩

theorem Table.low (table : Table s) (mem : t ∈ users s fe) :
    fe < maxFutexEntries ∧ ∃ u, s.call t = some (.waitRest u fe) ∧ (Mem.entry s.mem fe).used ∧
    (Mem.entry s.mem fe).uaddr = u := by
  obtain ⟨-, inside⟩ := mem_users.mp mem
  cases call : s.call t with
  | none =>
    rw [call] at inside
    cases inside
  | some c =>
    obtain ⟨-, u, f, rfl, used, key, low⟩ := table.waits t c call
    rw [call] at inside
    obtain rfl : f = fe := of_decide_eq_true inside
    exact ⟨low, u, rfl, used, key⟩

theorem users_eq_nil (unused : (Mem.entry s.mem fe).used = false) (table : Table s) :
    users s fe = [] := by
  refine eq_nil_iff_forall_not_mem.mpr fun t mem => ?_
  obtain ⟨-, -, -, used, -⟩ := table.low mem
  cases unused.symm.trans used

/-- A thread that enters a wait or leaves one changes no entry but that of the wait. -/
theorem Table.change {s' : Calls.State (calls isUser space n)} (table : Table s)
    (call : s'.call = update s.call t c)
    (others : ∀ i, i ≠ fe → Mem.entry s'.mem i = Mem.entry s.mem i)
    (apart : ∀ i, i ≠ fe → rests i c = rests i (s.call t))
    (here : ∀ u, u < n → (s'.threads.td u).used) (waits : ∀ u d, update s.call t c u = some d →
      u = t ∨ rests fe (some d) → u < n ∧ ∃ v, d = .waitRest v fe ∧
      (Mem.entry s'.mem fe).used ∧ (Mem.entry s'.mem fe).uaddr = v ∧ fe < maxFutexEntries)
    (count : (Mem.entry s'.mem fe).used → (Mem.entry s'.mem fe).refcount = (users s' fe).length ∧
      users s' fe ≠ [])
    (alone : (Mem.entry s'.mem fe).used → ∀ i, i ≠ fe → (Mem.entry s.mem i).used →
      (Mem.entry s.mem i).uaddr ≠ (Mem.entry s'.mem fe).uaddr)
    (asleep : ∀ u, s'.threads.Asleep u → ∃ v f, s'.call u = some (.waitRest v f) ∧
      (s'.threads.td u).waitChannel = some (futexChan f)) : Table s' := by
  refine ⟨here, fun u d going => ?_, fun i uses => ?_, fun i j first second same => ?_, asleep⟩
  · by_cases mine : u = t ∨ rests fe (some d)
    · obtain ⟨low, v, rfl, rest⟩ := waits u d (call ▸ going) mine
      exact ⟨low, v, fe, rfl, rest⟩
    · rw [not_or] at mine
      rw [call, update_of_ne mine.1] at going
      obtain ⟨low, v, f, rfl, rest⟩ := table.waits u d going
      refine ⟨low, v, f, rfl, ?_⟩
      rwa [others f fun same => mine.2 (decide_eq_true same)]
  · by_cases own : i = fe
    · subst own
      exact count uses
    · have same : users s' i = users s i := by
        refine filter_congr fun x _ => ?_
        by_cases self : x = t
        · rw [call, self, update_self, apart i own]
        · rw [call, update_of_ne self]
      rw [others i own] at uses ⊢
      rw [same]
      exact table.count i uses
  · by_cases a : i = fe
    · by_cases b : j = fe
      · exact a.trans b.symm
      · subst a
        rw [others j b] at second same
        exact absurd same.symm (alone first j b second)
    · rw [others i a] at first same
      by_cases b : j = fe
      · subst b
        exact absurd same (alone second i a first)
      · rw [others j b] at second same
        exact table.keys i j first second same

theorem Table.enter (table : Table s) (here : t < n) (out : s.call t = none)
    (low : fe < maxFutexEntries) (others : ∀ i, i ≠ fe → m.entry i = Mem.entry s.mem i)
    (used : (m.entry fe).used) (key : (m.entry fe).uaddr = uaddr)
    (count : (m.entry fe).refcount = (users s fe).length + 1)
    (apart : ∀ i, i ≠ fe → (Mem.entry s.mem i).used → (Mem.entry s.mem i).uaddr ≠ uaddr)
    (stays : ∀ u, (∃ t, s.call t = some (.waitRest u fe)) → u = uaddr) :
    Table (⟨m, s.threads.sleep t (futexChan fe), update s.call t (some (.waitRest uaddr fe))⟩ :
      Calls.State (calls isUser space n)) := by
  refine table.change rfl others (fun i other => ?_) (fun u low => ?_) (fun u d going mine => ?_)
    (fun _ => ?_) (fun _ i other uses same => apart i other uses (same.trans key))
    fun u asleep => ?_
  · rw [out]
    exact decide_eq_false other.symm
  · rw [Threads.sleep, Threads.setState_used, Threads.setChannel_used]
    exact table.here u low
  · by_cases own : u = t
    · subst own
      cases (update_self ..).symm.trans going
      exact ⟨here, uaddr, rfl, used, key, low⟩
    · rw [update_of_ne own] at going
      obtain ⟨low', v, f, rfl, -⟩ := table.waits u d going
      obtain rfl : f = fe := of_decide_eq_true (mine.resolve_left own)
      exact ⟨low', v, rfl, used, key.trans (stays v ⟨u, going⟩).symm, low⟩
  · have size :=
      users_update m (s.threads.sleep t (futexChan fe)) (congrArg (rests fe) out) (rests_self (u := uaddr)) here
    exact ⟨count.trans (congrArg Nat.cast size.symm), ne_nil_of_length_eq_add_one size⟩
  · by_cases own : u = t
    · subst own
      refine ⟨uaddr, fe, update_self .., ?_⟩
      rw [Threads.sleep, Threads.setState_waitChannel, Threads.setChannel_self]
    · rw [Threads.Asleep, Threads.sleep_of_ne own] at asleep
      obtain ⟨v, f, call, on⟩ := table.asleep u asleep
      refine ⟨v, f, (update_of_ne own ..).trans call, ?_⟩
      rw [Threads.sleep_of_ne own]
      exact on

theorem Table.leave (table : Table s) (call : s.call t = some (.waitRest uaddr fe))
    (rouses : s.threads.Rouses th) (awake : ¬th.Asleep t) :
    Table (⟨waitRest s.mem fe, th, update s.call t none⟩ : Calls.State (calls isUser space n)) := by
  obtain ⟨here, _, _, is, used, -, -⟩ := table.waits t _ call
  cases is
  obtain ⟨count, -⟩ := table.count fe used
  have size : (users (⟨waitRest s.mem fe, th, update s.call t none⟩ :
      Calls.State (calls isUser space n)) fe).length + 1 = (users s fe).length :=
    users_update _ th ((congrArg (rests fe) call).trans rests_self) rfl here (c := none)
  have is : (waitRest s.mem fe).entry fe = _ := waitRest_entry
  rw [if_pos rfl, count] at is
  -- the entry stays, with its count, exactly if others use it
  have stays : ((waitRest s.mem fe).entry fe).used → 1 < (users s fe).length ∧
      (waitRest s.mem fe).entry fe =
      { Mem.entry s.mem fe with refcount := (users s fe).length - 1 } := by
    intro uses
    split at is
    · rw [is] at uses
      cases uses
    · next some_ => exact ⟨by omega, is⟩
  refine table.change rfl (fun i other => waitRest_entry.trans (if_neg other)) (fun i other => ?_)
    (fun _ here => table.used_of_rouses rouses here) (fun u d after mine => ?_) (fun uses => ?_)
    (fun uses i other uses' same => ?_) fun u asleep => ?_
  · rw [call]
    exact (decide_eq_false other.symm).symm
  · have gone : u ≠ t := by
      rintro rfl
      cases (update_self ..).symm.trans after
    obtain ⟨low, v, f, rfl, uses, key, high⟩ :=
      table.waits u d ((update_of_ne gone ..).symm.trans after)
    obtain rfl : f = fe := of_decide_eq_true (mine.resolve_left gone)
    -- a second thread uses the entry
    have left : u ∈ users (⟨waitRest s.mem f, th, update s.call t none⟩ : Calls.State (calls isUser space n)) f :=
      mem_users.mpr ⟨low, (congrArg (rests f) after).trans rests_self⟩
    have positive := length_pos_of_mem left
    rw [if_neg (by omega)] at is
    exact ⟨low, v, rfl, by rw [is]; exact ⟨uses, key, high⟩⟩
  · obtain ⟨_, is⟩ := stays uses
    refine ⟨?_, fun empty => ?_⟩
    · rw [is, ← size]
      simp
    · rw [empty, length_nil] at size
      omega
  · rw [(stays uses).2] at same
    exact other (table.keys i fe uses' used same)
  · have other : u ≠ t := fun same => awake (same ▸ asleep)
    obtain ⟨v, f, going, on⟩ := table.asleep_of_rouses rouses asleep
    exact ⟨v, f, (update_of_ne other ..).trans going, on⟩

theorem find_spec (found : m.find uaddr = some fe) :
    fe < maxFutexEntries ∧ (m.entry fe).used ∧ (m.entry fe).uaddr = uaddr := by
  have is := find?_some found
  simp only [Mem.matches, Bool.and_eq_true, decide_eq_true_eq] at is
  exact ⟨mem_range.mp (mem_of_find?_eq_some found), is⟩

theorem Table.wait (table : Table s) (here : t < n) (out : s.call t = none) :
    Table (s.finish t ((calls isUser space n).run t (.wait uaddr expected) s.mem s.threads)) := by
  rcases futexWait_cases isUser (space t) uaddr expected s.mem s.threads with
    idle | ⟨-, fe, m', is, which⟩
  · have done : s.finish t ((calls isUser space n).run t (.wait uaddr expected) s.mem s.threads) =
        ⟨s.mem, s.threads, update s.call t none⟩ := congrArg (Calls.State.finish (P := calls isUser space n) s t) idle
    rw [done]
    exact table.idle out .refl
  · have done : s.finish t ((calls isUser space n).run t (.wait uaddr expected) s.mem s.threads) =
        ⟨m'.set fe { m'.entry fe with refcount := (m'.entry fe).refcount + 1 },
          s.threads.sleep t (futexChan fe), update s.call t (some (.waitRest uaddr fe))⟩ :=
      congrArg (Calls.State.finish (P := calls isUser space n) s t) is
    rw [done]
    have self : ∀ e : Entry, (m'.set fe e).entry fe = e := fun e => update_self ..
    have other : ∀ (e : Entry) i, i ≠ fe → (m'.set fe e).entry i = m'.entry i :=
      fun e i other => update_of_ne other ..
    rcases which with ⟨found, rfl⟩ | ⟨missed, free, rfl⟩
    · obtain ⟨low, used, key⟩ := find_spec found
      refine table.enter here out low (other _) (by rw [self]; exact used) (by rw [self]; exact key) ?_ ?_ ?_
      · rw [self]
        exact congrArg (· + 1) (table.count fe used).1
      · intro i apart used' key'
        exact apart (table.keys i fe used' used (key'.trans key.symm))
      · rintro u ⟨v, call⟩
        obtain ⟨-, _, _, is, -, key', -⟩ := table.waits v _ call
        cases is
        exact key'.symm.trans key
    · have low := mem_range.mp (mem_of_find?_eq_some free)
      have unused : (Mem.entry s.mem fe).used = false := by simpa using find?_some free
      have nobody := users_eq_nil unused table
      have new : ((Mem.set s.mem fe ⟨true, uaddr, 0⟩).set fe
          { (Mem.set s.mem fe ⟨true, uaddr, 0⟩).entry fe with
            refcount := ((Mem.set s.mem fe ⟨true, uaddr, 0⟩).entry fe).refcount + 1 }).entry fe = ⟨true, uaddr, 1⟩ := by
        simp [Mem.set]
      refine table.enter here out low (fun i apart => ?_) ?_ ?_ ?_ ?_ ?_
      · exact (other _ i apart).trans (update_of_ne apart ..)
      · exact congrArg Entry.used new
      · exact congrArg Entry.uaddr new
      · rw [nobody]
        exact congrArg Entry.refcount new
      · intro i apart used key
        obtain ⟨v, inside⟩ := exists_mem_of_ne_nil _ (table.count i used).2
        have missed := find?_eq_none.mp missed i (mem_range.mpr (table.low inside).1)
        exact missed (by simp [Mem.matches, used, key])
      · rintro u ⟨v, call⟩
        obtain ⟨-, _, _, is, used, -⟩ := table.waits v _ call
        cases is
        cases unused.symm.trans used

theorem Table.step (table : Table s) (may : InTable s a) (ran : s.step a = some s') : Table s' := by
  cases Calls.State.step_steps ran with
  | @enter t c out entry =>
    cases c with
    | wait u expected => exact table.wait may out
    | waitRest u fe => cases entry
    | wake u maxWaiters => exact table.idle out futexWake_rouses
    | wakeAll u => exact table.idle out futexWakeAll_rouses
  | @resume t c call =>
    obtain ⟨-, u, fe, rfl, -⟩ := table.waits t c call
    refine table.leave call Threads.setState_rouses ?_
    rintro ⟨sleeping, -⟩
    cases Threads.setState_self.symm.trans sleeping
  | user => exact ⟨table.here, table.waits, table.count, table.keys, table.asleep⟩

/-- The threads that the loop of `futex_wake` can wake, in its order. -/
def sleeping (n fe : Nat) (th : Threads) : List Tid := (range n).filter (th.waitsOn (futexChan fe))

theorem sleeping_rouse (is : sleeping n fe th = a :: l) :
    sleeping n fe (th.rouse a) = l := by
  have nodup : (a :: l).Nodup := is ▸ nodup_range.filter _
  have waits : ∀ x, (th.rouse a).waitsOn (futexChan fe) x = (x ≠ a &&
      th.waitsOn (futexChan fe) x) := by
    intro x
    by_cases own : x = a
    · subst own
      have up : ¬(th.rouse x).waitsOn (futexChan fe) x := fun waits =>
        Threads.rouse_self (Threads.waitsOn_iff.mp waits).2.1
      simpa using up
    · simp [Threads.waitsOn, Threads.rouse_of_ne own, own]
  calc sleeping n fe (th.rouse a)
      = (range n).filter fun x => x ≠ a && th.waitsOn (futexChan fe) x :=
      filter_congr fun x _ => waits x
    _ = (sleeping n fe th).filter fun x => x ≠ a := (filter_filter ..).symm
    _ = (a :: l).filter fun x => x ≠ a := by rw [is]
    _ = l := by
      rw [filter_cons_of_neg (by simp)]
      refine filter_eq_self.mpr fun x mem => ?_
      exact decide_eq_true fun same => (nodup_cons.mp nodup).1 (same ▸ mem)

theorem wakeLoop_eq (k : Nat) (th : Threads) :
    wakeLoop n fe k th = ((sleeping n fe th).take k).foldl Threads.rouse th := by
  induction k generalizing th with
  | zero => rfl
  | succ k ih =>
    have first : (range n).find? (th.waitsOn (futexChan fe)) = (sleeping n fe th).head? :=
      head?_filter.symm
    rw [wakeLoop, Threads.wakeupOne, first]
    cases is : sleeping n fe th with
    | nil =>
      dsimp only [head?_nil]
      rw [ih, is, take_nil, take_nil]
    | cons a l =>
      dsimp only [head?_cons]
      rw [ih, sleeping_rouse is]
      rfl

theorem rouse_all (l : List Tid) (th : Threads) (x : Tid) :
    (x ∈ l → ¬(l.foldl Threads.rouse th).Asleep x) ∧
    (x ∉ l → (l.foldl Threads.rouse th).td x = th.td x) := by
  induction l generalizing th with
  | nil => exact ⟨nofun, fun _ => rfl⟩
  | cons a l ih =>
    refine ⟨fun mem => ?_, fun out => ?_⟩
    · by_cases later : x ∈ l
      · exact (ih (th.rouse a)).1 later
      · obtain rfl : x = a := (mem_cons.mp mem).resolve_right later
        rw [foldl_cons, Threads.Asleep, (ih (th.rouse x)).2 later]
        exact Threads.rouse_self
    · rw [mem_cons, not_or] at out
      rw [foldl_cons, (ih (th.rouse a)).2 out.2, Threads.rouse_of_ne out.1]

def waitsAt (uaddr : UInt64) : Option Call → Bool
  | some (.waitRest a _) => a = uaddr
  | _ => false

/-- The threads of an address space that sleep in `futex_wait` on the address. -/
def sleepers (s : Calls.State (calls isUser space n)) (as : Nat) (uaddr : UInt64) : List Tid :=
  (range n).filter fun x => space x = as && waitsAt uaddr (s.call x) && s.threads.Asleep x

/-- A call of `futex_wake` by thread `t` wakes `min(maxWaiters, w)` threads, all among the `w` of
its own address space that sleep on the address, and returns their number. -/
def Exact (s : Calls.State (calls isUser space n)) (t : Tid) (uaddr : UInt64)
    (maxWaiters : UInt32) : Prop :=
  ∃ woken : List Tid, woken.Nodup ∧
    (∀ x, x ∈ woken ↔ s.threads.Asleep x ∧
      ¬(futexWake n uaddr maxWaiters s.mem s.threads).Asleep x) ∧
    woken ⊆ sleepers s (space t) uaddr ∧
    woken.length = min maxWaiters.toNat (sleepers s (space t) uaddr).length ∧
    futexWoken uaddr maxWaiters s.mem = woken.length

/-- The count is an `int`, and all that wait at the address are of the caller's address space and
sleep. -/
def Fits (s : Calls.State (calls isUser space n)) (t : Tid) (uaddr : UInt64) (maxWaiters : UInt32) :
    Prop :=
  maxWaiters.toNat < 2 ^ 31 ∧ ∀ x, waitsAt uaddr (s.call x) → space x = space t ∧ s.threads.Asleep x

theorem Table.at_address (table : Table s) (waits : waitsAt uaddr (s.call t)) :
    ∃ f, s.call t = some (.waitRest uaddr f) ∧ (Mem.entry s.mem f).used ∧
      (Mem.entry s.mem f).uaddr = uaddr ∧ f < maxFutexEntries := by
  cases call : s.call t with
  | none =>
    rw [call] at waits
    cases waits
  | some c =>
    obtain ⟨-, u, f, rfl, used, key, low⟩ := table.waits t c call
    rw [call] at waits
    obtain rfl : u = uaddr := of_decide_eq_true waits
    exact ⟨f, rfl, used, key, low⟩

theorem Table.exact (table : Table s) (fits : Fits s t uaddr maxWaiters) :
    Exact s t uaddr maxWaiters := by
  have signed : maxWaiters.toInt32.toInt = maxWaiters.toNat :=
    BitVec.toInt_eq_toNat_of_lt (Nat.mul_lt_mul_of_pos_left fits.1 Nat.zero_lt_two)
  cases found : Mem.find s.mem uaddr with
  | none =>
    have nobody : sleepers s (space t) uaddr = [] := by
      refine filter_eq_nil_iff.mpr fun x _ sleeps => ?_
      simp only [Bool.and_eq_true] at sleeps
      obtain ⟨f, -, used, key, low⟩ := table.at_address sleeps.1.2
      exact find?_eq_none.mp found f (mem_range.mpr low) (by simp [Mem.matches, used, key])
    have same : futexWake n uaddr maxWaiters s.mem s.threads = s.threads := by
      simp only [futexWake, found]
    refine ⟨[], nodup_nil, fun x => ?_,
      nil_subset _, by rw [nobody]; simp, by simp only [futexWoken, found]; rfl⟩
    rw [same]
    simp
  | some fe =>
    obtain ⟨low, used, key⟩ := find_spec found
    have mine : ∀ x, waitsAt uaddr (s.call x) → rests fe (s.call x) := by
      intro x waits
      obtain ⟨f, call, used', key', -⟩ := table.at_address waits
      rw [call]
      exact decide_eq_true (table.keys f fe used' used (key'.trans key.symm))
    have sleeps : ∀ x, x < n → rests fe (s.call x) →
        waitsAt uaddr (s.call x) ∧ space x = space t ∧ s.threads.Asleep x := by
      intro x here inside
      obtain ⟨-, u, call, -, key'⟩ := table.low (mem_users.mpr ⟨here, inside⟩)
      have waits : waitsAt uaddr (s.call x) := by
        rw [call]
        exact decide_eq_true (key'.symm.trans key)
      exact ⟨waits, fits.2 x waits⟩
    -- the sleepers are the users of the entry, and those whom the loop finds
    have all : sleepers s (space t) uaddr = users s fe := by
      refine filter_congr fun x here => Bool.eq_iff_iff.mpr ⟨fun is => ?_, fun inside => ?_⟩
      · simp only [Bool.and_eq_true] at is
        exact mine x is.1.2
      · obtain ⟨waits, same, asleep⟩ := sleeps x (mem_range.mp here) inside
        simp [waits, same, asleep]
    have loop : sleeping n fe s.threads = users s fe := by
      refine filter_congr fun x here => Bool.eq_iff_iff.mpr ⟨fun waits => ?_, fun inside => ?_⟩
      · obtain ⟨-, asleep, on⟩ := Threads.waitsOn_iff.mp waits
        obtain ⟨u, f, call, on'⟩ := table.asleep x asleep
        rw [call]
        exact decide_eq_true (Option.some.inj (on'.symm.trans on))
      · obtain ⟨waits, -, asleep⟩ := sleeps x (mem_range.mp here) inside
        obtain ⟨u, f, call, on⟩ := table.asleep x asleep
        rw [call] at inside
        obtain rfl : f = fe := of_decide_eq_true inside
        exact Threads.waitsOn_iff.mpr ⟨table.here x (mem_range.mp here), asleep, on⟩
    have turns : futexWoken uaddr maxWaiters s.mem = min maxWaiters.toNat (users s fe).length := by
      simp only [futexWoken, found, (table.count fe used).1, signed]
      omega
    have is : futexWake n uaddr maxWaiters s.mem s.threads =
        ((users s fe).take (min maxWaiters.toNat (users s fe).length)).foldl Threads.rouse s.threads := by
      simp only [futexWake, found, turns, wakeLoop_eq, loop]
    refine ⟨(users s fe).take (min maxWaiters.toNat (users s fe).length), ?_, fun x => ?_, ?_, ?_,
      ?_⟩
    · exact (nodup_range.filter _).sublist (take_sublist ..)
    · rw [is]
      constructor
      · intro mem
        obtain ⟨here, inside⟩ := mem_users.mp (take_subset _ _ mem)
        exact ⟨(sleeps x here inside).2.2, (rouse_all _ _ x).1 mem⟩
      · rintro ⟨asleep, up⟩
        by_contra out
        rw [Threads.Asleep, (rouse_all _ _ x).2 out] at up
        exact up asleep
    · rw [all]
      exact take_subset ..
    · rw [all, length_take]
      omega
    · rw [length_take]
      omega

/-- All threads are in user mode, and the table is empty. -/
structure Starts (s : Calls.State (calls isUser space n)) : Prop where
  here : ∀ t, t < n → (s.threads.td t).used
  awake : ∀ t, ¬s.threads.Asleep t
  idle : ∀ t, s.call t = none
  empty : ∀ fe, (Mem.entry s.mem fe).used = false

theorem Starts.table (start : Starts s) : Table s := by
  refine ⟨start.here, fun t c call => ?_, fun fe used => ?_, fun i _ used => ?_,
    fun t asleep => absurd asleep (start.awake t)⟩
  · cases (start.idle t).symm.trans call
  · cases (start.empty fe).symm.trans used
  · cases (start.empty i).symm.trans used

/-- In every run an entry is in use exactly while a wait uses it, and each `futex_wake` that finds
only sleeping threads of its own address space at its address is exact. -/
theorem futex_wake_exact (start : Starts s) (run : Reaches Calls.State.step InTable s s') :
    (∀ fe, (Mem.entry s'.mem fe).used = true ↔ users s' fe ≠ []) ∧
      ∀ t uaddr maxWaiters, Fits s' t uaddr maxWaiters → Exact s' t uaddr maxWaiters := by
  have table : Table s' :=
    run.invariant (I := Table) (fun table may ran => table.step may ran) start.table
  refine ⟨fun fe => ⟨fun used => (table.count fe used).2, fun some_ => ?_⟩,
    fun t uaddr maxWaiters fits => table.exact fits⟩
  obtain ⟨t, mem⟩ := exists_mem_of_ne_nil _ some_
  obtain ⟨-, -, -, used, -⟩ := table.low mem
  exact used

section
variable (space : Tid → Nat)

/-- Three threads in user mode, of one process or of several. -/
def threeThreads : Calls.State (calls (fun _ => true) space 3) where
  mem := (⟨fun _ => .zero, fun _ _ => 0⟩ : Mem)
  threads := ⟨fun _ => ⟨true, .running, none⟩, false⟩
  call := fun _ => none

theorem threeThreads_starts : Starts (threeThreads space) :=
  ⟨fun _ _ => rfl, fun _ asleep => (nomatch asleep.1), fun _ => rfl, fun _ => rfl⟩

/-- The thread goes to sleep at `0x1000`. -/
def rest (s : Calls.State (calls (fun _ => true) space 3)) (t : Tid) :
    Calls.State (calls (fun _ => true) space 3) :=
  s.finish t ((calls (fun _ => true) space 3).run t (.wait 0x1000 0) s.mem s.threads)

def oneWaits := rest space (threeThreads space) 0
def bothWait := rest space (oneWaits space) 1

theorem oneWaits_reached : Reaches Calls.State.step InTable (threeThreads space) (oneWaits space) :=
  .cons (a := .enter 0 (.wait 0x1000 0)) (by decide : 0 < 3) rfl .refl

theorem bothWait_reached : Reaches Calls.State.step InTable (threeThreads space) (bothWait space) :=
  (oneWaits_reached space).trans (.cons (a := .enter 1 (.wait 0x1000 0)) (by decide : 1 < 3) rfl
    .refl)

end

/-- A thread of the same process wakes one of two. -/
theorem futex_wake_exact_one : sleepers (bothWait fun _ => 0) 0 0x1000 = [0, 1] ∧
    Exact (bothWait fun _ => 0) 2 0x1000 1 := by
  refine ⟨by decide +kernel, ?_⟩
  apply (futex_wake_exact (threeThreads_starts _) (bothWait_reached _)).2 2 0x1000 1
  refine ⟨by decide, fun x waits => ⟨rfl, ?_⟩⟩
  by_cases zero : x = 0
  · subst zero
    decide +kernel
  by_cases one : x = 1
  · subst one
    decide +kernel
  have idle : (bothWait fun _ => 0).call x = none :=
    (update_of_ne one ..).trans (update_of_ne zero ..)
  rw [idle] at waits
  cases waits

/-- A thread of another process, in which nobody waits, wakes one and returns 1. -/
theorem futex_wake_crosses : ∃ s, Reaches Calls.State.step InTable (threeThreads id) s ∧
    sleepers s 1 0x1000 = [] ∧ futexWoken 0x1000 1 s.mem = 1 ∧ s.threads.Asleep 0 ∧
    ¬(futexWake 3 0x1000 1 s.mem s.threads).Asleep 0 ∧ ¬Exact s 1 0x1000 1 := by
  have none_ : sleepers (oneWaits id) 1 0x1000 = [] := by decide +kernel
  have one : futexWoken 0x1000 1 (oneWaits id).mem = 1 := by decide +kernel
  refine ⟨oneWaits id, oneWaits_reached id, none_, one, by decide +kernel, by decide +kernel, ?_⟩
  rintro ⟨_, -, -, -, few, told⟩
  rw [few] at told
  cases told

end Otsos.Sync.Futex
