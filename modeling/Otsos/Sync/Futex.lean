import Otsos.Sched.BigLock

/-! Futexes (`kernel/futex.c`): a table of 64 entries, found by the address alone; the calls as
sections under the big kernel lock. -/
namespace Otsos.Sync.Futex
open Function (update update_self update_of_ne)
open Sched

def maxFutexEntries : Nat := 64

/-- `futex_entry_t`; its field `dummy` is the channel. -/
structure Entry where
  used : Bool
  uaddr : UInt64
  refcount : Int
deriving DecidableEq

def Entry.zero : Entry := ⟨false, 0, 0⟩

/-- The address of `futex_table[i].dummy`. -/
def futexChan (i : Nat) : Chan := i

/-- The table, and the words of each address space. -/
structure Mem where
  entry : Nat → Entry
  word : Nat → UInt64 → UInt32

def Mem.matches (m : Mem) (uaddr : UInt64) (i : Nat) : Bool :=
  (m.entry i).used && (m.entry i).uaddr = uaddr

/-- `futex_find`. -/
def Mem.find (m : Mem) (uaddr : UInt64) : Option Nat :=
  (List.range maxFutexEntries).find? (m.matches uaddr)

/-- The entry that `futex_alloc` takes. -/
def Mem.alloc (m : Mem) : Option Nat :=
  (List.range maxFutexEntries).find? fun i => !(m.entry i).used

def Mem.set (m : Mem) (fe : Nat) (e : Entry) : Mem := { m with entry := update m.entry fe e }

inductive Call where
  | wait (uaddr : UInt64) (expected : UInt32)
  /-- `futex_wait` behind its sleep -/
  | waitRest (uaddr : UInt64) (fe : Nat)
  | wake (uaddr : UInt64) (maxWaiters : UInt32)
  | wakeAll (uaddr : UInt64)

/-- `fe->refcount++` and the sleep. -/
def waitOn (m : Mem) (uaddr : UInt64) (fe : Nat) (threads : Threads) : Section Mem Call :=
  ⟨m.set fe { m.entry fe with refcount := (m.entry fe).refcount + 1 }, threads,
    some (futexChan fe, .waitRest uaddr fe)⟩

/-- `futex_wait` in the address space `space`, up to its sleep. -/
def futexWait (isUser : UInt64 → Bool) (space : Nat) (uaddr : UInt64) (expected : UInt32) (m : Mem)
    (threads : Threads) : Section Mem Call :=
  if !isUser uaddr ∨ m.word space uaddr ≠ expected then ⟨m, threads, none⟩
  else
    match m.find uaddr with
    | some fe => waitOn m uaddr fe threads
    | none =>
      match m.alloc with
      | none => ⟨m, threads, none⟩
      | some fe => waitOn (m.set fe ⟨true, uaddr, 0⟩) uaddr fe threads

/-- The rest of `futex_wait`. -/
def waitRest (m : Mem) (fe : Nat) : Mem :=
  let refcount := (m.entry fe).refcount - 1
  if refcount ≤ 0 then m.set fe .zero else m.set fe { m.entry fe with refcount }

/-- The turns of the loop of `futex_wake`. -/
def wakeLoop (n fe : Nat) : Nat → Threads → Threads
  | 0, threads => threads
  | k + 1, threads => wakeLoop n fe k (threads.wakeupOne n (futexChan fe))

/-- The result of `futex_wake`. The loop ends at the smaller of the bound, read as an `int`, and the
number of those who wait. -/
def futexWoken (uaddr : UInt64) (maxWaiters : UInt32) (m : Mem) : Nat :=
  match m.find uaddr with
  | none => 0
  | some fe => (min maxWaiters.toInt32.toInt (m.entry fe).refcount).toNat

/-- `futex_wake`. -/
def futexWake (n : Nat) (uaddr : UInt64) (maxWaiters : UInt32) (m : Mem) (threads : Threads) :
    Threads :=
  match m.find uaddr with
  | none => threads
  | some fe => wakeLoop n fe (futexWoken uaddr maxWaiters m) threads

/-- `futex_wake_all`. -/
def futexWakeAll (n : Nat) (uaddr : UInt64) (m : Mem) (threads : Threads) : Threads :=
  match m.find uaddr with
  | none => threads
  | some fe => threads.wakeup n (futexChan fe)

/-- The calls of threads in the address spaces `space`; in user mode they store to their words. -/
def calls (isUser : UInt64 → Bool) (space : Tid → Nat) (n : Nat) : Calls where
  Mem := Mem
  Call := Call
  entry := fun c => !(c matches .waitRest _ _)
  User := Nat × UInt64 × UInt32
  user := fun (space, uaddr, value) m =>
    { m with word := update m.word space (update (m.word space) uaddr value) }
  run := fun t c m threads =>
    match c with
    | .wait uaddr expected => futexWait isUser (space t) uaddr expected m threads
    | .waitRest _ fe => ⟨waitRest m fe, threads, none⟩
    | .wake uaddr maxWaiters => ⟨m, futexWake n uaddr maxWaiters m threads, none⟩
    | .wakeAll uaddr => ⟨m, futexWakeAll n uaddr m threads, none⟩

variable {threads : Threads}

theorem futexWait_cases (isUser : UInt64 → Bool) (space : Nat) (uaddr : UInt64) (expected : UInt32)
    (m : Mem) (threads : Threads) :
    futexWait isUser space uaddr expected m threads = ⟨m, threads, none⟩ ∨
      m.word space uaddr = expected ∧ ∃ fe m', futexWait isUser space uaddr expected m threads = waitOn m' uaddr fe threads ∧
        (m.find uaddr = some fe ∧ m' = m ∨ m.find uaddr = none ∧ m.alloc = some fe ∧ m' = m.set fe ⟨true, uaddr, 0⟩) := by
  rw [futexWait]
  split
  · exact .inl rfl
  next pass =>
  have same : m.word space uaddr = expected := not_not.mp (not_or.mp pass).2
  split
  · next fe found => exact .inr ⟨same, fe, m, rfl, .inl ⟨found, rfl⟩⟩
  · next missed =>
    split
    · exact .inl rfl
    · next fe free => exact .inr ⟨same, fe, _, rfl, .inr ⟨missed, free, rfl⟩⟩

theorem wakeLoop_rouses : threads.Rouses (wakeLoop n fe k threads) := by
  induction k generalizing threads with
  | zero => exact .refl
  | succ k ih => exact Threads.wakeupOne_rouses.trans ih

theorem futexWake_rouses : threads.Rouses (futexWake n uaddr maxWaiters m threads) := by
  rw [futexWake]
  split
  · exact .refl
  · exact wakeLoop_rouses

theorem futexWakeAll_rouses : threads.Rouses (futexWakeAll n uaddr m threads) := by
  rw [futexWakeAll]
  split
  · exact .refl
  · exact Threads.wakeup_rouses

end Otsos.Sync.Futex
