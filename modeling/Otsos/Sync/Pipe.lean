import Otsos.Sched.BigLock

/-! Pipes (`kernel/api/pipe.c`): `pipe_read` waits for bytes and `pipe_write` for room. -/
namespace Otsos.Sync.Pipes
open Sched

def pipeBufSize : UInt32 := 4096

/-- `pipe_t`. -/
structure Pipe where
  buffer : UInt32 → UInt8
  (readPos writePos size : UInt32)
  (readers writers : Int)

/-- The loop of `pipe_read` that copies bytes out. -/
def Pipe.take : Nat → Pipe → List UInt8 → Pipe × List UInt8
  | 0, p, out => (p, out)
  | n + 1, p, out => take n { p with readPos := (p.readPos + 1) % pipeBufSize } (out ++ [p.buffer p.readPos])

/-- The loop of `pipe_write` that copies bytes in. -/
def Pipe.put (p : Pipe) : List UInt8 → Pipe
  | [] => p
  | b :: data =>
    put { p with
      buffer := fun i => if i = p.writePos then b else p.buffer i
      writePos := (p.writePos + 1) % pipeBufSize } data

/-- `-API_ERR_PIPE_CLOSED`. -/
def errPipeClosed : Int := -32

/-- What a call does up to its return or a sleep: `returned` without bytes moved, or with the bytes
that were. -/
inductive Attempt where
  | returned (ret : Int)
  | sleeps
  | moved (p : Pipe) (bytes : List UInt8)

/-- `pipe_read` from its loop on. -/
def Pipe.readLoop (p : Pipe) (count : UInt32) : Attempt :=
  if p.size = 0 then if p.writers = 0 then .returned 0 else .sleeps
  else
    let toRead := if count > p.size then p.size else count
    let (q, out) := p.take toRead.toNat []
    .moved { q with size := q.size - toRead } out

/-- `pipe_read`. -/
def Pipe.read (p : Pipe) (count : UInt32) : Attempt :=
  if count = 0 then .returned 0 else p.readLoop count

/-- `pipe_write` from its loop on. -/
def Pipe.writeLoop (p : Pipe) (data : List UInt8) : Attempt :=
  if pipeBufSize - p.size = 0 then if p.readers = 0 then .returned errPipeClosed else .sleeps
  else
    let count := UInt32.ofNat data.length
    let space := pipeBufSize - p.size
    let toWrite := if count > space then space else count
    let q := p.put (data.take toWrite.toNat)
    .moved { q with size := q.size + toWrite } (data.take toWrite.toNat)

/-- `pipe_write`. -/
def Pipe.write (p : Pipe) (data : List UInt8) : Attempt :=
  if data = [] then .returned 0 else if p.readers = 0 then .returned errPipeClosed
    else p.writeLoop data

/-- A call, or the rest of one that sleeps. -/
inductive Call where
  | read (count : UInt32)
  | readLoop (count : UInt32)
  | write (data : List UInt8)
  | writeLoop (data : List UInt8)

def Call.attempt (p : Pipe) : Call → Attempt
  | read count => p.read count
  | readLoop count => p.readLoop count
  | write data => p.write data
  | writeLoop data => p.writeLoop data

/-- Where a call goes on behind a sleep. -/
def Call.rest : Call → Call
  | read count | readLoop count => .readLoop count
  | write data | writeLoop data => .writeLoop data

def Call.reads : Call → Bool
  | read _ | readLoop _ => true
  | write _ | writeLoop _ => false

/-- The calls on the pipe at `chan`, over a table of `n` threads. -/
def calls (chan : Chan) (n : Nat) : Calls where
  Mem := Pipe
  Call := Call
  entry := fun c => c matches .read _ | .write _
  User := Empty
  user := nofun
  run := fun _ c p threads =>
    match c.attempt p with
    | .returned _ => ⟨p, threads, none⟩
    | .sleeps => ⟨p, threads, some (chan, c.rest)⟩
    | .moved q _ => ⟨q, threads.wakeup n chan, none⟩

/-- Waiting in `pipe_read` for bytes, or in `pipe_write` for room. -/
def wait (chan : Chan) (n : Nat) (waiter : Tid) (reads : Bool) : Wait (calls chan n) where
  waiter := waiter
  cond := fun p => if reads then p.size ≠ 0 else pipeBufSize - p.size ≠ 0
  notifies := fun c p => c.attempt p matches .moved _ _
  calls := fun t c => t = waiter → c.reads = reads

variable {n : Nat} {w : Tid} {c : Call}

theorem Call.sleeps (sleeps : c.attempt p = .sleeps) :
    if c.reads then p.size = 0 else pipeBufSize - p.size = 0 := by
  cases c with
  | readLoop count =>
    simp only [attempt, Pipe.readLoop] at sleeps
    split at sleeps
    · next empty => exact empty
    · cases sleeps
  | writeLoop data =>
    simp only [attempt, Pipe.writeLoop] at sleeps
    split at sleeps
    · next full => exact full
    · cases sleeps
  | read count =>
    simp only [attempt, Pipe.read, Pipe.readLoop] at sleeps
    split at sleeps
    · cases sleeps
    · split at sleeps
      · next empty => exact empty
      · cases sleeps
  | write data =>
    simp only [attempt, Pipe.write, Pipe.writeLoop] at sleeps
    split at sleeps
    · cases sleeps
    · split at sleeps
      · cases sleeps
      · split at sleeps
        · next full => exact full
        · cases sleeps

theorem wait_lawful (here : w < n) :
    (wait chan n w reads).Lawful fun s => Wait.OnChannel w chan s.threads := by
  apply Wait.Lawful.of_channel (W := wait chan n w reads)
  · intro t c p th _ c' called slept mine
    simp only [calls] at slept
    split at slept
    · cases slept
    · cases slept
      rw [← called mine]
      cases c <;> rfl
    · cases slept
  · intro t c p th
    simp only [calls]
    split
    · exact .refl
    · exact .refl
    · exact Threads.wakeup_rouses
  · intro c p th _ c' called slept
    have kind := called rfl
    simp only [calls] at slept ⊢
    split at slept
    · cases slept
    · next attempt =>
      cases slept
      have nothing := Call.sleeps attempt
      refine ⟨rfl, ?_⟩
      simp only [wait]
      split at nothing <;> simp_all
    · cases slept
  · intro t c p th _ _ notifies on
    simp only [calls]
    simp only [wait] at notifies
    split at notifies
    · next attempt =>
      rw [attempt]
      exact Threads.wakeup_wakes here on.1 on.2
    · cases notifies

end Otsos.Sync.Pipes
