import Mathlib.Logic.Function.Basic

/-! Registered events (`kernel/event/event.h`) and the timer filter
(`kernel/event/filter_timer.c`). -/
namespace Otsos.Event

def evfiltRead : Int16 := -1
def evfiltTimer : Int16 := -3
def evfiltProc : Int16 := -4
def evfiltUser : Int16 := -6
def evfiltEntity : Int16 := -11

def evAdd : UInt16 := 0x0001
def evDelete : UInt16 := 0x0002
def evEnable : UInt16 := 0x0004
def evDisable : UInt16 := 0x0008
def evOneshot : UInt16 := 0x0010
def evClear : UInt16 := 0x0020
def evDispatch : UInt16 := 0x0080
def evEof : UInt16 := 0x8000
def evKeepudata : UInt16 := 0x2000

def noteExit : UInt32 := 0x80000000
def noteSeconds : UInt32 := 0x00000001
def noteUseconds : UInt32 := 0x00000004
def noteNseconds : UInt32 := 0x00000008

/-- `struct kevent`; `input` is the text of its input event. -/
structure Kevent where
  ident : UInt64
  filter : Int16
  flags : UInt16
  fflags : UInt32
  data : Int64
  udata : UInt64
  input : List UInt8
deriving DecidableEq

/-- `knote_t`, with the link of the ready list as the index of a knote of the same queue; `kn->kq`
is always the queue that holds the knote. -/
structure Knote where
  (used pending disabled : Bool)
  ident : UInt64
  filter : Int16
  flags : UInt16
  (fflags sfflags : UInt32)
  data : Int64
  (udata fpriv : UInt64)
  input : List UInt8
  next : Option Nat
deriving DecidableEq

def Knote.zero : Knote := ⟨false, false, false, 0, 0, 0, 0, 0, 0, 0, 0, [], none⟩

/-- What an event says about the knote. -/
def Knote.report (kn : Knote) : Kevent where
  ident := kn.ident
  filter := kn.filter
  flags := if kn.filter = evfiltProc ∧ kn.fflags &&& noteExit ≠ 0 then kn.flags ||| evEof
    else kn.flags
  fflags := kn.fflags
  data := kn.data
  udata := kn.udata
  input := kn.input

/-- What `collect_events` does to a knote that it has reported and that stays. -/
def Knote.delivered (kn : Knote) : Knote :=
  let kn := if kn.flags &&& evClear ≠ 0 then { kn with fflags := 0, data := 0, input := [] } else kn
  if kn.flags &&& evDispatch ≠ 0 then { kn with disabled := true } else kn

/-- `timer_get_ticks` and `timer_get_frequency`. -/
structure Clock where
  (ticks frequency : UInt64)

variable (clock : Clock)
def computeTimerTicks (data : Int64) (fflags : UInt32) : UInt64 :=
  if fflags &&& noteSeconds ≠ 0 then data.toUInt64 * clock.frequency
  else if fflags &&& noteUseconds ≠ 0 then data.toUInt64 * clock.frequency / 1000000
  else if fflags &&& noteNseconds ≠ 0 then data.toUInt64 * clock.frequency / 1000000000
  else data.toUInt64 * clock.frequency / 1000

/-- The period as the callbacks of the filter compute it from the fields of the knote. -/
def periodTicks (data : Int64) (fflags : UInt32) : UInt64 :=
  let period := computeTimerTicks clock data fflags
  if period = 0 then 1 else period

/-- `filt_timer_attach` without the timer list. -/
def filtTimerAttach (kn : Knote) : Knote :=
  let kn := if kn.data ≤ 0 then { kn with data := 1 } else kn
  { kn with fpriv := clock.ticks + periodTicks clock kn.data kn.fflags }

def filtTimerTouch (kev : Kevent) (kn : Knote) : Knote :=
  { kn with data := kev.data, fflags := kev.fflags, fpriv := clock.ticks + periodTicks clock kev.data kev.fflags }

/-- What `filt_timer_event` and `filter_timer_tick` do at a timer that has expired. -/
def Knote.expire (kn : Knote) : Knote :=
  let period := periodTicks clock kn.data kn.fflags
  let elapsed := clock.ticks - (kn.fpriv - period)
  let expirations := elapsed / period
  let expirations := if expirations < 1 then 1 else expirations
  { kn with
    data := expirations.toInt64
    fpriv := if kn.flags &&& evOneshot = 0 then clock.ticks + period else kn.fpriv }

def Knote.expired (kn : Knote) : Bool := clock.ticks ≥ kn.fpriv

/-- `filt_timer_event`, with its result. -/
def filtTimerEvent (kn : Knote) : Knote × Int :=
  if kn.pending then (kn, 1) else if kn.expired clock then (kn.expire clock, 1) else (kn, 0)

/-- The test in the loop of `filter_timer_tick`. -/
def Knote.due (kn : Knote) : Bool := kn.used && !kn.disabled && kn.expired clock

end Otsos.Event
