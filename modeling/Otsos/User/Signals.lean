import Otsos.User.SignalReturn

/-! The signals of a process: sending, blocking and delivering them (`kernel/api/signal.c`,
`kernel/api/posix/posix_signal.c`, `kernel/api/posix/posix.c`). -/
namespace Otsos.User
open List

def maxPosixSigs : Nat := 64
def posixSigDfl : Word := 0
def posixSigIgn : Word := 1
def posixSaNodefer : Word := 0x40000000
def posixSaResethand : Word := 0x80000000

structure Sigaction where
  (handler flags restorer mask : Word)

/-- What a process record has about signals. -/
structure Signals where
  (sigpending sigmask : Word)
  sigaction : Nat → Sigaction

/-- The bit of a signal is set. -/
def has (sigs : Word) (sig : Nat) : Bool := sigs.getLsbD (sig - 1)

/-- `posix_signal_default` is `SIG_DFL_TERMINATE`. -/
def terminates (sig : Nat) : Bool := sig ∉ [17, 18, 23, 28, 19, 20, 21, 22]

/-- The signal set that a call passes: none, one that cannot be read, or one with these signals. -/
inductive UserSet where
  | null
  | fault
  | holds (sigs : Word)

namespace Signals
variable (s : Signals)

def signalPending : Int := ((s.sigpending &&& ~~~s.sigmask).setWidth 32).toInt

/-- `signal_send` to a process that there is; it also makes the sleeping threads runnable. -/
def signalSend (sig : Int) : Signals × Int :=
  let sent := { s with sigpending := s.sigpending ||| sigbit sig.toNat }
  if sig < 1 ∨ sig > maxPosixSigs then (s, -1)
  else if sig = sigkill ∨ sig = sigstop then (sent, 0)
  else if has s.sigmask sig.toNat then (s, 0)
  else (sent, 0)

/-- `posix_rt_sigprocmask` behind the check of the size and the copy of the old mask. -/
def posixRtSigprocmask (how : Int) : UserSet → Signals × Int
  | .null => (s, 0)
  | .fault => (s, -14)
  | .holds sigs =>
    let masked mask := ({ s with sigmask := posixSignalMaskFixup mask }, 0)
    if how = 0 then masked (s.sigmask ||| sigs)
    else if how = 1 then masked (s.sigmask &&& ~~~sigs)
    else if how = 2 then masked sigs
    else (s, -22)

/-- The mask and the action when a handler is entered. -/
def enter (sig : Nat) : Signals :=
  let act := s.sigaction sig
  let mask := if act.flags &&& posixSaNodefer = 0 then s.sigmask ||| act.mask ||| sigbit sig
    else s.sigmask ||| act.mask
  { s with
    sigmask := posixSignalMaskFixup mask
    sigaction :=
      if act.flags &&& posixSaResethand = 0 then s.sigaction
      else Function.update s.sigaction sig ⟨posixSigDfl, 0, 0, 0⟩ }

/-- The loop of `posix_signal_deliver`, with the signals that it takes from the pending ones.
`framed` says that the frame can be written to the stack; `none` is the end of the process. -/
def deliverFrom (framed : Bool) (pending : Word) : List Nat → Signals → Option Signals × List Nat
  | [], s => (some s, [])
  | sig :: rest, s =>
    if has pending sig then
      let act := s.sigaction sig
      let s := { s with sigpending := s.sigpending &&& ~~~sigbit sig }
      if act.handler = posixSigIgn then (some s, [sig])
      else if act.handler = posixSigDfl then
        if terminates sig then (none, [sig])
        else Prod.map id (sig :: ·) (deliverFrom framed pending rest s)
      else if act.restorer = 0 ∨ !framed then (none, [sig])
      else (some (s.enter sig), [sig])
    else deliverFrom framed pending rest s

def posixSignalDeliver (framed : Bool) : Option Signals × List Nat :=
  deliverFrom framed (s.sigpending &&& ~~~s.sigmask) ((range maxPosixSigs).map (· + 1)) s

inductive Event where
  | send (sig : Int)
  | mask (how : Int) (sigs : UserSet)
  | deliver (framed : Bool)

/-- A step, with the signals that it delivers. -/
def step : Event → Option Signals × List Nat
  | .send sig => (some (s.signalSend sig).1, [])
  | .mask how sigs => (some (s.posixRtSigprocmask how sigs).1, [])
  | .deliver framed => s.posixSignalDeliver framed

/-- The signal that is sent while it is blocked. -/
def sent : Event → List Nat
  | .send sig => if 1 ≤ sig ∧ sig ≤ maxPosixSigs ∧ has s.sigmask sig.toNat then [sig.toNat] else []
  | .mask .. | .deliver _ => []

/-- The signal is pending and not blocked. -/
def Ready (sig : Nat) : Prop := 1 ≤ sig ∧ sig ≤ maxPosixSigs ∧ has s.sigpending sig ∧
  has s.sigmask sig = false

/-- What was sent while blocked and not delivered since is pending, and `signal_pending` tells. -/
def Keeps (owed : List Nat) : Prop :=
  (∀ sig ∈ owed, has s.sigpending sig) ∧ (s.signalPending ≠ 0 ↔ ∃ sig, s.Ready sig)

/-- So it is in each state of a run. A delivery takes only what is ready, and the lowest of it. -/
def Held (s : Signals) (owed : List Nat) : List Event → Prop
  | [] => s.Keeps owed
  | e :: es => s.Keeps owed ∧ (∀ sig ∈ (s.step e).2, s.Ready sig) ∧
    (∀ framed sig, e = .deliver framed → s.Ready sig → ∃ first ∈ (s.step e).2, first ≤ sig) ∧
      ∀ t ∈ (s.step e).1, t.Held ((owed ++ s.sent e).filter (· ∉ (s.step e).2)) es

/-- A signal above 32 is not the only one that is ready. -/
def Low : Prop := (∃ sig, s.Ready sig) → ∃ sig ≤ 32, s.Ready sig

/-- No signal is sent while it is blocked unless it is pending already. -/
def Spared (s : Signals) : List Event → Prop
  | [] => s.Low
  | e :: es => s.Low ∧ (∀ sig ∈ s.sent e, sig = sigkill ∨ sig = sigstop ∨ has s.sigpending sig) ∧
    ∀ t ∈ (s.step e).1, t.Spared es

end Signals

@[simp] theorem has_or : has (a ||| b) sig = (has a sig || has b sig) := BitVec.getLsbD_or

theorem has_sigbit (range : 1 ≤ sig) (below : sig ≤ maxPosixSigs) : has (sigbit sig) sig := by
  have bit : sigbit sig = BitVec.twoPow 64 (sig - 1) := rfl
  unfold maxPosixSigs at below
  rw [has, bit, BitVec.getLsbD_twoPow, decide_eq_true (show sig - 1 < 64 by omega),
    decide_eq_true rfl]
  rfl

theorem has_cleared (range : 1 ≤ a) (range' : 1 ≤ sig) (pending : has sigs sig) (other : sig ≠ a) :
    has (sigs &&& ~~~sigbit a) sig := by
  have bit : sigbit a = BitVec.twoPow 64 (a - 1) := rfl
  have inside := BitVec.lt_of_getLsbD pending
  unfold has at *
  rw [bit, BitVec.getLsbD_and, BitVec.getLsbD_not, BitVec.getLsbD_twoPow, pending,
    decide_eq_true inside, decide_eq_false (show a - 1 ≠ sig - 1 by omega), Bool.and_false]
  rfl

namespace Signals
variable {s t : Signals} {e : Event} {sig : Nat}

theorem deliverFrom_spec (sorted : l.Pairwise (· ≤ ·)) (positive : ∀ a ∈ l, 1 ≤ a) :
    (∀ t ∈ (deliverFrom framed pending l s).1, ∀ sig, 1 ≤ sig → has s.sigpending sig →
      sig ∉ (deliverFrom framed pending l s).2 → has t.sigpending sig) ∧
    (∀ sig ∈ (deliverFrom framed pending l s).2, sig ∈ l ∧ has pending sig) ∧
    ∀ sig ∈ l, has pending sig → ∃ first ∈ (deliverFrom framed pending l s).2, first ≤ sig := by
  induction l generalizing s with
  | nil =>
    refine ⟨fun t same sig _ here _ => ?_, forall_mem_nil _, forall_mem_nil _⟩
    cases same
    exact here
  | cons a l ih =>
    obtain ⟨least, sorted⟩ := pairwise_cons.mp sorted
    obtain ⟨above, positive⟩ := forall_mem_cons.mp positive
    have ih := fun s => @ih s sorted positive
    rw [deliverFrom]
    split
    · next here =>
      have taken : ∀ done, (∀ sig ∈ done, sig ∈ l ∧ has pending sig) →
          (∀ sig ∈ a :: done, sig ∈ a :: l ∧ has pending sig) ∧
            ∀ sig ∈ a :: l, has pending sig → ∃ first ∈ a :: done, first ≤ sig := fun done rest =>
        ⟨forall_mem_cons.mpr ⟨⟨mem_cons_self, here⟩, fun sig member => (rest sig member).imp_left (mem_cons_of_mem a)⟩,
          fun sig member _ => ⟨a, mem_cons_self, (forall_mem_cons.mpr ⟨Nat.le_refl a, least⟩ :) sig member⟩⟩
      have only := taken [] (forall_mem_nil _)
      dsimp only
      split_ifs
      · refine ⟨fun t same sig range here left => ?_, only⟩
        cases same
        exact has_cleared above range here (ne_of_not_mem_cons left)
      · exact ⟨fun t no => absurd no (Option.not_mem_none t), only⟩
      · refine ⟨fun t next sig range here left => ?_, taken _ (ih _).2.1⟩
        obtain ⟨other, left⟩ := not_or.mp (mem_cons.not.mp left)
        exact (ih _).1 t next sig range (has_cleared above range here other) left
      · exact ⟨fun t no => absurd no (Option.not_mem_none t), only⟩
      · refine ⟨fun t same sig range here left => ?_, only⟩
        cases same
        exact has_cleared above range here (ne_of_not_mem_cons left)
    · next absent =>
      exact ⟨(ih s).1, fun sig member => ((ih s).2.1 sig member).imp_left (mem_cons_of_mem a),
        forall_mem_cons.mpr ⟨fun here => absurd here absent, (ih s).2.2⟩⟩

theorem step_pending (next : t ∈ (s.step e).1) (range : 1 ≤ sig) (pending : has s.sigpending sig)
    (left : sig ∉ (s.step e).2) : has t.sigpending sig := by
  cases e with
  | send a =>
    cases next
    rw [signalSend]
    split_ifs <;> simp [pending]
  | mask how sigs =>
    cases next
    cases sigs with
    | null | fault => exact pending
    | holds sigs =>
      rw [posixRtSigprocmask]
      split_ifs <;> exact pending
  | deliver framed => exact (deliverFrom_spec (by decide) (by decide)).1 t next sig range pending left

theorem sent_pending (member : sig ∈ s.sent e) : 1 ≤ sig ∧ ∃ t, s.step e = (some t, []) ∧
    (has t.sigpending sig ↔ sig = sigkill ∨ sig = sigstop ∨ has s.sigpending sig) := by
  cases e with
  | send a =>
    rw [sent] at member
    split at member
    · next here =>
      obtain ⟨low, high, blocked⟩ := here
      cases mem_singleton.mp member
      refine ⟨by omega, _, rfl, ?_⟩
      rw [signalSend, if_neg (by omega)]
      by_cases fatal : a = sigkill ∨ a = sigstop
      · rw [if_pos fatal]
        refine iff_of_true ?_ (by omega)
        rw [has_or, has_sigbit (by omega) (by omega), Bool.or_true]
      · rw [if_neg fatal, if_pos blocked]
        exact ⟨fun here => .inr (.inr here), fun either => (either.resolve_left (by omega)).resolve_left (by omega)⟩
    · cases member
  | mask | deliver => cases member

theorem ready_iff : s.Ready sig ↔
    sig ∈ (range maxPosixSigs).map (· + 1) ∧ has (s.sigpending &&& ~~~s.sigmask) sig := by
  simp only [Ready, has, maxPosixSigs, mem_map, mem_range, BitVec.getLsbD_and, BitVec.getLsbD_not,
    Bool.and_eq_true, decide_eq_true_eq, Bool.not_eq_true']
  constructor
  · rintro ⟨low, high, pending, unmasked⟩
    exact ⟨⟨sig - 1, by omega, by omega⟩, pending, by omega, unmasked⟩
  · rintro ⟨⟨i, inside, rfl⟩, pending, -, unmasked⟩
    exact ⟨by omega, by omega, pending, unmasked⟩

theorem step_ready : ∀ sig ∈ (s.step e).2, s.Ready sig := by
  cases e with
  | send | mask => exact forall_mem_nil _
  | deliver framed =>
    exact fun sig member => ready_iff.mpr ((deliverFrom_spec (by decide) (by decide)).2.1 sig member)

theorem deliver_ready (framed : Bool) (ready : s.Ready sig) :
    ∃ first ∈ (s.step (.deliver framed)).2, first ≤ sig := by
  obtain ⟨inside, pending⟩ := ready_iff.mp ready
  exact (deliverFrom_spec (by decide) (by decide)).2.2 sig inside pending

theorem signalPending_iff : s.signalPending ≠ 0 ↔ ∃ sig ≤ 32, s.Ready sig := by
  have bit : ∀ i, i < 32 → (((s.sigpending &&& ~~~s.sigmask).setWidth 32).getLsbD i ↔ s.Ready (i + 1)) := by
    intro i below
    simp [Ready, has, maxPosixSigs, below]
    omega
  rw [signalPending, ne_eq, ← BitVec.toInt_zero, BitVec.toInt_inj]
  constructor
  · intro nonzero
    by_contra none_
    refine nonzero (BitVec.eq_of_getLsbD_eq fun i below => ?_)
    rw [BitVec.getLsbD_zero, Bool.eq_false_iff, ne_eq, bit i below]
    exact fun ready => none_ ⟨i + 1, below, ready⟩
  · rintro ⟨sig, small, ready⟩ zero
    have set := (bit (sig - 1) (by have := ready.1; omega)).mpr (by rwa [Nat.sub_add_cancel ready.1])
    rw [zero, BitVec.getLsbD_zero] at set
    cases set

theorem keeps_iff (owes : ∀ sig ∈ owed, 1 ≤ sig ∧ has s.sigpending sig) : s.Keeps owed ↔ s.Low := by
  rw [Keeps, signalPending_iff, Low]
  constructor
  · exact fun keeps => keeps.2.mpr
  · intro low
    refine ⟨fun sig member => (owes sig member).2, ?_, low⟩
    rintro ⟨sig, -, ready⟩
    exact ⟨sig, ready⟩

theorem Held.keeps (held : s.Held owed es) : s.Keeps owed := by
  cases es with
  | nil => exact held
  | cons e es => exact held.1

theorem held_iff (owes : ∀ sig ∈ owed, 1 ≤ sig ∧ has s.sigpending sig) :
    s.Held owed es ↔ s.Spared es := by
  induction es generalizing s owed with
  | nil => exact keeps_iff owes
  | cons e es ih =>
    have later {t} (spared : ∀ sig ∈ s.sent e, sig = sigkill ∨ sig = sigstop ∨ has s.sigpending sig)
        (next : t ∈ (s.step e).1) :
        ∀ sig ∈ (owed ++ s.sent e).filter (· ∉ (s.step e).2), 1 ≤ sig ∧ has t.sigpending sig := by
      intro sig member
      obtain ⟨member, left⟩ := mem_filter.mp member
      rcases mem_append.mp member with member | member
      · obtain ⟨range, pending⟩ := owes sig member
        exact ⟨range, step_pending next range pending (of_decide_eq_true left)⟩
      · obtain ⟨range, t', same, pending⟩ := sent_pending member
        rw [same] at next
        cases next
        exact ⟨range, pending.mpr (spared sig member)⟩
    rw [Held, Spared, keeps_iff owes]
    constructor
    · rintro ⟨low, -, -, held⟩
      have spared : ∀ sig ∈ s.sent e, sig = sigkill ∨ sig = sigstop ∨ has s.sigpending sig := by
        intro sig member
        obtain ⟨-, t, same, pending⟩ := sent_pending member
        refine pending.mp ((held t (by rw [same]; rfl)).keeps.1 sig (mem_filter.mpr ⟨mem_append_right _ member, ?_⟩))
        rw [same]
        rfl
      exact ⟨low, spared, fun t next => (ih (later spared next)).mp (held t next)⟩
    · rintro ⟨low, spared, held⟩
      refine ⟨low, step_ready, fun framed sig is ready => ?_, fun t next => (ih (later spared next)).mpr (held t next)⟩
      rw [is]
      exact deliver_ready framed ready

/-- Signals are held along a run exactly when none is sent while blocked that is not pending, and
none above 32 is ready alone. -/
theorem signals_held_iff (s : Signals) (es : List Event) : s.Held [] es ↔ s.Spared es :=
  held_iff fun _ member => absurd member not_mem_nil

/-- A signal that is blocked, sent and unblocked is never delivered. -/
theorem blocked_signal_lost : ¬ Held ⟨0, 0, fun _ => ⟨posixSigDfl, 0, 0, 0⟩⟩ []
    [.mask 0 (.holds (sigbit 10)), .send 10, .mask 1 (.holds (sigbit 10)), .deliver true] := by
  intro held
  have lost := ((held.2.2.2 _ rfl).2.2.2 _ rfl).keeps.1 10 (by decide)
  exact absurd lost (by decide)

end Signals

end Otsos.User
