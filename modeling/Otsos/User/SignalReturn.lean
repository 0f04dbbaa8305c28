import Otsos.User.Address

/-! `posix_rt_sigreturn` (`kernel/api/posix/posix_signal.c`): the registers that a process resumes
with are read from its own stack. -/
namespace Otsos.User

/-- `sizeof(posix_rt_sigframe_t)`. -/
def sigframeSize : Word := 1064

/-- The offset of `uc.mcontext.gregs[i]` in the frame. -/
def gregOffset (i : Nat) : Word := 168 + 8 * BitVec.ofNat 64 i

/-- The offset of `uc.sigmask[0]` in the frame. -/
def sigmaskOffset : Word := 424

def sigkill : Nat := 9

def sigstop : Nat := 19

def sigsegv : Nat := 11

/-- The bit of a signal in a mask. -/
def sigbit (sig : Nat) : Word := 1 <<< (sig - 1)

/-- `posix_signal_mask_fixup`. -/
def posixSignalMaskFixup (sigmask : Word) : Word :=
  sigmask &&& ~~~sigbit sigkill &&& ~~~sigbit sigstop

/-- What becomes of the caller. -/
inductive Sigreturn where
  -- nothing happened but the return of `-POSIX_EFAULT`
  | fault
  -- `process_exit`
  | exited (code : Nat)
  | resumed (regs : Registers) (sigmask : Word) (ret : Word)
deriving DecidableEq

/-- The saved word with a given index in the frame on the stack. -/
def greg (mem : Memory) (regs : Registers) (i : Nat) : Word := mem.word (regs.rsp + gregOffset i)

/-- The registers as the frame on the stack has them. -/
def restored (mem : Memory) (regs : Registers) : Registers :=
  let saved := greg mem regs
  { regs with
    r8 := saved 0, r9 := saved 1, r10 := saved 2, r11 := saved 3, r12 := saved 4, r13 :=
    saved 5, r14 := saved 6
    r15 := saved 7, rdi := saved 8, rsi := saved 9, rbp := saved 10, rbx := saved 11, rdx :=
      saved 12
    rax := saved 13, rcx := saved 14, rsp := saved 15, rip := saved 16, rflags := saved 17 }

/-- `posix_rt_sigreturn` for the current process, if there is one; `faultIn` is
`user_range_fault_in`. -/
def posixRtSigreturn (faultIn : Word → Word → Bool → Bool) (mem : Memory) (proc : Bool)
    (regs : Registers) : Sigreturn :=
  if !proc then .fault
  else if !isUserAddress regs.rsp sigframeSize || !faultIn regs.rsp sigframeSize false then
    .exited (128 + sigsegv)
  else if !isUserAddress (greg mem regs 16) 1 || !isUserAddress (greg mem regs 15) 1 then
    .exited (128 + sigsegv)
  else
    .resumed (restored mem regs) (posixSignalMaskFixup (mem.word (regs.rsp + sigmaskOffset)))
      (restored mem regs).rax

/-- `IOPL` is 0 and `IF` is set. -/
def Unprivileged (rflags : Word) : Prop := rflags &&& 0x3000 = 0 ∧ rflags &&& 0x200 ≠ 0

instance (rflags : Word) : Decidable (Unprivileged rflags) := instDecidableAnd

/-- In the user half of the address space. -/
def UserHalf (a : Word) : Prop := a ≠ 0 ∧ a ≤ userCanonicalMax

/-- What a process that returns from a signal handler may resume with. -/
structure Confined (regs regs' : Registers) (sigmask : Word) : Prop where
  segments : regs'.cs = regs.cs ∧ regs'.ss = regs.ss
  rip : UserHalf regs'.rip
  rsp : UserHalf regs'.rsp
  rflags : Unprivileged regs'.rflags
  sigmask : sigmask &&& sigbit sigkill = 0 ∧ sigmask &&& sigbit sigstop = 0

/-- The frame on the stack that is restored. -/
structure Accepted (faultIn : Word → Word → Bool → Bool) (mem : Memory) (regs : Registers) :
    Prop where
  frame : isUserAddress regs.rsp sigframeSize
  read : faultIn regs.rsp sigframeSize false
  rip : isUserAddress (greg mem regs 16) 1
  rsp : isUserAddress (greg mem regs 15) 1

theorem posixSignalMaskFixup_unmasked (sigmask : Word) :
    posixSignalMaskFixup sigmask &&& sigbit sigkill = 0 ∧
    posixSignalMaskFixup sigmask &&& sigbit sigstop = 0 := by
  have apart : ~~~sigbit sigstop &&& sigbit sigkill = sigbit sigkill := by decide
  constructor
  · rw [posixSignalMaskFixup, BitVec.and_assoc, BitVec.and_assoc]
    exact BitVec.and_zero
  · rw [posixSignalMaskFixup, BitVec.and_assoc]
    exact BitVec.and_zero

theorem posixRtSigreturn_resumed_iff :
    posixRtSigreturn faultIn mem true regs = .resumed regs' sigmask ret ↔
      Accepted faultIn mem regs ∧ regs' = restored mem regs ∧
      sigmask = posixSignalMaskFixup (mem.word (regs.rsp + sigmaskOffset)) ∧
      ret = (restored mem regs).rax := by
  constructor
  · intro resumed
    unfold posixRtSigreturn at resumed
    split at resumed
    · cases resumed
    split at resumed
    · cases resumed
    next stack =>
    split at resumed
    · cases resumed
    · next context =>
      cases resumed
      simp only [Bool.not_eq_true, Bool.or_eq_false_iff, Bool.not_eq_false'] at stack context
      exact ⟨⟨stack.1, stack.2, context.1, context.2⟩, rfl, rfl, rfl⟩
  · rintro ⟨accepted, rfl, rfl, rfl⟩
    have stack : (!isUserAddress regs.rsp sigframeSize || !faultIn regs.rsp sigframeSize false) = false := by
      rw [accepted.frame, accepted.read]
      rfl
    have context : (!isUserAddress (greg mem regs 16) 1 || !isUserAddress (greg mem regs 15) 1) = false := by
      rw [accepted.rip, accepted.rsp]
      rfl
    rw [posixRtSigreturn, stack, context]
    rfl

/-- A process that survives its return from a signal handler is confined, unless the frame that it
set up raises `IOPL` or clears `IF`: the checks and the mask cover everything else. -/
theorem sigreturn_confined_iff (faultIn : Word → Word → Bool → Bool) (mem : Memory)
    (regs : Registers) :
      (∀ regs' sigmask ret, posixRtSigreturn faultIn mem true regs = .resumed regs' sigmask ret →
      Confined regs regs' sigmask) ↔
    (Accepted faultIn mem regs → Unprivileged (greg mem regs 17)) := by
  constructor
  · intro confined accepted
    have resumed := posixRtSigreturn_resumed_iff.mpr ⟨accepted, rfl, rfl, rfl⟩
    exact (confined _ _ _ resumed).rflags
  · intro unprivileged regs' sigmask ret resumed
    obtain ⟨accepted, rfl, rfl, -⟩ := posixRtSigreturn_resumed_iff.mp resumed
    constructor
    · exact ⟨rfl, rfl⟩
    · exact isUserAddress_one accepted.rip
    · exact isUserAddress_one accepted.rsp
    · exact unprivileged accepted
    · exact posixSignalMaskFixup_unmasked _

/-- A process in user mode whose stack pointer is `0x10000`. -/
def handlerRegs : Registers :=
  { r15 := 0, r14 := 0, r13 := 0, r12 := 0, r11 := 0, r10 := 0, r9 := 0, r8 := 0, rbp := 0, rdi := 0, rsi := 0
    rdx := 0, rcx := 0, rbx := 0, rax := 15, rip := 0x4000, cs := 0x23, rflags := 0x202, rsp :=
    0x10000, ss := 0x1B }

/-- Every aligned word of the stack is `0x3000`: the process resumes with `IOPL` 3 and interrupts
disabled. -/
theorem sigreturn_raises : ∃ regs' sigmask ret,
    posixRtSigreturn (fun _ _ _ => true) (fun a => if a &&& 7 = 1 then 0x30 else 0) true handlerRegs =
      .resumed regs' sigmask ret ∧ regs'.rflags = 0x3000 ∧ ¬Confined handlerRegs regs' sigmask := by
  refine ⟨_, _, _, rfl, by decide +kernel, ?_⟩
  intro confined
  have unprivileged : ¬Unprivileged 0x3000 := by decide
  apply unprivileged
  exact confined.rflags

end Otsos.User
