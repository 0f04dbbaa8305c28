import Mathlib.Data.BitVec

/-! User addresses and the frame of a trap (`kernel/useraddr.c`, `kernel/interrupts/idt.h`). -/
namespace Otsos.User

abbrev Word := BitVec 64

/-- `USER_CANONICAL_MAX`. -/
def userCanonicalMax : Word := 0x00007FFFFFFFFFFF

/-- `is_user_address`. -/
def isUserAddress (addr size : Word) : Bool :=
  if addr = 0 then false
  else if size = 0 then true
  else
    let last := addr + size - 1
    if last < addr then false
    else if addr > userCanonicalMax then false
    else if last > userCanonicalMax then false
    else true

/-- `registers_t`: what a trap or a system call saves of the interrupted code. -/
structure Registers where
  (r15 r14 r13 r12 r11 r10 r9 r8 rbp rdi rsi rdx rcx rbx rax rip cs rflags rsp ss : Word)
deriving DecidableEq

/-- The bytes of an address space, as far as they can be read. -/
abbrev Memory := Word → BitVec 8

/-- The 64-bit word at an address. -/
def Memory.word (m : Memory) (a : Word) : Word :=
  m (a + 7) ++ m (a + 6) ++ m (a + 5) ++ m (a + 4) ++ m (a + 3) ++ m (a + 2) ++ m (a + 1) ++ m a

theorem isUserAddress_one (user : isUserAddress a 1) : a ≠ 0 ∧ a ≤ userCanonicalMax := by
  unfold isUserAddress at user
  split at user
  · cases user
  next nonzero =>
  split at user
  · next one => exact absurd one (by decide)
  · refine ⟨nonzero, ?_⟩
    by_contra high
    have above : a > userCanonicalMax := BitVec.not_le.mp high
    simp [above] at user

theorem isUserAddress_le (user : isUserAddress a n) (nonempty : n ≠ 0) :
    a.toNat + n.toNat ≤ 2 ^ 47 := by
  simp only [isUserAddress] at user
  split_ifs at user with null
  unfold userCanonicalMax at *
  bv_omega

end Otsos.User
