import Mathlib.Algebra.Ring.Nat

/-! The physical page array. Pointers into the array are indices, `none` is the null pointer, and
each member of the page record is kept as a map of its own from indices to values: a store to one
member leaves every other member alone by construction. -/
namespace Otsos

/-- `PAGE_SIZE`; `PAGE_SHIFT` and `PAGE_MASK` are division and remainder by it. -/
def pageSize : Nat := 4096

-- Reduction of an unsigned result of 64 and of 32 bits.
def u64 (n : Nat) : Nat := n % 2 ^ 64
def u32 (n : Nat) : Nat := n % 2 ^ 32

def pageFloor (addr : Nat) : Nat := addr / pageSize * pageSize

/-- The `PG_*` bits of a page. -/
structure PageFlags where
  free : Bool := false
  allocated : Bool := false
  wired : Bool := false
  excluded : Bool := false
  zero : Bool := false
deriving DecidableEq, Inhabited

-- `VM_NFREEORDER`, `VM_FREEORDER_NONE` and `VM_PHYS_MAX_SEG`
def nFreeOrder : Nat := 12
def freeOrderNone : Nat := nFreeOrder
def physMaxSeg : Nat := 64

/-- `vm_phys_seg_t`; the segment is `[start, stop)`. -/
structure VmPhysSeg where
  (start stop firstPage pageTotal : Nat)
deriving DecidableEq

/-- The members of `vm_page_t`, and the file-scope variables of the allocator. `pageTotal` is the
length of the page array and `segs` the first `vm_phys_seg_count` segment slots. -/
structure VmPhys where
  physAddr : Nat → Nat
  object : Nat → Option Nat
  pindex : Nat → Nat
  (plinksNext plinksPrev qlinksNext qlinksPrev : Nat → Option Nat)
  (refCount wireCount : Nat → Nat)
  flags : Nat → PageFlags
  (order segind queue : Nat → Nat)
  pageTotal : Nat
  segs : List VmPhysSeg
  freelists : Nat → Option Nat
  orderBlocks : Nat → Nat
  freePages : Nat
deriving Inhabited

namespace VmPhys

/-- Every access through a page pointer passes here; one outside the page array is a fault. -/
def access (s : VmPhys) (i : Nat) : Option Unit := if i < s.pageTotal then some () else none

theorem access_eq {s : VmPhys} (bound : i < s.pageTotal) : s.access i = some () :=
  if_pos bound

/-- Frame number of a page. -/
def pfn (s : VmPhys) (i : Nat) : Nat := s.physAddr i / pageSize

/-- The pages that belong to a segment; the array may be longer. -/
def managed (s : VmPhys) : Nat := (s.segs.map VmPhysSeg.pageTotal).sum

end VmPhys

end Otsos
