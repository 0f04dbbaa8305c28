import Mathlib.Data.List.TakeWhile

/-! Following symbolic links (`vfs_back_resolve` in `kernel/drivers/fs/vfs/back/vfs_back.c`). The
path that is looked up next is written into one of two buffers, and `readlink` writes the target
into one of these again. -/
namespace Otsos.Vfs
open List

def slash : UInt8 := 0x2f

def vfsBackMaxPath : Nat := 256
def vfsMntNodev : UInt64 := 0x4
def vfsMntKusrOnly : UInt64 := 0x100000000

def errNotFound : Int := -2
def errTooBig : Int := -7
def errBadValue : Int := -22

inductive VType where
  | reg | dir | chr | lnk | other
deriving DecidableEq

/-- `readlink` is what `readlink_fn` returns, with the text that it writes; none: there is no such
function. -/
structure Vnode where
  id : Nat
  type : VType
  mountId : UInt32
  readlink : Option (Except Int (List UInt8))
deriving DecidableEq

structure Mount where
  path : List UInt8
  flags : UInt64
  id : UInt32
  lookup : Option (List UInt8 → Option Vnode)

def pathStartsWith (path start : List UInt8) : Bool :=
  if start = [slash] then path.head? == some slash
  else start.isPrefixOf path && (path.drop start.length).head?.all (· = slash)

def findMount (mounts : List Mount) (path : List UInt8) : Option Mount :=
  let best := mounts.foldl (fun best m =>
    if pathStartsWith path m.path && best.all fun b => b.path.length < m.path.length then some m else best) none
  best.or (mounts.find? fun m => m.path = [slash])

/-- `vfs_back_lookup`; `trusted` says that the process has the privilege, or that there is none. -/
def lookup (mounts : List Mount) (trusted : Bool) (path : List UInt8) : Option Vnode := do
  let m ← findMount mounts path
  let f ← m.lookup
  if m.flags &&& vfsMntKusrOnly ≠ 0 ∧ !trusted then none
  let vn ← f path
  if m.flags &&& vfsMntNodev ≠ 0 ∧ vn.type = .chr then none
  return { vn with mountId := m.id }

/-- A path up to its last slash. -/
def directory (path : List UInt8) : List UInt8 := (path.reverse.dropWhile (· ≠ slash)).reverse

/-- The path for a relative target, as the code writes it: a slash at the start of `cur` is not
seen. -/
def beside (cur target : List UInt8) : Except Int (List UInt8) :=
  if 1 < (directory cur).length then
    if (directory cur).length + target.length ≥ vfsBackMaxPath then .error errTooBig
    else .ok (directory cur ++ target)
  else if target.length ≥ vfsBackMaxPath then .error errTooBig
  else .ok target

section
variable (look : List UInt8 → Option Vnode) (follow : Bool)

/-- One turn of the loop, up to the target of a link; `more` says that it may still be followed. -/
def seen (more : Bool) (cur : List UInt8) : Except Int Vnode ⊕ List UInt8 :=
  match look cur with
  | none => .inl (.error errNotFound)
  | some vn =>
    if !follow || vn.type != .lnk then .inl (.ok vn)
    else
      match vn.readlink, more with
      | none, _ | _, false => .inl (.error errTooBig)
      | some (.error e), true => .inl (.error e)
      | some (.ok target), true => .inr target

variable {look follow}

end

/-- The link `/d/a` to `/d/b`, the link `/d/b` to `c`, the file `/d/c`, the link `/d/e` to `f`, and
the link `/d/f` to `/d/c`. -/
def linked : List Mount :=
  [⟨[slash], 0, 1,
    some fun path => [([0x2f, 0x64, 0x2f, 0x61], ⟨1, .lnk, 0, some (.ok [0x2f, 0x64, 0x2f, 0x62])⟩),
    ([0x2f, 0x64, 0x2f, 0x62], ⟨2, .lnk, 0, some (.ok [0x63])⟩),
    ([0x2f, 0x64, 0x2f, 0x63], ⟨3, .reg, 0, none⟩),
    ([0x2f, 0x64, 0x2f, 0x65], ⟨4, .lnk, 0, some (.ok [0x66])⟩),
    ([0x2f, 0x64, 0x2f, 0x66], ⟨5, .lnk, 0, some (.ok [0x2f, 0x64, 0x2f, 0x63])⟩)].lookup path⟩]

end Otsos.Vfs
