import Otsos.Phys.Page
import Otsos.Map.Tree

/-! Address maps (`vm_map.c`). Entries and maps are named by numbers; every link of an entry is a
map of its own from entries to entries. What an entry's memory object, the shared-memory registry
and the page tables do is given by the caller. -/
namespace Otsos

open Function (update)
open RedBlack (Dir Color)

-- the bits of an entry's `flags` that `vm_map_fork` looks at
def apiMapShared : UInt32 := 0x1
def apiMapGem : UInt32 := 0x40

/-- `vm_map_entry_t` without its links; the range is `[start, stop)`. -/
structure VmMapEntry where
  (start stop : Nat)
  (prot flags gemHandle : UInt32)
  (objectBase objectOffset : Nat)
  object : Option Nat
deriving DecidableEq, Inhabited

/-- `vm_map_t` without its lock and the page-table root, which belongs to the process. -/
structure VmMapHeader where
  (rbRoot head tail : Option Nat)
  (minAddr maxAddr hint entryCount : Nat)
deriving DecidableEq, Inhabited

/-- The functions of other components that the map calls, over the state `ω` of these components. -/
structure Backing (ω : Type) where
  (objectRef objectUnref : ω → Nat → ω)
  createShadow : ω → Nat → ω × Option Nat
  /-- `object->type == VM_OBJ_SHM` -/
  isShm : ω → Nat → Bool
  (shmAttach shmDetach : ω → UInt32 → ω)
  /-- `pmap_extract`; zero is no translation. -/
  extract : ω → Nat → Nat
  (freePhys pmapRemove : ω → Nat → ω)

/-- All entries and maps. `live` says which entries the entry zone has handed out. -/
structure VmMaps (ω : Type) where
  rbChild : Dir → Nat → Option Nat
  rbParent : Nat → Option Nat
  rbColor : Nat → Color
  (next prev : Nat → Option Nat)
  entry : Nat → VmMapEntry
  live : Nat → Bool
  header : Nat → VmMapHeader
  env : ω

namespace VmMaps
variable (env : Backing ω) (pick : VmMaps ω → Option Nat) (s : VmMaps ω)

def setHeader (m : Nat) (f : VmMapHeader → VmMapHeader) : VmMaps ω :=
  { s with header := update s.header m (f (s.header m)) }

def setEntry (e : Nat) (f : VmMapEntry → VmMapEntry) : VmMaps ω :=
  { s with entry := update s.entry e (f (s.entry e)) }

def onEnv (f : ω → ω) : VmMaps ω := { s with env := f s.env }

/-- The tree of a map, as the functions on trees see it. -/
def tree (m : Nat) : VmMap.RbTree :=
  ⟨(s.header m).rbRoot, s.rbChild, s.rbParent, s.rbColor⟩

def setTree (m : Nat) (t : VmMap.RbTree) : VmMaps ω :=
  { s.setHeader m (fun h => { h with rbRoot := t.root }) with
    rbChild := t.child, rbParent := t.parent, rbColor := t.color }

/-- `vm_map_entry_alloc`: the zone answers with a null pointer or with zeroed memory that is not in
use. -/
def entryAlloc : Option (VmMaps ω × Nat) :=
  match pick s with
  | none => none
  | some e =>
    if s.live e then none
    else some ({ s with
      rbChild := fun d x => if x = e then none else s.rbChild d x
      rbParent := update s.rbParent e none
      rbColor := update s.rbColor e .red
      next := update s.next e none
      prev := update s.prev e none
      entry := update s.entry e ⟨0, 0, 0, 0, 0, 0, 0, none⟩
      live := update s.live e true }, e)

def entryRelease (e : Nat) : VmMaps ω := { s with live := update s.live e false }

def shmAttachEntry (e : Nat) : VmMaps ω :=
  match (s.entry e).object with
  | none => s
  | some object =>
    if env.isShm s.env object ∧ (s.entry e).gemHandle ≠ 0 then
      s.onEnv (env.shmAttach · (s.entry e).gemHandle)
    else s

def shmDetachEntry (e : Nat) : VmMaps ω :=
  match (s.entry e).object with
  | none => s
  | some object =>
    if env.isShm s.env object ∧ (s.entry e).gemHandle ≠ 0 then
      s.onEnv (env.shmDetach · (s.entry e).gemHandle)
    else s

/-- The descent of `vm_map_link`: the node below which the entry belongs, and on which side. -/
def findParent (s : VmMaps ω) (start : Nat) :
    Nat → Option Nat → Option Nat → Bool → Option (Option Nat × Bool)
  | 0, _, _, _ => none
  | _ + 1, none, parent, left => some (parent, left)
  | fuel + 1, some node, _, _ =>
    if start < (s.entry node).start then
      findParent s start fuel (s.rbChild .left node) (some node) true
    else findParent s start fuel (s.rbChild .right node) (some node) false

/-- Join an entry into the thread between two neighbours, either of which may be null. -/
def threadInsert (m e : Nat) (before after : Option Nat) : VmMaps ω :=
  let s := { s with prev := update s.prev e before, next := update s.next e after }
  let s := match before with
    | none => s.setHeader m fun h => { h with head := some e }
    | some b => { s with next := update s.next b (some e) }
  match after with
  | none => s.setHeader m fun h => { h with tail := some e }
  | some a => { s with prev := update s.prev a (some e) }

def threadRemove (m e : Nat) : VmMaps ω :=
  let s := match s.prev e with
    | none => s.setHeader m fun h => { h with head := s.next e }
    | some b => { s with next := update s.next b (s.next e) }
  match s.next e with
  | none => s.setHeader m fun h => { h with tail := s.prev e }
  | some a => { s with prev := update s.prev a (s.prev e) }

/-- A red leaf below `parent`, before the fix-up. -/
def treeInsert (t : VmMap.RbTree) (e : Nat) (parent : Option Nat) (left : Bool) : VmMap.RbTree :=
  let t := (((t.setParent e parent).setChild .left e none).setChild .right e none).setColor e .red
  match parent with
  | none => { t with root := some e }
  | some p => t.setChild (if left then .left else .right) p (some e)

/-- The neighbours of a new leaf in the order of addresses. -/
def neighbours (parent : Option Nat) (left : Bool) : Option Nat × Option Nat :=
  match parent with
  | none => (none, none)
  | some p => if left then (s.prev p, some p) else (some p, s.next p)

def link (m e : Nat) : Option (VmMaps ω) := do
  let fuel := (s.header m).entryCount + 2
  let (parent, left) ← findParent s (s.entry e).start fuel (s.header m).rbRoot none false
  let (before, after) := neighbours s parent left
  let t ← VmMap.RbTree.rbInsertFixup fuel (treeInsert (s.tree m) e parent left) e
  let s := (s.threadInsert m e before after).setTree m t
  return s.setHeader m fun h => { h with entryCount := h.entryCount + 1 }

def unlink (m e : Nat) : Option (VmMaps ω) := do
  let t ← VmMap.RbTree.rbRemove ((s.header m).entryCount + 1) (s.tree m) e
  let s := (s.threadRemove m e).setTree m t
  let s := { s with next := update s.next e none, prev := update s.prev e none }
  return s.setHeader m fun h => { h with entryCount := h.entryCount - 1 }

def lookupFrom (s : VmMaps ω) (addr : Nat) : Nat → Option Nat → Option (Option Nat)
  | 0, _ => none
  | _ + 1, none => some none
  | fuel + 1, some e =>
    if addr < (s.entry e).start then lookupFrom s addr fuel (s.rbChild .left e)
    else if addr ≥ (s.entry e).stop then lookupFrom s addr fuel (s.rbChild .right e)
    else some (some e)

def lookupLocked (m addr : Nat) : Option (Option Nat) :=
  lookupFrom s addr ((s.header m).entryCount + 1) (s.header m).rbRoot

def rangeFreeFrom (s : VmMaps ω) (start stop : Nat) (ignore : Option Nat) :
    Nat → Option Nat → Option Bool
  | 0, _ => none
  | _ + 1, none => some true
  | fuel + 1, some e =>
    if some e = ignore then rangeFreeFrom s start stop ignore fuel (s.next e)
    else if (s.entry e).start ≥ stop then some true
    else if (s.entry e).stop > start then some false
    else rangeFreeFrom s start stop ignore fuel (s.next e)

def rangeFreeLocked (m start stop : Nat) (ignore : Option Nat) : Option Bool :=
  let h := s.header m
  if stop ≤ start ∨ start < h.minAddr ∨ stop > h.maxAddr then some false
  else rangeFreeFrom s start stop ignore (h.entryCount + 1) h.head

/-- The new entry of a clip. The copied links are overwritten by `vm_map_link`. -/
def splitEntry (left right addr : Nat) : VmMaps ω :=
  let from' := (s.entry left).start
  let s := s.setEntry right fun _ => s.entry left
  let s := s.setEntry right fun r =>
    { r with start := addr, objectBase := u64 (r.objectBase + (addr - from')) }
  s.setEntry left fun l => { l with stop := addr }

def refEntry (e : Nat) : VmMaps ω :=
  match (s.entry e).object with
  | none => s
  | some object => s.onEnv (env.objectRef · object)

def clipLocked (m addr : Nat) :
    Option (VmMaps ω × Int) := do
  match ← s.lookupLocked m addr with
  | none => return (s, 0)
  | some left =>
    if addr = (s.entry left).start ∨ addr ≥ (s.entry left).stop then return (s, 0)
    else match s.entryAlloc pick with
      | none => return (s, -1)
      | some (s, right) =>
        let s := s.splitEntry left right addr
        let s ← (shmAttachEntry env (refEntry env s right) right).link m right
        return (s, 0)

def insertLocked (m : Nat) (start stop : Nat) (prot flags gemHandle : UInt32) (object : Option Nat)
    (objectOffset : Nat) : Option (VmMaps ω × Int) := do
  match object with
  | none => return (s, -1)
  | some object =>
    if ← s.rangeFreeLocked m start stop none then
      match s.entryAlloc pick with
      | none => return (s, -1)
      | some (s, e) =>
        let s := s.setEntry e fun _ =>
          ⟨start, stop, prot, flags, gemHandle, 0, objectOffset, some object⟩
        let s := s.onEnv (env.objectRef · object)
        let s ← (shmAttachEntry env s e).link m e
        return (s, 0)
    else return (s, -1)

/-- One page of `vm_map_entry_destroy`. -/
def unmapPage (object : Option Nat) (w : ω) (va : Nat) : ω :=
  let w := match object with
    | some _ => w
    | none => if env.extract w va ≠ 0 then env.freePhys w (env.extract w va) else w
  env.pmapRemove w va

def unmapRange (e : Nat) : VmMaps ω :=
  let ent := s.entry e
  let pages := (ent.stop - ent.start + (pageSize - 1)) / pageSize
  s.onEnv fun w => (List.range pages).foldl
    (fun w i => unmapPage env ent.object w (ent.start + i * pageSize)) w

def unrefEntry (e : Nat) : VmMaps ω :=
  match (s.entry e).object with
  | none => s
  | some object => s.onEnv (env.objectUnref · object)

def entryDestroy (e : Nat) (removePmap : Bool) : VmMaps ω :=
  let s := if removePmap then unmapRange env s e else s
  (unrefEntry env (shmDetachEntry env s e) e).entryRelease e

def init (m minAddr maxAddr : Nat) : VmMaps ω × Int :=
  if minAddr ≥ maxAddr ∨ minAddr % pageSize ≠ 0 ∨ maxAddr % pageSize ≠ 0 then (s, -1)
  else (s.setHeader m fun _ => ⟨none, none, none, minAddr, maxAddr, minAddr, 0⟩, 0)

def clipRange (m start stop : Nat) : Option (VmMaps ω × Int) := do
  if stop ≤ start then return (s, -1)
  let (s, result) ← s.clipLocked env pick m start
  if result = 0 then s.clipLocked env pick m stop else return (s, result)

def insert (m : Nat) (start stop : Nat) (prot flags gemHandle : UInt32) (object : Option Nat)
    (objectOffset : Nat) : Option (VmMaps ω × Int) :=
  if object = none ∨ stop ≤ start ∨ start % pageSize ≠ 0 ∨ stop % pageSize ≠ 0 then some (s, -1)
  else s.insertLocked env pick m start stop prot flags gemHandle object objectOffset

def remove (m addr : Nat) : Option (VmMaps ω × Int) := do
  match ← s.lookupLocked m addr with
  | none => return (s, -1)
  | some e => return ((← s.unlink m e).entryDestroy env e true, 0)

/-- The walk of `vm_map_remove_range`; the flag says whether an entry has been removed. -/
def removeFrom (env : Backing ω) (m start stop : Nat) :
    Nat → VmMaps ω → Option Nat → Bool → Option (VmMaps ω × Bool)
  | 0, _, _, _ => none
  | _ + 1, s, none, removed => some (s, removed)
  | fuel + 1, s, some e, removed =>
    let next := s.next e
    if (s.entry e).start ≥ stop then some (s, removed)
    else if (s.entry e).start ≥ start ∧ (s.entry e).stop ≤ stop then do
      removeFrom env m start stop fuel ((← s.unlink m e).entryDestroy env e true) next true
    else removeFrom env m start stop fuel s next removed

def removeRange (m start stop : Nat) : Option (VmMaps ω × Int) := do
  if stop ≤ start then return (s, -1)
  let (s, first) ← s.clipLocked env pick m start
  if first ≠ 0 then return (s, -1)
  let (s, second) ← s.clipLocked env pick m stop
  if second ≠ 0 then return (s, -1)
  let (s, removed) ← removeFrom env m start stop ((s.header m).entryCount + 1) s
    (s.header m).head false
  return (s, if removed then 0 else -1)

def relocate (m e newStart newStop : Nat) : Option (VmMaps ω × Int) := do
  if newStop ≤ newStart ∨ newStart % pageSize ≠ 0 ∨ newStop % pageSize ≠ 0 then return (s, -1)
  if ← s.rangeFreeLocked m newStart newStop (some e) then
    let s ← s.unlink m e
    let s := s.setEntry e fun ent => { ent with start := newStart, stop := newStop }
    return (← s.link m e, 0)
  else return (s, -1)

def freeFrom (env : Backing ω) (m : Nat) : Nat → VmMaps ω → Option (VmMaps ω)
  | 0, _ => none
  | fuel + 1, s =>
    match (s.header m).head with
    | none => some s
    | some e => do freeFrom env m fuel ((← s.unlink m e).entryDestroy env e true)

def freeAll (m : Nat) : Option (VmMaps ω) :=
  freeFrom env m ((s.header m).entryCount + 1) s

/-- Share or shadow the object of `e` for its copy; the answer is false when a shadow cannot be
made. -/
def forkObject (e copy : Nat) : VmMaps ω × Bool :=
  match (s.entry e).object with
  | none => (s, true)
  | some object =>
    if (s.entry e).flags &&& (apiMapGem ||| apiMapShared) ≠ 0 then
      let s := s.setEntry copy fun c => { c with object := some object }
      (shmAttachEntry env (s.onEnv (env.objectRef · object)) copy, true)
    else
      match env.createShadow s.env object with
      | (w, none) => ({ s with env := w }.entryRelease copy, false)
      | (w, some childShadow) =>
        match env.createShadow w object with
        | (w, none) => ({ s with env := env.objectUnref w childShadow }.entryRelease copy, false)
        | (w, some parentShadow) =>
          let s := { s with env := env.objectUnref w object }
          let s := s.setEntry e fun ent => { ent with object := some parentShadow }
          (s.setEntry copy fun c => { c with object := some childShadow }, true)

/-- The first loop of `vm_map_fork`: copy the entries of the parent's thread. The list has the
copies made so far, and the flag is false after the jump to `fail`. -/
def forkCopies (env : Backing ω) (pick : VmMaps ω → Option Nat) :
    Nat → VmMaps ω → Option Nat → List Nat → Option (VmMaps ω × List Nat × Bool)
  | 0, _, _, _ => none
  | _ + 1, s, none, list => some (s, list, true)
  | fuel + 1, s, some e, list =>
    match s.entryAlloc pick with
    | none => some (s, list, false)
    | some (s, copy) =>
      let s := s.setEntry copy fun _ => { s.entry e with object := none }
      match forkObject env s e copy with
      | (s, false) => some (s, list, false)
      | (s, true) => forkCopies env pick fuel s (s.next e) (list ++ [copy])

def fork (parent child : Nat) :
    Option (VmMaps ω × Int) := do
  if parent = child then return (s, -1)
  let h := s.header parent
  let (s, list, done) ← forkCopies env pick (h.entryCount + 1) s h.head []
  if done then
    let s := s.setHeader child fun c =>
      { c with minAddr := h.minAddr, maxAddr := h.maxAddr, hint := h.hint }
    return (← list.foldlM (fun s copy => s.link child copy) s, 0)
  else return (list.foldl (fun s copy => s.entryDestroy env copy false) s, -1)

end VmMaps

end Otsos
