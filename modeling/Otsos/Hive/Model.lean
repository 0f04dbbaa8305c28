import Otsos.Foundation.Bytes
import Otsos.Phys.Page

/-! The registry in memory (`hivefs.c`): keys and values of a hive, names, paths and look-ups. Keys
and values are named by their index; a deleted one keeps its index. -/
namespace Otsos

-- `HIVEFS_*`
def hivefsMaxHives : Nat := 16
def hivefsNoIndex : Nat := 0xFFFFFFFF
def hivefsNameSize : Nat := 32
def hivefsPathSize : Nat := 256
def hivefsTypeString : UInt32 := 1
def hivefsTypeBytes : UInt32 := 7
def hivefsTypeMultiString : UInt32 := 8

-- `HIVEFS_ACCESS_*`
def hivefsAccessInherit : UInt32 := 0
def hivefsAccessUser : UInt32 := 1
def hivefsAccessKusr : UInt32 := 2
def hivefsAccessMask : UInt32 := 3
def hivefsAccessReadShift : UInt32 := 16
def hivefsAccessAddShift : UInt32 := 18
def hivefsAccessEditShift : UInt32 := 20
def hivefsAccessDefault : UInt32 :=
  (hivefsAccessUser <<< hivefsAccessReadShift) ||| (hivefsAccessKusr <<< hivefsAccessAddShift) |||
    (hivefsAccessKusr <<< hivefsAccessEditShift)

/-- The errors of the registry; `other` is what else `vfs_write_file` may answer. -/
inductive ApiErr where
  | notFound | io | tooBig | badImage | noMemory | alreadyExists | isDir | badValue | fileTooBig | notEmpty
  | other (code : Int)
deriving DecidableEq

/-- A string argument: the bytes before its NUL. -/
structure CString where
  bytes : List UInt8
  plain : 0 ∉ bytes
deriving DecidableEq

/-- The contents of a `char[HIVEFS_NAME_SIZE]` before its NUL. -/
structure HiveName where
  bytes : List UInt8
  plain : 0 ∉ bytes
  short : bytes.length < hivefsNameSize
deriving DecidableEq

/-- `hivefs_name_copy`: what fits, up to the NUL. -/
def nameCopy (src : List UInt8) : HiveName where
  bytes := (src.takeWhile (· != 0)).take (hivefsNameSize - 1)
  plain := fun member => by simpa using List.mem_takeWhile_imp (List.mem_of_mem_take member)
  short := by
    rw [List.length_take]
    exact Nat.lt_of_le_of_lt (Nat.min_le_left _ _) (by decide)

/-- The bytes `.`, `/` and backslash. -/
def isKeySep (c : UInt8) : Bool := c == 0x2e || c == 0x2f || c == 0x5c

def isPathSep (c : UInt8) : Bool := c == 0x2f

def nameFromPart (part : List UInt8) : Except ApiErr (List UInt8) :=
  if part.length = 0 ∨ part.length ≥ hivefsNameSize then .error .badValue
  else if part.any isKeySep then .error .badValue
  else .ok part

/-- `hivefs_next_component` and `hivefs_next_key_component`: the next component and what follows
it. -/
def nextComponent (sep : UInt8 → Bool) (path : List UInt8) : List UInt8 × List UInt8 :=
  let start := path.dropWhile sep
  (start.takeWhile (!sep ·), (start.dropWhile (!sep ·)).dropWhile sep)

/-- What successive calls return until nothing follows. -/
def componentsFrom (sep : UInt8 → Bool) : Nat → List UInt8 → List (List UInt8)
  | 0, _ => []
  | fuel + 1, path =>
    if path = [] then []
    else (nextComponent sep path).1 :: componentsFrom sep fuel (nextComponent sep path).2

/-- A call that is made with a path left over shortens it. -/
def components (sep : UInt8 → Bool) (path : List UInt8) : List (List UInt8) :=
  componentsFrom sep path.length path

/-- `hivefs_node_t` -/
structure HiveNode where
  name : HiveName
  parent : Nat
  flags : UInt32
  deleted : Bool
deriving DecidableEq

/-- `hivefs_value_t`; the size is the length of the data, and the pointer is null when there are
none. -/
structure HiveValue where
  name : HiveName
  node : Nat
  (type flags : UInt32)
  data : List UInt8
  deleted : Bool
deriving DecidableEq

/-- What `hivefs_hive_t` shows of a hive. -/
structure HiveTree where
  name : HiveName
  flags : UInt32
  nodes : List HiveNode
  values : List HiveValue
  dirty : Bool
deriving DecidableEq

/-- `hivefs_hive_t` without the pointers into the pack it was read from; the counts are the lengths
of the lists. -/
structure Hive extends HiveTree where
  (nodeCap valueCap : Nat)
deriving DecidableEq

namespace HiveTree

/-- There is a key with this index and it is not deleted. -/
def live (h : HiveTree) (i : Nat) : Bool := h.nodes[i]?.any (!·.deleted)

def isChild (parent : Nat) (n : HiveNode) : Bool := !n.deleted && n.parent == parent

def isValueOf (node : Nat) (v : HiveValue) : Bool := !v.deleted && v.node == node

/-- An index returned as an `int`. One that does not fit is negative, which every caller takes for a
miss. -/
def asInt (found : Option Nat) : Option Nat := found.filter (· < 2 ^ 31)

def findChild (h : HiveTree) (parent : Nat) (part : List UInt8) : Option Nat :=
  if h.live parent then asInt (h.nodes.findIdx? fun n => isChild parent n && n.name.bytes == part)
    else none

def findValue (h : HiveTree) (node : Nat) (part : List UInt8) : Option Nat :=
  if h.live node then asInt (h.values.findIdx? fun v => isValueOf node v && v.name.bytes == part)
    else none

/-- The loop of `hivefs_find_node_path` without creation. -/
def lookupParts (h : HiveTree) : List (List UInt8) → Nat → Except ApiErr Nat
  | [], node => .ok node
  | part :: rest, node =>
    if part = [] then .error .badValue
    else
      match h.findChild node part with
      | some i => h.lookupParts rest i
      | none => .error .notFound

/-- `hivefs_find_node_path` without creation; a null key is the empty one. -/
def lookup (h : HiveTree) (key : List UInt8) : Except ApiErr Nat :=
  if h.nodes = [] then .error .badValue else h.lookupParts (components isKeySep key) 0

end HiveTree

/-- `hivefs_access_merge_one` -/
def accessMergeOne (flags shift level : UInt32) : UInt32 :=
  if level ≠ hivefsAccessInherit then level
  else
    let got := (flags >>> shift) &&& hivefsAccessMask
    if got ≠ hivefsAccessInherit then got else level

/-- The three levels that `hivefs_access_info` collects. -/
structure Access where
  (read add edit : UInt32)
deriving DecidableEq

def accessMerge (flags : UInt32) (a : Access) : Access where
  read := accessMergeOne flags hivefsAccessReadShift a.read
  add := accessMergeOne flags hivefsAccessAddShift a.add
  edit := accessMergeOne flags hivefsAccessEditShift a.edit

def accessPack (a : Access) : UInt32 :=
  (a.read <<< hivefsAccessReadShift) ||| (a.add <<< hivefsAccessAddShift) |||
    (a.edit <<< hivefsAccessEditShift)

/-- The loop of `hivefs_access_info` along the parents; `none` when it is still running. -/
def HiveTree.accessWalk (h : HiveTree) : Nat → Nat → Access → Option (Except ApiErr Access)
  | 0, _, _ => none
  | fuel + 1, i, a =>
    match h.nodes[i]? with
    | none => some (.error .notFound)
    | some n =>
      if n.deleted then some (.error .notFound)
      else if i = 0 then some (.ok (accessMerge n.flags a))
      else h.accessWalk fuel n.parent (accessMerge n.flags a)

/-- What the rest of the kernel answers: whether the n-th request for memory succeeds, and, at the
n-th commit, whether the file system is up and what `vfs_write_file` returns, `none` being zero. -/
structure HiveEnv where
  (memory vfsIsInitialized : Nat → Bool)
  vfsWriteFile : Nat → Option ApiErr

/-- `hivefs_state_t` without the pointers to the pack. The requests for memory and the commits are
counted. -/
structure Hivefs where
  hives : List Hive
  (loaded syncing : Bool)
  storePath : List UInt8
  (requests commits : Nat)

namespace Hivefs
variable (s : Hivefs)

/-- What the registry shows. -/
def trees : List HiveTree := s.hives.map (·.toHiveTree)

def findHive (part : List UInt8) : Option Nat :=
  s.hives.findIdx? fun h => h.name.bytes == part

def findHiveName (name : List UInt8) : Option Nat :=
  if name = [] then none else s.findHive name

/-- Apply a function to the hive with a given index. -/
def modifyHive (i : Nat) (f : Hive → Hive) : Hivefs := { s with hives := s.hives.modify i f }

/-- The loop of `hivefs_strip_prefix` behind the first slash. -/
def stripFrom (s : Hivefs) : Nat → List UInt8 → List UInt8
  | 0, _ => []
  | fuel + 1, p =>
    if p = [] then []
    else
      let start := p.dropWhile isPathSep
      if (s.findHive (start.takeWhile (!isPathSep ·))).isSome then start
      else s.stripFrom fuel (start.dropWhile (!isPathSep ·))

/-- `hivefs_strip_prefix`; each turn of the loop shortens the path. -/
def stripPrefix : List UInt8 → List UInt8
  | [] => []
  | c :: p => if isPathSep c then s.stripFrom p.length p else c :: p

def pathAppendKey (key part : List UInt8) : Except ApiErr (List UInt8) :=
  if part = [] then .error .badValue
  else if key ≠ [] ∧ key.length + 1 ≥ hivefsPathSize then .error .tooBig
  else
    let key := if key = [] then [] else key ++ [0x2e]
    if key.length + part.length ≥ hivefsPathSize then .error .tooBig else .ok (key ++ part)

/-- The hive and the key of a path. -/
def pathSplitKey (path : List UInt8) : Except ApiErr (List UInt8 × List UInt8) :=
  let (part, next) := nextComponent isPathSep (s.stripPrefix path)
  match nameFromPart part with
  | .error _ => .error .badValue
  | .ok hive => do
    let key ← (components isPathSep next).foldlM pathAppendKey []
    return (hive, key)

/-- One turn of the loop of `hivefs_path_split_value`: the last component stays behind. -/
def pathSplitStep (state : List UInt8 × Option (List UInt8)) (part : List UInt8) :
    Except ApiErr (List UInt8 × Option (List UInt8)) := do
  if part = [] then .error .badValue
  let key ← match state.2 with
    | none => .ok state.1
    | some last => pathAppendKey state.1 last
  let last ← nameFromPart part
  return (key, some last)

/-- The hive, the key and the value of a path. -/
def pathSplitValue (path : List UInt8) :
    Except ApiErr (List UInt8 × List UInt8 × List UInt8) :=
  let (part, next) := nextComponent isPathSep (s.stripPrefix path)
  match nameFromPart part with
  | .error _ => .error .badValue
  | .ok hive => do
    match ← (components isPathSep next).foldlM pathSplitStep ([], none) with
    | (_, none) => .error .badValue
    | (key, some value) => return (hive, key, value)

/-- The hive and the key that `hivefs_value_info` and `hivefs_access_info` work on. -/
def findKey (hiveName key : List UInt8) : Except ApiErr (HiveTree × Nat) :=
  match (s.findHiveName hiveName).bind (s.hives[·]?) with
  | none => .error .notFound
  | some h => do return (h.toHiveTree, ← h.lookup key)

/-- `hivefs_value_info`: the value found, with its type and its size. -/
def valueInfo (hiveName key valueName : List UInt8) : Except ApiErr HiveValue :=
  if !s.loaded || valueName = [] then .error .badValue
  else do
    let (h, node) ← s.findKey hiveName key
    match (h.findValue node valueName).bind (h.values[·]?) with
    | none => .error .notFound
    | some v => return v

/-- `hivefs_access_info`; without a value, the levels of the key. -/
def accessInfo (fuel : Nat) (hiveName key valueName : List UInt8) :
    Option (Except ApiErr UInt32) :=
  if !s.loaded then some (.error .badValue)
  else
    match s.findKey hiveName key with
    | .error e => some (.error e)
    | .ok (h, node) =>
      let inherit : Access := ⟨hivefsAccessInherit, hivefsAccessInherit, hivefsAccessInherit⟩
      let start : Option Access :=
        if valueName = [] then some inherit
        else ((h.findValue node valueName).bind (h.values[·]?)).map fun v => accessMerge v.flags inherit
      match start with
      | none => some (.error .notFound)
      | some a => (h.accessWalk fuel node a).map fun result =>
        result.map fun a => accessPack (accessMerge hivefsAccessDefault (accessMerge h.flags a))

end Hivefs

end Otsos
