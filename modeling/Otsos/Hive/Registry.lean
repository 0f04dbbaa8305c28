import Otsos.Hive.Build

/-! Changes of the registry: each edits the hive in memory, then writes the whole registry out, and
takes the edit back when that fails. A result of `none` is a fault or a loop that does not end. -/
namespace Otsos

namespace Hive

/-- A key is added under `parent`. -/
def addKey (h : Hive) (name : HiveName) (parent : Nat) : Hive :=
  { h with nodes := h.nodes ++ [⟨name, parent, 0, false⟩], dirty := true }

/-- The loop of `hivefs_find_node_path` with creation. -/
def createParts (env : HiveEnv) :
    List (List UInt8) → Nat → Nat → Hive → Option (Nat × Hive × Except ApiErr Nat)
  | [], node, requests, h => some (requests, h, .ok node)
  | part :: rest, node, requests, h =>
    if part = [] then some (requests, h, .error .badValue)
    else
      match h.findChild node part with
      | some i => createParts env rest i requests h
      | none =>
        if (h.findValue node part).isSome then some (requests, h, .error .alreadyExists)
        else
          match nameFromPart part with
          | .error e => some (requests, h, .error e)
          | .ok name => do
            match ← reserve env requests h.nodeCap (u32 (h.nodes.length + 1)) with
            | (requests, .error e) => some (requests, h, .error e)
            | (requests, .ok cap) =>
              createParts env rest h.nodes.length requests
                ({ h with nodeCap := cap }.addKey (nameCopy name) node)

/-- `hivefs_find_node_path` with creation. -/
def createPath (env : HiveEnv) (requests : Nat) (h : Hive) (key : List UInt8) :
    Option (Nat × Hive × Except ApiErr Nat) :=
  if h.nodes = [] then some (requests, h, .error .badValue)
  else createParts env (components isKeySep key) 0 requests h

/-- Keys that have been added since `old` are taken back, and its dirty flag is restored. -/
def takeBack (old h : Hive) : Hive :=
  { h with nodes := h.nodes.take old.nodes.length, dirty := old.dirty }

end Hive

namespace Hivefs
variable (env : HiveEnv) (s : Hivefs)

/-- `hivefs_commit` lets a hive refer to the pack just written. -/
def adoptHive (pack : List UInt8) (h : Hive) (e : PackEntry) : Hive :=
  match validateHeader (e.image pack) with
  | none => { h with dirty := false }
  | some raw => { h with flags := raw.header.flags, dirty := false }

def commit : Option (Hivefs × Except ApiErr Unit) :=
  if !s.loaded then some (s, .error .notFound)
  else if s.syncing then some (s, .ok ())
  else
    let asked := { s with commits := s.commits + 1 }
    if s.storePath = [] || !env.vfsIsInitialized s.commits then some (asked, .error .io)
    else do
      match ← s.buildPack env with
      | (requests, .error e) => some ({ asked with requests := requests }, .error e)
      | (requests, .ok pack) =>
        match ← packLoadInto env requests pack with
        | (requests, .error e) => some ({ asked with requests := requests }, .error e)
        | (requests, .ok _) =>
          match env.vfsWriteFile s.commits with
          | some e => some ({ asked with requests := requests }, .error e)
          | none =>
            some ({ asked with
              requests := requests
              hives := List.zipWith (adoptHive pack) s.hives (packEntries pack) }, .ok ())

/-- Commit, and take an edit back when that fails. -/
def commitOr (undo : Hivefs → Hivefs) : Option (Hivefs × Except ApiErr Unit) :=
  (s.commit env).map fun
    | (s, .error e) => (undo s, .error e)
    | (s, .ok ()) => (s, .ok ())

/-- The hive with a name. -/
def hiveNamed (name : List UInt8) : Option (Nat × Hive) := do
  let i ← s.findHiveName name
  let h ← s.hives[i]?
  return (i, h)

def setHive (i : Nat) (h : Hive) : Hivefs := { s with hives := s.hives.set i h }

/-- `kmem_alloc` of a number of bytes; nothing is asked for zero of them. -/
def takeMemory (size : Nat) : Hivefs × Bool :=
  if size = 0 then (s, true) else ({ s with requests := s.requests + 1 }, env.memory s.requests)

def createKey (hiveName key : List UInt8) :
    Option (Hivefs × Except ApiErr Unit) :=
  if !s.loaded || key = [] then some (s, .error .badValue)
  else
    match s.hiveNamed hiveName with
    | none => some (s, .error .notFound)
    | some (i, hive) =>
      match hive.lookup key with
      | .ok _ => some (s, .error .alreadyExists)
      | .error e =>
        if e ≠ .notFound then some (s, .error e)
        else do
          let (requests, made, result) ← hive.createPath env s.requests key
          let s := { s.setHive i made with requests := requests }
          match result with
          | .error e => some (s.modifyHive i hive.takeBack, .error e)
          | .ok _ => s.commitOr env fun s => s.modifyHive i hive.takeBack

def deleteKey (hiveName key : List UInt8) :
    Option (Hivefs × Except ApiErr Unit) :=
  if !s.loaded || key = [] then some (s, .error .badValue)
  else
    match s.hiveNamed hiveName with
    | none => some (s, .error .notFound)
    | some (i, hive) =>
      match hive.lookup key with
      | .error e => some (s, .error e)
      | .ok node =>
        if node = 0 then some (s, .error .badValue)
        else if hive.nodes.any (HiveTree.isChild node) || hive.values.any (HiveTree.isValueOf node) then
          some (s, .error .notEmpty)
        else
          let delete (deleted dirty : Bool) (h : Hive) : Hive :=
            { h with nodes := h.nodes.modify node fun n => { n with deleted := deleted }, dirty := dirty }
          (s.modifyHive i (delete true true)).commitOr env fun s =>
            s.modifyHive i (delete false hive.dirty)

/-- The value with a name under a key, with its index. -/
def valueNamed (h : HiveTree) (node : Nat) (valueName : List UInt8) : Option (Nat × HiveValue) := do
  let v ← h.findValue node valueName
  let value ← h.values[v]?
  return (v, value)

/-- The second half of `hivefs_set_value`: the key `node` has been found or made in the hive `i`,
which was `hive` before, and the data have been copied. -/
def setValueAt (i : Nat) (hive made : Hive) (node : Nat) (valueName : List UInt8)
    (type : UInt32) (data : List UInt8) : Option (Hivefs × Except ApiErr Unit) :=
  match valueNamed made.toHiveTree node valueName with
  | some (v, old) =>
    let put (value : HiveValue) (h : Hive) : Hive := { h with values := h.values.set v value }
    (s.modifyHive i fun h =>
      { put { old with data := data, type := type, deleted := false } h with dirty := true }).commitOr env
      fun s => s.modifyHive i fun h => hive.takeBack (put old h)
  | none => do
    match ← reserve env s.requests made.valueCap (u32 (made.values.length + 1)) with
    | (requests, .error e) => some ({ s with requests := requests }.modifyHive i hive.takeBack, .error e)
    | (requests, .ok cap) =>
      let value : HiveValue := ⟨nameCopy valueName, node, type, 0, data, false⟩
      ({ s with requests := requests }.modifyHive i fun h =>
        { h with valueCap := cap, values := h.values ++ [value], dirty := true }).commitOr env fun s =>
        s.modifyHive i fun h => hive.takeBack { h with values := h.values.take hive.values.length }

/-- `hivefs_set_value`; a null pointer is `none`. -/
def setValue (hiveName key valueName : List UInt8) (type : UInt32)
    (data : Option (List UInt8)) (size : UInt32) : Option (Hivefs × Except ApiErr Unit) :=
  if !s.loaded || valueName = [] || (data = none && size ≠ 0) || type < hivefsTypeString ||
      type > hivefsTypeMultiString then
    some (s, .error .badValue)
  else
    match s.hiveNamed hiveName with
    | none => some (s, .error .notFound)
    | some (i, hive) =>
      match nameFromPart valueName with
      | .error _ => some (s, .error .badValue)
      | .ok _ => do
        let (requests, made, result) ← hive.createPath env s.requests key
        let s := { s.setHive i made with requests := requests }
        match result with
        | .error e => some (s.modifyHive i hive.takeBack, .error e)
        | .ok node =>
          if (made.findChild node valueName).isSome then
            some (s.modifyHive i hive.takeBack, .error .alreadyExists)
          else
            match s.takeMemory env size.toNat with
            | (s, false) => some (s.modifyHive i hive.takeBack, .error .noMemory)
            | (s, true) =>
              s.setValueAt env i hive made node valueName type ((data.getD []).take size.toNat)

def deleteValue (hiveName key valueName : List UInt8) :
    Option (Hivefs × Except ApiErr Unit) :=
  if !s.loaded || valueName = [] then some (s, .error .badValue)
  else
    match s.hiveNamed hiveName with
    | none => some (s, .error .notFound)
    | some (i, hive) =>
      match hive.lookup key with
      | .error e => some (s, .error e)
      | .ok node =>
        match valueNamed hive.toHiveTree node valueName with
        | none => some (s, .error .notFound)
        | some (v, old) =>
          let put (value : HiveValue) (h : Hive) : Hive := { h with values := h.values.set v value }
          ((s.modifyHive i fun h => { put { old with deleted := true } h with dirty := true }).commitOr env
            fun s => s.modifyHive i fun h => { put { old with deleted := false } h with dirty := hive.dirty }).map
            fun
            | (s, .error e) => (s, .error e)
            | (s, .ok ()) => (s.modifyHive i (put { old with deleted := true, data := [] }), .ok ())

/-- What `hivefs_vnode_data_t` says: whether the vnode is a value, and the indices of its hive and
value. -/
structure Vnode where
  isValue : Bool
  (hive value : Nat)
deriving DecidableEq

/-- The data of a value after a write; a gap is filled with zeros. -/
def overwrite (old : List UInt8) (off : Nat) (buf : List UInt8) : List UInt8 :=
  let base := old ++ List.replicate (off + buf.length - old.length) 0
  base.take off ++ (buf ++ base.drop (off + buf.length))

/-- The checks of `hivefs_vnode_write`, which end with the memory for the new data: the value
written to, or the error. -/
def vnodeWriteCheck (vn : Vnode) (buf : List UInt8) (offset : UInt64) :
    Hivefs × Except ApiErr HiveValue :=
  if offset.toNat > 0xFFFFFFFF ∨ buf.length > 0x7FFFFFFF then (s, .error .badValue)
  else
    match vn.isValue, s.hives[vn.hive]? with
    | true, some hive =>
      match hive.values[vn.value]? with
      | none => (s, .error .notFound)
      | some old =>
        if old.deleted then (s, .error .notFound)
        else if buf.length > 0xFFFFFFFF - offset.toNat then (s, .error .fileTooBig)
        else
          match s.takeMemory env (overwrite old.data offset.toNat buf).length with
          | (s, false) => (s, .error .noMemory)
          | (s, true) => (s, .ok old)
    | _, _ => (s, .error .isDir)

/-- `hivefs_vnode_write`: when the commit fails, the value is restored and the dirty flag is not. -/
def vnodeWrite (vn : Vnode) (buf : List UInt8) (offset : UInt64) :
    Option (Hivefs × Except ApiErr Unit) :=
  match s.vnodeWriteCheck env vn buf offset with
  | (s, .error e) => some (s, .error e)
  | (s, .ok old) =>
    let put (v : HiveValue) (h : Hive) : Hive := { h with values := h.values.set vn.value v }
    (s.modifyHive vn.hive fun h =>
      { put { old with
          data := overwrite old.data offset.toNat buf, type := hivefsTypeBytes, deleted := false } h with
        dirty := true }).commitOr env fun s => s.modifyHive vn.hive (put old)

def backCreateFile (path : List UInt8) : Option (Hivefs × Except ApiErr Unit) :=
  match s.pathSplitValue path with
  | .error e => some (s, .error e)
  | .ok (hiveName, key, valueName) =>
    match s.hiveNamed hiveName with
    | none => some (s, .error .notFound)
    | some (_, hive) =>
      match hive.lookup key with
      | .error e => some (s, .error e)
      | .ok node =>
        if (hive.findChild node valueName).isSome || (hive.findValue node valueName).isSome then
          some (s, .error .alreadyExists)
        else s.setValue env hiveName key valueName hivefsTypeBytes none 0

def backMkdir (path : List UInt8) : Option (Hivefs × Except ApiErr Unit) :=
  match s.pathSplitKey path with
  | .error e => some (s, .error e)
  | .ok (hiveName, key) => s.createKey env hiveName key

def backRmdir (path : List UInt8) : Option (Hivefs × Except ApiErr Unit) :=
  match s.pathSplitKey path with
  | .error e => some (s, .error e)
  | .ok (hiveName, key) => s.deleteKey env hiveName key

def backUnlink (path : List UInt8) : Option (Hivefs × Except ApiErr Unit) :=
  match s.pathSplitValue path with
  | .error e => some (s, .error e)
  | .ok (hiveName, key, valueName) => s.deleteValue env hiveName key valueName

/-- The data of a value after a change of its length. -/
def resize (data : List UInt8) (length : Nat) : List UInt8 :=
  data.take length ++ List.replicate (length - data.length) 0

def backTruncate (path : List UInt8) (length : UInt64) :
    Option (Hivefs × Except ApiErr Unit) :=
  if length.toNat > 0xFFFFFFFF then some (s, .error .fileTooBig)
  else
    match s.pathSplitValue path with
    | .error e => some (s, .error e)
    | .ok (hiveName, key, valueName) =>
      match s.hiveNamed hiveName with
      | none => some (s, .error .notFound)
      | some (_, hive) =>
        match hive.lookup key with
        | .error e => some (s, .error e)
        | .ok node =>
          match valueNamed hive.toHiveTree node valueName with
          | none => some (s, .error .notFound)
          | some (_, value) =>
            match s.takeMemory env length.toNat with
            | (s, false) => some (s, .error .noMemory)
            | (s, true) =>
              s.setValue env hiveName key valueName value.type
                (if length = 0 then none else some (resize value.data length.toNat)) length.toUInt32

def backWriteFile (path data : List UInt8) (size : UInt32) :
    Option (Hivefs × Except ApiErr Unit) :=
  match s.pathSplitValue path with
  | .error e => some (s, .error e)
  | .ok (hiveName, key, valueName) => s.setValue env hiveName key valueName hivefsTypeBytes (some data) size

end Hivefs

end Otsos
