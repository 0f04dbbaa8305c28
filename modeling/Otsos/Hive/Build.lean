import Otsos.Foundation.Compact
import Otsos.Hive.Pack

/-! Writing the registry out (`hivefs_build_pack`). Deleted keys are dropped and the others numbered
anew. A write outside the memory asked for is a fault. -/
namespace Otsos
open Bytes

/-- A step that may fault, or fail with an error. -/
abbrev Build := ExceptT ApiErr Option

namespace HiveTree
variable (h : HiveTree)

/-- The first loop of `hivefs_build_hive_blob`: is the key written out? -/
def keeps (i : Nat) (n : HiveNode) : Bool := !n.deleted && (i == 0 || h.live n.parent)

/-- `node_map`, with `none` for `HIVEFS_NO_INDEX`. -/
def nodeMap : Nat → Option Nat := Compact.rank h.keeps h.nodes

/-- The keys written out, with their old indices. -/
def keptNodes : List (HiveNode × Nat) := Compact.kept h.keeps h.nodes

def keptValues : List HiveValue :=
  h.values.filter fun v => !v.deleted && (h.nodeMap v.node).isSome

/-- The bytes of the names and of the data, without the wrap of 32 bits. -/
def nameBytes : Nat :=
  (h.keptNodes.map fun p => p.1.name.bytes.length + 1).sum + (h.keptValues.map
    fun v => v.name.bytes.length + 1).sum

def dataBytes : Nat := (h.keptValues.map fun v => v.data.length).sum

/-- The new index of the parent. -/
def newParent (p : HiveNode × Nat) : Nat :=
  if p.2 = 0 then hivefsNoIndex else (h.nodeMap p.1.parent).getD hivefsNoIndex

end HiveTree

/-- `hivefs_string_store_add`: the names so far are `strings`. -/
def stringStoreAdd (strings : List UInt8) (max : Nat) (name : HiveName) : Build (List UInt8) :=
  if name.bytes.length + 1 > max - strings.length then throw .tooBig
  else pure (strings ++ (name.bytes ++ [0]))

/-- A key is written behind those already there. -/
def addNode (h : HiveTree) (max : Nat) (img : Image) (p : HiveNode × Nat) : Build Image := do
  let strings ← stringStoreAdd img.strings max p.1.name
  return { img with
    nodes := img.nodes ++ [⟨.ofNat (h.newParent p), .ofNat img.strings.length, p.1.flags,
      .ofNat hivefsNoIndex, 0, .ofNat hivefsNoIndex, 0⟩]
    strings := strings }

def linkChild (child : Nat) (e : NodeEntry) : NodeEntry :=
  { e with
    firstChild := if e.childCount = 0 then .ofNat child else e.firstChild
    childCount := e.childCount + 1 }

def linkValue (value : Nat) (e : NodeEntry) : NodeEntry :=
  { e with
    firstValue := if e.valueCount = 0 then .ofNat value else e.firstValue
    valueCount := e.valueCount + 1 }

/-- The links of a key in the entry of its parent; a parent that is not written out is outside the
table. -/
def addChild (h : HiveTree) (img : Image) (p : HiveNode × Nat) : Build Image :=
  if p.2 = 0 then pure img
  else
    match h.nodeMap p.1.parent, h.nodeMap p.2 with
    | some parent, some child => pure { img with nodes := img.nodes.modify parent (linkChild child) }
    | _, _ => (none : Option _)

def addValue (h : HiveTree) (max : Nat) (img : Image) (v : HiveValue) : Build Image := do
  let node ← ((h.nodeMap v.node).map .ok : Option (Except ApiErr Nat))
  let strings ← stringStoreAdd img.strings max v.name
  return { img with
    nodes := img.nodes.modify node (linkValue img.values.length)
    values := img.values ++ [⟨.ofNat node, .ofNat img.strings.length, v.type, v.flags,
      .ofNat img.data.length, .ofNat v.data.length⟩]
    strings := strings
    data := img.data ++ v.data }

/-- The loops that fill the blob. -/
def fillBlob (h : HiveTree) (max : Nat) : Build Image := do
  let img ← h.keptNodes.foldlM (addNode h max) ⟨h.flags, [], [], [], []⟩
  let img ← h.keptNodes.foldlM (addChild h) img
  h.keptValues.foldlM (addValue h max) img

/-- `hivefs_build_hive_blob`: the blob, as the image that its bytes are. When the offsets wrap, what
is written does not fit in it. -/
def buildHiveBlob (env : HiveEnv) (requests : Nat) (h : HiveTree) :
    Option (Nat × Except ApiErr Image) :=
  if h.nodes = [] then some (requests, .error .badValue)
  else if !env.memory requests then some (requests + 1, .error .noMemory)
  else if h.nodeMap 0 = none then some (requests + 1, .error .badValue)
  else
    let fixed := sizeofHiveHeader + sizeofNodeEntry * h.keptNodes.length + sizeofValueEntry * h.keptValues.length
    let dataOff := u32 (fixed + u32 h.nameBytes)
    if h.dataBytes > 0xFFFFFFFF ∨ sizeofNodeEntry * h.keptNodes.length > 0xFFFFFFFF ∨
        sizeofValueEntry * h.keptValues.length > 0xFFFFFFFF ∨ dataOff + h.dataBytes > 0xFFFFFFFF then
      some (requests + 1, .error .tooBig)
    else if !env.memory (requests + 1) then some (requests + 2, .error .noMemory)
    else if dataOff ≠ fixed + u32 h.nameBytes then none
    else (fillBlob h (u32 h.nameBytes)).run.map fun result => (requests + 2, result)

namespace Hivefs

/-- The first loop of `hivefs_build_pack`: the blobs and the size of the body. -/
def buildBlobs (env : HiveEnv) :
    List HiveTree → Nat → Nat → Option (Nat × Except ApiErr (List PackItem × Nat))
  | [], requests, body => some (requests, .ok ([], body))
  | h :: hs, requests, body => do
    match ← buildHiveBlob env requests h with
    | (requests, .error e) => some (requests, .error e)
    | (requests, .ok img) =>
      let body := u32 (alignUp8 body)
      if img.size > 0xFFFFFFFF - body then some (requests, .error .tooBig)
      else
        match ← buildBlobs env hs requests (body + img.size) with
        | (requests, .error e) => some (requests, .error e)
        | (requests, .ok (items, body)) => some (requests, .ok (⟨h.name, h.flags, img⟩ :: items, body))

def buildPack (env : HiveEnv) (s : Hivefs) : Option (Nat × Except ApiErr (List UInt8)) :=
  if !s.loaded || s.hives = [] then some (s.requests, .error .badValue)
  else do
    match ← buildBlobs env s.trees s.requests 0 with
    | (requests, .error e) => some (requests, .error e)
    | (requests, .ok (items, body)) =>
      if Pack.dataOff items + body > 0xFFFFFFFF then some (requests, .error .tooBig)
      else if !env.memory requests then some (requests + 1, .error .noMemory)
      else if body ≠ (Pack.body 0 items).length then none
      else some (requests + 1, .ok (Pack.bytes items))

end Hivefs

end Otsos
