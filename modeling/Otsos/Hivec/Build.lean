import Mathlib.Data.List.Sort
import Mathlib.Data.String.Basic
import Otsos.Hive.Pack
import Otsos.Hivec.Parser

/-! What the hive compiler writes (`build_nodes`, `build_hive`, `build_pack`). A dictionary is the
list of its entries in the order they came in; a number that does not fit in its field is a
`struct.error`. -/
namespace Otsos.Hivec
open Bytes

structure Node where
  (path name : Text)
  flags : UInt32
  values : List Value
deriving DecidableEq

/-- The path of a key below another. -/
def extend (path part : Text) : Text := if path = [] then part else path ++ '.' :: part

/-- `nodes.setdefault(path, Node(path, part))` -/
def setdefault (nodes : List Node) (path part : Text) : List Node :=
  if path ∈ nodes.map (·.path) then nodes else nodes ++ [⟨path, part, 0, []⟩]

/-- The loop of `build_nodes` over the parts of a key's path. -/
def addParts (hive : Hive) (key : Key) : List Text → Text → List Node → Except Exn (List Node)
  | [], _, nodes => .ok nodes
  | part :: parts, path, nodes =>
    if part = [] then
      .error (.hive (String.ofList hive.name ++ ": bad key path " ++ String.ofList key.path))
    else addParts hive key parts (extend path part) (setdefault nodes (extend path part) part)

/-- What a key declares is added to its node. -/
def declare (key : Key) (node : Node) : Node :=
  if node.path = key.path then { node with flags := node.flags ||| key.flags, values := node.values ++ key.values }
  else node

def addKey (hive : Hive) (nodes : List Node) (key : Key) : Except Exn (List Node) := do
  let nodes ← addParts hive key (Parser.splitDots key.path) [] nodes
  if key.path ∈ nodes.map (·.path) then return nodes.map (declare key) else .error .key

/-- The order of `sorted(.., key=lambda p: (p.count("."), p))`. -/
def before (a b : Node) : Prop :=
  a.path.count '.' < b.path.count '.' ∨ a.path.count '.' = b.path.count '.' ∧ a.path ≤ b.path

instance : DecidableRel before := fun _ _ => inferInstanceAs (Decidable (_ ∨ _))

def buildNodes (hive : Hive) : Except Exn (List Node) := do
  let nodes ← hive.keys.foldlM (addKey hive) [⟨[], [], 0, []⟩]
  return nodes.filter (·.path = []) ++ (nodes.filter (·.path ≠ [])).insertionSort before

def nodeIndex (nodes : List Node) (path : Text) : Except Exn Nat :=
  match nodes.findIdx? (·.path = path) with
  | none => .error .key
  | some i => .ok i

/-- `path.rsplit(".", 1)[0]`, or nothing without a dot. -/
def parentPath (path : Text) : Text :=
  if '.' ∈ path then (path.reverse.dropWhile (· ≠ '.')).tail.reverse else []

structure StringTable where
  data : List UInt8
  index : List (Text × Nat)
deriving DecidableEq

def StringTable.add (t : StringTable) (text : Text) : Nat × StringTable :=
  match t.index.lookup text with
  | some off => (off, t)
  | none => (t.data.length, ⟨t.data ++ (utf8 text ++ [0]), (text, t.data.length) :: t.index⟩)

/-- An element of `value_rows`. -/
structure Row where
  node : Nat
  value : Value
  (off size : Nat)
deriving DecidableEq

/-- The names, the data and the rows so far. -/
structure Tables where
  strings : StringTable
  data : List UInt8
  rows : List Row
deriving DecidableEq

def addValue (nidx : Nat) (t : Tables) (value : Value) : Tables where
  strings := (t.strings.add value.name).2
  data := t.data ++ value.data
  rows := t.rows ++ [⟨nidx, value, t.data.length, value.data.length⟩]

/-- The values of a node, in the order of their names. -/
def sortedValues (node : Node) : List Value := node.values.insertionSort fun a b => a.name ≤ b.name

def addValues (t : Tables) (p : Node × Nat) : Tables := (sortedValues p.1).foldl (addValue p.2) t

/-- The number of the parent, `0xFFFFFFFF` for the root. -/
def parentIndex (nodes : List Node) (p : Node × Nat) : Except Exn Nat :=
  if p.2 = 0 then .ok hivefsNoIndex else nodeIndex nodes (parentPath p.1.path)

/-- `child_map[i]`, from the numbers of the parents. -/
def childMap (parents : List Nat) (i : Nat) : List Nat :=
  (parents.zipIdx.filter fun q => q.2 ≠ 0 ∧ q.1 = i).map (·.2)

/-- `value_map[i]` -/
def valueMap (rows : List Row) (i : Nat) : List Nat :=
  (rows.zipIdx.filter fun q => q.1.node = i).map (·.2)

/-- A number in a field of four bytes. -/
def packWord (n : Nat) : Except Exn UInt32 := if n < 2 ^ 32 then .ok (.ofNat n) else .error .struct

/-- The loop over the nodes that packs their entries. -/
def packNodes (parents : List Nat) (rows : List Row) :
    List ((Node × Nat) × Nat) → StringTable → Except Exn (List NodeEntry × StringTable)
  | [], t => .ok ([], t)
  | ((node, pidx), idx) :: rest, t => do
    let (off, t) := t.add node.name
    let children := childMap parents idx
    let values := valueMap rows idx
    let parent ← packWord pidx
    let nameOff ← packWord off
    let firstChild ← packWord (children.head?.getD hivefsNoIndex)
    let childCount ← packWord children.length
    let firstValue ← packWord (values.head?.getD hivefsNoIndex)
    let valueCount ← packWord values.length
    let (entries, t) ← packNodes parents rows rest t
    return (⟨parent, nameOff, node.flags, firstChild, childCount, firstValue, valueCount⟩ :: entries, t)

/-- The loop over the rows that packs their entries. -/
def packValues : List Row → StringTable → Except Exn (List ValueEntry × StringTable)
  | [], t => .ok ([], t)
  | row :: rest, t => do
    let (off, t) := t.add row.value.name
    let node ← packWord row.node
    let nameOff ← packWord off
    let dataOff ← packWord row.off
    let size ← packWord row.size
    let (entries, t) ← packValues rest t
    return (⟨node, nameOff, row.value.type.id, row.value.flags, dataOff, size⟩ :: entries, t)

/-- `build_hive` up to the tables of the image. -/
def buildImage (hive : Hive) : Except Exn Image := do
  let nodes ← buildNodes hive
  let strings := nodes.foldl (fun t node => (t.add node.name).2) ((StringTable.mk [] []).add []).2
  let parents ← nodes.zipIdx.mapM (parentIndex nodes)
  let t := nodes.zipIdx.foldl addValues ⟨strings, [], []⟩
  let (nodeEntries, strings) ← packNodes parents t.rows (nodes.zip parents).zipIdx t.strings
  let (valueEntries, strings) ← packValues t.rows strings
  return ⟨hive.flags, nodeEntries, valueEntries, strings.data, t.data⟩

def buildHive (hive : Hive) : Except Exn (List UInt8) := do
  let img ← buildImage hive
  let nodeEntries := img.nodes.flatMap (·.encode)
  let valueEntries := img.values.flatMap (·.encode)
  let nodeOff := sizeofHiveHeader
  let valueOff := nodeOff + nodeEntries.length
  let stringOff := valueOff + valueEntries.length
  let dataOff := stringOff + img.strings.length
  let payload := nodeEntries ++ (valueEntries ++ (img.strings ++ img.data))
  let header : HiveHeader := {
    version := hivefsFormatVersion
    headerSize := ← packWord sizeofHiveHeader
    flags := hive.flags
    nodeCount := ← packWord img.nodes.length
    valueCount := ← packWord img.values.length
    nodeOff := ← packWord nodeOff
    valueOff := ← packWord valueOff
    stringOff := ← packWord stringOff
    stringSize := ← packWord img.strings.length
    dataOff := ← packWord dataOff
    dataSize := ← packWord img.data.length
    totalSize := ← packWord (dataOff + img.data.length)
    crc := crc32 payload }
  return hivefsHiveMagic ++ (header.encode ++ payload)

/-- `fixed_name`; `encode("ascii")` is a `UnicodeEncodeError` beyond ASCII. -/
def fixedName (name : Text) : Except Exn (List UInt8) :=
  if name.all (·.toNat < 128) then
    let raw := name.map fun c => UInt8.ofNat c.toNat
    if raw.length ≥ 32 then .error (.hive ("hive name too long: " ++ String.ofList name))
    else .ok (raw ++ List.replicate (32 - raw.length) 0)
  else .error .unicode

/-- The first loop of `build_pack`, with the names seen so far. -/
def buildBlobs : List Text → List Hive → Except Exn (List (Hive × List UInt8))
  | _, [] => .ok []
  | seen, hive :: hives =>
    if hive.name ∈ seen then .error (.hive ("duplicate hive " ++ String.ofList hive.name))
    else do
      let blob ← buildHive hive
      let blobs ← buildBlobs (hive.name :: seen) hives
      return (hive, blob) :: blobs

/-- `align`: NULs up to a multiple of eight. -/
def alignBody (body : List UInt8) : List UInt8 :=
  body ++ List.replicate ((8 - body.length % 8) % 8) 0

/-- The second loop of `build_pack`: the entries and the body. -/
def packEntries (dataOff : Nat) : List (Hive × List UInt8) → List UInt8 →
    Except Exn (List PackEntry × List UInt8)
  | [], body => .ok ([], body)
  | (hive, blob) :: rest, body => do
    let body := alignBody body
    let name ← fixedName hive.name
    let offset ← packWord (dataOff + body.length)
    let size ← packWord blob.length
    let (entries, body) ← packEntries dataOff rest (body ++ blob)
    return (⟨name, offset, size, hive.flags, crc32 blob⟩ :: entries, body)

def buildPack (hives : List Hive) : Except Exn (List UInt8) := do
  let blobs ← buildBlobs [] hives
  let tableOff := sizeofPackHeader
  let dataOff := tableOff + sizeofPackEntry * blobs.length
  let (entries, body) ← packEntries dataOff blobs []
  let payload := entries.flatMap (·.encode) ++ body
  let header : PackHeader := {
    version := hivefsFormatVersion
    headerSize := ← packWord sizeofPackHeader
    hiveCount := ← packWord blobs.length
    tableOff := ← packWord tableOff
    dataOff := ← packWord dataOff
    totalSize := ← packWord (dataOff + body.length)
    reserved := 0
    crc := crc32 payload }
  return hivefsPackMagic ++ (header.encode ++ payload)

end Otsos.Hivec
