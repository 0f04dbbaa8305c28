import Otsos.Hive.Model

/-! Reading a pack of hives (`hivefs_pack_load_into`). The numbers in an image are 32-bit words and
wrap as such; the bytes of an area are read only after its bounds have been checked. -/
namespace Otsos
open Bytes

def hivefsFormatVersion : UInt32 := 1

-- sizes of the packed structures
def sizeofPackHeader : Nat := 40
def sizeofPackEntry : Nat := 48
def sizeofHiveHeader : Nat := 60
def sizeofNodeEntry : Nat := 28
def sizeofValueEntry : Nat := 24

/-- `OTSHPK1` and `OTSHIV1`, each with its NUL. -/
def hivefsPackMagic : List UInt8 := [0x4f, 0x54, 0x53, 0x48, 0x50, 0x4b, 0x31, 0]
def hivefsHiveMagic : List UInt8 := [0x4f, 0x54, 0x53, 0x48, 0x49, 0x56, 0x31, 0]

def crcBit (crc : UInt32) : UInt32 :=
  if crc &&& 1 ≠ 0 then (crc >>> 1) ^^^ 0xEDB88320 else crc >>> 1

def crcByte (crc : UInt32) (b : UInt8) : UInt32 :=
  (List.range 8).foldl (fun crc _ => crcBit crc) (crc ^^^ b.toUInt32)

/-- `hivefs_crc32` -/
def crc32 (data : List UInt8) : UInt32 := ~~~ data.foldl crcByte 0xFFFFFFFF

def rangeOk (off len total : UInt32) : Bool := off ≤ total && len ≤ total - off

def mulSizeOk (count size : UInt32) : Option UInt32 :=
  if count > 0xFFFFFFFF / size then none else some (count * size)

/-- `hivefs_node_entry_t` -/
structure NodeEntry where
  (parent nameOff flags firstChild childCount firstValue valueCount : UInt32)
deriving DecidableEq

def NodeEntry.decode (b : List UInt8) : NodeEntry :=
  ⟨word b 0, word b 4, word b 8, word b 12, word b 16, word b 20, word b 24⟩

/-- `hivefs_value_entry_t` -/
structure ValueEntry where
  (node nameOff type flags dataOff size : UInt32)
deriving DecidableEq

def ValueEntry.decode (b : List UInt8) : ValueEntry :=
  ⟨word b 0, word b 4, word b 8, word b 12, word b 16, word b 20⟩

/-- `hivefs_hive_header_t` behind its magic number. -/
structure HiveHeader where
  version : UInt32
  headerSize : UInt32
  (flags nodeCount valueCount nodeOff valueOff stringOff stringSize dataOff dataSize totalSize crc :
    UInt32)
deriving DecidableEq

def HiveHeader.decode (b : List UInt8) : HiveHeader :=
  ⟨word b 8, word b 12, word b 16, word b 20, word b 24, word b 28, word b 32, word b 36, word b 40,
    word b 44, word b 48, word b 52, word b 56⟩

/-- A hive in its image, once the header has been checked. -/
structure RawHive where
  base : List UInt8
  header : HiveHeader
deriving DecidableEq

namespace RawHive
variable (raw : RawHive)

def node (i : Nat) : NodeEntry :=
  .decode (raw.base.drop (raw.header.nodeOff.toNat + sizeofNodeEntry * i))

def value (i : Nat) : ValueEntry :=
  .decode (raw.base.drop (raw.header.valueOff.toNat + sizeofValueEntry * i))

def strings : List UInt8 :=
  slice raw.base raw.header.stringOff.toNat raw.header.stringSize.toNat

def data : List UInt8 := raw.base.drop raw.header.dataOff.toNat

/-- The entries as the loops over them read them. -/
def nodes : List NodeEntry := (List.range raw.header.nodeCount.toNat).map raw.node

def values : List ValueEntry := (List.range raw.header.valueCount.toNat).map raw.value

/-- `hivefs_string_ok` -/
def stringOk (off : UInt32) : Bool :=
  off < raw.header.stringSize && hasString raw.strings off.toNat

/-- `hivefs_string_at` -/
def stringAt (off : UInt32) : List UInt8 :=
  if raw.stringOk off then raw.strings.drop off.toNat else []

def nodeOk (i : Nat) (e : NodeEntry) : Bool :=
  (if i = 0 then e.parent.toNat == hivefsNoIndex else e.parent < raw.header.nodeCount) &&
    raw.stringOk e.nameOff &&
    (e.childCount == 0 || e.firstChild < raw.header.nodeCount) &&
    (e.valueCount == 0 || e.firstValue < raw.header.valueCount)

def valueOk (e : ValueEntry) : Bool :=
  e.node < raw.header.nodeCount && raw.stringOk e.nameOff && hivefsTypeString ≤ e.type &&
    e.type ≤ hivefsTypeMultiString && rangeOk e.dataOff e.size raw.header.dataSize

end RawHive

/-- The checks of `hivefs_validate_hive` on the header. -/
def headerOk (hdr : HiveHeader) (size : UInt32) (base : List UInt8) : Bool :=
  hdr.version == hivefsFormatVersion && hdr.headerSize.toNat == sizeofHiveHeader &&
    hdr.totalSize == size &&
  hdr.nodeCount != 0 &&
  match mulSizeOk hdr.nodeCount 28, mulSizeOk hdr.valueCount 24 with
  | some nodeBytes, some valueBytes =>
    hdr.nodeOff == hdr.headerSize && hdr.valueOff == hdr.nodeOff + nodeBytes &&
    hdr.stringOff == hdr.valueOff + valueBytes && hdr.dataOff == hdr.stringOff + hdr.stringSize &&
    rangeOk hdr.nodeOff nodeBytes size && rangeOk hdr.valueOff valueBytes size &&
    rangeOk hdr.stringOff hdr.stringSize size && rangeOk hdr.dataOff hdr.dataSize size &&
    hdr.dataOff + hdr.dataSize == hdr.totalSize &&
    crc32 (base.drop hdr.nodeOff.toNat) == hdr.crc
  | _, _ => false

/-- `hivefs_validate_hive` up to the point where it has filled in the hive. -/
def validateHeader (base : List UInt8) : Option RawHive :=
  let hdr := HiveHeader.decode base
  if sizeofHiveHeader ≤ base.length ∧ base.take 8 = hivefsHiveMagic ∧
    headerOk hdr (UInt32.ofNat base.length) base then
    some ⟨base, hdr⟩
  else none

/-- `hivefs_validate_hive`; every failure is a bad image. -/
def validateHive (base : List UInt8) : Option RawHive :=
  (validateHeader base).filter fun raw =>
    raw.nodes.zipIdx.all (fun (e, i) => raw.nodeOk i e) && raw.values.all raw.valueOk

/-- The loop of `hivefs_reserve_nodes`; `none` when it does not end. -/
def growCap (needed : Nat) : Nat → Nat → Option (Except ApiErr Nat)
  | 0, _ => none
  | fuel + 1, cap =>
    if cap < needed then
      if cap > 0x80000000 then some (.error .tooBig) else growCap needed fuel (u32 (cap * 2))
    else some (.ok cap)

/-- `hivefs_reserve_nodes` and `hivefs_reserve_values`: the number of requests so far and the new
capacity. A capacity that starts to double passes every size within 33 turns or never. -/
def reserve (env : HiveEnv) (requests cap needed : Nat) : Option (Nat × Except ApiErr Nat) :=
  if needed ≤ cap then some (requests, .ok cap)
  else
    (growCap needed 33 (if cap = 0 then 8 else u32 (cap * 2))).map fun
      | .error e => (requests, .error e)
      | .ok cap' => (requests + 1, if env.memory requests then .ok cap' else .error .noMemory)

namespace RawHive

def importNode (raw : RawHive) (e : NodeEntry) : HiveNode :=
  ⟨nameCopy (raw.stringAt e.nameOff), e.parent.toNat, e.flags, false⟩

def importValue (raw : RawHive) (e : ValueEntry) : HiveValue :=
  ⟨nameCopy (raw.stringAt e.nameOff), e.node.toNat, e.type, e.flags,
    slice raw.data e.dataOff.toNat e.size.toNat, false⟩

/-- The loop of `hivefs_import_hive` over the values; each one with data takes memory. -/
def importValues (env : HiveEnv) (raw : RawHive) :
    List ValueEntry → Nat → Nat × Except ApiErr (List HiveValue)
  | [], requests => (requests, .ok [])
  | e :: es, requests =>
    if e.size ≠ 0 ∧ !env.memory requests then (requests + 1, .error .noMemory)
    else
      let (requests, rest) := importValues env raw es (if e.size = 0 then requests else requests + 1)
      (requests, rest.map (raw.importValue e :: ·))

/-- `hivefs_import_hive` into the hive with this name and these flags. -/
def importHive (env : HiveEnv) (requests : Nat) (raw : RawHive) (name : HiveName) (flags : UInt32) :
    Option (Nat × Except ApiErr Hive) := do
  match ← reserve env requests 0 (u32 (raw.header.nodeCount.toNat + 8)) with
  | (requests, .error e) => some (requests, .error e)
  | (requests, .ok nodeCap) =>
    match ← reserve env requests 0 (u32 (raw.header.valueCount.toNat + 8)) with
    | (requests, .error e) => some (requests, .error e)
    | (requests, .ok valueCap) =>
      match raw.importValues env raw.values requests with
      | (requests, .error e) => some (requests, .error e)
      | (requests, .ok values) =>
        some (requests, .ok ⟨⟨name, flags, raw.nodes.map raw.importNode, values, false⟩, nodeCap, valueCap⟩)

end RawHive

/-- `hivefs_pack_header_t` behind its magic number. -/
structure PackHeader where
  (version headerSize hiveCount tableOff dataOff totalSize reserved crc : UInt32)
deriving DecidableEq

def PackHeader.decode (b : List UInt8) : PackHeader :=
  ⟨word b 8, word b 12, word b 16, word b 20, word b 24, word b 28, word b 32, word b 36⟩

/-- `hivefs_pack_entry_t`; the name is the whole array. -/
structure PackEntry where
  name : List UInt8
  (offset size flags crc : UInt32)
deriving DecidableEq

def PackEntry.decode (b : List UInt8) : PackEntry :=
  ⟨b.take hivefsNameSize, word b 32, word b 36, word b 40, word b 44⟩

def packHeaderOk (hdr : PackHeader) (size : UInt32) (data : List UInt8) : Bool :=
  hdr.version == hivefsFormatVersion && hdr.headerSize.toNat == sizeofPackHeader &&
    hdr.hiveCount != 0 &&
  hdr.hiveCount.toNat ≤ hivefsMaxHives && hdr.totalSize ≤ size && hdr.tableOff == hdr.headerSize &&
  match mulSizeOk hdr.hiveCount 48 with
  | some tableBytes =>
    hdr.dataOff == hdr.tableOff + tableBytes && rangeOk hdr.tableOff tableBytes hdr.totalSize &&
    hdr.dataOff ≤ hdr.totalSize &&
    crc32 (slice data hdr.tableOff.toNat (hdr.totalSize - hdr.tableOff).toNat) == hdr.crc
  | none => false

/-- `hivefs_fixed_name_ok` -/
def fixedNameOk (name : List UInt8) : Bool := name.contains 0

/-- The image of the hive of an entry. -/
def PackEntry.image (data : List UInt8) (e : PackEntry) : List UInt8 :=
  slice data e.offset.toNat e.size.toNat

/-- The checks of an entry before its hive is looked at; the names of the entries before it are
known. -/
def entryOk (hdr : PackHeader) (data : List UInt8) (before : List PackEntry) (e : PackEntry) :
    Bool :=
  fixedNameOk e.name && hdr.dataOff ≤ e.offset && rangeOk e.offset e.size hdr.totalSize &&
    crc32 (e.image data) == e.crc && before.all fun p => nameCopy p.name != nameCopy e.name

/-- The loop of `hivefs_pack_load_into` over the entries. -/
def loadEntries (env : HiveEnv) (hdr : PackHeader) (data : List UInt8) :
    List PackEntry → List PackEntry → Nat → Option (Nat × Except ApiErr (List Hive))
  | _, [], requests => some (requests, .ok [])
  | before, e :: es, requests =>
    if entryOk hdr data before e then
      match validateHive (e.image data) with
      | none => some (requests, .error .badImage)
      | some raw => do
        match ← raw.importHive env requests (nameCopy e.name) e.flags with
        | (requests, .error err) => some (requests, .error err)
        | (requests, .ok hive) =>
          let (requests, rest) ← loadEntries env hdr data (before ++ [e]) es requests
          some (requests, rest.map (hive :: ·))
    else some (requests, .error .badImage)

/-- The entries that the table of a pack says there are. -/
def packEntries (data : List UInt8) : List PackEntry :=
  let hdr := PackHeader.decode data
  (List.range hdr.hiveCount.toNat).map fun i =>
    .decode (data.drop (hdr.tableOff.toNat + sizeofPackEntry * i))

/-- `hivefs_pack_load_into`: the hives, in the order of the table. -/
def packLoadInto (env : HiveEnv) (requests : Nat) (data : List UInt8) :
    Option (Nat × Except ApiErr (List Hive)) :=
  let hdr := PackHeader.decode data
  if sizeofPackHeader ≤ data.length ∧ data.take 8 = hivefsPackMagic ∧
      packHeaderOk hdr (UInt32.ofNat data.length) data then
    loadEntries env hdr data [] (packEntries data) requests
  else some (requests, .error .badImage)

end Otsos
