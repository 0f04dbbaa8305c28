import Otsos.Hive.Load

/-! The format of a hive image, apart from the program that writes it: a header, two tables, the
names and the data. An image whose entries stay within it is accepted and read back as it was
meant. -/
namespace Otsos
open Bytes UInt32
open List

def NodeEntry.encode (e : NodeEntry) : List UInt8 :=
  words [e.parent, e.nameOff, e.flags, e.firstChild, e.childCount, e.firstValue, e.valueCount]

def ValueEntry.encode (e : ValueEntry) : List UInt8 :=
  words [e.node, e.nameOff, e.type, e.flags, e.dataOff, e.size]

def HiveHeader.encode (h : HiveHeader) : List UInt8 :=
  words [h.version, h.headerSize, h.flags, h.nodeCount, h.valueCount, h.nodeOff, h.valueOff,
    h.stringOff, h.stringSize, h.dataOff, h.dataSize, h.totalSize, h.crc]

variable {count : UInt32}

theorem NodeEntry.length_encode (e : NodeEntry) : e.encode.length = sizeofNodeEntry := by
  simp [NodeEntry.encode, sizeofNodeEntry]

theorem ValueEntry.length_encode (e : ValueEntry) : e.encode.length = sizeofValueEntry := by
  simp [ValueEntry.encode, sizeofValueEntry]

theorem NodeEntry.decode_encode (e : NodeEntry) : NodeEntry.decode (e.encode ++ post) = e := by
  simp [NodeEntry.decode, NodeEntry.encode]

theorem ValueEntry.decode_encode (e : ValueEntry) : ValueEntry.decode (e.encode ++ post) = e := by
  simp [ValueEntry.decode, ValueEntry.encode]

theorem word_magic (size : magic.length = 8) (off : Nat) :
    word (magic ++ b) (off + 8) = word b off := by
  rw [Nat.add_comm, ← size]
  exact word_append_right magic b off

theorem HiveHeader.decode_encode (h : HiveHeader) :
    HiveHeader.decode (hivefsHiveMagic ++ (h.encode ++ post)) = h := by
  have magic : hivefsHiveMagic.length = 8 := rfl
  simp [HiveHeader.decode, HiveHeader.encode, word_magic magic]

theorem toNat_ofNat32 (small : n < 2 ^ 32) : (ofNat n).toNat = n :=
  toNat_ofNat_of_lt' small

theorem rangeOk_iff : rangeOk off len total = true ↔ off.toNat + len.toNat ≤ total.toNat := by
  rw [rangeOk, Bool.and_eq_true, decide_eq_true_eq, decide_eq_true_eq, UInt32.le_iff_toNat_le,
    UInt32.le_iff_toNat_le]
  constructor
  · rintro ⟨inside, fits⟩
    rw [UInt32.toNat_sub_of_le _ _ (UInt32.le_iff_toNat_le.mpr inside)] at fits
    omega
  · intro fits
    have inside : off.toNat ≤ total.toNat := by omega
    rw [UInt32.toNat_sub_of_le _ _ (UInt32.le_iff_toNat_le.mpr inside)]
    exact ⟨inside, by omega⟩

theorem mulSizeOk_eq (each_eq : each.toNat = k) (positive : 0 < k)
    (small : count.toNat * k < 2 ^ 32) : mulSizeOk count each = some (count * each) ∧
    (count * each).toNat = count.toNat * k := by
  have bound : ¬count > 0xFFFFFFFF / each := by
    rw [gt_iff_lt, UInt32.lt_iff_toNat_lt, UInt32.toNat_div, Nat.not_lt, each_eq, Nat.le_div_iff_mul_le positive]
    exact Nat.le_of_lt_succ small
  refine ⟨by rw [mulSizeOk, if_neg bound], ?_⟩
  rw [UInt32.toNat_mul, each_eq, Nat.mod_eq_of_lt small]

/-- A hive image: the tables, the names and the data. -/
structure Image where
  flags : UInt32
  nodes : List NodeEntry
  values : List ValueEntry
  (strings data : List UInt8)
deriving DecidableEq

namespace Image

def body (img : Image) : List UInt8 :=
  img.nodes.flatMap (·.encode) ++ (img.values.flatMap (·.encode) ++ (img.strings ++ img.data))

/-- The offsets of the values, the names and the data, and the size of the whole. -/
def valueOff (img : Image) : Nat := sizeofHiveHeader + sizeofNodeEntry * img.nodes.length
def stringOff (img : Image) : Nat := img.valueOff + sizeofValueEntry * img.values.length
def dataOff (img : Image) : Nat := img.stringOff + img.strings.length
def size (img : Image) : Nat := img.dataOff + img.data.length

def header (img : Image) : HiveHeader where
  version := hivefsFormatVersion
  headerSize := .ofNat sizeofHiveHeader
  flags := img.flags
  nodeCount := .ofNat img.nodes.length
  valueCount := .ofNat img.values.length
  nodeOff := .ofNat sizeofHiveHeader
  valueOff := .ofNat img.valueOff
  stringOff := .ofNat img.stringOff
  stringSize := .ofNat img.strings.length
  dataOff := .ofNat img.dataOff
  dataSize := .ofNat img.data.length
  totalSize := .ofNat img.size
  crc := crc32 img.body

def bytes (img : Image) : List UInt8 := hivefsHiveMagic ++ (img.header.encode ++ img.body)

/-- The entries refer to entries, names and data of the image. -/
structure Valid (img : Image) : Prop where
  size : img.size < 2 ^ 32
  root : ∃ e es, img.nodes = e :: es ∧ e.parent.toNat = hivefsNoIndex
  parent : ∀ i e, img.nodes[i]? = some e → 0 < i → e.parent.toNat < img.nodes.length
  nodeName : ∀ e ∈ img.nodes, hasString img.strings e.nameOff.toNat = true
  firstChild : ∀ e ∈ img.nodes, e.childCount ≠ 0 → e.firstChild.toNat < img.nodes.length
  firstValue : ∀ e ∈ img.nodes, e.valueCount ≠ 0 → e.firstValue.toNat < img.values.length
  valueNode : ∀ e ∈ img.values, e.node.toNat < img.nodes.length
  valueName : ∀ e ∈ img.values, hasString img.strings e.nameOff.toNat = true
  type : ∀ e ∈ img.values, hivefsTypeString ≤ e.type ∧ e.type ≤ hivefsTypeMultiString
  data : ∀ e ∈ img.values, e.dataOff.toNat + e.size.toNat ≤ img.data.length

def hiveNodes (img : Image) : List HiveNode :=
  img.nodes.map fun e => ⟨nameCopy (img.strings.drop e.nameOff.toNat), e.parent.toNat, e.flags,
    false⟩

def hiveValues (img : Image) : List HiveValue :=
  img.values.map fun e => ⟨nameCopy (img.strings.drop e.nameOff.toNat), e.node.toNat, e.type,
    e.flags, slice img.data e.dataOff.toNat e.size.toNat, false⟩

variable {img : Image}

theorem length_header (h : HiveHeader) :
    (hivefsHiveMagic ++ h.encode).length = sizeofHiveHeader := by
  simp [HiveHeader.encode, sizeofHiveHeader, hivefsHiveMagic]

section
variable (img)

theorem bytes_eq : img.bytes = (hivefsHiveMagic ++ img.header.encode) ++ img.body := by
  rw [bytes, append_assoc]

theorem length_nodes : (img.nodes.flatMap (·.encode)).length = sizeofNodeEntry * img.nodes.length :=
  length_flatMap _ img.nodes fun e _ => e.length_encode

theorem length_values :
    (img.values.flatMap (·.encode)).length = sizeofValueEntry * img.values.length :=
  length_flatMap _ img.values fun e _ => e.length_encode

theorem length_bytes : img.bytes.length = img.size := by
  rw [bytes_eq, length_append, length_header, body]
  simp only [length_append, length_nodes, length_values, size, dataOff, stringOff, valueOff]
  omega

theorem drop_nodes : img.bytes.drop sizeofHiveHeader = img.body := by
  rw [bytes_eq, ← length_header img.header, drop_left]

theorem drop_values :
    img.bytes.drop img.valueOff = img.values.flatMap (·.encode) ++ (img.strings ++ img.data) := by
  rw [valueOff, ← drop_drop, drop_nodes, body, ← length_nodes, drop_left]

theorem drop_strings : img.bytes.drop img.stringOff = img.strings ++ img.data := by
  rw [stringOff, ← drop_drop, drop_values, ← length_values, drop_left]

theorem drop_data : img.bytes.drop img.dataOff = img.data := by
  rw [dataOff, ← drop_drop, drop_strings, drop_left]

theorem decode_header : HiveHeader.decode img.bytes = img.header :=
  HiveHeader.decode_encode img.header

end

theorem toNat_header (valid : img.Valid) :
    img.header.nodeCount.toNat = img.nodes.length ∧
    img.header.valueCount.toNat = img.values.length ∧ img.header.nodeOff.toNat = sizeofHiveHeader ∧
    img.header.valueOff.toNat = img.valueOff ∧ img.header.stringOff.toNat = img.stringOff ∧
    img.header.stringSize.toNat = img.strings.length ∧ img.header.dataOff.toNat = img.dataOff ∧
    img.header.dataSize.toNat = img.data.length ∧ img.header.totalSize.toNat = img.size := by
  have small := valid.size
  simp only [size, dataOff, stringOff, valueOff, sizeofHiveHeader, sizeofNodeEntry,
    sizeofValueEntry] at small
  simp only [header, size, dataOff, stringOff, valueOff, sizeofHiveHeader, sizeofNodeEntry,
    sizeofValueEntry]
  refine ⟨?_, ?_, ?_, ?_, ?_, ?_, ?_, ?_, ?_⟩ <;> exact toNat_ofNat32 (by omega)

theorem headerOk_header (valid : img.Valid) :
    headerOk img.header (ofNat img.bytes.length) img.bytes = true := by
  obtain ⟨nodeCount, valueCount, nodeOff, valueOff, stringOff, stringSize, dataOff, dataSize,
    totalSize⟩ :=
    toNat_header valid
  have small := valid.size
  have total : ofNat img.bytes.length = img.header.totalSize := by rw [length_bytes]; rfl
  have sum : img.size = img.dataOff + img.data.length ∧ img.dataOff = img.stringOff + img.strings.length ∧
      img.stringOff = img.valueOff + 24 * img.values.length ∧ img.valueOff = 60 + 28 * img.nodes.length :=
    ⟨rfl, rfl, rfl, rfl⟩
  obtain ⟨e, _, nonempty, _⟩ := valid.root
  have some_ : 0 < img.nodes.length := by rw [nonempty]; exact Nat.succ_pos _
  obtain ⟨nodeBytes, nodeProduct⟩ : mulSizeOk img.header.nodeCount 28 = some (img.header.nodeCount * 28) ∧
      (img.header.nodeCount * 28).toNat = img.header.nodeCount.toNat * 28 :=
    mulSizeOk_eq rfl (by decide) (by rw [nodeCount]; omega)
  obtain ⟨valueBytes, valueProduct⟩ : mulSizeOk img.header.valueCount 24 = some (img.header.valueCount * 24) ∧
      (img.header.valueCount * 24).toNat = img.header.valueCount.toNat * 24 :=
    mulSizeOk_eq rfl (by decide) (by rw [valueCount]; omega)
  have sixty : sizeofHiveHeader = 60 := rfl
  simp only [headerOk, nodeBytes, valueBytes, total, Bool.and_eq_true, beq_iff_eq, bne_iff_ne,
    rangeOk_iff, ← UInt32.toNat_inj, ne_eq, UInt32.toNat_add, nodeCount, valueProduct]
  refine ⟨⟨⟨⟨rfl, rfl⟩, trivial⟩, ?_⟩, ⟨⟨⟨⟨⟨⟨⟨⟨⟨rfl, ?_⟩, ?_⟩, ?_⟩, ?_⟩, ?_⟩, ?_⟩, ?_⟩, ?_⟩, rfl⟩⟩
  · exact Nat.pos_iff_ne_zero.mp some_
  all_goals omega

def raw (img : Image) : RawHive := ⟨img.bytes, img.header⟩

section
variable (valid : img.Valid)
include valid

theorem validateHeader_bytes : validateHeader img.bytes = some img.raw := by
  have magic : img.bytes.take 8 = hivefsHiveMagic := take_left' rfl
  have long : sizeofHiveHeader ≤ img.bytes.length := by
    rw [length_bytes, size, dataOff, stringOff, valueOff]
    omega
  simp only [validateHeader, decode_header, magic, long, headerOk_header valid, true_and, if_true,
    raw]

theorem raw_nodes : img.raw.nodes = img.nodes := by
  obtain ⟨nodeCount, _, nodeOff, _⟩ := toNat_header valid
  refine ext_getElem (by simp [RawHive.nodes, raw, nodeCount]) fun i _ high => ?_
  obtain ⟨_, found⟩ := drop_flatMap (·.encode) img.nodes (fun e _ => e.length_encode)
    (img.values.flatMap (·.encode) ++ (img.strings ++ img.data)) high
  simp only [RawHive.nodes, getElem_map, getElem_range, RawHive.node, raw, nodeOff]
  rw [← drop_drop, drop_nodes, body, found, NodeEntry.decode_encode]

theorem raw_values : img.raw.values = img.values := by
  obtain ⟨_, valueCount, _, valueOff, _⟩ := toNat_header valid
  refine ext_getElem (by simp [RawHive.values, raw, valueCount]) fun i _ high => ?_
  obtain ⟨_, found⟩ := drop_flatMap (·.encode) img.values (fun e _ => e.length_encode)
    (img.strings ++ img.data) high
  simp only [RawHive.values, getElem_map, getElem_range, RawHive.value, raw, valueOff]
  rw [← drop_drop, drop_values, found, ValueEntry.decode_encode]

theorem raw_strings : img.raw.strings = img.strings := by
  obtain ⟨_, _, _, _, stringOff, stringSize, _⟩ := toNat_header valid
  simp only [RawHive.strings, raw, stringOff, stringSize, slice]
  rw [drop_strings, take_left]

theorem raw_data : img.raw.data = img.data := by
  obtain ⟨_, _, _, _, _, _, dataOff, _⟩ := toNat_header valid
  simp only [RawHive.data, raw, dataOff]
  rw [drop_data]

end

theorem hasString_lt (has : hasString b i = true) : i < b.length := by
  by_contra beyond
  rw [hasString, drop_eq_nil_of_le (by omega)] at has
  cases has

theorem raw_stringOk (valid : img.Valid) (has : hasString img.strings off.toNat = true) :
    img.raw.stringOk off = true := by
  obtain ⟨_, _, _, _, _, stringSize, _⟩ := toNat_header valid
  have inside := hasString_lt has
  rw [RawHive.stringOk, raw_strings valid, has, Bool.and_true, decide_eq_true_eq]
  exact Nat.lt_of_lt_of_eq inside stringSize.symm

theorem validateHive_bytes (valid : img.Valid) : validateHive img.bytes = some img.raw := by
  obtain ⟨nodeCount, valueCount, _, _, _, _, _, dataSize, _⟩ := toNat_header valid
  have nodes : ∀ p ∈ img.raw.nodes.zipIdx, img.raw.nodeOk p.2 p.1 = true := by
    rintro ⟨e, i⟩ member
    rw [raw_nodes valid, mem_zipIdx_iff_getElem?] at member
    have here : e ∈ img.nodes := mem_of_getElem? member
    simp only [RawHive.nodeOk, Bool.and_eq_true, Bool.or_eq_true, beq_iff_eq, decide_eq_true_eq]
    refine ⟨⟨⟨?_, raw_stringOk valid (valid.nodeName e here)⟩, ?_⟩, ?_⟩
    · by_cases root : i = 0
      · subst root
        obtain ⟨_, _, nonempty, parent⟩ := valid.root
        rw [nonempty] at member
        cases member
        simp [parent]
      · rw [if_neg root, decide_eq_true_eq]
        exact Nat.lt_of_lt_of_eq (valid.parent i e member (Nat.pos_of_ne_zero root)) nodeCount.symm
    · exact or_iff_not_imp_left.mpr fun some_ =>
        Nat.lt_of_lt_of_eq (valid.firstChild e here some_) nodeCount.symm
    · exact or_iff_not_imp_left.mpr fun some_ =>
        Nat.lt_of_lt_of_eq (valid.firstValue e here some_) valueCount.symm
  have values : ∀ e ∈ img.raw.values, img.raw.valueOk e = true := by
    intro e here
    rw [raw_values valid] at here
    simp only [RawHive.valueOk, Bool.and_eq_true, decide_eq_true_eq, rangeOk_iff]
    refine ⟨⟨⟨⟨?_, raw_stringOk valid (valid.valueName e here)⟩, (valid.type e here).1⟩, (valid.type e here).2⟩, ?_⟩
    · exact UInt32.lt_iff_toNat_lt.mpr (Nat.lt_of_lt_of_eq (valid.valueNode e here) nodeCount.symm)
    · exact Nat.le_trans (valid.data e here) (Nat.le_of_eq dataSize.symm)
  rw [validateHive, validateHeader_bytes valid, Option.filter_some, if_pos]
  rw [Bool.and_eq_true, all_eq_true, all_eq_true]
  exact ⟨nodes, values⟩

theorem raw_importNodes (valid : img.Valid) :
    img.raw.nodes.map img.raw.importNode = img.hiveNodes := by
  rw [raw_nodes valid]
  refine map_congr_left fun e here => ?_
  rw [RawHive.importNode, RawHive.stringAt, if_pos (raw_stringOk valid (valid.nodeName e here)),
    raw_strings valid]

theorem raw_importValues (valid : img.Valid) :
    img.raw.values.map img.raw.importValue = img.hiveValues := by
  rw [raw_values valid]
  refine map_congr_left fun e here => ?_
  rw [RawHive.importValue, RawHive.stringAt, if_pos (raw_stringOk valid (valid.valueName e here)),
    raw_strings valid, raw_data valid]

end Image

end Otsos
