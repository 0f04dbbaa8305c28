import Otsos.Hive.Image

/-! The format of a pack: a header, a table of hives, and the images, each at a multiple of eight
bytes behind the table. A pack of valid images is accepted and gives these hives. -/
namespace Otsos
open Bytes
open List Option

/-- `(v + 7) & ~7` -/
def alignUp8 (n : Nat) : Nat := (n + 7) / 8 * 8

theorem le_alignUp8 (n : Nat) : n ≤ alignUp8 n := by
  rw [alignUp8]
  omega

def PackEntry.encode (e : PackEntry) : List UInt8 :=
  e.name ++ words [e.offset, e.size, e.flags, e.crc]

def PackHeader.encode (h : PackHeader) : List UInt8 :=
  words [h.version, h.headerSize, h.hiveCount, h.tableOff, h.dataOff, h.totalSize, h.reserved,
    h.crc]

/-- A hive of a pack. -/
structure PackItem where
  name : HiveName
  flags : UInt32
  image : Image
deriving DecidableEq

/-- The hive that the item stands for. -/
def PackItem.tree (item : PackItem) : HiveTree :=
  ⟨item.name, item.flags, item.image.hiveNodes, item.image.hiveValues, false⟩

/-- The name with NULs up to its full size. -/
def fixedName (name : HiveName) : List UInt8 :=
  name.bytes ++ replicate (hivefsNameSize - name.bytes.length) 0

theorem length_fixedName (name : HiveName) : (fixedName name).length = hivefsNameSize := by
  have short := name.short
  rw [fixedName, length_append, length_replicate]
  omega

theorem fixedNameOk_fixedName (name : HiveName) : fixedNameOk (fixedName name) = true := by
  have short := name.short
  rw [fixedNameOk, fixedName, contains_iff_mem, mem_append]
  exact .inr (mem_replicate.mpr ⟨by omega, rfl⟩)

theorem takeWhile_plain {l : List UInt8} (plain : 0 ∉ l) : l.takeWhile (· != 0) = l := by
  rw [takeWhile_eq_self_iff]
  intro c member
  rw [bne_iff_ne]
  rintro rfl
  exact plain member

theorem HiveName.ext {a : HiveName} (same : a.bytes = b.bytes) : a = b := by
  cases a
  cases b
  cases same
  rfl

theorem nameCopy_append (name : HiveName) (post : List UInt8) :
    nameCopy (name.bytes ++ 0 :: post) = name := by
  apply HiveName.ext
  have short := name.short
  have stop : (name.bytes ++ 0 :: post).takeWhile (· != 0) = name.bytes := by
    rw [takeWhile_append, takeWhile_plain name.plain]
    simp
  show ((name.bytes ++ 0 :: post).takeWhile (· != 0)).take (hivefsNameSize - 1) = name.bytes
  rw [stop, take_of_length_le (by omega)]

theorem nameCopy_fixedName (name : HiveName) : nameCopy (fixedName name) = name := by
  have short := name.short
  obtain ⟨n, rest⟩ : ∃ n, hivefsNameSize - name.bytes.length = n + 1 :=
    ⟨_, (Nat.succ_pred_eq_of_pos (by omega)).symm⟩
  rw [fixedName, rest, replicate_succ]
  exact nameCopy_append name _

theorem PackEntry.decode_encode (size : e.name.length = hivefsNameSize) :
    PackEntry.decode (e.encode ++ post) = e := by
  have skip : ∀ off, word (e.encode ++ post) (off + 32) =
      word (words [e.offset, e.size, e.flags, e.crc] ++ post) off := by
    intro off
    rw [PackEntry.encode, append_assoc, Nat.add_comm, ← show e.name.length = 32 from size]
    exact word_append_right e.name _ off
  have name : (e.encode ++ post).take hivefsNameSize = e.name := by
    rw [PackEntry.encode, append_assoc, ← size, take_left]
  have offset : word (e.encode ++ post) 32 = e.offset := by simpa using skip 0
  have size : word (e.encode ++ post) 36 = e.size := by simpa using skip 4
  have flags : word (e.encode ++ post) 40 = e.flags := by simpa using skip 8
  have crc : word (e.encode ++ post) 44 = e.crc := by simpa using skip 12
  rw [PackEntry.decode, name, offset, size, flags, crc]

theorem PackHeader.decode_encode (h : PackHeader) :
    PackHeader.decode (hivefsPackMagic ++ (h.encode ++ post)) = h := by
  have magic : hivefsPackMagic.length = 8 := rfl
  simp [PackHeader.decode, PackHeader.encode, word_magic magic]

namespace Pack

/-- The images from a position on, with the padding before each. -/
def body : Nat → List PackItem → List UInt8
  | _, [] => []
  | pos, item :: items =>
    replicate (alignUp8 pos - pos) 0 ++ (item.image.bytes ++ body (alignUp8 pos + item.image.size) items)

/-- The positions of the images. -/
def offsets : Nat → List PackItem → List Nat
  | _, [] => []
  | pos, item :: items => alignUp8 pos :: offsets (alignUp8 pos + item.image.size) items

def dataOff (items : List PackItem) : Nat := sizeofPackHeader + sizeofPackEntry * items.length

def size (items : List PackItem) : Nat := dataOff items + (body 0 items).length

def entry (base : Nat) (item : PackItem) (off : Nat) : PackEntry where
  name := fixedName item.name
  offset := .ofNat (base + off)
  size := .ofNat item.image.size
  flags := item.flags
  crc := crc32 item.image.bytes

def entries (items : List PackItem) : List PackEntry :=
  zipWith (entry (dataOff items)) items (offsets 0 items)

def table (items : List PackItem) : List UInt8 := (entries items).flatMap (·.encode)

def header (items : List PackItem) : PackHeader where
  version := hivefsFormatVersion
  headerSize := .ofNat sizeofPackHeader
  hiveCount := .ofNat items.length
  tableOff := .ofNat sizeofPackHeader
  dataOff := .ofNat (dataOff items)
  totalSize := .ofNat (size items)
  reserved := 0
  crc := crc32 (table items ++ body 0 items)

def bytes (items : List PackItem) : List UInt8 :=
  hivefsPackMagic ++ ((header items).encode ++ (table items ++ body 0 items))

structure Valid (items : List PackItem) : Prop where
  size : size items < 2 ^ 32
  some_ : items ≠ []
  few : items.length ≤ hivefsMaxHives
  images : ∀ item ∈ items, item.image.Valid
  names : (items.map (·.name)).Nodup

theorem length_offsets (pos : Nat) (items : List PackItem) :
    (offsets pos items).length = items.length := by
  induction items generalizing pos with
  | nil => rfl
  | cons item items ih => simp [offsets, ih]

theorem length_entries (items : List PackItem) : (entries items).length = items.length := by
  rw [entries, length_zipWith, length_offsets, Nat.min_self]

theorem length_encode (base : Nat) (item : PackItem) (off : Nat) :
    (entry base item off).encode.length = sizeofPackEntry := by
  simp [PackEntry.encode, entry, length_fixedName, hivefsNameSize, sizeofPackEntry]

theorem encode_size (member : e ∈ entries items) : e.encode.length = sizeofPackEntry := by
  obtain ⟨i, _, rfl⟩ := mem_iff_getElem.mp member
  simp only [entries, getElem_zipWith]
  exact length_encode _ _ _

theorem drop_body (pos : Nat) (items : List PackItem) (i : Nat) (inside : i < items.length) :
    ∃ off rest, (offsets pos items)[i]? = some off ∧ pos ≤ off ∧
      (body pos items).drop (off - pos) = items[i].image.bytes ++ rest ∧
      off - pos + items[i].image.size ≤ (body pos items).length := by
  induction items generalizing pos i with
  | nil => simp at inside
  | cons item items ih =>
    have aligned := le_alignUp8 pos
    have padding : (replicate (alignUp8 pos - pos) (0 : UInt8)).length = alignUp8 pos - pos :=
      length_replicate
    cases i with
    | zero =>
      refine ⟨alignUp8 pos, body (alignUp8 pos + item.image.size) items, rfl, aligned, ?_, ?_⟩
      · rw [body, drop_left' padding]
        rfl
      · rw [body, length_append, padding, length_append, Image.length_bytes]
        simp only [getElem_cons_zero]
        omega
    | succ i =>
      obtain ⟨off, rest, found, _, lies, _⟩ :=
        ih (alignUp8 pos + item.image.size) i (by simpa using inside)
      have length_eq : (body pos (item :: items)).length = alignUp8 pos - pos +
          (item.image.size + (body (alignUp8 pos + item.image.size) items).length) := by
        rw [body, length_append, padding, length_append, Image.length_bytes]
      refine ⟨off, rest, by simpa [offsets] using found, by omega, ?_, ?_⟩
      · have split : off - pos = (alignUp8 pos - pos) +
            (item.image.size + (off - (alignUp8 pos + item.image.size))) := by omega
        rw [split, ← drop_drop, ← drop_drop, body, drop_left' padding, drop_left' (Image.length_bytes _)]
        exact lies
      · simp only [getElem_cons_succ]
        omega

theorem getElem_entries (inside : i < items.length) (found : (offsets 0 items)[i]? = some off) :
    (entries items)[i]? = some (entry (dataOff items) items[i] off) := by
  rw [entries, getElem?_zipWith, found, getElem?_eq_getElem inside]

theorem bytes_eq (items : List PackItem) :
    bytes items = (hivefsPackMagic ++ (header items).encode) ++ (table items ++ body 0 items) := by
  rw [bytes, append_assoc]

theorem length_header (h : PackHeader) :
    (hivefsPackMagic ++ h.encode).length = sizeofPackHeader := by
  simp [PackHeader.encode, sizeofPackHeader, hivefsPackMagic]

section
variable (items)

theorem length_table : (table items).length = sizeofPackEntry * items.length := by
  rw [table, length_flatMap _ _ fun e member => encode_size member, length_entries]

theorem length_bytes : (bytes items).length = size items := by
  rw [bytes_eq, length_append, length_header, length_append, length_table, size, dataOff]
  omega

theorem drop_table : (bytes items).drop sizeofPackHeader = table items ++ body 0 items := by
  rw [bytes_eq, drop_left' (length_header _)]

theorem drop_data : (bytes items).drop (dataOff items) = body 0 items := by
  rw [dataOff, ← drop_drop, drop_table, drop_left' (length_table items)]

theorem decode_header : PackHeader.decode (bytes items) = header items :=
  PackHeader.decode_encode (header items)

end

theorem toNat_header (valid : Valid items) :
    (header items).hiveCount.toNat = items.length ∧
    (header items).tableOff.toNat = sizeofPackHeader ∧
    (header items).dataOff.toNat = dataOff items ∧ (header items).totalSize.toNat = size items := by
  have small := valid.size
  simp only [size, dataOff, sizeofPackHeader, sizeofPackEntry] at small
  simp only [header, size, dataOff, sizeofPackHeader, sizeofPackEntry]
  refine ⟨?_, ?_, ?_, ?_⟩ <;> exact toNat_ofNat32 (by omega)

theorem packHeaderOk_header (valid : Valid items) :
    packHeaderOk (header items) (UInt32.ofNat (bytes items).length) (bytes items) = true := by
  obtain ⟨hiveCount, tableOff, dataOff_, totalSize⟩ := toNat_header valid
  have small := valid.size
  have sum : size items = dataOff items + (body 0 items).length ∧ dataOff items = 40 + 48 * items.length :=
    ⟨rfl, rfl⟩
  have positive : 0 < items.length := length_pos_of_ne_nil valid.some_
  have forty : sizeofPackHeader = 40 := rfl
  obtain ⟨tableBytes, product⟩ : mulSizeOk (header items).hiveCount 48 = some ((header items).hiveCount * 48) ∧
      ((header items).hiveCount * 48).toNat = (header items).hiveCount.toNat * 48 :=
    mulSizeOk_eq rfl (by decide) (by rw [hiveCount]; omega)
  have crc : slice (bytes items) sizeofPackHeader
      ((header items).totalSize - (header items).tableOff).toNat = table items ++ body 0 items := by
    have inside : (header items).tableOff ≤ (header items).totalSize :=
      UInt32.le_iff_toNat_le.mpr (by omega)
    rw [slice, drop_table, UInt32.toNat_sub_of_le _ _ inside, take_of_length_le]
    rw [length_append, length_table, totalSize, tableOff, size, dataOff]
    omega
  have total : UInt32.ofNat (bytes items).length = (header items).totalSize := by
    rw [length_bytes]; rfl
  have few := valid.few
  simp only [packHeaderOk, tableBytes, total, crc, Bool.and_eq_true, beq_iff_eq, bne_iff_ne,
    decide_eq_true_eq,
    rangeOk_iff, ← UInt32.toNat_inj, UInt32.le_iff_toNat_le, ne_eq, UInt32.toNat_add, hiveCount,
    tableOff, dataOff_, totalSize, product]
  refine ⟨⟨⟨⟨⟨⟨rfl, rfl⟩, ?_⟩, few⟩, Nat.le_refl _⟩, rfl⟩, ⟨⟨⟨?_, ?_⟩, ?_⟩, rfl⟩⟩
  · exact Nat.pos_iff_ne_zero.mp positive
  all_goals omega

theorem packEntries_bytes (valid : Valid items) : packEntries (bytes items) = entries items := by
  obtain ⟨hiveCount, tableOff, _⟩ := toNat_header valid
  refine ext_getElem (by simp [packEntries, decode_header, hiveCount, length_entries])
    fun i _ high => ?_
  obtain ⟨_, found⟩ := drop_flatMap (·.encode) (entries items) (fun e member => encode_size member)
    (body 0 items) high
  simp only [packEntries, getElem_map, getElem_range, decode_header, tableOff]
  rw [← drop_drop, drop_table, table, found, PackEntry.decode_encode]
  simp only [entries, getElem_zipWith]
  exact length_fixedName _

theorem entry_spec (valid : Valid items) (inside : i < items.length) :
    ∃ e, (entries items)[i]? = some e ∧ e.name = fixedName items[i].name ∧ e.flags = items[i].flags ∧
      e.crc = crc32 items[i].image.bytes ∧ dataOff items ≤ e.offset.toNat ∧
      e.offset.toNat + e.size.toNat ≤ size items ∧ e.image (bytes items) = items[i].image.bytes := by
  obtain ⟨_, _, found, _, lies, fits⟩ := drop_body 0 items i inside
  rw [Nat.sub_zero] at lies fits
  have small := valid.size
  have sum : size items = dataOff items + (body 0 items).length := rfl
  refine ⟨_, getElem_entries inside found, rfl, rfl, rfl, ?_, ?_, ?_⟩
  · rw [entry, toNat_ofNat32 (by omega)]
    omega
  · simp only [entry]
    rw [toNat_ofNat32 (by omega), toNat_ofNat32 (by omega)]
    omega
  · simp only [PackEntry.image, entry, slice]
    rw [toNat_ofNat32 (by omega), toNat_ofNat32 (by omega), ← drop_drop, drop_data, lies,
      ← Image.length_bytes, take_left]

/-- Memory is there from now on. -/
def Plenty (env : HiveEnv) (requests : Nat) : Prop := ∀ n, requests ≤ n → env.memory n = true

theorem Plenty.mono (plenty : Plenty env requests) (order : requests ≤ later) :
    Plenty env later := fun n after => plenty n (Nat.le_trans order after)

theorem growCap_ok (fuel cap : Nat) (enough : needed ≤ cap * 2 ^ fuel) (small : needed ≤ 2 ^ 31) :
    ∃ c, growCap needed (fuel + 1) cap = some (.ok c) := by
  induction fuel generalizing cap with
  | zero => exact ⟨cap, by rw [growCap, if_neg (by omega)]⟩
  | succ fuel ih =>
    rw [growCap]
    split
    · have doubled : u32 (cap * 2) = cap * 2 := Nat.mod_eq_of_lt (by omega)
      rw [if_neg (by omega), doubled]
      exact ih _ (by rw [Nat.mul_assoc, ← Nat.pow_succ']; exact enough)
    · exact ⟨cap, rfl⟩

theorem reserve_ok (needed : Nat) (plenty : Plenty env requests) (some_ : 0 < needed)
    (small : needed ≤ 2 ^ 31) :
    ∃ cap, reserve env requests 0 needed = some (requests + 1, .ok cap) := by
  obtain ⟨cap, grown⟩ := growCap_ok 32 8 (by omega) small
  refine ⟨cap, ?_⟩
  rw [reserve, if_neg (by omega), if_pos rfl, grown]
  simp [plenty requests (Nat.le_refl _)]

theorem importValues_ok (raw : RawHive) (es : List ValueEntry) (plenty : Plenty env requests) :
    ∃ later, raw.importValues env es requests = (later, .ok (es.map raw.importValue)) ∧
    requests ≤ later := by
  induction es generalizing requests with
  | nil => exact ⟨requests, rfl, Nat.le_refl _⟩
  | cons e es ih =>
    have order : requests ≤ if e.size = 0 then requests else requests + 1 := by split <;> omega
    obtain ⟨later, imported, after⟩ := ih (plenty.mono order)
    refine ⟨later, ?_, Nat.le_trans order after⟩
    rw [RawHive.importValues, if_neg (by simp [plenty requests (Nat.le_refl _)])]
    simp only [imported]
    rfl

theorem importHive_ok {img : Image} (valid : img.Valid) (plenty : Plenty env requests)
    (name : HiveName) (flags : UInt32) :
    ∃ later hive, img.raw.importHive env requests name flags = some (later, .ok hive) ∧
      requests ≤ later ∧ hive.toHiveTree = ⟨name, flags, img.hiveNodes, img.hiveValues, false⟩ := by
  obtain ⟨nodeCount, valueCount, _⟩ := Image.toNat_header valid
  have small := valid.size
  simp only [Image.size, Image.dataOff, Image.stringOff, Image.valueOff, sizeofHiveHeader,
    sizeofNodeEntry, sizeofValueEntry] at small
  have nodeBound : u32 (img.raw.header.nodeCount.toNat + 8) = img.nodes.length + 8 := by
    rw [u32, show img.raw.header.nodeCount.toNat = _ from nodeCount, Nat.mod_eq_of_lt (by omega)]
  have valueBound : u32 (img.raw.header.valueCount.toNat + 8) = img.values.length + 8 := by
    rw [u32, show img.raw.header.valueCount.toNat = _ from valueCount, Nat.mod_eq_of_lt (by omega)]
  obtain ⟨nodeCap, nodesReserved⟩ := reserve_ok (img.nodes.length + 8) plenty (by omega) (by omega)
  obtain ⟨valueCap, valuesReserved⟩ := reserve_ok (img.values.length + 8)
    (plenty.mono (Nat.le_succ _)) (by omega) (by omega)
  obtain ⟨later, imported, _⟩ := importValues_ok img.raw img.raw.values
    (plenty.mono (by omega : requests ≤ requests + 1 + 1))
  refine ⟨later,
    ⟨⟨name, flags, img.raw.nodes.map img.raw.importNode, img.raw.values.map img.raw.importValue,
      false⟩, nodeCap, valueCap⟩, ?_, by omega, ?_⟩
  · simp only [RawHive.importHive, nodeBound, valueBound, nodesReserved, valuesReserved, imported,
      bind_eq_bind, bind_some]
  · simp only [Image.raw_importNodes valid, Image.raw_importValues valid]

theorem loadEntries_ok (done rest : List PackItem) (valid : Valid (done ++ rest))
    (plenty : Plenty env requests) :
        ∃ later hives, loadEntries env (header (done ++ rest)) (bytes (done ++ rest))
        ((entries (done ++ rest)).take done.length) ((entries (done ++ rest)).drop done.length) requests =
        some (later, .ok hives) ∧ requests ≤ later ∧ hives.map (·.toHiveTree) = rest.map (·.tree) := by
  induction rest generalizing done requests with
  | nil =>
    refine ⟨requests, [], ?_, Nat.le_refl _, rfl⟩
    rw [append_nil, drop_eq_nil_of_le (by rw [length_entries])]
    rfl
  | cons item rest ih =>
    have split : done ++ item :: rest = (done ++ [item]) ++ rest := by simp
    have inside : done.length < (done ++ item :: rest).length := by simp
    have here : (done ++ item :: rest)[done.length] = item := by simp
    obtain ⟨e, found, name, flags, crc, low, high, image⟩ := entry_spec valid inside
    rw [here] at name flags crc image
    obtain ⟨_, _, dataOff_, totalSize⟩ := toNat_header valid
    have members : item ∈ done ++ item :: rest := by simp
    have itemValid := valid.images item members
    have next : (entries (done ++ item :: rest)).drop done.length =
        e :: (entries (done ++ item :: rest)).drop (done ++ [item]).length := by
      rw [drop_eq_getElem?_toList_append, found]
      simp
    have sofar : (entries (done ++ item :: rest)).take done.length ++ [e] =
        (entries (done ++ item :: rest)).take (done ++ [item]).length := by
      rw [length_append, length_singleton, take_add_one, found]
      rfl
    have accepted : entryOk (header (done ++ item :: rest)) (bytes (done ++ item :: rest))
        ((entries (done ++ item :: rest)).take done.length) e = true := by
      simp only [entryOk, Bool.and_eq_true, decide_eq_true_eq, beq_iff_eq, rangeOk_iff, UInt32.le_iff_toNat_le,
        dataOff_, totalSize, image, crc, name, fixedNameOk_fixedName, List.all_eq_true, bne_iff_ne]
      refine ⟨⟨⟨⟨trivial, low⟩, high⟩, trivial⟩, fun p member => ?_⟩
      obtain ⟨j, within, rfl⟩ := List.mem_iff_getElem.mp member
      have before : j < done.length := by
        rw [length_take] at within
        omega
      obtain ⟨e', found', name', _⟩ := entry_spec valid (i := j) (by simp; omega)
      have same : e' = ((entries (done ++ item :: rest)).take done.length)[j] := by
        rw [getElem_take]
        exact (getElem_eq_iff _).mpr found' |>.symm
      rw [← same, name', nameCopy_fixedName, nameCopy_fixedName]
      intro clash
      have distinct := valid.names
      rw [map_append, nodup_append] at distinct
      refine distinct.2.2 _ (mem_map_of_mem (getElem_mem before)) _
        (mem_map_of_mem (mem_cons_self)) ?_
      rw [← clash, getElem_append_left before]
    obtain ⟨_, hive, imported, order, tree⟩ := importHive_ok itemValid plenty item.name item.flags
    rw [split] at valid
    obtain ⟨later, hives, loaded, after, trees⟩ := ih _ valid (plenty.mono order)
    rw [← split] at loaded
    refine ⟨later, hive :: hives, ?_, Nat.le_trans order after, ?_⟩
    · rw [next, loadEntries, if_pos accepted, image, Image.validateHive_bytes itemValid, name,
        nameCopy_fixedName, flags]
      simp only [imported, bind_eq_bind, bind_some, sofar, loaded]
      rfl
    · rw [map_cons, map_cons, trees, tree]
      rfl

theorem packLoadInto_bytes (valid : Valid items) (plenty : Plenty env requests) :
    ∃ later hives, packLoadInto env requests (bytes items) = some (later, .ok hives) ∧
      requests ≤ later ∧ hives.map (·.toHiveTree) = items.map (·.tree) := by
  have long : sizeofPackHeader ≤ (bytes items).length := by
    rw [length_bytes, size, dataOff]
    omega
  have magic : (bytes items).take 8 = hivefsPackMagic := take_left' rfl
  obtain ⟨later, hives, loaded, order, trees⟩ := loadEntries_ok [] items valid plenty
  refine ⟨later, hives, ?_, order, trees⟩
  rw [packLoadInto, decode_header, if_pos ⟨long, magic, packHeaderOk_header valid⟩,
    packEntries_bytes valid]
  exact loaded

end Pack

end Otsos
