import Otsos.Foundation.Related
import Otsos.Hive.Invariant

/-! What is written out is read back: the blob of a hive is a valid image, and it stands for the
hive without its deleted keys and values. -/
namespace Otsos
open Bytes Related
open List Option

/-- The name stands at the offset, with its NUL. -/
def NameAt (strings : List UInt8) (off : UInt32) (name : HiveName) : Prop :=
  ∃ pre post, strings = pre ++ (name.bytes ++ 0 :: post) ∧ off.toNat = pre.length

variable {data : List UInt8} {off : UInt32} {max : Nat}

theorem NameAt.extend (here : NameAt strings off name) (more : List UInt8) :
    NameAt (strings ++ more) off name := by
  obtain ⟨pre, post, rfl, start⟩ := here
  exact ⟨pre, post ++ more, by simp, start⟩

theorem NameAt.hasString (here : NameAt strings off name) : hasString strings off.toNat = true := by
  obtain ⟨pre, post, rfl, start⟩ := here
  rw [start]
  exact hasString_append pre name.bytes post

theorem NameAt.nameCopy (here : NameAt strings off name) :
    nameCopy (strings.drop off.toNat) = name := by
  obtain ⟨_, post, rfl, start⟩ := here
  rw [start, drop_left]
  exact nameCopy_append name post

theorem NameAt.last (small : strings.length < 2 ^ 32) (name : HiveName) :
    NameAt (strings ++ (name.bytes ++ [0])) (.ofNat strings.length) name :=
  ⟨strings, [], rfl, toNat_ofNat32 small⟩

/-- The entry is the one of the key. -/
structure NodeFor (h : HiveTree) (strings : List UInt8) (p : HiveNode × Nat) (e : NodeEntry) :
    Prop where
  parent : e.parent.toNat = h.newParent p
  flags : e.flags = p.1.flags
  name : NameAt strings e.nameOff p.1.name
  firstChild : e.childCount ≠ 0 → e.firstChild.toNat < h.keptNodes.length
  firstValue : e.valueCount ≠ 0 → e.firstValue.toNat < h.keptValues.length

/-- The entry is the one of the value. -/
structure ValueFor (h : HiveTree) (strings data : List UInt8) (v : HiveValue) (e : ValueEntry) :
    Prop where
  node : h.nodeMap v.node = some e.node.toNat
  name : NameAt strings e.nameOff v.name
  type : e.type = v.type
  flags : e.flags = v.flags
  inside : e.dataOff.toNat + e.size.toNat ≤ data.length
  data : slice data e.dataOff.toNat e.size.toNat = v.data

theorem NodeFor.extend (here : NodeFor h strings p e) (more : List UInt8) :
    NodeFor h (strings ++ more) p e :=
  ⟨here.parent, here.flags, here.name.extend more, here.firstChild, here.firstValue⟩

theorem ValueFor.extend (here : ValueFor h strings data v e) (names more : List UInt8) :
    ValueFor h (strings ++ names) (data ++ more) v e := by
  have inside := here.inside
  refine ⟨here.node, here.name.extend names, here.type, here.flags, by rw [length_append]; omega,
    ?_⟩
  rw [slice, drop_append_of_le_length (by omega),
    take_append_of_le_length (by rw [length_drop]; omega)]
  exact here.data

/-- The names and the data of some keys and values have been written, and their entries. -/
structure Filled (h : HiveTree) (keys : List (HiveNode × Nat)) (owned : List HiveValue)
    (img : Image) : Prop where
  flags : img.flags = h.flags
  nodes : List.Forall₂ (NodeFor h img.strings) keys img.nodes
  values : List.Forall₂ (ValueFor h img.strings img.data) owned img.values
  strings : img.strings.length = (keys.map fun p => p.1.name.bytes.length + 1).sum +
    (owned.map fun v => v.name.bytes.length + 1).sum
  data : img.data.length = (owned.map fun v => v.data.length).sum

/-- The sizes that `hivefs_build_hive_blob` has checked. -/
structure Fits (h : HiveTree) : Prop where
  nodes : h.keptNodes.length < 2 ^ 32
  values : h.keptValues.length < 2 ^ 32
  names : h.nameBytes < 2 ^ 32
  data : h.dataBytes < 2 ^ 32

theorem stringStoreAdd_eq (fits : strings.length + (name.bytes.length + 1) ≤ max) :
    stringStoreAdd strings max name = pure (strings ++ (name.bytes ++ [0])) := by
  rw [stringStoreAdd, if_neg (by omega)]

theorem stringStoreAdd_fits (ran : stringStoreAdd strings max name = pure result) :
    strings.length + (name.bytes.length + 1) ≤ max ∧ result = strings ++ (name.bytes ++ [0]) := by
  by_cases small : name.bytes.length + 1 > max - strings.length
  · rw [stringStoreAdd, if_pos small] at ran
    cases ran
  · rw [stringStoreAdd, if_neg small] at ran
    cases ran
    exact ⟨by omega, rfl⟩

theorem NodeFor.linkChild (small : child < h.keptNodes.length) (fits : Fits h) (p : HiveNode × Nat)
    (e : NodeEntry) (here : NodeFor h strings p e) : NodeFor h strings p (linkChild child e) := by
  refine ⟨here.parent, here.flags, here.name, fun _ => ?_, here.firstValue⟩
  have bound := fits.nodes
  simp only [Otsos.linkChild]
  split
  · rwa [toNat_ofNat32 (by omega)]
  · next some_ => exact here.firstChild some_

theorem NodeFor.linkValue (small : value < h.keptValues.length) (fits : Fits h)
    (p : HiveNode × Nat) (e : NodeEntry) (here : NodeFor h strings p e) :
    NodeFor h strings p (linkValue value e) := by
  refine ⟨here.parent, here.flags, here.name, here.firstChild, fun _ => ?_⟩
  have bound := fits.values
  simp only [Otsos.linkValue]
  split
  · rwa [toNat_ofNat32 (by omega)]
  · next some_ => exact here.firstValue some_

theorem newParent_lt (fits : Fits h) (p : HiveNode × Nat) : h.newParent p < 2 ^ 32 := by
  have bound := fits.nodes
  rw [HiveTree.newParent]
  split
  · decide
  · cases mapped : h.nodeMap p.1.parent with
    | none => decide
    | some k => exact Nat.lt_trans (HiveTree.nodeMap_lt mapped) bound

theorem sum_split {a : α} (split : l = done ++ a :: rest) (f : α → Nat) :
    (done.map f).sum + f a ≤ (l.map f).sum := by
  rw [split, map_append, sum_append, map_cons, sum_cons]
  omega

theorem sum_snoc (done : List α) (a : α) (f : α → Nat) :
    ((done ++ [a]).map f).sum = (done.map f).sum + f a := by
  simp

theorem addNode_filled (fits : Fits h) (room : h.nameBytes ≤ max)
    (split : h.keptNodes = done ++ p :: rest) (filled : Filled h done [] img) :
    ∃ img', addNode h max img p = pure img' ∧ Filled h (done ++ [p]) [] img' := by
  have used := filled.strings
  simp only [map_nil, sum_nil] at used
  have total := sum_split split fun p => p.1.name.bytes.length + 1
  have names := fits.names
  have stored : stringStoreAdd img.strings max p.1.name = pure (img.strings ++ (p.1.name.bytes ++ [0])) := by
    refine stringStoreAdd_eq ?_
    rw [HiveTree.nameBytes] at room
    omega
  have small : img.strings.length < 2 ^ 32 := by
    rw [HiveTree.nameBytes] at names
    omega
  have ran : addNode h max img p = pure
      ⟨img.flags, img.nodes ++ [⟨.ofNat (h.newParent p), .ofNat img.strings.length, p.1.flags,
        .ofNat hivefsNoIndex, 0, .ofNat hivefsNoIndex, 0⟩], img.values,
        img.strings ++ (p.1.name.bytes ++ [0]), img.data⟩ := by
    rw [addNode, stored, pure_bind]
  refine ⟨_, ran, filled.flags, ?_, ?_, ?_, ?_⟩
  · refine rel_append (filled.nodes.imp fun _ _ here => here.extend _) ?_
    refine .cons ⟨toNat_ofNat32 (newParent_lt fits p), rfl, NameAt.last small _, ?_, ?_⟩ .nil
    · exact fun some_ => absurd rfl some_
    · exact fun some_ => absurd rfl some_
  · rw [forall₂_nil_left_iff.mp filled.values]
    exact .nil
  · rw [length_append, used]
    simp
  · exact filled.data

theorem addChild_filled (wf : h.WF) (fits : Fits h) (member : p ∈ h.keptNodes)
    (filled : Filled h h.keptNodes [] img) : ∃ img', addChild h img p = pure img' ∧
    Filled h h.keptNodes [] img' := by
  obtain ⟨found, kept⟩ := Compact.mem_kept.mp member
  rw [wf.keeps_eq found, Bool.not_eq_true'] at kept
  by_cases root : p.2 = 0
  · exact ⟨img, by rw [addChild, if_pos root], filled⟩
  · obtain ⟨_, mapped⟩ := wf.nodeMap_of_live (wf.parent p.2 p.1 found kept root)
    obtain ⟨child, mapped'⟩ := Compact.rank_of_mem member
    refine ⟨_, by rw [addChild, if_neg root, mapped, show h.nodeMap p.2 = some child from mapped'], ?_⟩
    exact ⟨filled.flags, forall₂_modify filled.nodes (NodeFor.linkChild (Compact.rank_lt mapped') fits) _,
      filled.values, filled.strings, filled.data⟩

theorem addValue_filled (fits : Fits h) (room : h.nameBytes ≤ max)
    (split : h.keptValues = done ++ v :: rest) (filled : Filled h h.keptNodes done img) :
    ∃ img', addValue h max img v = pure img' ∧ Filled h h.keptNodes (done ++ [v]) img' := by
  have used := filled.strings
  have stored := filled.data
  have totalNames := sum_split split fun v => v.name.bytes.length + 1
  have totalData := sum_split split fun v => v.data.length
  have names := fits.names
  have dataSize := fits.data
  have nodes := fits.nodes
  rw [HiveTree.nameBytes] at names room
  rw [HiveTree.dataBytes] at dataSize
  have member : v ∈ h.keptValues := by simp [split]
  obtain ⟨k, mapped⟩ : ∃ k, h.nodeMap v.node = some k := by
    rw [HiveTree.keptValues, mem_filter, Bool.and_eq_true] at member
    exact isSome_iff_exists.mp member.2.2
  have named : stringStoreAdd img.strings max v.name = pure (img.strings ++ (v.name.bytes ++ [0])) :=
    stringStoreAdd_eq (by omega)
  have index : img.values.length < h.keptValues.length := by
    rw [← filled.values.length_eq, split]
    simp
  have inTable : k < 2 ^ 32 := Nat.lt_trans (HiveTree.nodeMap_lt mapped) nodes
  have ran : addValue h max img v = pure
      ⟨img.flags, img.nodes.modify k (linkValue img.values.length), img.values ++ [⟨.ofNat k,
        .ofNat img.strings.length, v.type, v.flags, .ofNat img.data.length, .ofNat v.data.length⟩],
        img.strings ++ (v.name.bytes ++ [0]), img.data ++ v.data⟩ := by
    rw [addValue, named, mapped]
    rfl
  refine ⟨_, ran, filled.flags, ?_, ?_, ?_, ?_⟩
  · exact forall₂_modify (filled.nodes.imp fun _ _ here => here.extend _)
      (NodeFor.linkValue index fits) k
  · refine rel_append (filled.values.imp fun _ _ here => here.extend (v.name.bytes ++ [0]) v.data) ?_
    refine .cons ⟨?_, NameAt.last (by omega) _, rfl, rfl, ?_, ?_⟩ .nil
    · rw [toNat_ofNat32 inTable]
      exact mapped
    · rw [toNat_ofNat32 (by omega), toNat_ofNat32 (by omega), length_append]
    · rw [toNat_ofNat32 (by omega), toNat_ofNat32 (by omega), slice, drop_left, take_length]
  · rw [sum_snoc, length_append, used]
    simp
    omega
  · rw [sum_snoc, length_append, stored]

theorem fillBlob_filled (wf : h.WF) (fits : Fits h) (room : h.nameBytes ≤ max) :
    ∃ img, fillBlob h max = pure img ∧ Filled h h.keptNodes h.keptValues img := by
  obtain ⟨img₁, ran₁, filled₁⟩ := Loop.foldlM_pure_spec (addNode h max) h.keptNodes
    ⟨h.flags, [], [], [], []⟩ (fun done img => Filled h done [] img) ⟨rfl, .nil, .nil, rfl, rfl⟩
    fun done p rest img split filled => addNode_filled fits room split filled
  obtain ⟨img₂, ran₂, filled₂⟩ := Loop.foldlM_pure_spec (addChild h) h.keptNodes img₁
    (fun _ img => Filled h h.keptNodes [] img) filled₁
    fun done p rest img split filled => addChild_filled wf fits (by simp [split]) filled
  obtain ⟨img₃, ran₃, filled₃⟩ := Loop.foldlM_pure_spec (addValue h max) h.keptValues img₂
    (fun done img => Filled h h.keptNodes done img) filled₂
    fun done v rest img split filled => addValue_filled fits room split filled
  exact ⟨img₃, by rw [fillBlob, ran₁, pure_bind, ran₂, pure_bind, ran₃], filled₃⟩

theorem fillBlob_room (ran : fillBlob h max = pure img) : h.nameBytes ≤ max := by
  obtain ⟨img₁, ran₁, ran⟩ := Loop.throw_bind_eq_pure ran
  obtain ⟨img₂, ran₂, ran₃⟩ := Loop.throw_bind_eq_pure ran
  obtain ⟨_, room₁⟩ := Loop.foldlM_throw_inv (addNode h max) h.keptNodes ⟨h.flags, [], [], [], []⟩
    (fun done img => img.strings.length = (done.map fun p => p.1.name.bytes.length + 1).sum ∧
      (img.strings.length ≤ max)) ⟨rfl, Nat.zero_le _⟩
    (fun done p rest img img' _ inv added => by
      obtain ⟨strings, stored, returned⟩ := Loop.throw_bind_eq_pure added
      obtain ⟨small, rfl⟩ := stringStoreAdd_fits stored
      cases returned
      rw [sum_snoc]
      simp only [length_append, length_singleton]
      omega) ran₁
  have same : img₂.strings = img₁.strings := Loop.foldlM_throw_inv (addChild h) h.keptNodes img₁
    (fun _ img => img.strings = img₁.strings) rfl (fun done p rest img img' _ inv added => by
      rw [addChild] at added
      split at added
      · cases added
        exact inv
      · split at added
        · cases added
          exact inv
        · cases added) ran₂
  obtain ⟨used₃, _⟩ := Loop.foldlM_throw_inv (addValue h max) h.keptValues img₂
    (fun done img => img.strings.length = img₂.strings.length +
      (done.map fun v => v.name.bytes.length + 1).sum ∧ img.strings.length ≤ max)
    ⟨by simp, by rw [same]; exact room₁⟩
    (fun done v rest img img' _ inv added => by
      obtain ⟨k, _, added⟩ := Loop.throw_bind_eq_pure added
      obtain ⟨strings, stored, returned⟩ := Loop.throw_bind_eq_pure added
      obtain ⟨small, rfl⟩ := stringStoreAdd_fits stored
      cases returned
      rw [sum_snoc]
      simp only [length_append, length_singleton]
      omega) ran₃
  rw [HiveTree.nameBytes]
  rw [same] at used₃
  omega

/-- The size of a hive written out. -/
def HiveTree.blobSize (h : HiveTree) : Nat :=
  sizeofHiveHeader + sizeofNodeEntry * h.keptNodes.length + sizeofValueEntry * h.keptValues.length +
    h.nameBytes + h.dataBytes

theorem Filled.size (filled : Filled h h.keptNodes h.keptValues img) : img.size = h.blobSize := by
  rw [Image.size, Image.dataOff, Image.stringOff, Image.valueOff, filled.strings, filled.data,
    ← filled.nodes.length_eq, ← filled.values.length_eq]
  rfl

theorem Filled.valid (wf : h.WF) (filled : Filled h h.keptNodes h.keptValues img)
    (small : h.blobSize < 2 ^ 32) : img.Valid := by
  have nodes := filled.nodes.length_eq
  have values := filled.values.length_eq
  have related : ∀ (i : Nat) (e : NodeEntry), img.nodes[i]? = some e → ∃ p, h.keptNodes[i]? = some p ∧ NodeFor h img.strings p e := by
    intro i e found
    obtain ⟨inside, rfl⟩ := List.getElem?_eq_some_iff.mp found
    have inside' : i < h.keptNodes.length := nodes.symm ▸ inside
    exact ⟨h.keptNodes[i], List.getElem?_eq_getElem inside', filled.nodes.get inside' inside⟩
  refine ⟨by rw [filled.size]; exact small, ?_, fun i e found _ => ?_, fun e member => ?_,
    fun e member some_ => ?_, fun e member some_ => ?_, fun e member => ?_, fun e member => ?_,
    fun e member => ?_, fun e member => ?_⟩
  · obtain ⟨n, first⟩ := Compact.rank_eq_some.mp wf.nodeMap_zero
    have positive : 0 < img.nodes.length := nodes ▸ (List.getElem?_eq_some_iff.mp first).1
    obtain ⟨p, there, entry⟩ := related 0 _ (List.getElem?_eq_getElem positive)
    refine ⟨img.nodes[0], img.nodes.tail, ?_, ?_⟩
    · rw [getElem_zero, cons_head_tail]
    · rw [entry.parent, some.inj (there.symm.trans first), HiveTree.newParent, if_pos rfl]
  · obtain ⟨p, there, entry⟩ := related i e found
    have mapped : h.nodeMap p.2 = some i := Compact.rank_eq_some.mpr ⟨p.1, there⟩
    have notRoot : p.2 ≠ 0 := by
      intro root
      rw [root, wf.nodeMap_zero, some.injEq] at mapped
      omega
    obtain ⟨inNodes, kept⟩ := Compact.mem_kept.mp (mem_of_getElem? there)
    rw [wf.keeps_eq inNodes, Bool.not_eq_true'] at kept
    obtain ⟨k, parent⟩ := wf.nodeMap_of_live (wf.parent p.2 p.1 inNodes kept notRoot)
    rw [entry.parent, HiveTree.newParent, if_neg notRoot, parent, ← nodes]
    exact HiveTree.nodeMap_lt parent
  · obtain ⟨p, _, entry⟩ := forall₂_exists_left filled.nodes member
    exact entry.name.hasString
  · obtain ⟨p, _, entry⟩ := forall₂_exists_left filled.nodes member
    exact nodes ▸ entry.firstChild some_
  · obtain ⟨p, _, entry⟩ := forall₂_exists_left filled.nodes member
    exact values ▸ entry.firstValue some_
  · obtain ⟨v, _, entry⟩ := forall₂_exists_left filled.values member
    exact nodes ▸ HiveTree.nodeMap_lt entry.node
  · obtain ⟨v, _, entry⟩ := forall₂_exists_left filled.values member
    exact entry.name.hasString
  · obtain ⟨v, kept, entry⟩ := forall₂_exists_left filled.values member
    rw [entry.type]
    exact wf.type v (mem_of_mem_filter kept)
  · obtain ⟨v, _, entry⟩ := forall₂_exists_left filled.values member
    exact entry.inside

theorem Filled.hiveNodes (wf : h.WF) (filled : Filled h h.keptNodes h.keptValues img) :
    img.hiveNodes = h.compact.nodes := by
  refine forall₂_map_eq filled.nodes fun p member e entry => ?_
  obtain ⟨found, kept⟩ := Compact.mem_kept.mp member
  rw [wf.keeps_eq found, Bool.not_eq_true'] at kept
  rw [entry.name.nameCopy, entry.parent, entry.flags, ← kept]

theorem Filled.hiveValues (filled : Filled h h.keptNodes h.keptValues img) :
    img.hiveValues = h.compact.values := by
  refine forall₂_map_eq filled.values fun v member e entry => ?_
  have alive : v.deleted = false := by
    rw [HiveTree.keptValues, mem_filter, Bool.and_eq_true, Bool.not_eq_true'] at member
    exact member.2.1
  rw [entry.name.nameCopy, entry.type, entry.flags, entry.data, entry.node, getD_some, ← alive]

/-- The image is the one of the hive. -/
structure ImageOf (h : HiveTree) (img : Image) : Prop where
  valid : img.Valid
  flags : img.flags = h.flags
  nodes : img.hiveNodes = h.compact.nodes
  values : img.hiveValues = h.compact.values
  size : img.size = h.blobSize

theorem Filled.imageOf (wf : h.WF) (filled : Filled h h.keptNodes h.keptValues img)
    (small : h.blobSize < 2 ^ 32) : ImageOf h img :=
  ⟨filled.valid wf small, filled.flags, filled.hiveNodes wf, filled.hiveValues, filled.size⟩

theorem Fits.of_blobSize (small : h.blobSize < 2 ^ 32) : Fits h := by
  rw [HiveTree.blobSize] at small
  have nodes : h.keptNodes.length ≤ sizeofNodeEntry * h.keptNodes.length :=
    Nat.le_mul_of_pos_left _ (by decide)
  have values : h.keptValues.length ≤ sizeofValueEntry * h.keptValues.length :=
    Nat.le_mul_of_pos_left _ (by decide)
  exact ⟨by omega, by omega, by omega, by omega⟩

theorem buildHiveBlob_imageOf (wf : h.WF)
    (built : buildHiveBlob env requests h = some (later, .ok img)) : ImageOf h img := by
  simp only [buildHiveBlob] at built
  iterate 4
    split at built
    · simp at built
  next sizes =>
  split at built
  · simp at built
  split at built
  · simp at built
  next exact_ =>
  rw [map_eq_some_iff] at built
  obtain ⟨_, ran, same⟩ := built
  obtain ⟨rfl, rfl⟩ := Prod.mk.inj same
  have room := fillBlob_room (show fillBlob h (u32 h.nameBytes) = pure img from ran)
  have small : h.blobSize < 2 ^ 32 := by
    rw [HiveTree.blobSize]
    omega
  have fits := Fits.of_blobSize small
  obtain ⟨img', ran', filled⟩ := fillBlob_filled wf fits room
  have equal : img' = img := by
    have := ran'.symm.trans (show fillBlob h (u32 h.nameBytes) = pure img from ran)
    exact Except.ok.inj (some.inj this)
  rw [← equal]
  exact filled.imageOf wf small

theorem buildHiveBlob_succeeds (wf : h.WF) (small : h.blobSize < 2 ^ 32)
    (plenty : Pack.Plenty env requests) :
    ∃ img, buildHiveBlob env requests h = some (requests + 2, .ok img) := by
  have sum : h.blobSize = sizeofHiveHeader + sizeofNodeEntry * h.keptNodes.length +
    sizeofValueEntry * h.keptValues.length + h.nameBytes + h.dataBytes := rfl
  have fits := Fits.of_blobSize small
  have names : u32 h.nameBytes = h.nameBytes := Nat.mod_eq_of_lt (by omega)
  obtain ⟨img, ran, _⟩ := fillBlob_filled wf fits (Nat.le_refl _)
  have nonempty : h.nodes ≠ [] := by
    obtain ⟨n, found, _⟩ := wf.root
    intro empty
    rw [empty] at found
    cases found
  have offset : u32 (sizeofHiveHeader + sizeofNodeEntry * h.keptNodes.length +
      sizeofValueEntry * h.keptValues.length + h.nameBytes) = sizeofHiveHeader +
      sizeofNodeEntry * h.keptNodes.length + sizeofValueEntry * h.keptValues.length + h.nameBytes :=
    Nat.mod_eq_of_lt (by omega)
  refine ⟨img, ?_⟩
  simp only [buildHiveBlob, if_neg nonempty, plenty requests (Nat.le_refl _),
    plenty (requests + 1) (Nat.le_succ _), wf.nodeMap_zero, names, offset]
  rw [if_neg (by simp), if_neg (by simp), if_neg (by omega), if_neg (by simp), if_neg (by simp),
    ran]
  rfl

end Otsos
