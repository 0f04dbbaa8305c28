import Otsos.Hivec.Names
import Otsos.Hivec.Tables

/-! The bytes that the compiler writes are those of the format: a pack of the images of the
hives. -/
namespace Otsos.Hivec
open Bytes Related
open Loop (except_bind_ok)
open List

theorem packWord_bind (small : limit < 2 ^ 32) (f : UInt32 → Except Exn α) (below : n ≤ limit) :
    (packWord n >>= f) = f (.ofNat n) := by
  rw [packWord, if_pos (Nat.lt_of_le_of_lt below small)]
  rfl

theorem packWord_lt (ran : packWord n = .ok w) : n < 2 ^ 32 :=
  packWord_ok ran ▸ w.toNat_lt

theorem packWord_eq (ran : packWord n = .ok w) : w = UInt32.ofNat n :=
  UInt32.toNat_inj.mp ((packWord_ok ran).trans (toNat_ofNat32 (packWord_lt ran)).symm)

theorem ok_bind {β : Type} (a : α) (f : α → Except Exn β) : ((.ok a : Except Exn α) >>= f) = f a :=
  rfl

theorem buildHive_ok (ran : buildImage hive = .ok img) (small : img.size < 2 ^ 32) :
    buildHive hive = .ok img.bytes := by
  have flags := (buildImage_filled ran).1
  have sum : img.size = img.dataOff + img.data.length ∧ img.dataOff = img.stringOff + img.strings.length ∧
      img.stringOff = img.valueOff + sizeofValueEntry * img.values.length ∧
      img.valueOff = sizeofHiveHeader + sizeofNodeEntry * img.nodes.length := ⟨rfl, rfl, rfl, rfl⟩
  have sizes : sizeofNodeEntry = 28 ∧ sizeofValueEntry = 24 := ⟨rfl, rfl⟩
  obtain ⟨size, dataOff, stringOff, valueOff⟩ := sum
  rw [sizes.1] at valueOff
  rw [sizes.2] at stringOff
  have word :=
    fun {n : Nat} (f : UInt32 → Except Exn (List UInt8)) => packWord_bind (n := n) small f
  rw [buildHive, ran, ok_bind]
  simp only [Image.length_nodes, Image.length_values, sizes]
  iterate 10 rw [word _ (by omega)]
  rw [← flags]
  rfl

theorem buildHive_inv (ran : buildHive hive = .ok blob) :
    ∃ img, buildImage hive = .ok img ∧ img.size < 2 ^ 32 ∧ blob = img.bytes := by
  have whole := ran
  obtain ⟨img, built, ran⟩ := except_bind_ok ran
  -- the nine words before the one that holds the size
  iterate 9 obtain ⟨_, _, ran⟩ := except_bind_ok ran
  obtain ⟨_, total, _⟩ := except_bind_ok ran
  have small : img.size < 2 ^ 32 := by
    have bound := packWord_lt total
    rwa [Image.length_nodes, Image.length_values] at bound
  refine ⟨img, built, small, ?_⟩
  rw [buildHive_ok built small] at whole
  exact (Except.ok.inj whole).symm

/-- The item of a pack that stands for a hive. -/
structure ItemOf (hive : Hive) (item : PackItem) : Prop where
  name : item.name.bytes = utf8 hive.name
  flags : item.flags = hive.flags
  image : buildImage hive = .ok item.image
  size : item.image.size < 2 ^ 32

theorem nameCopy_short (plain : 0 ∉ name) (short : name.length < hivefsNameSize) :
    (nameCopy name).bytes = name := by
  show ((name.takeWhile (· != 0)).take (hivefsNameSize - 1)) = name
  rw [takeWhile_plain plain, take_of_length_le (Nat.le_sub_one_of_lt short)]

theorem fixedName_ok (plain : 0 ∉ utf8 name) (ran : fixedName name = .ok bytes) :
    bytes = Otsos.fixedName (nameCopy (utf8 name)) ∧ (nameCopy (utf8 name)).bytes = utf8 name := by
  rw [fixedName] at ran
  split at ran
  case isFalse => cases ran
  next ascii =>
  simp only at ran
  split at ran
  · cases ran
  next short =>
  have encoded : utf8 name = name.map fun c => UInt8.ofNat c.toNat :=
    utf8_ascii fun c member => of_decide_eq_true (all_eq_true.mp ascii c member)
  rw [← encoded] at ran short
  have whole := nameCopy_short plain (Nat.lt_of_not_le short)
  cases ran
  refine ⟨?_, whole⟩
  rw [Otsos.fixedName, whole]
  rfl

theorem buildBlobs_inv (ran : buildBlobs seen hives = .ok blobs) :
    List.Forall₂ (fun hive b => b.1 = hive ∧ buildHive hive = .ok b.2) hives blobs ∧
      (hives.map (·.name)).Nodup ∧ ∀ hive ∈ hives, hive.name ∉ seen := by
  induction hives generalizing seen blobs with
  | nil =>
    cases ran
    exact ⟨.nil, nodup_nil, nofun⟩
  | cons hive hives ih =>
    rw [buildBlobs] at ran
    split at ran
    · cases ran
    next fresh =>
    obtain ⟨_, built, ran⟩ := except_bind_ok ran
    obtain ⟨_, rest, ran⟩ := except_bind_ok ran
    obtain ⟨related, distinct, unseen⟩ := ih rest
    cases ran
    refine ⟨.cons ⟨rfl, built⟩ related, ?_, fun other member => ?_⟩
    · rw [map_cons, nodup_cons]
      refine ⟨fun member => ?_, distinct⟩
      obtain ⟨other, inside, same⟩ := mem_map.mp member
      exact unseen other inside (same ▸ mem_cons_self)
    · rcases mem_cons.mp member with rfl | inside
      · exact fresh
      · exact fun old => unseen other inside (mem_cons_of_mem _ old)

theorem alignBody_eq (body : List UInt8) :
    alignBody body = body ++ replicate (alignUp8 body.length - body.length) 0 := by
  rw [alignBody]
  congr 2
  rw [alignUp8]
  omega

theorem packEntries_inv {entries : List PackEntry}
    (related : List.Forall₂ (fun hive b => b.1 = hive ∧ buildHive hive = .ok b.2) hives blobs)
    (plain : ∀ hive ∈ hives, 0 ∉ utf8 hive.name)
    (ran : packEntries dataOff blobs body = .ok (entries, body')) :
      ∃ items, List.Forall₂ ItemOf hives items ∧
      entries = zipWith (Pack.entry dataOff) items (Pack.offsets body.length items) ∧
      body' = body ++ Pack.body body.length items := by
  induction related generalizing body body' entries with
  | nil =>
    cases ran
    exact ⟨[], .nil, rfl, by rw [Pack.body, append_nil]⟩
  | @cons hive b hives blobs here related ih =>
    obtain ⟨hive', _⟩ := b
    obtain ⟨rfl, written⟩ := here
    obtain ⟨img, built, small, rfl⟩ := buildHive_inv written
    obtain ⟨_, named, ran⟩ := except_bind_ok ran
    obtain ⟨_, offsetOk, ran⟩ := except_bind_ok ran
    obtain ⟨_, sizeOk, ran⟩ := except_bind_ok ran
    obtain ⟨⟨_, _⟩, rest, ran⟩ := except_bind_ok ran
    obtain ⟨items, later, entries_, body_⟩ := ih (fun hive member => plain hive (mem_cons_of_mem _ member)) rest
    obtain ⟨padded, whole⟩ := fixedName_ok (plain _ mem_cons_self) named
    have aligned : (alignBody body).length = alignUp8 body.length := by
      have above := le_alignUp8 body.length
      rw [alignBody_eq, length_append, length_replicate]
      omega
    have length : (alignBody body ++ img.bytes).length = alignUp8 body.length + img.size := by
      rw [length_append, aligned, Image.length_bytes]
    rw [length] at entries_ body_
    cases ran
    refine ⟨⟨nameCopy (utf8 hive'.name), hive'.flags, img⟩ :: items, .cons ⟨whole, rfl, built, small⟩ later, ?_, ?_⟩
    · congr 1
      rw [Pack.entry, ← aligned, ← Image.length_bytes]
      congr 1
      · exact packWord_eq offsetOk
      · exact packWord_eq sizeOk
    · rw [body_, Pack.body, alignBody_eq]
      simp only [append_assoc]

theorem buildPack_inv (plain : ∀ hive ∈ hives, 0 ∉ utf8 hive.name)
    (ran : buildPack hives = .ok bytes) : ∃ items, List.Forall₂ ItemOf hives items ∧
      bytes = Pack.bytes items ∧ Pack.size items < 2 ^ 32 ∧ (hives.map (·.name)).Nodup := by
  obtain ⟨blobs, built, ran⟩ := except_bind_ok ran
  obtain ⟨related, distinct, _⟩ := buildBlobs_inv built
  obtain ⟨⟨_, _⟩, packed, ran⟩ := except_bind_ok ran
  obtain ⟨items, itemsOf, rfl, rfl⟩ := packEntries_inv related plain packed
  obtain ⟨_, header, ran⟩ := except_bind_ok ran
  obtain ⟨_, count, ran⟩ := except_bind_ok ran
  obtain ⟨_, table, ran⟩ := except_bind_ok ran
  obtain ⟨_, data, ran⟩ := except_bind_ok ran
  obtain ⟨_, total, ran⟩ := except_bind_ok ran
  have length : blobs.length = items.length := related.length_eq.symm.trans itemsOf.length_eq
  simp only [length, nil_append] at count data total ran
  refine ⟨items, itemsOf, ?_, packWord_lt total, distinct⟩
  rw [packWord_eq header, packWord_eq count, packWord_eq table, packWord_eq data,
    packWord_eq total] at ran
  exact (Except.ok.inj ran).symm

end Otsos.Hivec
