import Mathlib.Algebra.Ring.Nat

/-! Block requests (`bio_submit` of `kernel/drivers/disk/bio.c`) on whole disks and on the slices
that `kernel/drivers/disk/gpt.c` publishes for the entries of a partition table. -/
namespace Otsos.Block

inductive Cmd where
  | read
  | write
  | flush
  | other
deriving DecidableEq

inductive Status where
  | ok
  | inval
  | nodev
  | readonly
deriving DecidableEq

def diskFReadonly : UInt32 := 0x1

def diskFNoFlush : UInt32 := 0x2

def diskFSlice : UInt32 := 0x4

def bioFInflight : UInt32 := 0x1

def bioFDone : UInt32 := 0x2

/-- `disk_t`; `submit` says that it has operations with a submit routine. -/
structure Disk where
  submit : Bool
  (totalSectors baseLba : UInt64)
  (sectorSize maxIoSectors flags : UInt32)
deriving DecidableEq

def Disk.has (disk : Disk) (flag : UInt32) : Bool := disk.flags &&& flag != 0

/-- `bio_t`; `buf` says that the buffer is not `NULL`. -/
structure Bio where
  cmd : Cmd
  buf : Bool
  lba : UInt64
  (nsectors flags : UInt32)
deriving DecidableEq

/-- `gpt_slice_t`. -/
structure Slice where
  (disk parent : Disk)
deriving DecidableEq

/-- What the `disk` field of a request points to: a disk with a driver, or the disk inside a
slice. -/
inductive Device where
  | whole (disk : Disk)
  | part (slice : Slice)
deriving DecidableEq

def Device.disk : Device → Disk
  | .whole disk => disk
  | .part slice => slice.disk

/-- What becomes of a request that is submitted. -/
inductive Outcome where
  -- refused by `bio_fail`
  | failed (status : Status)
  -- completed by `bio_done` without a driver
  | done (status : Status)
  -- handed to the driver of a disk
  | driver (disk : Disk) (bio : Bio)
deriving DecidableEq

/-- `gpt_slice_submit`. -/
def gptSliceSubmit (slice : Slice) (bio : Bio) : Outcome :=
  if bio.cmd = .flush then .driver slice.parent bio
  else
    let last := bio.lba + bio.nsectors.toUInt64
    if last > slice.disk.totalSectors ∨ last < bio.lba then .done .inval
    else .driver slice.parent { bio with lba := bio.lba + slice.disk.baseLba }

/-- `disk->ops->submit`. -/
def Device.submit : Device → Bio → Outcome
  | .whole disk, bio => .driver disk bio
  | .part slice, bio => gptSliceSubmit slice bio

/-- The checks of `bio_submit` on a read or a write. -/
def checkTransfer (disk : Disk) (bio : Bio) : Option Status :=
  let last := bio.lba + bio.nsectors.toUInt64
  if !bio.buf ∨ bio.nsectors = 0 then some .inval
  else if bio.cmd = .write ∧ disk.has diskFReadonly then some .readonly
  else if last < bio.lba ∨ last > disk.totalSectors then some .inval
  else if bio.nsectors > disk.maxIoSectors then some .inval
  else none

/-- `bio_submit`. -/
def bioSubmit (device : Device) (bio : Bio) : Outcome :=
  let disk := device.disk
  let sent := { bio with flags := bio.flags ||| bioFInflight }
  if !disk.submit then .failed .nodev
  else if bio.flags &&& (bioFInflight ||| bioFDone) ≠ 0 then .failed .inval
  else if disk.sectorSize = 0 ∨ disk.maxIoSectors = 0 then .failed .nodev
  else match bio.cmd with
    | .read | .write =>
      match checkTransfer disk bio with
      | some status => .failed status
      | none => device.submit sent
    | .flush => if disk.has diskFNoFlush then .done .ok else device.submit sent
    | .other => .failed .inval

/-- The fields of `gpt_entry_t` that say where the partition is. -/
structure Entry where
  (firstLba lastLba : UInt64)

/-- The checks of `disk_register` on the disk; `room` says that its table and the names in it leave
room. -/
def diskRegister (disk : Disk) (room : Bool) : Bool :=
  disk.submit && disk.sectorSize != 0 && disk.totalSectors != 0 && disk.maxIoSectors != 0 && room

/-- `gpt_slice_register`; `slot` says that `gpt_slice_alloc` finds one. -/
def gptSliceRegister (parent : Disk) (entry : Entry) (slot room : Bool) : Option Slice :=
  if entry.firstLba = 0 ∨ entry.lastLba < entry.firstLba then none
  else if entry.lastLba ≥ parent.totalSectors then none
  else if !slot then none
  else
    let disk : Disk :=
      { submit := true
        totalSectors := entry.lastLba - entry.firstLba + 1
        baseLba := entry.firstLba
        sectorSize := parent.sectorSize
        maxIoSectors := parent.maxIoSectors
        flags := (parent.flags &&& diskFNoFlush) ||| diskFSlice }
    if diskRegister disk room then some ⟨disk, parent⟩ else none

/-- A device that requests can be submitted to. -/
inductive Device.Published : Device → Prop where
  | whole {disk : Disk} (registered : diskRegister disk room = true) : Published (.whole disk)
  | part {slice : Slice} (registered : gptSliceRegister parent entry slot room = some slice) : Published (.part slice)

/-- A request for a slice as it comes to the driver of the parent: the sectors are those of the
slice at the offset that was asked for, counted without wrapping. -/
structure Slice.Inside (slice : Slice) (bio : Bio) (disk : Disk) (sent : Bio) : Prop where
  parent : disk = slice.parent
  offset : sent.lba.toNat = slice.disk.baseLba.toNat + bio.lba.toNat
  sectors : ∀ i < sent.nsectors.toNat, slice.disk.baseLba.toNat ≤ sent.lba.toNat + i ∧
    sent.lba.toNat + i < slice.disk.baseLba.toNat + slice.disk.totalSectors.toNat

/-- Reads and writes of a slice stay in it, and no write comes to the driver of a read-only disk. -/
structure Device.Confines (device : Device) (bio : Bio) : Prop where
  inside : ∀ slice disk sent, device = .part slice → bioSubmit device bio = .driver disk sent →
    sent.cmd = .read ∨ sent.cmd = .write → slice.Inside bio disk sent
  writable : ∀ disk sent, bioSubmit device bio = .driver disk sent → sent.cmd = .write →
    disk.has diskFReadonly = false

/-- What `bio_submit` asks of a transfer, the read-only mark aside. -/
def Bio.Fits (bio : Bio) (disk : Disk) : Prop :=
  bio.flags &&& (bioFInflight ||| bioFDone) = 0 ∧ bio.buf = true ∧ bio.nsectors ≠ 0 ∧
    bio.nsectors ≤ disk.maxIoSectors ∧ bio.lba.toNat + bio.nsectors.toNat ≤ disk.totalSectors.toNat

/-- A write that fits a slice of a disk that is marked read-only. -/
def Device.Evades (device : Device) (bio : Bio) : Prop :=
  ∃ slice, device = .part slice ∧ bio.cmd = .write ∧ bio.Fits slice.disk ∧
    slice.parent.has diskFReadonly = true

theorem within_iff (lba total : UInt64) (n : UInt32) :
    ¬ (lba + n.toUInt64 < lba ∨ lba + n.toUInt64 > total) ↔ lba.toNat + n.toNat ≤ total.toNat := by
  simp only [UInt64.lt_iff_toNat_lt, UInt64.toNat_add, UInt32.toNat_toUInt64]
  have := total.toNat_lt
  have := n.toNat_lt
  omega

theorem checkTransfer_none_iff (disk : Disk) (bio : Bio) :
    checkTransfer disk bio = none ↔
      (bio.buf = true ∧ bio.nsectors ≠ 0) ∧ ¬ (bio.cmd = .write ∧ disk.has diskFReadonly = true) ∧
        bio.lba.toNat + bio.nsectors.toNat ≤ disk.totalSectors.toNat ∧ bio.nsectors ≤ disk.maxIoSectors := by
  rw [← within_iff, checkTransfer]
  split_ifs <;> grind

variable {device : Device} {bio : Bio} {entry : Entry}

theorem submit_cmd (handed : device.submit bio = .driver disk sent) : sent.cmd = bio.cmd := by
  cases device with
  | whole =>
    cases handed
    rfl
  | part slice =>
    simp only [Device.submit, gptSliceSubmit] at handed
    split_ifs at handed <;> cases handed <;> rfl

theorem bioSubmit_cmd (submitted : bioSubmit device bio = .driver disk sent) :
    sent.cmd = bio.cmd := by
  have handed : device.submit { bio with flags := bio.flags ||| bioFInflight } =
    .driver disk sent := by
    grind [bioSubmit]
  exact (submit_cmd handed :)

theorem bioSubmit_transfer_iff (transfer : bio.cmd = .read ∨ bio.cmd = .write) :
    bioSubmit device bio = .driver disk sent ↔
      (device.disk.submit = true ∧ device.disk.sectorSize ≠ 0 ∧ device.disk.maxIoSectors ≠ 0) ∧
        bio.flags &&& (bioFInflight ||| bioFDone) = 0 ∧ checkTransfer device.disk bio = none ∧
        device.submit { bio with flags := bio.flags ||| bioFInflight } = .driver disk sent := by
  rcases transfer with cmd | cmd <;> cases check : checkTransfer device.disk bio <;>
    simp only [bioSubmit, cmd] <;> grind

/-- A published slice lies in its parent and is set up, and it is never marked read-only. -/
theorem gptSliceRegister_some (registered : gptSliceRegister parent entry slot room = some slice) :
    slice.disk.baseLba.toNat + slice.disk.totalSectors.toNat ≤ parent.totalSectors.toNat ∧
      (slice.disk.submit = true ∧ slice.disk.sectorSize ≠ 0 ∧ slice.disk.maxIoSectors ≠ 0) ∧
      slice.disk.has diskFReadonly = false := by
  simp only [gptSliceRegister] at registered
  split_ifs at registered with empty past full listed
  cases registered
  simp only [diskRegister, Bool.and_eq_true, bne_iff_ne] at listed
  refine ⟨?_, ⟨rfl, listed.1.1.1.2, listed.1.2⟩, ?_⟩
  · simp only [UInt64.lt_iff_toNat_lt] at empty
    rw [ge_iff_le, UInt64.le_iff_toNat_le] at past
    have first := entry.firstLba.toNat_lt
    simp only [UInt64.toNat_add, UInt64.toNat_sub, UInt64.reduceToNat] at ⊢
    omega
  · simp only [Disk.has, diskFReadonly, diskFNoFlush, diskFSlice, bne_eq_false_iff_eq]
    refine UInt32.toBitVec_inj.mp (BitVec.eq_of_getElem_eq fun i => ?_)
    rcases Nat.eq_zero_or_pos i with rfl | pos
    · simp
    · simp [Nat.ne_of_gt pos]

theorem gptSliceSubmit_transfer (flags : UInt32) (transfer : bio.cmd = .read ∨ bio.cmd = .write)
    (within : bio.lba.toNat + bio.nsectors.toNat ≤ slice.disk.totalSectors.toNat) :
    gptSliceSubmit slice { bio with flags } =
      .driver slice.parent { bio with flags, lba := bio.lba + slice.disk.baseLba } := by
  have inRange := (within_iff _ _ _).mpr within
  have moves : bio.cmd ≠ .flush := by rcases transfer with h | h <;> simp [h]
  rw [gptSliceSubmit, if_neg moves, if_neg]
  exact fun out => inRange out.symm

theorem part_inside (room : slice.disk.baseLba.toNat + slice.disk.totalSectors.toNat < 2 ^ 64)
    (transfer : bio.cmd = .read ∨ bio.cmd = .write)
    (submitted : bioSubmit (.part slice) bio = .driver disk sent) : slice.Inside bio disk sent := by
  obtain ⟨-, -, checked, handed⟩ := (bioSubmit_transfer_iff transfer).mp submitted
  obtain ⟨-, -, within, -⟩ := (checkTransfer_none_iff _ _).mp checked
  have moved := gptSliceSubmit_transfer (bio.flags ||| bioFInflight) transfer within
  cases moved.symm.trans handed
  have offset : (bio.lba + slice.disk.baseLba).toNat = slice.disk.baseLba.toNat + bio.lba.toNat := by
    rw [UInt64.toNat_add, Nat.add_comm]
    simp only [Device.disk] at within
    omega
  refine ⟨rfl, offset, ?_⟩
  intro i small
  simp only [Device.disk] at within small ⊢
  omega

/-- Reads and writes of a slice always stay in it; a write comes to the driver of a read-only disk
exactly if it fits a slice of that disk. -/
theorem confines_iff (published : device.Published) (bio : Bio) :
    device.Confines bio ↔ ¬ device.Evades bio := by
  cases published with
  | @whole whole registered =>
    refine ⟨fun _ ⟨_, evades, _⟩ => (by cases evades), fun _ => ⟨fun _ _ _ part => (by cases part), ?_⟩⟩
    intro disk sent submitted write
    have cmd := (bioSubmit_cmd submitted).symm.trans write
    obtain ⟨-, -, checked, handed⟩ := (bioSubmit_transfer_iff (.inr cmd)).mp submitted
    obtain ⟨-, allowed, -⟩ := (checkTransfer_none_iff _ _).mp checked
    cases handed
    simpa [cmd, Device.disk] using allowed
  | @part parent entry slot room slice registered =>
    obtain ⟨_, ready, unmarked⟩ := gptSliceRegister_some registered
    have small := parent.totalSectors.toNat_lt
    constructor
    · rintro ⟨-, writable⟩ ⟨_, ⟨⟩, write, ⟨idle, buffer, some, most, within⟩, marked⟩
      have checked : checkTransfer slice.disk bio = none :=
        (checkTransfer_none_iff _ _).mpr ⟨⟨buffer, some⟩, by simp [unmarked], within, most⟩
      have handed := gptSliceSubmit_transfer (bio.flags ||| bioFInflight) (.inr write) within
      have submitted : bioSubmit (.part slice) bio = .driver slice.parent _ :=
        (bioSubmit_transfer_iff (.inr write)).mpr ⟨ready, idle, checked, handed⟩
      exact Bool.noConfusion (marked.symm.trans (writable _ _ submitted write))
    · intro kept
      refine ⟨?_, ?_⟩
      · rintro _ disk sent ⟨⟩ submitted transfer
        exact part_inside (by omega) (bioSubmit_cmd submitted ▸ transfer) submitted
      · intro disk sent submitted write
        have cmd := (bioSubmit_cmd submitted).symm.trans write
        obtain ⟨-, idle, checked, -⟩ := (bioSubmit_transfer_iff (.inr cmd)).mp submitted
        obtain ⟨⟨buffer, some⟩, -, within, most⟩ := (checkTransfer_none_iff _ _).mp checked
        rw [(part_inside (by omega) (.inr cmd) submitted).parent, Bool.eq_false_iff]
        exact fun marked => kept ⟨slice, rfl, cmd, ⟨idle, buffer, some, most, within⟩, marked⟩

def sampleDisk (flags : UInt32) : Disk := ⟨true, 100, 0, 512, 8, flags⟩

def dataSlice (flags : UInt32) : Slice := ⟨⟨true, 20, 40, 512, 8, diskFSlice⟩, sampleDisk flags⟩

def writeOne : Bio := ⟨.write, true, 3, 1, 0⟩

theorem confines_unlocked : (Device.part (dataSlice 0)).Confines writeOne := by
  have registered : gptSliceRegister (sampleDisk 0) ⟨40, 59⟩ true true = some (dataSlice 0) := by
    decide
  refine (confines_iff (.part registered) writeOne).mpr ?_
  rintro ⟨_, ⟨⟩, -, -, marked⟩
  cases marked

/-- The driver of the read-only disk is given the write. -/
theorem locked_written :
    let disk := sampleDisk diskFReadonly
    let slice := Device.part (dataSlice diskFReadonly)
    slice.Published ∧ bioSubmit slice writeOne = .driver disk { writeOne with lba := 43, flags := bioFInflight } ∧
      disk.has diskFReadonly = true ∧ ¬ slice.Confines writeOne := by
  have registered : gptSliceRegister (sampleDisk diskFReadonly) ⟨40, 59⟩ true true =
      some (dataSlice diskFReadonly) := by decide
  refine ⟨.part registered, by decide, by decide, fun confines => ?_⟩
  cases confines.writable (sampleDisk diskFReadonly) { writeOne with lba := 43, flags := bioFInflight } (by decide) rfl

end Otsos.Block
