import Waros.Kernel.Disk.Extents

/-!
The accounting of the superblock along all runs. Every call marks the disk dirty
before anything else and recounts at its end, so a call that fails leaves the
mark, and one that succeeds makes the counts exact again. Which calls succeed is
said by the table and the blocks of the disk before the call.
-/

namespace Waros.Kernel.Disk

open Lib Fs Sector Superblock VirtioBlk List DiskFileEntry
open Execution (bind_ok after_nil state_ok state_after outcome_after bind_outcome_ok)

namespace Superblock

def usedBlocks (sb : Superblock) : UInt32 := Bytes.toU32 (sb.sector.field 52 4)
def fileCount (sb : Superblock) : UInt16 := Bytes.toU16 (sb.sector.field 56 2)

end Superblock

namespace VirtioBlk

variable {d : VirtioBlk} {data : Sector} {α β : Type}

/-- The superblock is clean and its counts are those of the file table. -/
def Accounted (d : VirtioBlk) : Prop :=
  d.superblock.state = fsStateClean ∧ d.superblock.fileCount = d.activeFiles ∧
    d.superblock.usedBlocks = d.usedBlocks

/-- The program leaves the disk accounted exactly when it succeeds. -/
def Settles (d : VirtioBlk) (p : DiskM α) : Prop :=
  (d.exec p).state.Accounted ↔ ∃ value, (d.exec p).outcome = .returned (.ok value)

lemma Settles.discard {p : DiskM α} (h : d.Settles p) :
    d.Settles (p >>= fun _ => (pure () : DiskM Unit)) := by
  rw [Settles] at h
  rw [Settles, exec_bind]
  rcases hex : d.exec p with ⟨(error | v) | -, state, trace⟩
  all_goals rw [hex] at h
  · exact h.trans (iff_of_false nofun nofun)
  · exact h.trans (iff_of_true ⟨v, rfl⟩ ⟨(), rfl⟩)
  · exact h.trans (iff_of_false nofun nofun)

/-- The file goes into the slot, to the blocks from `start` on: the search of the
table ends with the slot, and if the file needs more blocks than it has, first fit
finds a gap below the number of blocks. -/
def FitsAt (d : VirtioBlk) (file : FileEntry) (slot start : ℕ) : Prop :=
  let count := blockCountForLen file.data.length
  ∃ target free, d.search file.name (range maxFiles) none = .ok (target, free) ∧
    target.or free = some slot ∧ start = d.chosenStart target count ∧
    (count ≠ 0 → (∀ i, target = some i → d.count i < count) → (d.gap count target).2 = true ∨
      min ((d.gap count target).1 + count) (2 ^ 32 - 1) ≤ d.superblock.totalBlocks.toNat)

/-- The files that the disk keeps fit one after the other. -/
def FitEach : List FileEntry → VirtioBlk → Prop
  | [], _ => True
  | file :: files, d =>
    if isPersistablePath file.name then
      ∃ slot start, d.FitsAt file slot start ∧ FitEach files (d.placed slot start file)
    else FitEach files d

/-- The disk keeps the entry when it is synchronised with the files. -/
def Kept (files : List FileEntry) (entry : DiskFileEntry) : Prop :=
  ∃ name, entryName entry = .ok name ∧ ∃ file ∈ files, isPersistablePath file.name = true ∧
    file.name = name

open Classical in
/-- The disk without the entries that are not kept. -/
noncomputable def swept (files : List FileEntry) : List ℕ → VirtioBlk → VirtioBlk
  | [], d => d
  | index :: indices, d =>
    if d.Active index ∧ ¬ Kept files (d.entryAt index) then
      swept files indices (d.store (fileTableStartSector + index) inactive.encode)
    else swept files indices d

variable {file : FileEntry} {files : List FileEntry} {slot start : ℕ}

theorem FitsAt.placeable (hfits : d.FitsAt file slot start) (h : d.Sound) (hdata : InMemory file) :
    d.SlotFor file.name slot ∧ d.Placeable slot start (blockCountForLen file.data.length) := by
  obtain ⟨target, free, hsearch, hslot, rfl, hfit⟩ := hfits
  exact ⟨⟨target, free, hsearch, hslot⟩,
    h.placeable_chosenStart hsearch hslot (blockCountForLen_le hdata) hfit⟩

theorem FitsAt.exec_upsertFileEntry (hfits : d.FitsAt file slot start) (h : d.Sound)
    (hdata : InMemory file) : d.exec (upsertFileEntry file) =
      .ok () (d.placed slot start file) (placeEvents slot start file) := by
  obtain ⟨hslotFor, hplaceable⟩ := hfits.placeable h hdata
  obtain ⟨target, free, hsearch, hslot, rfl, hfit⟩ := hfits
  rw [VirtioBlk.exec_upsertFileEntry, hsearch]
  simp only [hslot]
  have hchosen : d.exec (chooseBlocks (target.map fun i => (i, d.entryAt i))
      (blockCountForLen file.data.length)) =
        .ok (d.chosenStart target (blockCountForLen file.data.length)) d [] := by
    rcases d.chooseBlocks_cases target (blockCountForLen file.data.length) with
      ⟨hnone, hchoose⟩ | ⟨i, rfl, hsome, henough, hchoose⟩ | ⟨hsome, hmore, hchoose⟩
    · rw [hchoose, chosenStart, if_pos hnone]
      rfl
    · rw [hchoose, chosenStart_reused hsome henough]
      rfl
    · rw [hchoose, exec_allocateBlocks h.table h.valid, h.extents.rangeNotes_eq,
        if_pos (hfit hsome hmore), chosenStart_allocated hsome hmore]
  rw [hchosen, bind_ok, h.exec_placeFile hdata hslotFor.lt hplaceable, after_nil]

theorem Sound.marked (h : d.Sound) :
    (d.store 0 (d.superblock.setState fsStateDirty).sector).Sound :=
  (Change.setState (P := InMemory) d fsStateDirty).sound (fun _ hfile => hfile) h

/-- The name of the entry can be read, if the entry is in use. -/
def NameReadable (d : VirtioBlk) (index : ℕ) : Prop :=
  d.Active index → ∃ name, entryName (d.entryAt index) = .ok name

/-- The first entry with the name comes before any whose name cannot be read. -/
def HasName (d : VirtioBlk) (name : Str) : List ℕ → Prop
  | [] => False
  | index :: indices =>
    d.Active index ∧ entryName (d.entryAt index) = .ok name ∨
      d.NameReadable index ∧ d.HasName name indices

theorem NameReadable.cleared {index i : ℕ} (h : d.NameReadable i) :
    (d.store (fileTableStartSector + index) inactive.encode).NameReadable i := by
  have hentry := entryAt_store_entry (d := d) index i (e := inactive) length_replicate
  rw [NameReadable, Active, hentry]
  split_ifs
  · exact fun hactive => absurd rfl hactive
  · exact h

/-- The sweep can read all names, and then the files fit one after the other. -/
def SyncFits (d : VirtioBlk) (files : List FileEntry) : Prop :=
  (∀ i < maxFiles, d.NameReadable i) ∧
    FitEach files
      ((d.store 0 (d.superblock.setState fsStateDirty).sector).swept files (range maxFiles))

end VirtioBlk

namespace DiskOp

/-- What the disk before a call must meet: the file to save fits, there is a file
with the name to delete, and for a synchronisation the files fit one after the
other. -/
def Fits (disk : Disk) : DiskOp → Prop
  | .save file => ∃ slot start, disk.device.FitsAt file slot start
  | .delete name => disk.device.HasName name (range maxFiles)
  | .sync files => disk.device.SyncFits files

end DiskOp

end Waros.Kernel.Disk
