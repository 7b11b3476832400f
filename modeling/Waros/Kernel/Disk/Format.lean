import Waros.Lib.BlockProgram
import Waros.Lib.Bytes
import Waros.Kernel.Disk.Cache
import Waros.Kernel.Fs.WarFS

/-!
The disk format (`kernel/src/disk/format.rs`): a superblock in sector 0, a
table of 128 file entries of one sector each, and the data area in blocks of
eight sectors. The code is written as programs over sectors. Their notes say
which buffers are allocated and where a block or sector number wraps.
-/

namespace Waros.Kernel.Disk

open Lib Fs Sector BlockProgram
open Bytes (toU32 ofU32 ofU16 ofU64 toU64)

def warfsMagic : UInt32 := 0x57415246
def warfsVersion : UInt16 := 1
def blockSize : ℕ := 4096
def sectorsPerBlock : ℕ := blockSize / sectorSize
def maxFilename : ℕ := maxPathLen
def fileTableStartSector : ℕ := 1
def dataStartSector : ℕ := fileTableStartSector + maxFiles
def fsStateClean : UInt8 := 0
def fsStateDirty : UInt8 := 1

namespace Sector

/-- The field of `len` bytes at an offset. -/
def field (sector : Sector) (offset len : ℕ) : List UInt8 := Bytes.field offset len sector.bytes

def byteAt (sector : Sector) (offset : ℕ) : UInt8 := (sector.field offset 1).headD 0

/-- Replaces the field at an offset. -/
def put (sector : Sector) (offset : ℕ) (value : List UInt8) : Sector :=
  ofBytes (Bytes.put offset value sector.bytes)

variable {sector : Sector} {offset len offset' : ℕ} {value : List UInt8}

lemma put_bytes (h : offset + value.length ≤ 512) :
    (sector.put offset value).bytes = Bytes.put offset value sector.bytes := by
  apply ofBytes_bytes
  rw [Bytes.length_put (h.trans_eq sector.length_eq.symm), sector.length_eq]

lemma field_put_same (hlen : value.length = len) (h : offset + len ≤ 512) :
    (sector.put offset value).field offset len = value := by
  have hsct : sector.bytes.length = 512 := sector.length_eq
  rw [field, put_bytes (by omega), Bytes.field_put_same hlen (by omega)]

lemma field_put_before (hbef : offset + len ≤ offset') (h : offset' + value.length ≤ 512) :
    (sector.put offset' value).field offset len = sector.field offset len := by
  have hsct : sector.bytes.length = 512 := sector.length_eq
  rw [field, put_bytes h, Bytes.field_put_before hbef (by omega), field]

end Sector

/-- Sector 0, read as the `repr(C)` structure `Superblock`. -/
structure Superblock where
  sector : Sector

namespace Superblock

def magic (sb : Superblock) : UInt32 := toU32 (sb.sector.field 0 4)
def version (sb : Superblock) : UInt16 := Bytes.toU16 (sb.sector.field 4 2)
def totalBlocks (sb : Superblock) : UInt32 := toU32 (sb.sector.field 48 4)
def state (sb : Superblock) : UInt8 := sb.sector.byteAt 84

def isValid (sb : Superblock) : Bool := sb.magic == warfsMagic && sb.version == warfsVersion

/-- Assigns a field. -/
def set (sb : Superblock) (offset : ℕ) (value : List UInt8) : Superblock :=
  ⟨sb.sector.put offset value⟩

def setUsedBlocks (sb : Superblock) (usedBlocks : UInt32) : Superblock :=
  sb.set 52 (ofU32 usedBlocks)

def setFileCount (sb : Superblock) (fileCount : UInt16) : Superblock := sb.set 56 (ofU16 fileCount)

def setState (sb : Superblock) (state : UInt8) : Superblock := sb.set 84 [state]

/-- The bytes of `WarOS Disk`. -/
def diskLabel : List UInt8 := [87, 97, 114, 79, 83, 32, 68, 105, 115, 107]

def new (totalSectors : ℕ) (createdAt : UInt64) : Superblock :=
  let dataSectors := totalSectors - dataStartSector
  let totalBlocks := .ofNat (dataSectors / sectorsPerBlock)
  (⟨zero⟩ : Superblock)
    |>.set 0 (ofU32 warfsMagic)
    |>.set 4 (ofU16 warfsVersion)
    |>.set 6 diskLabel
    |>.set 40 (ofU64 (.ofNat totalSectors))
    |>.set 48 (ofU32 totalBlocks)
    |>.set 60 (ofU32 (.ofNat blockSize))
    |>.set 64 (ofU64 createdAt)

variable {offset : ℕ} {value : List UInt8}

lemma isValid_set {sb : Superblock} (hoff : 6 ≤ offset)
    (h : offset + value.length ≤ 512) : (sb.set offset value).isValid = sb.isValid := by
  rw [isValid, isValid, magic, version, set, field_put_before (by omega) h,
    field_put_before (by omega) h, magic, version]

lemma totalBlocks_set {sb : Superblock} (hoff : 52 ≤ offset) (h : offset + value.length ≤ 512) :
    (sb.set offset value).totalBlocks = sb.totalBlocks := by
  rw [totalBlocks, set, field_put_before (by omega) h, totalBlocks]

variable (sb : Superblock) (state : UInt8) (usedBlocks : UInt32) (fileCount : UInt16)
  (totalSectors : ℕ) (createdAt : UInt64)

@[simp] lemma isValid_setState :
    (sb.setState state).isValid = sb.isValid := isValid_set (by decide) (by simp)

@[simp] lemma totalBlocks_setState :
    (sb.setState state).totalBlocks = sb.totalBlocks := totalBlocks_set (by decide) (by simp)

@[simp] lemma isValid_setUsedBlocks :
    (sb.setUsedBlocks usedBlocks).isValid = sb.isValid := isValid_set (by decide) (by simp)

@[simp] lemma totalBlocks_setUsedBlocks :
    (sb.setUsedBlocks usedBlocks).totalBlocks = sb.totalBlocks :=
  totalBlocks_set (by decide) (by simp)

@[simp] lemma isValid_setFileCount :
    (sb.setFileCount fileCount).isValid = sb.isValid := isValid_set (by decide) (by simp)

@[simp] lemma totalBlocks_setFileCount : (sb.setFileCount fileCount).totalBlocks = sb.totalBlocks :=
  totalBlocks_set (by decide) (by simp)

lemma isValid_new : (new totalSectors createdAt).isValid := by
  simp [new, isValid, magic, version, set, field_put_same, field_put_before, diskLabel]

lemma totalBlocks_new :
    (new totalSectors createdAt).totalBlocks =
      .ofNat ((totalSectors - dataStartSector) / sectorsPerBlock) := by
  simp [new, totalBlocks, set, field_put_same, field_put_before]

end Superblock

/-- An entry of the file table. The name is a field of `maxFilename` bytes. -/
structure DiskFileEntry where
  active : UInt8
  name : List UInt8
  size : UInt64
  ownerUid : UInt16
  permOwnerRead : UInt8
  permOwnerWrite : UInt8
  permOthersRead : UInt8
  permOthersWrite : UInt8
  readonly : UInt8
  createdAt : UInt64
  modifiedAt : UInt64
  startBlock : UInt32
  blockCount : UInt32

namespace DiskFileEntry

def inactive : DiskFileEntry := ⟨0, .replicate maxFilename 0, 0, 0, 0, 0, 0, 0, 0, 0, 0, 0, 0⟩

/-- The `repr(C)` layout; padding and the reserved bytes are zero. -/
def encode (entry : DiskFileEntry) : Sector :=
  zero
    |>.put 0 [entry.active]
    |>.put 1 entry.name
    |>.put 104 (ofU64 entry.size)
    |>.put 112 (ofU16 entry.ownerUid)
    |>.put 114 [entry.permOwnerRead]
    |>.put 115 [entry.permOwnerWrite]
    |>.put 116 [entry.permOthersRead]
    |>.put 117 [entry.permOthersWrite]
    |>.put 118 [entry.readonly]
    |>.put 120 (ofU64 entry.createdAt)
    |>.put 128 (ofU64 entry.modifiedAt)
    |>.put 136 (ofU32 entry.startBlock)
    |>.put 140 (ofU32 entry.blockCount)

def decode (sector : Sector) : DiskFileEntry where
  active := sector.byteAt 0
  name := sector.field 1 maxFilename
  size := toU64 (sector.field 104 8)
  ownerUid := Bytes.toU16 (sector.field 112 2)
  permOwnerRead := sector.byteAt 114
  permOwnerWrite := sector.byteAt 115
  permOthersRead := sector.byteAt 116
  permOthersWrite := sector.byteAt 117
  readonly := sector.byteAt 118
  createdAt := toU64 (sector.field 120 8)
  modifiedAt := toU64 (sector.field 128 8)
  startBlock := toU32 (sector.field 136 4)
  blockCount := toU32 (sector.field 140 4)

lemma decode_encode {entry : DiskFileEntry} (hnm : entry.name.length = maxFilename) :
    decode entry.encode = entry := by
  have hnm' : entry.name.length = 96 := hnm
  simp [decode, encode, byteAt, field_put_same, field_put_before, hnm', maxFilename, maxPathLen]

end DiskFileEntry

/-- What the programs note: the buffers they allocate, and numbers of blocks or
sectors that do not fit their type. -/
inductive DiskNote
  | allocated (bytes : ℕ)
  | wrapped

abbrev DiskM := BlockProgram Sector DiskError DiskNote

def readEach : List ℕ → DiskM (List UInt8)
  | [] => pure []
  | sector :: sectors => do
    let data ← readBlock sector
    let bytes ← readEach sectors
    pure (data.bytes ++ bytes)

variable (sector count : ℕ) (buffer : List UInt8) (index : ℕ) (entry : DiskFileEntry)
  (startBlock : ℕ)

/-- `Disk::read_sectors`; returns the buffer as the request leaves it. -/
def readSectors : DiskM (List UInt8) :=
  if buffer.length < count * sectorSize then .fail .bufferTooSmall
  else do
    let bytes ← readEach (addresses sector count)
    pure (bytes ++ buffer.drop (count * sectorSize))

def writeEach : List (ℕ × Sector) → DiskM Unit
  | [] => pure ()
  | (sector, data) :: writes => do
    writeBlock sector data
    writeEach writes

def writeSectors : DiskM Unit :=
  if buffer.length < count * sectorSize then .fail .bufferTooSmall
  else
    writeEach ((List.range count).map fun index =>
      (U64.wrappingAdd sector index, slice buffer index))

/-- `vec![0u8; n]`. -/
def zeroed (n : ℕ) : DiskM (List UInt8) := do
  annotate (.allocated n)
  pure (.replicate n 0)

/-- A number as `u32`, noting when it does not fit. -/
def asU32 (n : ℕ) : DiskM ℕ := do
  if n ≥ 2 ^ 32 then annotate .wrapped
  pure (n % 2 ^ 32)

def readSuperblock : DiskM Superblock := do
  let buffer ← readBlock 0
  let superblock : Superblock := ⟨buffer⟩
  if !superblock.isValid then .fail .formatError
  pure superblock

def writeSuperblock (superblock : Superblock) : DiskM Unit := writeBlock 0 superblock.sector

def setSuperblockState (state : UInt8) : DiskM Unit := do
  let superblock ← readSuperblock
  writeSuperblock (superblock.setState state)

def formatDisk (capacitySectors : ℕ) (now : UInt64) : DiskM Unit := do
  writeSuperblock (.new capacitySectors now)
  writeEach ((List.range' fileTableStartSector maxFiles).map fun sector => (sector, zero))

def readFileEntry : DiskM DiskFileEntry :=
  if index ≥ maxFiles then .fail .outOfBounds
  else do
    let buffer ← readBlock (fileTableStartSector + index)
    pure (.decode buffer)

def writeFileEntry : DiskM Unit :=
  if index ≥ maxFiles then .fail .outOfBounds
  else writeBlock (fileTableStartSector + index) entry.encode

def entryName : Except DiskError Str :=
  match Str.ofUtf8 (entry.name.takeWhile (· ≠ 0)) with
  | some name => .ok name
  | none => .error .corruptedData

def countActiveFiles : DiskM UInt16 :=
  (List.range maxFiles).foldlM (fun count index => do
    let entry ← readFileEntry index
    pure (if entry.active ≠ 0 then .ofNat (min (count.toNat + 1) (2 ^ 16 - 1)) else count)) 0

def countUsedBlocks : DiskM UInt32 :=
  (List.range maxFiles).foldlM (fun count index => do
    let entry ← readFileEntry index
    pure (if entry.active ≠ 0 then
      .ofNat (min (count.toNat + entry.blockCount.toNat) (2 ^ 32 - 1)) else count)) 0

def refreshSuperblock (state : UInt8) : DiskM Superblock := do
  let superblock ← readSuperblock
  let usedBlocks ← countUsedBlocks
  let fileCount ← countActiveFiles
  let superblock := ((superblock.setUsedBlocks usedBlocks).setFileCount fileCount).setState state
  writeSuperblock superblock
  pure superblock

def blockCountForLen (len : ℕ) : ℕ :=
  if len = 0 then 0 else (len + (blockSize - 1)) / blockSize % 2 ^ 32

def startSectorOf : ℕ := dataStartSector + startBlock * sectorsPerBlock

def readFileData (startBlock blockCount : ℕ) (buffer : List UInt8) : DiskM (List UInt8) := do
  let totalSectors ← asU32 (blockCount * sectorsPerBlock)
  readSectors (startSectorOf startBlock) totalSectors buffer

/-- Returns the number of blocks written. Copying the data into the padded
buffer panics when it does not fit. -/
def writeFileData (data : List UInt8) : DiskM ℕ :=
  let blocksNeeded := blockCountForLen data.length
  if blocksNeeded = 0 then pure 0
  else do
    let padded ← zeroed (blocksNeeded * blockSize)
    if padded.length < data.length then .panics
    let totalSectors ← asU32 (blocksNeeded * sectorsPerBlock)
    writeSectors (startSectorOf startBlock) totalSectors (Bytes.put 0 data padded)
    pure blocksNeeded

/-- The ranges of blocks that the active entries occupy, except for one of
them. -/
def usedRanges (ignoreIndex : Option ℕ) : DiskM (List (ℕ × ℕ)) :=
  (List.range maxFiles).foldlM (fun ranges index =>
    if some index = ignoreIndex then pure ranges
    else do
      let entry ← readFileEntry index
      if entry.active = 0 ∨ entry.blockCount = 0 then pure ranges
      else do
        let stop ← asU32 (entry.startBlock.toNat + entry.blockCount.toNat)
        pure (ranges ++ [(entry.startBlock.toNat, stop)])) []

/-- The first gap of `count` blocks between sorted ranges, or the end of the
last one. -/
def firstGap (count : ℕ) : ℕ → List (ℕ × ℕ) → ℕ × Bool
  | candidate, [] => (candidate, false)
  | candidate, (start, stop) :: ranges =>
    if min (candidate + count) (2 ^ 32 - 1) ≤ start then (candidate, true)
    else firstGap count (max candidate stop) ranges

/-- First fit. Ranges with the same start may be sorted in any order: none of
them leaves a gap before another. -/
def allocateBlocks (count : ℕ) (ignoreIndex : Option ℕ) : DiskM ℕ := do
  let superblock ← readSuperblock
  let ranges ← usedRanges ignoreIndex
  let (candidate, found) := firstGap count 0 (ranges.insertionSort fun a b => a.1 ≤ b.1)
  if found ∨ min (candidate + count) (2 ^ 32 - 1) ≤ superblock.totalBlocks.toNat then
    pure candidate
  else .fail .diskFull

end Waros.Kernel.Disk
