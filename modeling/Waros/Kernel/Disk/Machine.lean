import Waros.Kernel.Disk.Format

/-!
Saving WarFS to the disk and loading it back (`kernel/src/disk/persist.rs`).
-/

namespace Waros.Kernel.Disk

open Lib Auth Fs BlockProgram

def readmePath : Str := "/readme.txt".toList
def sysinfoPath : Str := "/sysinfo.txt".toList

/-- Two files are generated at every boot and are not kept on the disk. -/
def isPersistablePath (path : Str) : Bool := path != readmePath && path != sysinfoPath

structure LoadedFile where
  name : Str
  data : List UInt8
  ownerUid : UInt16
  permissions : FilePermissions
  readonly : Bool
  createdAt : ℕ
  modifiedAt : ℕ

variable (entry : DiskFileEntry) (file : FileEntry)

/-- The bytes of the file that an entry describes. Cutting the block buffer to
the size of the file panics when the blocks are too few. -/
def loadData : DiskM (List UInt8) := do
  let data ← zeroed entry.size.toNat
  if entry.blockCount ≠ 0 ∧ entry.size ≠ 0 then do
    let blockBuffer ← zeroed (entry.blockCount.toNat * blockSize)
    let blockBuffer ←
      readFileData entry.startBlock.toNat entry.blockCount.toNat blockBuffer
    if blockBuffer.length < entry.size.toNat then .panics
    pure (blockBuffer.take entry.size.toNat)
  else pure data

def loadEntry : DiskM (Option LoadedFile) :=
  if entry.active = 0 then pure none
  else do
    let name ← lift (entryName entry)
    if !isPersistablePath name then pure none
    else do
      let data ← loadData entry
      let permissions : FilePermissions :=
        ⟨entry.ownerUid, entry.permOwnerRead != 0, entry.permOwnerWrite != 0,
          entry.permOthersRead != 0, entry.permOthersWrite != 0⟩
      pure (some ⟨name, data, entry.ownerUid, permissions, entry.readonly != 0,
        entry.createdAt.toNat, entry.modifiedAt.toNat⟩)

def loadIndex (state : ℕ × WarFS) (index : ℕ) : DiskM (ℕ × WarFS) := do
  let entry ← readFileEntry index
  match ← loadEntry entry with
  | none => pure state
  | some file =>
    match state.2.loadFileFromDisk file.name file.data file.ownerUid file.permissions
      file.readonly file.createdAt file.modifiedAt with
    | (.ok (), fs) => pure (state.1 + 1, fs)
    | (.error error, _) => .fail (.filesystemError error)

def loadFilesystem (fs : WarFS) : DiskM (ℕ × WarFS) :=
  (List.range maxFiles).foldlM loadIndex (0, fs)

/-- The search of `upsert_file_entry`: the entry with the name, and the first
free one before it. -/
def findSlot (name : Str) :
    List ℕ → Option ℕ → DiskM (Option (ℕ × DiskFileEntry) × Option ℕ)
  | [], emptyIndex => pure (none, emptyIndex)
  | index :: indices, emptyIndex => do
    let entry ← readFileEntry index
    if entry.active ≠ 0 then do
      let found ← lift (entryName entry)
      if found = name then pure (some (index, entry), emptyIndex)
      else findSlot name indices emptyIndex
    else findSlot name indices (emptyIndex.or (some index))

/-- The name field: the bytes of the name, except for the last one of a name
that fills the field. -/
def nameField (name : Str) : List UInt8 :=
  Bytes.put 0 ((Str.toUtf8 name).take (maxFilename - 1)) (.replicate maxFilename 0)

def flag (b : Bool) : UInt8 := if b then 1 else 0

def diskEntry (startBlock blockCount : ℕ) : DiskFileEntry where
  active := 1
  name := nameField file.name
  size := .ofNat file.data.length
  ownerUid := file.ownerUid
  permOwnerRead := flag file.permissions.ownerRead
  permOwnerWrite := flag file.permissions.ownerWrite
  permOthersRead := flag file.permissions.othersRead
  permOthersWrite := flag file.permissions.othersWrite
  readonly := flag file.readonly
  createdAt := .ofNat file.createdAt
  modifiedAt := .ofNat file.modifiedAt
  startBlock := .ofNat startBlock
  blockCount := .ofNat blockCount

/-- Where the data goes: over the old blocks if they suffice, else to new ones. -/
def chooseBlocks (target : Option (ℕ × DiskFileEntry)) (blocksNeeded : ℕ) : DiskM ℕ :=
  if blocksNeeded = 0 then pure 0
  else
    match target with
    | some (index, existing) =>
      if existing.blockCount.toNat ≥ blocksNeeded then pure existing.startBlock.toNat
      else allocateBlocks blocksNeeded (some index)
    | none => allocateBlocks blocksNeeded none

/-- The end of `upsert_file_entry`: the data is written, then the entry. -/
def placeFile (index startBlock : ℕ) : DiskM Unit := do
  let blocksNeeded := blockCountForLen file.data.length
  if blocksNeeded ≠ 0 then
    let _ ← writeFileData startBlock file.data
  writeFileEntry index (diskEntry file startBlock blocksNeeded)

def upsertFileEntry : DiskM Unit := do
  let (target, emptyIndex) ← findSlot file.name (.range maxFiles) none
  match (target.map Prod.fst).or emptyIndex with
  | none => .fail .diskFull
  | some index => do
    let startBlock ← chooseBlocks target (blockCountForLen file.data.length)
    placeFile file index startBlock

def saveEntry : DiskM Unit := do
  setSuperblockState fsStateDirty
  upsertFileEntry file
  let _ ← refreshSuperblock fsStateClean

/-- Clears the first entry with the name, and returns whether there is one. -/
def clearEntry (name : Str) : List ℕ → DiskM Bool
  | [] => pure false
  | index :: indices => do
    let entry ← readFileEntry index
    if entry.active = 0 then clearEntry name indices
    else do
      let found ← lift (entryName entry)
      if found = name then do
        writeFileEntry index .inactive
        pure true
      else clearEntry name indices

def deleteFileFromDisk (name : Str) : DiskM Unit := do
  setSuperblockState fsStateDirty
  let found ← clearEntry name (.range maxFiles)
  if !found then .fail .fileNotFound
  let _ ← refreshSuperblock fsStateClean

/-- Clears the entries whose file no longer exists. -/
def sweep (files : List FileEntry) : List ℕ → DiskM Unit
  | [] => pure ()
  | index :: indices => do
    let entry ← readFileEntry index
    if entry.active = 0 then sweep files indices
    else do
      let name ← lift (entryName entry)
      let shouldKeep := files.any fun file => isPersistablePath file.name && file.name == name
      if !shouldKeep then writeFileEntry index .inactive
      sweep files indices

def upsertEach : List FileEntry → ℕ → DiskM ℕ
  | [], synced => pure synced
  | file :: files, synced =>
    if !isPersistablePath file.name then upsertEach files synced
    else do
      upsertFileEntry file
      upsertEach files (synced + 1)

def syncFilesystem (files : List FileEntry) : DiskM ℕ := do
  setSuperblockState fsStateDirty
  sweep files (.range maxFiles)
  let synced ← upsertEach files 0
  let _ ← refreshSuperblock fsStateClean
  pure synced

/-!
## Running programs

Running the programs of the disk layer: on the device, and on the disk with its
cache. The cache makes no difference, so everything else is stated and proved
about the device. The superblock, the table and the data area are named here,
with what the programs of the format do to them.
-/

open Execution VirtioBlk List Nat

def VirtioBlk.handler : BlockHandler VirtioBlk Sector DiskError where
  read device sector := (device.readSector sector, device)
  write device sector data := device.writeSector sector data

/-- Every request goes through the cache. -/
def handler : BlockHandler Disk Sector DiskError where
  read disk sector :=
    let (result, cache) := disk.cache.readSector disk.device sector
    (result, ⟨disk.device, cache⟩)
  write disk sector data :=
    let (result, cache, device) := disk.cache.writeSector disk.device sector data
    (result, ⟨device, cache⟩)

/-- Running a program on the device alone. -/
def VirtioBlk.exec {α : Type} (device : VirtioBlk) (p : DiskM α) :
    Execution VirtioBlk Sector DiskError DiskNote α :=
  BlockProgram.exec handler p device

/-- Running a program on the disk. -/
def exec {α : Type} (disk : Disk) (p : DiskM α) :
    Execution Disk Sector DiskError DiskNote α :=
  BlockProgram.exec handler p disk

/-- The disk is this device behind a coherent cache. -/
def Fronts (disk : Disk) (device : VirtioBlk) : Prop :=
  disk.device = device ∧ disk.cache.Coherent device

lemma handler_simulates : Simulation handler VirtioBlk.handler Fronts where
  read := by
    rintro disk device sec ⟨rfl, hcoh⟩
    obtain ⟨cache', hrd, -, hcoh'⟩ := hcoh.readSector sec
    simp only [handler, VirtioBlk.handler, hrd]
    exact ⟨trivial, rfl, hcoh'⟩
  write := by
    rintro disk device sec data ⟨rfl, hcoh⟩
    obtain ⟨cache', hwr, -, hcoh'⟩ := hcoh.writeSector sec data
    simp only [handler, VirtioBlk.handler, hwr]
    exact ⟨trivial, rfl, hcoh'⟩

lemma Fronts.exec {α : Type} {disk : Disk} {dev : VirtioBlk} (h : Fronts disk dev) (p : DiskM α) :
    (exec disk p).outcome = (dev.exec p).outcome ∧ (exec disk p).trace = (dev.exec p).trace ∧
      Fronts (exec disk p).state (dev.exec p).state :=
  exec_simulates handler_simulates p h

/-! ### Single sectors -/

section
variable {d : VirtioBlk}

lemma accepts_of_lt {a : ℕ} (h : a < d.capacitySectors) : d.accepts a := by
  rw [accepts, decide_eq_true_eq, U64.saturatingAdd]
  omega

namespace VirtioBlk

variable {α γ : Type}

lemma exec_bind (p : DiskM α) (f : α → DiskM γ) :
    d.exec (p >>= f) = (d.exec p).bind fun value d => d.exec (f value) :=
  BlockProgram.exec_bind handler p f d

@[simp] lemma exec_pure (v : α) : d.exec (pure v) = .ok v d [] := rfl

variable (error : DiskError) {a : ℕ} {index : ℕ} (base n : ℕ) (contents : ℕ → Sector)
  {buffer : List UInt8} {startBlock blockCount : ℕ} {data : List UInt8}

@[simp] lemma exec_fail : d.exec (.fail error : DiskM α) = .error error d [] := rfl

@[simp] lemma exec_annotate (ev : DiskNote) : d.exec (annotate ev) = .ok () d [.noted ev] := rfl

@[simp] lemma exec_lift_ok (v : α) : d.exec (lift (.ok v)) = .ok v d [] := rfl

lemma exec_readBlock (h : d.accepts a) : d.exec (readBlock a) = .ok (d.sectors a) d [] := by
  simp [exec, readBlock, BlockProgram.exec, handler, readSector, h]

lemma exec_readBlock_refused (h : d.accepts a = false) :
    d.exec (readBlock a) = .error .outOfBounds d [] := by
  simp [exec, readBlock, BlockProgram.exec, handler, readSector, h]

lemma exec_writeBlock (h : d.accepts a) (data : Sector) :
    d.exec (writeBlock a data) = .ok () (d.store a data) [.wrote a data] := by
  simp [exec, writeBlock, BlockProgram.exec, handler, writeSector, h]

lemma exec_readEach_eq (ss : List ℕ) :
    d.exec (readEach ss) =
      if ss.all d.accepts then .ok (ss.flatMap fun a => (d.sectors a).bytes) d []
      else .error .outOfBounds d [] := by
  induction ss with
  | nil => rfl
  | cons a _ ih =>
    rw [readEach, exec_bind, all_cons]
    cases ha : d.accepts a with
    | true =>
      rw [exec_readBlock ha, bind_ok, exec_bind, ih, Bool.true_and]
      split_ifs <;> rfl
    | false =>
      rw [exec_readBlock_refused ha]
      rfl

lemma exec_readEach {ss : List ℕ} (h : ∀ a ∈ ss, d.accepts a) :
    d.exec (readEach ss) = .ok (ss.flatMap fun a => (d.sectors a).bytes) d [] := by
  rw [exec_readEach_eq, if_pos (all_eq_true.2 h)]

lemma exec_writeBlock_refused (h : d.accepts a = false) (data : Sector) :
    d.exec (writeBlock a data) = .error .outOfBounds d [] := by
  simp [exec, writeBlock, BlockProgram.exec, handler, writeSector, h]

def storeEach (d : VirtioBlk) (writes : List (ℕ × Sector)) : VirtioBlk :=
  writes.foldl (fun d w => d.store w.1 w.2) d

lemma storeEach_append (writes writes' : List (ℕ × Sector)) :
    d.storeEach (writes ++ writes') = (d.storeEach writes).storeEach writes' :=
  foldl_append

lemma exec_writeEach {ws : List (ℕ × Sector)} (h : ∀ w ∈ ws, d.accepts w.1) :
    d.exec (writeEach ws) = .ok () (d.storeEach ws) (ws.map fun w => .wrote w.1 w.2) := by
  induction ws generalizing d with
  | nil => rfl
  | cons w _ ih =>
    have hr := ih (d := d.store w.1 w.2) fun v hv => h v (by simp [hv])
    rw [writeEach, exec_bind, exec_writeBlock (h w (by simp)), bind_ok, hr]
    rfl

/-! ### The superblock and the table -/

/-- The device has room for the superblock and the table. -/
def HasTable (d : VirtioBlk) : Prop := dataStartSector ≤ d.capacitySectors

def superblock (d : VirtioBlk) : Superblock := ⟨d.sectors 0⟩

def entryAt (d : VirtioBlk) (index : ℕ) : DiskFileEntry :=
  .decode (d.sectors (fileTableStartSector + index))

lemma HasTable.accepts_zero (h : d.HasTable) : d.accepts 0 :=
  accepts_of_lt (lt_of_lt_of_le (by decide) h)

lemma HasTable.accepts_entry (h : d.HasTable) (hi : index < maxFiles) :
    d.accepts (fileTableStartSector + index) :=
  accepts_of_lt (lt_of_lt_of_le (Nat.add_lt_add_left hi _) h)

lemma exec_readSuperblock (h : d.accepts 0) :
    d.exec readSuperblock =
      if d.superblock.isValid then .ok d.superblock d [] else .error .formatError d [] := by
  rw [readSuperblock, exec_bind, exec_readBlock h]
  cases hval : (⟨d.sectors 0⟩ : Superblock).isValid with
  | true => simp [superblock, hval]
  | false => simp [superblock, hval]; rfl

lemma exec_readFileEntry_eq (hidx : index < maxFiles) :
    d.exec (readFileEntry index) =
      if d.accepts (fileTableStartSector + index) then .ok (d.entryAt index) d []
      else .error .outOfBounds d [] := by
  rw [readFileEntry, if_neg (not_le.2 hidx), exec_bind]
  split_ifs with hacc
  · rw [exec_readBlock hacc]
    rfl
  · rw [exec_readBlock_refused (by simpa using hacc)]
    rfl

lemma exec_readFileEntry (h : d.HasTable) (hi : index < maxFiles) :
    d.exec (readFileEntry index) = .ok (d.entryAt index) d [] := by
  rw [exec_readFileEntry_eq hi, if_pos (h.accepts_entry hi)]

lemma exec_writeFileEntry (h : d.HasTable) (hi : index < maxFiles) (e : DiskFileEntry) :
    d.exec (writeFileEntry index e) = .ok () (d.store (fileTableStartSector + index) e.encode)
        [.wrote (fileTableStartSector + index) e.encode] := by
  rw [writeFileEntry, if_neg (not_le.2 hi), exec_writeBlock (h.accepts_entry hi)]

lemma exec_setSuperblockState (h : d.accepts 0) (st : UInt8) :
    d.exec (setSuperblockState st) = if d.superblock.isValid then
        .ok () (d.store 0 (d.superblock.setState st).sector)
          [.wrote 0 (d.superblock.setState st).sector]
      else .error .formatError d [] := by
  rw [setSuperblockState, exec_bind, exec_readSuperblock h]
  split_ifs
  · rw [bind_ok, after_nil, writeSuperblock, exec_writeBlock h]
  · rfl

/-- A loop over the table that leaves the device alone. -/
lemma exec_tableLoop {f : γ → ℕ → DiskM γ} {g : γ → ℕ → γ}
    {t : ℕ → List (BlockEvent Sector DiskNote)}
    (hbody : ∀ c index, index < maxFiles → d.exec (f c index) = .ok (g c index) d (t index))
    (c : γ) :
    d.exec ((range maxFiles).foldlM f c) =
      .ok ((range maxFiles).foldl g c) d ((range maxFiles).flatMap t) :=
  exec_foldlM handler
    (fun c index hidx => hbody c index (mem_range.1 hidx)) c

def usedBlocks (d : VirtioBlk) : UInt32 :=
  (range maxFiles).foldl (fun count index =>
    if (d.entryAt index).active ≠ 0 then
      .ofNat (min (count.toNat + (d.entryAt index).blockCount.toNat) (2 ^ 32 - 1))
    else count) 0

def activeFiles (d : VirtioBlk) : UInt16 :=
  (range maxFiles).foldl (fun count index =>
    if (d.entryAt index).active ≠ 0 then .ofNat (min (count.toNat + 1) (2 ^ 16 - 1))
    else count) 0

lemma exec_countUsedBlocks (h : d.HasTable) : d.exec countUsedBlocks = .ok d.usedBlocks d [] := by
  rw [countUsedBlocks, exec_tableLoop (t := fun _ => [])]
  · rfl
  · intro cnt index hidx
    rw [exec_bind, exec_readFileEntry h hidx]
    rfl

lemma exec_countActiveFiles (h : d.HasTable) :
    d.exec countActiveFiles = .ok d.activeFiles d [] := by
  rw [countActiveFiles, exec_tableLoop (t := fun _ => [])]
  · rfl
  · intro cnt index hidx
    rw [exec_bind, exec_readFileEntry h hidx]
    rfl

/-- The superblock that `refresh_superblock` writes. -/
def refreshed (d : VirtioBlk) (state : UInt8) : Superblock :=
  ((d.superblock.setUsedBlocks d.usedBlocks).setFileCount d.activeFiles).setState state

lemma exec_refreshSuperblock (h : d.HasTable) (hval : d.superblock.isValid) (st : UInt8) :
    d.exec (refreshSuperblock st) = .ok (d.refreshed st) (d.store 0 (d.refreshed st).sector)
        [.wrote 0 (d.refreshed st).sector] := by
  rw [refreshSuperblock, exec_bind, exec_readSuperblock h.accepts_zero, if_pos hval, bind_ok,
    exec_bind, exec_countUsedBlocks h, bind_ok, exec_bind, exec_countActiveFiles h, bind_ok,
    exec_bind, writeSuperblock, exec_writeBlock h.accepts_zero]
  rfl

/-! ### The data area -/

/-- The sectors `base`, …, `base + n - 1` replaced. -/
def storeRange (d : VirtioBlk) (base n : ℕ) (contents : ℕ → Sector) : VirtioBlk :=
  { d with
    sectors := fun a => if base ≤ a ∧ a < base + n then contents (a - base) else d.sectors a }

lemma storeEach_range :
    d.storeEach ((range n).map fun index => (base + index, contents index)) =
      d.storeRange base n contents := by
  induction n with
  | zero =>
    rw [storeRange]
    simp [storeEach, show ∀ a, ¬ (base ≤ a ∧ a < base) by omega]
  | succ n ih =>
    rw [range_succ, map_append, storeEach_append, ih, map_singleton, storeEach,
      foldl_cons, foldl_nil, store, storeRange]
    congr 1
    funext a
    dsimp only
    by_cases ha : a = base + n
    · rw [if_pos ha, if_pos (by omega), ha, Nat.add_sub_cancel_left]
    · rw [if_neg ha]
      by_cases hin : base ≤ a ∧ a < base + n
      · rw [if_pos hin, if_pos (by omega)]
      · rw [if_neg hin, if_neg (by omega)]

lemma storeRange_of_lt {base n a : ℕ} (h : a < base) :
    (d.storeRange base n contents).sectors a = d.sectors a :=
  if_neg (by omega)

def extentBytes (d : VirtioBlk) (startBlock blockCount : ℕ) : List UInt8 :=
  (range (blockCount * sectorsPerBlock)).flatMap fun index =>
    (d.sectors (startSectorOf startBlock + index)).bytes

lemma length_flatMap_sectors (f : ℕ → Sector) (n : ℕ) :
    ((range n).flatMap fun index => (f index).bytes).length = n * sectorSize := by
  induction n with
  | zero => rfl
  | succ n ih =>
    rw [range_succ, flatMap_append, length_append, ih, flatMap_singleton, (f n).length_eq, succ_mul]

lemma length_extentBytes (b cnt : ℕ) : (d.extentBytes b cnt).length = cnt * blockSize := by
  rw [extentBytes, length_flatMap_sectors, mul_assoc]
  rfl

/-- The sectors of a buffer make up the buffer. -/
lemma flatMap_slice {n : ℕ} (h : buffer.length = n * sectorSize) :
    ((range n).flatMap fun index => (slice buffer index).bytes) = buffer := by
  have hfst : ∀ m ≤ n, ((range m).flatMap fun index => (slice buffer index).bytes) =
      buffer.take (m * sectorSize) := by
    intro m hm
    induction m with
    | zero => simp
    | succ m ih =>
      have hrm : (m + 1) * sectorSize ≤ buffer.length := by
        rw [h]
        exact mul_le_mul_right _ hm
      have hsli : (slice buffer m).bytes = (buffer.drop (m * sectorSize)).take sectorSize := by
        apply Sector.ofBytes_bytes
        rw [succ_mul] at hrm
        simp only [length_take, length_drop]
        omega
      rw [range_succ, flatMap_append, ih (by omega), flatMap_singleton, hsli, succ_mul, take_add]
  rw [hfst n le_rfl, take_of_length_le h.le]

lemma exec_asU32 (n : ℕ) :
    d.exec (asU32 n) = .ok (n % 2 ^ 32) d (if n ≥ 2 ^ 32 then [.noted .wrapped] else []) := by
  rw [asU32]
  split_ifs <;> rfl

lemma exec_asU32_of_lt {n : ℕ} (h : n < 2 ^ 32) : d.exec (asU32 n) = .ok n d [] := by
  rw [exec_asU32, if_neg (not_le.2 h), mod_eq_of_lt h]

def HasBlocks (d : VirtioBlk) (startBlock blockCount : ℕ) : Prop :=
  startSectorOf (startBlock + blockCount) ≤ d.capacitySectors ∧ startBlock + blockCount < 2 ^ 29

lemma HasBlocks.accepts (h : d.HasBlocks startBlock blockCount)
    (hidx : index < blockCount * sectorsPerBlock) :
    d.accepts (startSectorOf startBlock + index) := by
  apply accepts_of_lt
  refine lt_of_lt_of_le ?_ h.1
  rw [startSectorOf, startSectorOf, add_mul]
  omega

lemma HasBlocks.count_lt (h : d.HasBlocks startBlock blockCount) :
    blockCount * sectorsPerBlock < 2 ^ 32 := by
  have := h.2
  simp only [sectorsPerBlock, blockSize, sectorSize]
  omega

lemma wrappingAdd_startSectorOf {b index : ℕ} (hst : b < 2 ^ 32) (hidx : index < 2 ^ 32) :
    U64.wrappingAdd (startSectorOf b) index = startSectorOf b + index := by
  apply U64.wrappingAdd_of_lt
  simp only [startSectorOf, dataStartSector, fileTableStartSector, maxFiles, sectorsPerBlock,
    blockSize, sectorSize] at *
  omega

section
variable (h : d.HasBlocks startBlock blockCount)
include h

lemma HasBlocks.wrappingAdd_eq (hidx : index < blockCount * sectorsPerBlock) :
    U64.wrappingAdd (startSectorOf startBlock) index = startSectorOf startBlock + index := by
  have hbd := h.2
  exact wrappingAdd_startSectorOf (by omega) (hidx.trans h.count_lt)

lemma HasBlocks.addresses_eq :
    addresses (startSectorOf startBlock) (blockCount * sectorsPerBlock) =
      (range (blockCount * sectorsPerBlock)).map (startSectorOf startBlock + ·) :=
  map_congr_left fun _ hidx => h.wrappingAdd_eq (mem_range.1 hidx)

lemma exec_readFileData (hbuf : buffer.length = blockCount * blockSize) :
    d.exec (readFileData startBlock blockCount buffer) =
      .ok (d.extentBytes startBlock blockCount) d [] := by
  have hlen : buffer.length = blockCount * sectorsPerBlock * sectorSize := by
    rw [hbuf, mul_assoc]
    rfl
  rw [readFileData, exec_bind, exec_asU32_of_lt h.count_lt, bind_ok, Disk.readSectors,
    if_neg (by omega), exec_bind, h.addresses_eq, exec_readEach]
  · rw [bind_ok, drop_of_length_le (by omega), append_nil, flatMap_map]
    rfl
  · intro a ha
    obtain ⟨index, hidx, rfl⟩ := mem_map.1 ha
    exact h.accepts (mem_range.1 hidx)

end

/-- The data of a file, filled up with zeros to whole blocks. -/
def paddedData (data : List UInt8) : List UInt8 :=
  Bytes.put 0 data (replicate (blockCountForLen data.length * blockSize) 0)

/-- The number of blocks is not cut off, and they suffice. -/
lemma le_blockCountForLen {len : ℕ} (h : len < 2 ^ 43) :
    len ≤ blockCountForLen len * blockSize := by
  rw [blockCountForLen]
  split_ifs
  · omega
  · simp only [blockSize]
    omega

lemma length_paddedData (h : data.length < 2 ^ 43) :
    (paddedData data).length = blockCountForLen data.length * blockSize := by
  have := le_blockCountForLen h
  rw [paddedData, Bytes.length_put (by simpa using this), length_replicate]

def dataWrites (data : List UInt8) (startBlock : ℕ) : List (ℕ × Sector) :=
  (range (blockCountForLen data.length * sectorsPerBlock)).map fun index =>
    (startSectorOf startBlock + index, slice (paddedData data) index)

/-- `write_file_data` is these writes, when no number is cut off. -/
lemma exec_writeFileData_eq {b : ℕ} (hd : data.length < 2 ^ 43)
    (hne : blockCountForLen data.length ≠ 0)
    (hcnt : blockCountForLen data.length * sectorsPerBlock < 2 ^ 32) (hst : b < 2 ^ 32) :
    d.exec (writeFileData b data) = ((d.exec (writeEach (dataWrites data b))).bind fun _ d =>
        .ok (blockCountForLen data.length) d []).after
          [.noted (.allocated (blockCountForLen data.length * blockSize))] := by
  have hfit : ¬ (replicate (blockCountForLen data.length * blockSize) (0 : UInt8)).length <
      data.length := by
    rw [length_replicate]
    exact not_lt.2 (le_blockCountForLen hd)
  have hlen : ¬ (paddedData data).length <
      blockCountForLen data.length * sectorsPerBlock * sectorSize := by
    rw [length_paddedData hd, mul_assoc]
    exact lt_irrefl _
  have haddr : ∀ index ∈ range (blockCountForLen data.length * sectorsPerBlock),
      U64.wrappingAdd (startSectorOf b) index = startSectorOf b + index := by
    intro index hidx
    exact wrappingAdd_startSectorOf hst ((mem_range.1 hidx).trans hcnt)
  rw [writeFileData, if_neg hne, exec_bind, zeroed, exec_bind, exec_annotate, bind_ok,
    exec_pure, after_ok, bind_ok]
  simp only [if_neg hfit]
  rw [exec_bind, exec_asU32_of_lt hcnt, bind_ok, exec_bind, ← paddedData, Disk.writeSectors,
    if_neg hlen,
    map_congr_left fun index hidx => congrArg (·, slice (paddedData data) index) (haddr index hidx)]
  rfl

lemma exec_writeFileData {b : ℕ} (hd : data.length < 2 ^ 43)
    (hne : blockCountForLen data.length ≠ 0) (h : d.HasBlocks b (blockCountForLen data.length)) :
    d.exec (writeFileData b data) = .ok (blockCountForLen data.length)
        (d.storeRange (startSectorOf b)
          (blockCountForLen data.length * sectorsPerBlock) (slice (paddedData data)))
        (.noted (.allocated (blockCountForLen data.length * blockSize)) ::
          (range (blockCountForLen data.length * sectorsPerBlock)).map fun index =>
            .wrote (startSectorOf b + index) (slice (paddedData data) index)) := by
  have hst : b < 2 ^ 32 := by
    have := h.2
    omega
  rw [exec_writeFileData_eq hd hne h.count_lt hst, exec_writeEach, bind_ok, after_ok,
    append_nil, dataWrites, storeEach_range, map_map]
  · rfl
  · intro w hw
    obtain ⟨index, hidx, rfl⟩ := mem_map.1 hw
    exact h.accepts (mem_range.1 hidx)

end VirtioBlk

end

end Waros.Kernel.Disk
