import Waros.Kernel.Disk.RoundTrip

/-!
Stopping `save_entry` between two of its writes. The call marks the superblock,
writes the data, then the entry, and then the superblock again. Until the entry
is written, a following `load_filesystem` uses the old one: it finds the old
file, unless the new data was written over its blocks.
-/

namespace Waros.Kernel.Disk

open Lib Fs BlockProgram Execution Superblock List VirtioBlk

def entryWrite (file : FileEntry) (slot start : ℕ) : ℕ × Sector :=
  (fileTableStartSector + slot, (diskEntry file start (blockCountForLen file.data.length)).encode)

namespace VirtioBlk

variable {d : VirtioBlk} {α : Type}

variable (writes : List (ℕ × Sector)) {file : FileEntry} {slot start : ℕ}

lemma storeEach_capacity : (d.storeEach writes).capacitySectors = d.capacitySectors := by
  induction writes generalizing d with
  | nil => rfl
  | cons w _ ih => exact ih (d := d.store w.1 w.2)

/-- A program leaves behind what it has written. -/
lemma exec_state_eq (p : DiskM α) : (d.exec p).state = d.storeEach (writesOf (d.exec p).trace) := by
  induction p generalizing d with
  | ret | fail | panics => rfl
  | read a _ ih =>
    simp only [exec, BlockProgram.exec, handler] at ih ⊢
    cases d.readSector a with
    | ok b => exact ih b
    | error => rfl
  | write a _ _ ih =>
    simp only [exec, BlockProgram.exec, handler, writeSector] at ih ⊢
    cases d.accepts a with
    | true => exact ih
    | false => rfl
  | note _ _ ih => exact ih

lemma writeEach_writes :
    ∃ m, writesOf (d.exec (writeEach writes)).trace = writes.take m ∧
      ((d.exec (writeEach writes)).outcome = .returned (.ok ()) ∧ writes.length ≤ m ∨
        ∃ error, (d.exec (writeEach writes)).outcome = .returned (.error error)) := by
  induction writes generalizing d with
  | nil => exact ⟨0, rfl, .inl ⟨rfl, le_rfl⟩⟩
  | cons w _ ih =>
    rw [writeEach, exec_bind]
    cases hw : d.accepts w.1 with
    | false =>
      rw [exec_writeBlock_refused hw]
      exact ⟨0, rfl, .inr ⟨_, rfl⟩⟩
    | true =>
      obtain ⟨m, hwrs, hout⟩ := ih (d := d.store w.1 w.2)
      rw [exec_writeBlock hw]
      refine ⟨m + 1, congrArg _ hwrs, hout.imp_left fun h => ⟨h.1, ?_⟩⟩
      exact Nat.succ_le_succ h.2

/-- Placing a file writes some of the data and fails, or it writes all of the data
and the entry. -/
lemma placeFile_writes (h : d.HasTable) (hd : InMemory file) (hsl : slot < maxFiles)
    (hsta : start < 2 ^ 32) :
    (∃ error m, (d.exec (placeFile file slot start)).outcome = .returned (.error error) ∧
        writesOf (d.exec (placeFile file slot start)).trace = (dataWrites file.data start).take m) ∨
      (d.exec (placeFile file slot start)).outcome = .returned (.ok ()) ∧
        writesOf (d.exec (placeFile file slot start)).trace =
          dataWrites file.data start ++ [entryWrite file slot start] := by
  have hblks := blockCountForLen_le hd
  have hcnt : blockCountForLen file.data.length * sectorsPerBlock < 2 ^ 32 := by
    simp only [maxBlocks, heapSize, blockSize, sectorsPerBlock, sectorSize] at *
    omega
  by_cases h0 : blockCountForLen file.data.length = 0
  · right
    rw [placeFile, dataWrites]
    simp only [h0, ne_eq, not_true_eq_false, if_false]
    rw [exec_writeFileEntry h hsl, entryWrite, h0]
    exact ⟨rfl, rfl⟩
  · obtain ⟨m, hwrs, hout⟩ := writeEach_writes (d := d) (dataWrites file.data start)
    have hst := exec_state_eq (d := d) (writeEach (dataWrites file.data start))
    rw [placeFile]
    simp only [h0, ne_eq, not_false_eq_true, if_true]
    rw [exec_bind, exec_writeFileData_eq (lt_of_le_of_lt hd (by decide)) h0 hcnt hsta, bind_after]
    generalize hex : d.exec (writeEach (dataWrites file.data start)) = e at *
    obtain ⟨outcome, state, trace⟩ := e
    dsimp only at hwrs hout hst
    rcases hout with ⟨rfl, hm⟩ | ⟨error, rfl⟩
    · right
      have htab : state.HasTable := by
        rw [HasTable, hst, storeEach_capacity]
        exact h
      have hok : (⟨.returned (.ok ()), state, trace⟩ :
          Execution VirtioBlk Sector DiskError DiskNote Unit) = .ok () state trace := rfl
      rw [hok, bind_ok, after_ok, bind_ok, exec_writeFileEntry htab hsl, after_ok, after_ok]
      refine ⟨rfl, ?_⟩
      rw [trace_ok, append_nil, writesOf_append, writesOf_append, hwrs, take_of_length_le hm]
      rfl
    · left
      exact ⟨error, m, rfl, hwrs⟩

/-- The slot and the first block that `upsert_file_entry` chooses for a file. -/
def Plans (d : VirtioBlk) (file : FileEntry) (slot start : ℕ) : Prop :=
  ∃ target free, d.search file.name (range maxFiles) none = .ok (target, free) ∧
    target.or free = some slot ∧
    d.chosenStart target (blockCountForLen file.data.length) = start

lemma Plans.slotFor (h : d.Plans file slot start) : d.SlotFor file.name slot := by
  obtain ⟨t, free, hsearch, hsl, -⟩ := h
  exact ⟨t, free, hsearch, hsl⟩

lemma Plans.free (h : d.Plans file slot start) (hext : d.ExtentsOk)
    (hne : blockCountForLen file.data.length ≠ 0) :
    d.Free slot start (blockCountForLen file.data.length) := by
  obtain ⟨t, free, hsearch, hsl, rfl⟩ := h
  exact hext.free_chosenStart hsearch hsl hne

lemma chosenStart_lt (h : d.ExtentsOk) (t : Option ℕ) (n : ℕ) : d.chosenStart t n < 2 ^ 32 := by
  rw [chosenStart]
  split_ifs
  · decide
  · cases t with
    | none => exact (by decide : 0 < 2 ^ 32)
    | some i => exact (d.entryAt i).startBlock.toNat_lt
  · exact h.gap_lt n t

lemma upsert_writes (h : d.HasTable) (hval : d.superblock.isValid)
    (hext : d.ExtentsOk) (hd : InMemory file) :
    (∃ error, (d.exec (upsertFileEntry file)).outcome = .returned (.error error) ∧
        writesOf (d.exec (upsertFileEntry file)).trace = []) ∨
      ∃ slot start, d.Plans file slot start ∧
        ((∃ error m, (d.exec (upsertFileEntry file)).outcome = .returned (.error error) ∧
            writesOf (d.exec (upsertFileEntry file)).trace = (dataWrites file.data start).take m) ∨
          (d.exec (upsertFileEntry file)).outcome = .returned (.ok ()) ∧
            writesOf (d.exec (upsertFileEntry file)).trace =
              dataWrites file.data start ++ [entryWrite file slot start]) := by
  rw [exec_upsertFileEntry]
  rcases hsearch : d.search file.name (.range maxFiles) none with error | res
  · exact .inl ⟨error, rfl, rfl⟩
  obtain ⟨t, free⟩ := res
  cases hsl : t.or free with
  | none =>
    simp only [hsl]
    exact .inl ⟨.diskFull, rfl, rfl⟩
  | some slot =>
    have hslotFor : d.SlotFor file.name slot := ⟨t, free, hsearch, hsl⟩
    simp only [hsl]
    rcases hext.exec_chooseBlocks h hval t _ with hfu | ⟨hsta, -⟩
    · rw [hfu]
      exact .inl ⟨_, rfl, rfl⟩
    · rw [hsta]
      exact .inr ⟨slot, _, ⟨t, free, hsearch, hsl, rfl⟩,
        placeFile_writes h hd hslotFor.lt (chosenStart_lt hext t _)⟩

lemma plans_store_zero {data : Sector} :
    (d.store 0 data).Plans file slot start ↔ d.Plans file slot start := by
  simp only [Plans, search_store_zero, chosenStart_store_zero]

/-- The device when a call is stopped after its first `n` writes. -/
def interrupted (d : VirtioBlk) (p : DiskM α) (n : ℕ) : VirtioBlk :=
  d.storeEach ((writesOf (d.exec p).trace).take n)

def marked (d : VirtioBlk) : VirtioBlk := d.store 0 (d.superblock.setState fsStateDirty).sector

lemma storeEach_take_dataWrites (data : List UInt8) (lo n : ℕ) :
    d.storeEach ((dataWrites data lo).take n) = d.storeRange (startSectorOf lo)
        (min n (blockCountForLen data.length * sectorsPerBlock)) (slice (paddedData data)) := by
  rw [dataWrites, ← map_take, take_range, storeEach_range]

lemma storeEach_placed (file : FileEntry) (slot lo : ℕ) :
    d.storeEach (dataWrites file.data lo ++ [entryWrite file slot lo]) = d.placed slot lo file := by
  rw [storeEach_append, dataWrites, storeEach_range]
  rfl

lemma save_writes (h : d.HasTable) (hval : d.superblock.isValid)
    (hext : d.ExtentsOk) (hd : InMemory file) :
    ∃ rest, writesOf (d.exec (saveEntry file)).trace =
        (0, (d.superblock.setState fsStateDirty).sector) :: rest ∧
      (rest = [] ∨ ∃ slot start, d.Plans file slot start ∧
        ((∃ m, rest = (dataWrites file.data start).take m) ∨ ∃ sb : Superblock, rest =
            dataWrites file.data start ++ [entryWrite file slot start, (0, sb.sector)])) := by
  have htab : d.marked.HasTable := h
  have hval' : d.marked.superblock.isValid :=
    (isValid_setState d.superblock fsStateDirty).trans hval
  have hext' : d.marked.ExtentsOk :=
    hext.superblock (totalBlocks_setState d.superblock fsStateDirty)
  have hplace : ∀ {slot start}, d.marked.Plans file slot start → d.Plans file slot start :=
    fun hplace => plans_store_zero.1 hplace
  have hwrs := upsert_writes htab hval' hext' hd
  have hst := exec_state_eq (d := d.marked) (upsertFileEntry file)
  rw [saveEntry, exec_bind, exec_setSuperblockState h.accepts_zero, if_pos hval,
    bind_ok, exec_bind, ← marked]
  refine ⟨_, rfl, ?_⟩
  generalize d.marked.exec (upsertFileEntry file) = e at *
  obtain ⟨o, state, trace⟩ := e
  dsimp only at hwrs hst
  rcases hwrs with ⟨error, rfl, hn⟩ | ⟨slot, start, hpl, ⟨error, m, rfl, hso⟩ | ⟨rfl, hall⟩⟩
  · exact .inl hn
  · exact .inr ⟨slot, start, hplace hpl, .inl ⟨m, hso⟩⟩
  · rw [hall, storeEach_placed] at hst
    have hrefr := exec_refreshSuperblock (d := state) (hst ▸ htab)
      (by rw [hst, superblock_placed, hval']) fsStateClean
    refine .inr ⟨slot, start, hplace hpl, .inr ⟨state.refreshed fsStateClean, ?_⟩⟩
    have hok : (⟨.returned (.ok ()), state, trace⟩ :
        Execution VirtioBlk Sector DiskError DiskNote Unit) = .ok () state trace := rfl
    rw [hok, bind_ok, exec_bind, hrefr]
    change writesOf (trace ++ _) = _
    rw [writesOf_append, hall]
    simp [writesOf]

/-- The device after an interrupted call: as before except for the mark, with some
of the data written, or with all of it and the entry. -/
lemma interrupted_cases (h : d.HasTable) (hext : d.ExtentsOk) (hd : InMemory file) (n : ℕ) :
    d.interrupted (saveEntry file) n = d ∨ d.interrupted (saveEntry file) n = d.marked ∨
      ∃ slot start, d.Plans file slot start ∧
        ((∃ m ≤ blockCountForLen file.data.length * sectorsPerBlock,
            d.interrupted (saveEntry file) n =
              d.marked.storeRange (startSectorOf start) m (slice (paddedData file.data))) ∨
          ∃ sb : Superblock,
            (d.exec (saveEntry file)).state = (d.marked.placed slot start file).store 0 sb.sector ∧
            (d.interrupted (saveEntry file) n = d.marked.placed slot start file ∨
              d.interrupted (saveEntry file) n =
                (d.marked.placed slot start file).store 0 sb.sector)) := by
  rcases n with _ | n
  · exact .inl rfl
  cases hval : d.superblock.isValid with
  | false =>
    left
    rw [interrupted, saveEntry, exec_bind, exec_setSuperblockState h.accepts_zero,
      if_neg (by simp [hval])]
    rfl
  | true =>
    right
    obtain ⟨rest, hwrs, hr⟩ := save_writes h hval hext hd
    have hst := exec_state_eq (d := d) (saveEntry file)
    rw [hwrs] at hst
    have hinte : d.interrupted (saveEntry file) (n + 1) = d.marked.storeEach (rest.take n) := by
      rw [interrupted, hwrs]
      rfl
    change _ = d.marked.storeEach rest at hst
    rw [hinte, hst]
    rcases hr with rfl | ⟨slot, start, hpl, ⟨m, rfl⟩ | ⟨sb, rfl⟩⟩
    · left
      rw [take_nil]
      rfl
    · rw [take_take, storeEach_take_dataWrites]
      exact .inr ⟨slot, start, hpl, .inl ⟨_, min_le_right _ _, rfl⟩⟩
    · right
      refine ⟨slot, start, hpl, ?_⟩
      have hlen : (dataWrites file.data start).length =
          blockCountForLen file.data.length * sectorsPerBlock := by
        rw [dataWrites, length_map, length_range]
      have hcomp : d.marked.storeEach (dataWrites file.data start ++
          [entryWrite file slot start, (0, sb.sector)]) =
            (d.marked.placed slot start file).store 0 sb.sector := by
        rw [append_cons, storeEach_append, storeEach_placed]
        rfl
      rw [hcomp]
      rcases Nat.lt_trichotomy n ((dataWrites file.data start).length + 1) with hlt | rfl | hgt
      · left
        refine ⟨n, by omega, ?_⟩
        rw [take_append_of_le_length (by omega), storeEach_take_dataWrites, min_eq_left (by omega)]
      · refine .inr ⟨sb, rfl, .inl ?_⟩
        rw [append_cons, take_left' (by simp), storeEach_placed]
      · refine .inr ⟨sb, rfl, .inr ?_⟩
        rw [take_of_length_le (by simp; omega), hcomp]

/-- The blocks for the new data do not overlap the blocks of the old entry. -/
def SparesOld (d : VirtioBlk) (file : FileEntry) : Prop :=
  ∀ slot start, d.Plans file slot start → d.Active slot →
    blockCountForLen file.data.length ≠ 0 → d.count slot ≠ 0 →
    Apart start (blockCountForLen file.data.length) (d.start slot) (d.count slot)

lemma marked_keeps (i : ℕ) : d.KeepsSlot d.marked i := .superblock _ i

/-- Some of the data is written. -/
lemma keeps_storeRange {slot lo m i : ℕ} (hext : d.ExtentsOk) (hpl : d.Plans file slot lo)
    (hm : m ≤ blockCountForLen file.data.length * sectorsPerBlock) (hi : i < maxFiles)
    (hact : d.Active i) (hsp : i = slot → d.SparesOld file) :
    d.KeepsSlot (d.marked.storeRange (startSectorOf lo) m (slice (paddedData file.data))) i := by
  refine (marked_keeps i).trans (.range _ hi hm ?_)
  intro hblks hcnt
  rw [count, (marked_keeps i).entry] at hcnt
  rw [start, count, (marked_keeps i).entry]
  by_cases hne : i = slot
  · subst hne
    exact hsp rfl i lo hpl hact hblks hcnt
  · exact hpl.free hext hblks i hi hne hact hcnt

/-- The data and the entry are written. -/
lemma keeps_placed {slot start i : ℕ} (hext : d.ExtentsOk) (hpl : d.Plans file slot start)
    (hi : i < maxFiles) (hne : i ≠ slot) (hact : d.Active i) :
    d.KeepsSlot (d.marked.placed slot start file) i := by
  have hext' : d.marked.ExtentsOk :=
    hext.superblock (totalBlocks_setState d.superblock fsStateDirty)
  have hpl' : d.marked.Plans file slot start := plans_store_zero.2 hpl
  refine (marked_keeps i).trans (.place hpl.slotFor.lt hi hne ?_ fun hblks => ?_)
  · rwa [Active, (marked_keeps i).entry]
  · exact hpl'.free hext' hblks

/-- After an interrupted call the other files are found as before; all entries are
as before or all is found as after the whole call; and unless the new data
overwrites the old one, all is found as before or as after the whole call. -/
lemma interrupted_spec (h : d.HasTable) (hext : d.ExtentsOk) (hd : InMemory file) (n : ℕ) :
    (∀ i < maxFiles, d.Active i → entryName (d.entryAt i) ≠ .ok file.name →
        (d.interrupted (saveEntry file) n).found i = d.found i) ∧
      ((∀ i < maxFiles, (d.interrupted (saveEntry file) n).entryAt i = d.entryAt i) ∨
        ∀ i < maxFiles, (d.interrupted (saveEntry file) n).found i =
          (d.exec (saveEntry file)).state.found i) ∧
      (d.SparesOld file → (∀ i < maxFiles, (d.interrupted (saveEntry file) n).found i = d.found i) ∨
        ∀ i < maxFiles, (d.interrupted (saveEntry file) n).found i =
          (d.exec (saveEntry file)).state.found i) := by
  rcases interrupted_cases h hext hd n with
    hs | hmar | ⟨slot, start, hpl, ⟨m, hm, hso⟩ | ⟨sb, hcomp, hall⟩⟩
  · rw [hs]
    exact ⟨fun _ _ _ _ => rfl, .inl fun _ _ => rfl, fun _ => .inl fun _ _ => rfl⟩
  · have hkp := fun i hi => (marked_keeps (d := d) i).found_eq hi
    rw [hmar]
    exact ⟨fun i hi _ _ => hkp i hi, .inl fun i _ => (marked_keeps i).entry, fun _ => .inl hkp⟩
  · rw [hso]
    have hent : ∀ i < maxFiles,
        (d.marked.storeRange (startSectorOf start) m (slice (paddedData file.data))).entryAt i =
          d.entryAt i :=
      fun i hi => (entryAt_storeRange _ hi).trans (marked_keeps i).entry
    refine ⟨?_, .inl hent, ?_⟩
    · intro i hi hact hnm
      refine (keeps_storeRange hext hpl hm hi hact ?_).found_eq hi
      rintro rfl
      exact absurd (hpl.slotFor.name_eq hact) hnm
    · intro hsp
      refine .inl fun i hi => ?_
      by_cases hact : d.Active i
      · exact (keeps_storeRange hext hpl hm hi hact fun _ => hsp).found_eq hi
      · exact found_of_inactive rfl (hent i hi) hi hact
  · have hfd : ∀ i < maxFiles, (d.interrupted (saveEntry file) n).found i =
        (d.exec (saveEntry file)).state.found i := by
      intro i hi
      rw [hcomp]
      rcases hall with hall | hall
      · rw [hall]
        exact ((KeepsSlot.superblock sb i).found_eq hi).symm
      · rw [hall]
    refine ⟨?_, .inr hfd, fun _ => .inr hfd⟩
    intro i hi hact hnm
    have hne : i ≠ slot := by
      rintro rfl
      exact hnm (hpl.slotFor.name_eq hact)
    have hplaced := keeps_placed hext hpl hi hne hact
    rcases hall with hall | hall
    · rw [hall]
      exact hplaced.found_eq hi
    · rw [hall]
      exact (hplaced.trans (.superblock sb i)).found_eq hi

end VirtioBlk

/-- The disk after a restart: the device as the interrupted call left it, with an
empty cache. -/
def afterCrash {α : Type} (disk : Disk) (p : DiskM α) (n : ℕ) : Disk where
  device := disk.device.storeEach ((writesOf (exec disk p).trace).take n)
  cache := .new 64

lemma afterCrash_fronts {α : Type} {disk : Disk} {dev : VirtioBlk} (h : Fronts disk dev)
    (p : DiskM α) (n : ℕ) : Fronts (afterCrash disk p n) (dev.interrupted p n) := by
  refine ⟨?_, .new 64 _⟩
  rw [afterCrash, (h.exec p).2.1, h.1]
  rfl

/-- On a disk that satisfies the extent invariant, `save_entry` is stopped after any
number of its writes. Then every other file is found as before. Either no entry has
changed, or everything is found as after the whole call; and if the new data is not
written over the old, loading gives what it gave before the call, or what it gives
after the whole call. -/
theorem save_crash {disk : Disk} {file : FileEntry} (hcoherent : disk.cache.Coherent disk.device)
    (htable : disk.device.HasTable) (hextents : disk.device.ExtentsOk) (hdata : InMemory file)
    (n : ℕ) :
    (∀ i < maxFiles, disk.device.Active i →
        entryName (disk.device.entryAt i) ≠ .ok file.name →
        (exec (afterCrash disk (saveEntry file) n) (findFile i)).outcome =
          (exec disk (findFile i)).outcome) ∧
      ((∀ i < maxFiles, (afterCrash disk (saveEntry file) n).device.entryAt i =
          disk.device.entryAt i) ∨
        ∀ i < maxFiles, (exec (afterCrash disk (saveEntry file) n) (findFile i)).outcome =
          (exec (exec disk (saveEntry file)).state (findFile i)).outcome) ∧
      (disk.device.SparesOld file →
        (∀ fs, (exec (afterCrash disk (saveEntry file) n) (loadFilesystem fs)).outcome =
          (exec disk (loadFilesystem fs)).outcome) ∨
        ∀ fs, (exec (afterCrash disk (saveEntry file) n) (loadFilesystem fs)).outcome =
          (exec (exec disk (saveEntry file)).state (loadFilesystem fs)).outcome) := by
  have hbef : Fronts disk disk.device := ⟨rfl, hcoherent⟩
  have haft := (hbef.exec (saveEntry file)).2.2
  have hcra := afterCrash_fronts hbef (saveEntry file) n
  have hld : ∀ {d d' : VirtioBlk}, (∀ i < maxFiles, d'.found i = d.found i) → ∀ fs,
      (d'.exec (loadFilesystem fs)).outcome = (d.exec (loadFilesystem fs)).outcome := by
    intro d d' hfd fs
    rw [exec_loadFilesystem_outcome, exec_loadFilesystem_outcome,
      map_congr_left fun i hi => hfd i (mem_range.1 hi)]
  obtain ⟨hots, hents, hsp⟩ := interrupted_spec htable hextents hdata n
  refine ⟨?_, ?_, ?_⟩
  · intro i hi hact hnm
    rw [(hcra.exec _).1, (hbef.exec _).1]
    exact hots i hi hact hnm
  · rw [hcra.1]
    refine hents.imp_right fun hfd i hi => ?_
    rw [(hcra.exec _).1, (haft.exec _).1]
    exact hfd i hi
  · intro hold
    rcases hsp hold with hfd | hfd
    · left
      intro fs
      rw [(hcra.exec _).1, (hbef.exec _).1]
      exact hld hfd fs
    · right
      intro fs
      rw [(hcra.exec _).1, (haft.exec _).1]
      exact hld hfd fs

namespace DiskOp

def twoSectors (value : UInt8) : FileEntry :=
  { smallFile ['/', 'a'] with data := replicate 1024 value }

def twoSectorsDisk : Disk :=
  run step (formattedDisk (blankDevice 145) 0).state [.save (twoSectors 1)]

/-- The first sector of one file and the second one of another. -/
def tornFile : FileEntry := { twoSectors 1 with data := replicate 512 2 ++ replicate 512 1 }

lemma twoSectorsDisk_fronts :
    Fronts twoSectorsDisk
      (((blankDevice 145).formatted 0).exec (saveEntry (twoSectors 1))).state := by
  have hfmt := formattedDisk_blank (show dataStartSector ≤ 145 by decide)
  rw [twoSectorsDisk, run_cons, run_nil, step]
  exact ((formattedDisk_fronts hfmt).2.exec (saveEntry (twoSectors 1))).2.2

lemma twoSectorsDisk_sound : SoundDisk twoSectorsDisk := by
  have hfmt := formattedDisk_blank (show dataStartSector ≤ 145 by decide)
  have hd : InMemory (twoSectors 1) := by
    rw [InMemory, twoSectors, length_replicate]
    decide
  rw [twoSectorsDisk, run_cons, run_nil]
  exact step_sound _ _ (formattedDisk_sound hfmt) hd

/-- A new file beside another one. -/
theorem save_crash_newFile :
    (exec (afterCrash twoSectorsDisk (saveEntry (smallFile ['/', 'b'])) 3) (findFile 0)).outcome =
        (exec twoSectorsDisk (findFile 0)).outcome ∧
      ((∀ fs, (exec (afterCrash twoSectorsDisk (saveEntry (smallFile ['/', 'b'])) 3)
            (loadFilesystem fs)).outcome = (exec twoSectorsDisk (loadFilesystem fs)).outcome) ∨
        ∀ fs, (exec (afterCrash twoSectorsDisk (saveEntry (smallFile ['/', 'b'])) 3)
            (loadFilesystem fs)).outcome =
          (exec (exec twoSectorsDisk (saveEntry (smallFile ['/', 'b']))).state
            (loadFilesystem fs)).outcome) := by
  obtain ⟨hcoherent, hsound⟩ := twoSectorsDisk_sound
  obtain ⟨hothers, -, hspares⟩ := @save_crash _ (smallFile ['/', 'b']) hcoherent hsound.table
    hsound.extents (Nat.le_of_ble_eq_true rfl) 3
  -- no entry has the name of the new file
  have hnames : twoSectorsDisk.device.Active 0 ∧ ∀ i < maxFiles, twoSectorsDisk.device.Active i →
      entryName (twoSectorsDisk.device.entryAt i) ≠ .ok ['/', 'b'] := by
    rw [twoSectorsDisk_fronts.1]
    decide +kernel
  refine ⟨hothers 0 (by decide) hnames.1 (hnames.2 0 (by decide) hnames.1), hspares ?_⟩
  intro slot start hplans hactive
  exact absurd (hplans.slotFor.name_eq hactive) (hnames.2 slot hplans.slotFor.lt hactive)

/-- New data over the old: after the mark and one sector of the data, the file that
is loaded is neither the old one nor the new one. -/
theorem save_crash_torn :
    twoSectorsDisk.device.ExtentsOk ∧
      (exec (afterCrash twoSectorsDisk (saveEntry (twoSectors 2)) 2)
        (loadFilesystem WarFS.new)).outcome = .returned (.ok (1, ⟨[tornFile], 128⟩)) ∧
      tornFile ≠ twoSectors 1 ∧ tornFile ≠ twoSectors 2 := by
  have hcra := afterCrash_fronts twoSectorsDisk_fronts (saveEntry (twoSectors 2)) 2
  refine ⟨twoSectorsDisk_sound.2.extents, (hcra.exec _).1.trans ?_, ?_, ?_⟩
  · decide +kernel
  · decide
  · decide +kernel

end DiskOp

end Waros.Kernel.Disk
