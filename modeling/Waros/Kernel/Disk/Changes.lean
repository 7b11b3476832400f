import Waros.Kernel.Disk.Allocation

/-!
What saving, deleting and synchronising do to a sound disk. There are three
kinds of changes: the superblock is rewritten, a slot of the table is cleared,
or a file is placed in a slot, on blocks that belong to no other slot. Every
call is a sequence of such changes, also when it fails half-way.
-/

namespace Waros.Kernel.Disk

open Lib Fs BlockProgram Execution VirtioBlk List Disk DiskFileEntry Nat

/-- The size of the kernel heap (`kernel/src/memory/heap.rs`), which every file
in memory fits into. -/
def heapSize : ℕ := 8 * 1024 * 1024

def InMemory (file : FileEntry) : Prop := file.data.length ≤ heapSize

def maxBlocks : ℕ := heapSize / blockSize

/-- First fit never goes further. -/
def lastBlock : ℕ := maxFiles * (maxBlocks + maxBlocks) + maxBlocks

lemma blockCountForLen_le {len : ℕ} (h : len ≤ heapSize) : blockCountForLen len ≤ maxBlocks := by
  rw [blockCountForLen]
  simp only [maxBlocks, heapSize, blockSize] at *
  split_ifs <;> omega

namespace VirtioBlk

variable {d : VirtioBlk}

/-- The search of `upsert_file_entry` on the table of the device. -/
def search (d : VirtioBlk) (name : Str) :
    List ℕ → Option ℕ → Except DiskError (Option ℕ × Option ℕ)
  | [], emptyIndex => .ok (none, emptyIndex)
  | index :: indices, emptyIndex =>
    if d.accepts (fileTableStartSector + index) = false then .error .outOfBounds
    else if d.Active index then
      match entryName (d.entryAt index) with
      | .error error => .error error
      | .ok found =>
        if found = name then .ok (some index, emptyIndex)
        else d.search name indices emptyIndex
    else d.search name indices (emptyIndex.or (some index))

variable {indices : List ℕ} {name : Str} (contents : ℕ → Sector) {file : FileEntry}
  {slot start : ℕ} {d' : VirtioBlk} (data : Sector)

lemma exec_findSlot (name : Str) (hidxs : ∀ i ∈ indices, i < maxFiles) (ei : Option ℕ) :
    d.exec (findSlot name indices ei) = match d.search name indices ei with
      | .error error => .error error d []
      | .ok (target, free) => .ok (target.map fun i => (i, d.entryAt i), free) d [] := by
  induction indices generalizing ei with
  | nil => rfl
  | cons ix _ ih =>
    have hr := fun e => ih (fun i hi => hidxs i (by simp [hi])) e
    rw [findSlot, exec_bind, exec_readFileEntry_eq (hidxs ix (by simp)), search]
    rcases hacc : d.accepts (fileTableStartSector + ix) with _ | _
    · rfl
    rw [if_pos rfl, bind_ok]
    by_cases hact : d.Active ix
    · rw [if_pos hact, if_pos (show (d.entryAt ix).active ≠ 0 from hact), exec_bind]
      rcases entryName (d.entryAt ix) with error | found
      · rfl
      rw [exec_lift_ok, bind_ok]
      by_cases hnm : found = name
      · simp only [hnm]
        rfl
      · simp only [hnm]
        exact hr ei
    · rw [if_neg hact, if_neg (show ¬ (d.entryAt ix).active ≠ 0 from hact)]
      exact hr _

variable {free target : Option ℕ} {count i n : ℕ}

/-- What a search finds; without a target it has read the whole table. -/
lemma search_spec {ei : Option ℕ} (h : d.search name indices ei = .ok (target, free)) :
    (∀ i, target = some i → i ∈ indices ∧ d.accepts (fileTableStartSector + i) ∧
        d.Active i ∧ entryName (d.entryAt i) = .ok name) ∧
      (∀ j, free = some j → ei = some j ∨ j ∈ indices ∧ ¬ d.Active j) ∧
      (target = none → ∀ i ∈ indices, d.accepts (fileTableStartSector + i) ∧
        (d.Active i → entryName (d.entryAt i) ≠ .ok name)) := by
  induction indices generalizing ei with
  | nil =>
    cases h
    simp
  | cons ix _ ih =>
    rw [search] at h
    cases hacc : d.accepts (fileTableStartSector + ix) with
    | false =>
      rw [hacc] at h
      cases h
    | true =>
      rw [hacc] at h
      by_cases hact : d.Active ix
      · rw [if_pos hact] at h
        cases hnm : entryName (d.entryAt ix) with
        | error =>
          rw [hnm] at h
          cases h
        | ok found =>
          rw [hnm] at h
          by_cases hs : found = name
          · simp only [hs] at h
            cases h
            refine ⟨?_, fun j hj => .inl hj, by simp⟩
            intro i hi
            cases hi
            exact ⟨by simp, hacc, hact, by rw [hnm, hs]⟩
          · simp only [hs] at h
            obtain ⟨htgt, hfr, hn⟩ := ih h
            refine ⟨?_, ?_, ?_⟩
            · intro i hi
              obtain ⟨hmem, hr⟩ := htgt i hi
              exact ⟨by simp [hmem], hr⟩
            · intro j hj
              exact (hfr j hj).imp_right fun hmem => ⟨by simp [hmem.1], hmem.2⟩
            · intro htgt i hi
              rcases mem_cons.1 hi with rfl | hi
              · refine ⟨hacc, fun _ hfd => ?_⟩
                exact hs (Except.ok.inj (hnm.symm.trans hfd))
              · exact hn htgt i hi
      · rw [if_neg hact] at h
        obtain ⟨htgt, hfr, hn⟩ := ih h
        refine ⟨?_, ?_, ?_⟩
        · intro i hi
          obtain ⟨hmem, hr⟩ := htgt i hi
          exact ⟨by simp [hmem], hr⟩
        · intro j hj
          rcases hfr j hj with hemp | ⟨hmem, hina⟩
          · cases ei with
            | some => exact .inl hemp
            | none =>
              cases hemp
              exact .inr ⟨by simp, hact⟩
          · exact .inr ⟨by simp [hmem], hina⟩
        · intro htgt i hi
          rcases mem_cons.1 hi with rfl | hi
          · exact ⟨hacc, fun h => absurd h hact⟩
          · exact hn htgt i hi

/-! ### Sound disks -/

/-- A formatted disk that has only been changed by the calls below. -/
structure Sound (d : VirtioBlk) : Prop where
  table : d.HasTable
  valid : d.superblock.isValid = true
  room : startSectorOf d.superblock.totalBlocks.toNat ≤ d.capacitySectors
  extents : d.ExtentsOk
  count_le : ∀ i < maxFiles, d.Active i → d.count i ≤ maxBlocks
  stop_le : ∀ i < maxFiles, d.Active i → d.count i ≠ 0 → d.start i + d.count i ≤ lastBlock

/-- The blocks may be given to the slot. -/
structure Placeable (d : VirtioBlk) (slot start count : ℕ) : Prop where
  free : count ≠ 0 → d.Free slot start count
  below : count ≠ 0 → start + count ≤ d.superblock.totalBlocks.toNat
  near : start + count ≤ lastBlock

/-- The device after a file has been put in a slot. -/
def placed (d : VirtioBlk) (slot start : ℕ) (file : FileEntry) : VirtioBlk :=
  (d.storeRange (startSectorOf start) (blockCountForLen file.data.length * sectorsPerBlock)
    (slice (paddedData file.data))).store (fileTableStartSector + slot)
      (diskEntry file start (blockCountForLen file.data.length)).encode

def SlotFor (d : VirtioBlk) (name : Str) (slot : ℕ) : Prop :=
  ∃ target free, d.search name (range maxFiles) none = .ok (target, free) ∧
    target.or free = some slot

/-- The first block for the data of a file: 0 when it needs none, the old one when
the old blocks suffice, else the one that first fit finds. -/
def chosenStart (d : VirtioBlk) (target : Option ℕ) (count : ℕ) : ℕ :=
  if count = 0 then 0
  else if target.any fun i => d.count i ≥ count then (target.map d.start).getD 0
  else (d.gap count target).1

lemma chosenStart_reused (hne : count ≠ 0) (h : count ≤ d.count i) :
    d.chosenStart (some i) count = d.start i := by
  rw [chosenStart, if_neg hne, if_pos (by simpa using h)]
  rfl

lemma chosenStart_allocated (hne : count ≠ 0) (h : ∀ i, target = some i → d.count i < count) :
    d.chosenStart target count = (d.gap count target).1 := by
  rw [chosenStart, if_neg hne, if_neg]
  cases target with
  | none => simp
  | some i => simpa using h i rfl

lemma chooseBlocks_cases (d : VirtioBlk) (t : Option ℕ) (cnt : ℕ) :
    (cnt = 0 ∧ chooseBlocks (t.map fun i => (i, d.entryAt i)) cnt = pure 0) ∨
      (∃ i, t = some i ∧ cnt ≠ 0 ∧ cnt ≤ d.count i ∧
        chooseBlocks (t.map fun i => (i, d.entryAt i)) cnt = pure (d.start i)) ∨
      (cnt ≠ 0 ∧ (∀ i, t = some i → d.count i < cnt) ∧
        chooseBlocks (t.map fun i => (i, d.entryAt i)) cnt = allocateBlocks cnt t) := by
  rw [chooseBlocks.eq_def]
  by_cases h0 : cnt = 0
  · exact .inl ⟨h0, if_pos h0⟩
  rw [if_neg h0]
  rcases t with _ | i
  · exact .inr (.inr ⟨h0, by simp, rfl⟩)
  simp only [Option.map_some]
  split_ifs with heno
  · exact .inr (.inl ⟨i, rfl, h0, heno, rfl⟩)
  · refine .inr (.inr ⟨h0, ?_, rfl⟩)
    rintro _ ⟨⟩
    exact not_le.1 heno

/-- On a disk that satisfies the extent invariant, choosing blocks fails or
returns the chosen ones. -/
lemma ExtentsOk.exec_chooseBlocks (h : d.ExtentsOk) (htab : d.HasTable)
    (hval : d.superblock.isValid) (t : Option ℕ) (cnt : ℕ) :
    d.exec (chooseBlocks (t.map fun i => (i, d.entryAt i)) cnt) = .error .diskFull d [] ∨
      d.exec (chooseBlocks (t.map fun i => (i, d.entryAt i)) cnt) = .ok (d.chosenStart t cnt) d [] ∧
        (cnt ≠ 0 → (∀ i, t = some i → d.count i < cnt) → (d.gap cnt t).2 ∨
            min ((d.gap cnt t).1 + cnt) (2 ^ 32 - 1) ≤ d.superblock.totalBlocks.toNat) := by
  rcases d.chooseBlocks_cases t cnt with ⟨rfl, hcho⟩ | ⟨i, rfl, hne, heno, hcho⟩ | ⟨hne, hmo, hcho⟩
  · rw [hcho]
    exact .inr ⟨rfl, fun hne => absurd rfl hne⟩
  · rw [hcho, chosenStart_reused hne heno]
    exact .inr ⟨rfl, fun _ hmo => absurd (hmo i rfl) (not_lt.2 heno)⟩
  · rw [hcho, exec_allocateBlocks htab hval, h.rangeNotes_eq]
    split_ifs with hfit
    · rw [chosenStart_allocated hne hmo]
      exact .inr ⟨rfl, fun _ _ => hfit⟩
    · exact .inl rfl

/-- The chosen blocks belong to no other slot. -/
lemma ExtentsOk.free_chosenStart (h : d.ExtentsOk) {slot : ℕ}
    (hsearch : d.search name (range maxFiles) none = .ok (target, free))
    (hsl : target.or free = some slot) (hne : count ≠ 0) :
    d.Free slot (d.chosenStart target count) count := by
  by_cases hmo : ∀ i, target = some i → d.count i < count
  · obtain ⟨hap, -⟩ := h.gap_spec count target
    rw [chosenStart_allocated hne hmo]
    intro j hj ho hact hblks
    refine hap j hj ⟨?_, hact, hblks⟩
    rintro rfl
    exact ho (Option.some.inj hsl)
  · simp only [not_forall, not_lt] at hmo
    obtain ⟨i, rfl, heno⟩ := hmo
    obtain rfl : i = slot := Option.some.inj hsl
    obtain ⟨hmem, -, hact, -⟩ := (search_spec hsearch).1 i rfl
    rw [chosenStart_reused hne heno]
    intro j hj ho hact' hblks'
    -- The old blocks suffice: they are the slot's own.
    have hap := h.apart i (mem_range.1 hmem) j hj ho.symm hact hact' (by omega)
    simp only [Apart] at hap ⊢
    omega

lemma Sound.placeable_chosenStart (h : d.Sound) {slot : ℕ}
    (hsearch : d.search name (range maxFiles) none = .ok (target, free))
    (hsl : target.or free = some slot) (hcnt : count ≤ maxBlocks)
    (hfit : count ≠ 0 → (∀ i, target = some i → d.count i < count) → (d.gap count target).2 ∨
        min ((d.gap count target).1 + count) (2 ^ 32 - 1) ≤ d.superblock.totalBlocks.toNat) :
    d.Placeable slot (d.chosenStart target count) count := by
  by_cases hne : count = 0
  · refine ⟨fun hne' => absurd hne hne', fun hne' => absurd hne hne', ?_⟩
    rw [chosenStart, if_pos hne]
    omega
  have hfr := h.extents.free_chosenStart hsearch hsl hne
  by_cases hmo : ∀ i, target = some i → d.count i < count
  · obtain ⟨-, hfd⟩ := h.extents.gap_spec count target
    have hle := h.extents.gap_le h.count_le count target
    have hnear : (d.gap count target).1 + count ≤ lastBlock := by
      have hmul : maxFiles * (count + maxBlocks) ≤ maxFiles * (maxBlocks + maxBlocks) :=
        mul_le_mul_left _ (Nat.add_le_add_right hcnt _)
      exact Nat.add_le_add (hle.trans hmul) hcnt
    rw [chosenStart_allocated hne hmo] at hfr ⊢
    refine ⟨fun _ => hfr, fun _ => ?_, hnear⟩
    rcases hfit hne hmo with htrue | hfit
    · exact hfd htrue
    · simp only [lastBlock, maxBlocks, heapSize, blockSize, maxFiles] at hnear
      omega
  · simp only [not_forall, not_lt] at hmo
    obtain ⟨i, rfl, heno⟩ := hmo
    obtain ⟨hmem, -, hact, -⟩ := (search_spec hsearch).1 i rfl
    have hblks : d.count i ≠ 0 := by omega
    have hbel := h.extents.below i (mem_range.1 hmem) hact hblks
    have hstp := h.stop_le i (mem_range.1 hmem) hact hblks
    rw [chosenStart_reused hne heno] at hfr ⊢
    exact ⟨fun _ => hfr, fun _ => by omega, by omega⟩

lemma Placeable.hasBlocks (h : d.Sound) {slot lo : ℕ}
    (hpl : d.Placeable slot lo count) (hne : count ≠ 0) : d.HasBlocks lo count := by
  refine ⟨le_trans ?_ h.room, ?_⟩
  · exact Nat.add_le_add_left (mul_le_mul_right _ (hpl.below hne)) _
  · have hnear := hpl.near
    simp only [lastBlock, maxBlocks, heapSize, blockSize, maxFiles] at hnear
    omega

def placeEvents (slot start : ℕ) (file : FileEntry) : List (BlockEvent Sector DiskNote) :=
  (if blockCountForLen file.data.length = 0 then []
    else .noted (.allocated (blockCountForLen file.data.length * blockSize)) ::
      (range (blockCountForLen file.data.length * sectorsPerBlock)).map fun index =>
        .wrote (startSectorOf start + index) (slice (paddedData file.data) index)) ++
  [.wrote (fileTableStartSector + slot)
    (diskEntry file start (blockCountForLen file.data.length)).encode]

lemma storeRange_zero (base : ℕ) (contents : ℕ → Sector) : d.storeRange base 0 contents = d := by
  have hemp : ∀ a, ¬ (base ≤ a ∧ a < base + 0) := by omega
  rw [storeRange]
  simp only [hemp, if_false]

lemma Sound.exec_placeFile (h : d.Sound) (hd : InMemory file) (hsl : slot < maxFiles)
    (hpl : d.Placeable slot start (blockCountForLen file.data.length)) :
    d.exec (placeFile file slot start) =
      .ok () (d.placed slot start file) (placeEvents slot start file) := by
  have hsma : file.data.length < 2 ^ 43 := lt_of_le_of_lt hd (by decide)
  by_cases h0 : blockCountForLen file.data.length = 0
  · rw [placeFile]
    simp only [h0, ne_eq, not_true_eq_false, if_false]
    rw [exec_writeFileEntry h.table hsl, placed, h0, zero_mul, storeRange_zero, placeEvents, h0]
    rfl
  · have htab : (d.storeRange (startSectorOf start)
        (blockCountForLen file.data.length * sectorsPerBlock)
        (slice (paddedData file.data))).HasTable := h.table
    rw [placeFile]
    simp only [h0, ne_eq, not_false_eq_true, if_true]
    rw [exec_bind, exec_writeFileData hsma h0 (hpl.hasBlocks h h0), bind_ok,
      exec_writeFileEntry htab hsl, after_ok, placeEvents, if_neg h0, placed]

lemma SlotFor.lt {slot : ℕ} (h : d.SlotFor name slot) : slot < maxFiles := by
  obtain ⟨target, free, hsearch, hsl⟩ := h
  obtain ⟨htgt, hfr, -⟩ := search_spec hsearch
  cases target with
  | some i =>
    obtain rfl : i = slot := Option.some.inj hsl
    exact mem_range.1 (htgt i rfl).1
  | none =>
    rcases hfr slot hsl with hemp | hmem
    · cases hemp
    · exact mem_range.1 hmem.1

/-- `upsert_file_entry` chooses blocks and places the file when the search ends with
a slot. -/
lemma exec_upsertFileEntry (file : FileEntry) :
    d.exec (upsertFileEntry file) = match d.search file.name (range maxFiles) none with
      | .error error => .error error d []
      | .ok (target, free) =>
        match target.or free with
        | none => .error .diskFull d []
        | some slot =>
          (d.exec (chooseBlocks (target.map fun i => (i, d.entryAt i))
            (blockCountForLen file.data.length))).bind fun start d =>
              d.exec (placeFile file slot start) := by
  rw [upsertFileEntry, exec_bind, exec_findSlot _ fun i hi => mem_range.1 hi]
  rcases hsearch : d.search file.name (.range maxFiles) none with error | res
  · rfl
  obtain ⟨target, free⟩ := res
  have hfst : ((target.map fun i => (i, d.entryAt i)).map Prod.fst).or free = target.or free := by
    cases target <;> rfl
  rw [bind_ok]
  simp only [hfst]
  cases target.or free with
  | none => rfl
  | some => exact exec_bind _ _

/-- On a sound disk it changes nothing, or it places the file. -/
lemma Sound.upsert_cases (h : d.Sound) (hd : InMemory file) :
    (∃ error, d.exec (upsertFileEntry file) = .error error d []) ∨
      ∃ slot start, d.SlotFor file.name slot ∧
        d.Placeable slot start (blockCountForLen file.data.length) ∧
        d.exec (upsertFileEntry file) =
          .ok () (d.placed slot start file) (placeEvents slot start file) := by
  rw [exec_upsertFileEntry]
  rcases hsearch : d.search file.name (.range maxFiles) none with error | res
  · exact .inl ⟨error, rfl⟩
  obtain ⟨target, free⟩ := res
  cases hsl : target.or free with
  | none =>
    simp only [hsl]
    exact .inl ⟨.diskFull, rfl⟩
  | some slot =>
    have hslotFor : d.SlotFor file.name slot := ⟨target, free, hsearch, hsl⟩
    simp only [hsl]
    rcases h.extents.exec_chooseBlocks h.table h.valid target _ with hfu | ⟨hst, hfit⟩
    · rw [hfu]
      exact .inl ⟨_, rfl⟩
    · have hpl := h.placeable_chosenStart hsearch hsl (blockCountForLen_le hd) hfit
      rw [hst, bind_ok, h.exec_placeFile hd hslotFor.lt hpl]
      exact .inr ⟨slot, _, hslotFor, hpl, rfl⟩

lemma entryAt_congr
    (h : d'.sectors (fileTableStartSector + i) = d.sectors (fileTableStartSector + i)) :
    d'.entryAt i = d.entryAt i := by
  rw [entryAt, entryAt, h]

@[simp] lemma entryAt_store_zero (i : ℕ) : (d.store 0 data).entryAt i = d.entryAt i :=
  entryAt_congr (if_neg (by simp [fileTableStartSector]))

lemma entryAt_store_entry (slot i : ℕ) {e : DiskFileEntry} (hnm : e.name.length = maxFilename) :
    (d.store (fileTableStartSector + slot) e.encode).entryAt i =
      if i = slot then e else d.entryAt i := by
  by_cases hi : i = slot
  · rw [if_pos hi, hi, entryAt, store_sectors, if_pos rfl, decode_encode hnm]
  · rw [if_neg hi]
    exact entryAt_congr (if_neg (by omega))

lemma superblock_store_entry (slot : ℕ) (data : Sector) :
    (d.store (fileTableStartSector + slot) data).superblock = d.superblock := by
  have hne : 0 ≠ fileTableStartSector + slot := by
    simp only [fileTableStartSector]
    omega
  rw [superblock, store_sectors, if_neg hne, superblock]

lemma startSectorOf_ge (start : ℕ) : dataStartSector ≤ startSectorOf start := le_add_right _ _

lemma entryAt_storeRange {lo : ℕ} (hi : i < maxFiles) :
    (d.storeRange (startSectorOf lo) n contents).entryAt i = d.entryAt i :=
  entryAt_congr (storeRange_of_lt contents
    (lt_of_lt_of_le (Nat.add_lt_add_left hi _) (startSectorOf_ge lo)))

lemma superblock_storeRange {lo : ℕ} :
    (d.storeRange (startSectorOf lo) n contents).superblock = d.superblock := by
  rw [superblock, storeRange_of_lt contents
    (lt_of_lt_of_le (by decide) (startSectorOf_ge lo)), superblock]

@[simp] lemma length_nameField (name : Str) : (nameField name).length = maxFilename := by
  rw [nameField, Bytes.length_put, length_replicate]
  rw [length_replicate, length_take]
  omega

lemma entryAt_placed {slot lo : ℕ} (hi : i < maxFiles) :
    (d.placed slot lo file).entryAt i =
      if i = slot then diskEntry file lo (blockCountForLen file.data.length)
      else d.entryAt i := by
  rw [placed, entryAt_store_entry slot i (length_nameField file.name), entryAt_storeRange _ hi]

lemma superblock_placed : (d.placed slot start file).superblock = d.superblock := by
  rw [placed, superblock_store_entry, superblock_storeRange]

/-! ### The superblock makes no difference -/

lemma active_store_zero (i : ℕ) : (d.store 0 data).Active i ↔ d.Active i := by
  rw [Active, entryAt_store_zero, Active]

lemma search_store_zero (name : Str) (ixs : List ℕ) (emptyIndex : Option ℕ) :
    (d.store 0 data).search name ixs emptyIndex = d.search name ixs emptyIndex := by
  induction ixs generalizing emptyIndex with
  | nil => rfl
  | cons _ _ ih => simp only [search, store_accepts, active_store_zero, entryAt_store_zero, ih]

lemma start_store_zero : (d.store 0 data).start = d.start := by
  funext i
  rw [start, entryAt_store_zero, start]

lemma count_store_zero : (d.store 0 data).count = d.count := by
  funext i
  rw [count, entryAt_store_zero, count]

lemma occupies_store_zero (ign : Option ℕ) (i : ℕ) :
    (d.store 0 data).Occupies ign i ↔ d.Occupies ign i := by
  rw [Occupies, Occupies, active_store_zero, count_store_zero]

lemma gap_store_zero (cnt : ℕ) (ignoreIndex : Option ℕ) :
    (d.store 0 data).gap cnt ignoreIndex = d.gap cnt ignoreIndex := by
  simp only [gap, rangesOf, occupies_store_zero, start_store_zero, count_store_zero]

lemma chosenStart_store_zero (t : Option ℕ) (count : ℕ) :
    (d.store 0 data).chosenStart t count = d.chosenStart t count := by
  simp only [chosenStart, gap_store_zero, start_store_zero, count_store_zero]

lemma ExtentsOk.superblock (h : d.ExtentsOk) {sb : Superblock}
    (htot : sb.totalBlocks = d.superblock.totalBlocks) : (d.store 0 sb.sector).ExtentsOk := by
  have hent : ∀ i, (d.store 0 sb.sector).entryAt i = d.entryAt i := entryAt_store_zero sb.sector
  refine ⟨?_, ?_, ?_⟩
  · intro i hi
    rw [show (d.store 0 sb.sector).superblock.totalBlocks = sb.totalBlocks from rfl, htot,
      Active, start, count, hent]
    exact h.below i hi
  · intro i hi j hj
    simp only [Active, start, count, hent]
    exact h.apart i hi j hj
  · intro i hi
    rw [Active, count, hent]
    exact h.size_le i hi

lemma Sound.of_slot (h : d.Sound) (slot : ℕ)
    (hcap : d'.capacitySectors = d.capacitySectors) (hval : d'.superblock.isValid)
    (htot : d'.superblock.totalBlocks = d.superblock.totalBlocks)
    (ho : ∀ i < maxFiles, i ≠ slot → d'.entryAt i = d.entryAt i)
    (hsl : slot < maxFiles → d'.Active slot →
      d.Placeable slot (d'.start slot) (d'.count slot) ∧ d'.count slot ≤ maxBlocks ∧
        (d'.entryAt slot).size.toNat ≤ d'.count slot * blockSize) : d'.Sound := by
  have hact : ∀ i < maxFiles, i ≠ slot → d'.Active i → d.Active i := by
    intro i hi hne hact
    rwa [Active, ho i hi hne] at hact
  have hst : ∀ i < maxFiles, i ≠ slot → d'.start i = d.start i := by
    intro i hi hne
    rw [start, ho i hi hne, start]
  have hcnt : ∀ i < maxFiles, i ≠ slot → d'.count i = d.count i := by
    intro i hi hne
    rw [count, ho i hi hne, count]
  -- each property by cases: the slot, or an entry as it was
  refine ⟨?_, hval, ?_, ⟨?_, ?_, ?_⟩, ?_, ?_⟩
  · rw [HasTable, hcap]
    exact h.table
  · rw [htot, hcap]
    exact h.room
  · intro i hi hi' hblks
    rw [htot]
    by_cases hne : i = slot
    · subst hne
      exact (hsl hi hi').1.below hblks
    · rw [hst i hi hne, hcnt i hi hne] at *
      exact h.extents.below i hi (hact i hi hne hi') hblks
  · intro i hi j hj hij hi' hj' hblks hblks'
    by_cases hne : i = slot
    · subst hne
      rw [hst j hj hij.symm, hcnt j hj hij.symm] at *
      exact (hsl hi hi').1.free hblks j hj hij.symm (hact j hj hij.symm hj') hblks'
    by_cases hne' : j = slot
    · subst hne'
      rw [hst i hi hij, hcnt i hi hij] at *
      exact ((hsl hj hj').1.free hblks' i hi hij (hact i hi hij hi') hblks).symm
    · rw [hst i hi hne, hcnt i hi hne, hst j hj hne', hcnt j hj hne'] at *
      exact h.extents.apart i hi j hj hij (hact i hi hne hi') (hact j hj hne' hj') hblks hblks'
  · intro i hi hi'
    by_cases hne : i = slot
    · subst hne
      exact (hsl hi hi').2.2
    · rw [hcnt i hi hne, ho i hi hne]
      exact h.extents.size_le i hi (hact i hi hne hi')
  · intro i hi hi'
    by_cases hne : i = slot
    · subst hne
      exact (hsl hi hi').2.1
    · rw [hcnt i hi hne]
      exact h.count_le i hi (hact i hi hne hi')
  · intro i hi hi' hblks
    by_cases hne : i = slot
    · subst hne
      exact (hsl hi hi').1.near
    · rw [hst i hi hne, hcnt i hi hne] at *
      exact h.stop_le i hi (hact i hi hne hi') hblks

/-- One change of the device; `P` is what is known about the files that are
placed. -/
inductive Change (P : FileEntry → Prop) : VirtioBlk → VirtioBlk → Prop
  | superblock {d : VirtioBlk} (sb : Superblock) (hval : sb.isValid = d.superblock.isValid)
      (htot : sb.totalBlocks = d.superblock.totalBlocks) : Change P d (d.store 0 sb.sector)
  | clear {d : VirtioBlk} (slot : ℕ) (hsl : slot < maxFiles) :
      Change P d (d.store (fileTableStartSector + slot) inactive.encode)
  | place {d : VirtioBlk} (slot start : ℕ) (file : FileEntry)
      (hsl : d.SlotFor file.name slot) (hfl : P file)
      (hpl : d.Placeable slot start (blockCountForLen file.data.length)) :
      Change P d (d.placed slot start file)

lemma Placeable.start_eq {slot lo : ℕ} (h : d.Placeable slot lo count) :
    (UInt32.ofNat lo).toNat = lo ∧ (UInt32.ofNat count).toNat = count := by
  have hnear := h.near
  simp only [lastBlock, maxBlocks, heapSize, blockSize, maxFiles] at hnear
  constructor <;> exact mod_eq_of_lt (by omega)

lemma Change.sound {P : FileEntry → Prop} (hP : ∀ file, P file → InMemory file)
    (hchg : Change P d d') (h : d.Sound) : d'.Sound := by
  cases hchg with
  | superblock _ hval htot =>
    refine h.of_slot maxFiles rfl (hval.trans h.valid) htot (fun i _ _ => by simp) ?_
    omega
  | clear slot =>
    refine h.of_slot slot rfl ?_ ?_ ?_ ?_
    · rw [superblock_store_entry]
      exact h.valid
    · rw [superblock_store_entry]
    · intro i _ hne
      rw [entryAt_store_entry slot i (by simp [inactive]), if_neg hne]
    · intro _ hact
      rw [Active, entryAt_store_entry slot slot (by simp [inactive]), if_pos rfl] at hact
      exact absurd rfl hact
  | place slot start file hsl hfl hpl =>
    have hd : file.data.length ≤ heapSize := hP file hfl
    have hent : (d.placed slot start file).entryAt slot =
        diskEntry file start (blockCountForLen file.data.length) := by
      rw [entryAt_placed hsl.lt, if_pos rfl]
    have hsz : (UInt64.ofNat file.data.length).toNat = file.data.length := by
      exact mod_eq_of_lt (hd.trans_lt (by decide))
    refine h.of_slot slot rfl ?_ ?_ ?_ ?_
    · rw [superblock_placed]
      exact h.valid
    · rw [superblock_placed]
    · intro i hi hne
      rw [entryAt_placed hi, if_neg hne]
    · intro _ _
      rw [VirtioBlk.start, count, hent]
      simp only [diskEntry, hpl.start_eq.1, hpl.start_eq.2, hsz]
      exact ⟨hpl, blockCountForLen_le hd, le_blockCountForLen (hd.trans_lt (by decide))⟩

end VirtioBlk

end Waros.Kernel.Disk
