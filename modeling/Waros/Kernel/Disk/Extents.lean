import Waros.Kernel.Disk.Changes

/-!
The extent invariant along all runs. Formatting establishes it, every call is
a sequence of changes that keep it, and no change touches the blocks of a slot
that it is not about.
-/

namespace Waros.Kernel.Disk

open Lib Fs BlockProgram Execution Superblock List Nat VirtioBlk DiskFileEntry

namespace VirtioBlk

variable {d d' : VirtioBlk} {P : FileEntry → Prop}

/-! ### Calls as sequences of changes -/

/-- The first device becomes the second by some changes. -/
abbrev Changes (P : FileEntry → Prop) : VirtioBlk → VirtioBlk → Prop :=
  Relation.ReflTransGen (Change P)

lemma Changes.sound (hP : ∀ file, P file → InMemory file) (hchs : Changes P d d')
    (h : d.Sound) : d'.Sound := by
  induction hchs with
  | refl => exact h
  | tail _ hchan ih => exact hchan.sound hP ih

lemma Change.setState (d : VirtioBlk) (st : UInt8) :
    Change P d (d.store 0 (d.superblock.setState st).sector) :=
  .superblock (d.superblock.setState st) (by simp) (by simp)

lemma Change.refresh (d : VirtioBlk) (st : UInt8) :
    Change P d (d.store 0 (d.refreshed st).sector) :=
  .superblock (d.refreshed st) (by simp [refreshed]) (by simp [refreshed])

lemma Sound.exec_setSuperblockState (h : d.Sound) (st : UInt8) :
    d.exec (setSuperblockState st) = .ok () (d.store 0 (d.superblock.setState st).sector)
        [.wrote 0 (d.superblock.setState st).sector] := by
  rw [VirtioBlk.exec_setSuperblockState h.table.accepts_zero, if_pos h.valid]

/-- The search of `delete_file_from_disk`. -/
lemma Sound.clearEntry_cases (h : d.Sound) (name : Str) {ixs : List ℕ}
    (hidxs : ∀ i ∈ ixs, i < maxFiles) :
    (∃ error, d.exec (clearEntry name ixs) = .error error d []) ∨
      d.exec (clearEntry name ixs) = .ok false d [] ∨
      ∃ slot < maxFiles, d.Active slot ∧ entryName (d.entryAt slot) = .ok name ∧
        d.exec (clearEntry name ixs) =
          .ok true (d.store (fileTableStartSector + slot) inactive.encode)
            [.wrote (fileTableStartSector + slot) inactive.encode] := by
  induction ixs with
  | nil => exact .inr (.inl rfl)
  | cons ix _ ih =>
    have hidx := hidxs ix (by simp)
    have hr := ih fun i hi => hidxs i (by simp [hi])
    rw [clearEntry, exec_bind, exec_readFileEntry h.table hidx, bind_ok]
    by_cases hact : (d.entryAt ix).active = 0
    · rw [if_pos hact]
      exact hr
    rw [if_neg hact, exec_bind]
    rcases hnm : entryName (d.entryAt ix) with error | found
    · exact .inl ⟨error, rfl⟩
    rw [exec_lift_ok, bind_ok]
    by_cases hs : found = name
    · rw [if_pos hs, exec_bind, exec_writeFileEntry h.table hidx]
      exact .inr (.inr ⟨ix, hidx, hact, by rw [hnm, hs], rfl⟩)
    · rw [if_neg hs]
      exact hr

variable {α γ : Type} {p : DiskM α} {f : α → DiskM γ}

/-- A program that begins with changes and goes on with changes. -/
lemma Changes.bind (hp : Changes P d (d.exec p).state)
    (hf : ∀ value, Changes P (d.exec p).state ((d.exec p).state.exec (f value)).state) :
    Changes P d (d.exec (p >>= f)).state := by
  rw [exec_bind]
  cases hex : d.exec p with
  | mk o =>
    rw [hex] at hp hf
    cases o with
    | returned res =>
      cases res with
      | ok value => exact hp.trans (hf value)
      | error => exact hp
    | panicked => exact hp

/-- Changes that leave the superblock alone. -/
structure FileChanges (P : FileEntry → Prop) (d d' : VirtioBlk) : Prop where
  changes : Changes P d d'
  superblock : d'.superblock = d.superblock

lemma FileChanges.refl : FileChanges P d d := ⟨.refl, rfl⟩

variable {d'' : VirtioBlk} {slot start : ℕ}

lemma FileChanges.trans (h : FileChanges P d d') (h' : FileChanges P d' d'') :
    FileChanges P d d'' :=
  ⟨h.changes.trans h'.changes, h'.superblock.trans h.superblock⟩

lemma FileChanges.clear (hsl : slot < maxFiles) : FileChanges P d
    (d.store (fileTableStartSector + slot) inactive.encode) :=
  ⟨.single (.clear slot hsl), superblock_store_entry slot _⟩

/-- A program that begins with such changes and goes on with them. -/
lemma FileChanges.bind (hp : FileChanges P d (d.exec p).state)
    (hf : ∀ value, FileChanges P (d.exec p).state ((d.exec p).state.exec (f value)).state) :
    FileChanges P d (d.exec (p >>= f)).state := by
  refine ⟨hp.changes.bind fun value => (hf value).changes, ?_⟩
  rw [exec_bind]
  cases hex : d.exec p with
  | mk o =>
    rw [hex] at hp hf
    rcases o with (error | value) | -
    · exact hp.superblock
    · exact (hp.trans (hf value)).superblock
    · exact hp.superblock

lemma Sound.refresh_changes (h : d.Sound) (st : UInt8) :
    Changes P d (d.exec (refreshSuperblock st)).state := by
  rw [exec_refreshSuperblock h.table h.valid]
  exact .single (.refresh d st)

lemma Sound.setState_changes (h : d.Sound) (st : UInt8) :
    Changes P d (d.exec (setSuperblockState st)).state := by
  rw [h.exec_setSuperblockState]
  exact .single (.setState d st)

lemma Sound.clear_changes (h : d.Sound) (name : Str) :
    FileChanges P d (d.exec (clearEntry name (range maxFiles))).state := by
  rcases h.clearEntry_cases name (fun i hi => mem_range.1 hi) with
    ⟨error, hex⟩ | hex | ⟨slot, hsl, -, -, hex⟩
  · rw [hex]
    exact .refl
  · rw [hex]
    exact .refl
  · rw [hex]
    exact .clear hsl

section
variable (hP : ∀ file, P file → InMemory file)
include hP

lemma Sound.sweep_changes (h : d.Sound) (fs : List FileEntry) {ixs : List ℕ}
    (hidxs : ∀ i ∈ ixs, i < maxFiles) :
    FileChanges P d (d.exec (sweep fs ixs)).state := by
  induction ixs generalizing d with
  | nil => exact .refl
  | cons ix _ ih =>
    have hidx := hidxs ix (by simp)
    have hr := fun {d : VirtioBlk} (h : d.Sound) => ih h fun i hi => hidxs i (by simp [hi])
    rw [sweep, exec_bind, exec_readFileEntry h.table hidx, bind_ok]
    by_cases hact : (d.entryAt ix).active = 0
    · rw [if_pos hact]
      exact hr h
    rw [if_neg hact, exec_bind]
    rcases hnm : entryName (d.entryAt ix) with error | name
    · exact .refl
    rw [exec_lift_ok, bind_ok]
    cases hkeep : fs.any fun file => isPersistablePath file.name && file.name == name with
    | true => exact hr h
    | false =>
      have hclr : FileChanges P d _ := .clear hidx
      simp only [Bool.not_false, if_true]
      rw [exec_bind, exec_writeFileEntry h.table hidx]
      exact hclr.trans (hr (hclr.changes.sound hP h))

variable {file : FileEntry} {files : List FileEntry}

section
variable (h : d.Sound)
include h

lemma Sound.upsert_changes (hfl : P file) :
    FileChanges P d (d.exec (upsertFileEntry file)).state := by
  rcases h.upsert_cases (hP file hfl) with ⟨error, hex⟩ | ⟨slot, start, hsl, hpl, hex⟩
  · rw [hex]
    exact .refl
  · rw [hex]
    exact ⟨.single (.place slot start file hsl hfl hpl), superblock_placed⟩

lemma Sound.upsertEach_changes (hfs : ∀ file ∈ files, P file) (syn : ℕ) :
    FileChanges P d (d.exec (upsertEach files syn)).state := by
  induction files generalizing d syn with
  | nil => exact .refl
  | cons file _ ih =>
    have hr := fun {d : VirtioBlk} (h : d.Sound) syn => ih h (fun f hf => hfs f (by simp [hf])) syn
    rw [upsertEach]
    split_ifs
    · exact hr h syn
    · have hfst := h.upsert_changes hP (hfs file (by simp))
      exact .bind hfst fun _ => hr (hfst.changes.sound hP h) (syn + 1)

lemma Sound.save_changes (hfl : P file) : Changes P d (d.exec (saveEntry file)).state := by
  have hdy : Changes P d _ := h.setState_changes fsStateDirty
  have hsnd := hdy.sound hP h
  have hups := (hsnd.upsert_changes hP hfl).changes
  refine .bind hdy fun _ => .bind hups fun _ => .bind ?_ fun _ => .refl
  exact (hups.sound hP hsnd).refresh_changes fsStateClean

lemma Sound.delete_changes (name : Str) : Changes P d (d.exec (deleteFileFromDisk name)).state := by
  have hdy : Changes P d _ := h.setState_changes fsStateDirty
  have hsnd := hdy.sound hP h
  have hclr : Changes P _ _ := (hsnd.clear_changes name).changes
  refine .bind hdy fun _ => .bind hclr fun found => ?_
  cases found with
  | false => exact .refl
  | true => exact .bind ((hclr.sound hP hsnd).refresh_changes fsStateClean) fun _ => .refl

lemma Sound.sync_changes (hfs : ∀ file ∈ files, P file) :
    Changes P d (d.exec (syncFilesystem files)).state := by
  have hdy : Changes P d _ := h.setState_changes fsStateDirty
  have hsnd := hdy.sound hP h
  have hswe := (hsnd.sweep_changes hP files fun i hi => mem_range.1 hi).changes
  have hsnd' := hswe.sound hP hsnd
  have hups := (hsnd'.upsertEach_changes hP hfs 0).changes
  refine .bind hdy fun _ => .bind hswe fun _ => .bind hups fun _ => .bind ?_ fun _ => .refl
  exact (hups.sound hP hsnd').refresh_changes fsStateClean

end

end

/-! ### The other slots -/

structure KeepsSlot (d d' : VirtioBlk) (i : ℕ) : Prop where
  capacity : d'.capacitySectors = d.capacitySectors
  entry : d'.entryAt i = d.entryAt i
  blocks : ∀ k < d.count i * sectorsPerBlock,
    d'.sectors (startSectorOf (d.start i) + k) = d.sectors (startSectorOf (d.start i) + k)

variable {i : ℕ} {file : FileEntry} (now : UInt64)

lemma KeepsSlot.trans (h : d.KeepsSlot d' i) (h' : d'.KeepsSlot d'' i) : d.KeepsSlot d'' i := by
  refine ⟨h'.capacity.trans h.capacity, h'.entry.trans h.entry, ?_⟩
  have hsta : d'.start i = d.start i := by rw [start, h.entry, start]
  have hcnt : d'.count i = d.count i := by rw [count, h.entry, count]
  intro k hk
  have hblks := h'.blocks k (hcnt ▸ hk)
  rw [hsta] at hblks
  exact hblks.trans (h.blocks k hk)

/-- A sector below the data area is no part of a file. -/
lemma KeepsSlot.store {a i : ℕ} (data : Sector) (ha : a < dataStartSector)
    (hent : (d.store a data).entryAt i = d.entryAt i) : d.KeepsSlot (d.store a data) i := by
  refine ⟨rfl, hent, ?_⟩
  intro k _
  have hsta := startSectorOf_ge (d.start i)
  exact if_neg (by omega)

/-- Writing some sectors of a range of blocks keeps the slots that are apart from
it. -/
lemma KeepsSlot.range {blocks n i : ℕ} (contents : ℕ → Sector) (hi : i < maxFiles)
    (hn : n ≤ blocks * sectorsPerBlock)
    (hap : blocks ≠ 0 → d.count i ≠ 0 → Apart start blocks (d.start i) (d.count i)) :
    d.KeepsSlot (d.storeRange (startSectorOf start) n contents) i := by
  refine ⟨rfl, entryAt_storeRange contents hi, ?_⟩
  intro k hk
  refine if_neg ?_
  simp only [Apart, startSectorOf, sectorsPerBlock, blockSize, sectorSize] at *
  omega

lemma KeepsSlot.place {i : ℕ} (hsl : slot < maxFiles) (hi : i < maxFiles)
    (hne : i ≠ slot) (hact : d.Active i) (hfr : blockCountForLen file.data.length ≠ 0 →
      d.Free slot start (blockCountForLen file.data.length)) :
    d.KeepsSlot (d.placed slot start file) i := by
  have hrng : d.KeepsSlot _ i := .range (slice (paddedData file.data)) hi le_rfl
    fun hblks => hfr hblks i hi hne hact
  refine hrng.trans (.store _ (Nat.add_lt_add_left hsl _) ?_)
  rw [entryAt_store_entry slot i (length_nameField file.name), if_neg hne]

/-- At most one slot is not kept: a free one, or one with the given name. -/
def KeepsOthers (d d' : VirtioBlk) (name : Str) : Prop :=
  ∃ changed : Option ℕ,
    (∀ slot, changed = some slot → d.Active slot → entryName (d.entryAt slot) = .ok name) ∧
    ∀ i < maxFiles, some i ≠ changed → d.Active i → d.KeepsSlot d' i

lemma KeepsSlot.superblock (sb : Superblock) (i : ℕ) : d.KeepsSlot (d.store 0 sb.sector) i :=
  .store sb.sector (by decide) (by simp)

lemma SlotFor.name_eq {name : Str} (h : d.SlotFor name slot)
    (hact : d.Active slot) : entryName (d.entryAt slot) = .ok name := by
  obtain ⟨t, free, hsearch, hsl⟩ := h
  obtain ⟨htgt, hfr, -⟩ := search_spec hsearch
  cases t with
  | some i =>
    obtain rfl : i = slot := Option.some.inj hsl
    exact (htgt i rfl).2.2.2
  | none =>
    rcases hfr slot hsl with hemp | hmem
    · cases hemp
    · exact absurd hact hmem.2

lemma Sound.save_keepsOthers (h : d.Sound) (hd : InMemory file) :
    d.KeepsOthers (d.exec (saveEntry file)).state file.name := by
  have hdy : Change InMemory d _ := .setState d fsStateDirty
  have hsnd := hdy.sound (fun _ hfl => hfl) h
  have hkp := KeepsSlot.superblock (d := d) (d.superblock.setState fsStateDirty)
  rw [saveEntry, exec_bind, h.exec_setSuperblockState, bind_ok, exec_bind]
  generalize d.store 0 (d.superblock.setState fsStateDirty).sector = d₁ at *
  rcases hsnd.upsert_cases hd with ⟨error, hex⟩ | ⟨slot, start, hsl, hpl, hex⟩
  · rw [hex]
    exact ⟨none, by simp, fun i _ _ _ => hkp i⟩
  · have hplace := (Change.place slot start file hsl hd hpl).sound
      (fun _ hfl => hfl) hsnd
    rw [hex, bind_ok, exec_bind, exec_refreshSuperblock hplace.table hplace.valid]
    refine ⟨some slot, ?_, ?_⟩
    · rintro _ ⟨⟩ hact
      rw [← (hkp slot).entry]
      apply hsl.name_eq
      rwa [Active, (hkp slot).entry]
    · intro i hi hne hact
      have hact₁ : d₁.Active i := by rwa [Active, (hkp i).entry]
      have hpl' := KeepsSlot.place hsl.lt hi (by simpa using hne) hact₁ hpl.free
      exact ((hkp i).trans hpl').trans (.superblock _ i)

lemma Sound.delete_keepsOthers (h : d.Sound) (name : Str) :
    d.KeepsOthers (d.exec (deleteFileFromDisk name)).state name := by
  have hdy : Change InMemory d _ := .setState d fsStateDirty
  have hsnd := hdy.sound (fun _ hfl => hfl) h
  have hkp := KeepsSlot.superblock (d := d) (d.superblock.setState fsStateDirty)
  rw [deleteFileFromDisk, exec_bind, h.exec_setSuperblockState, bind_ok, exec_bind]
  generalize d.store 0 (d.superblock.setState fsStateDirty).sector = d₁ at *
  rcases hsnd.clearEntry_cases name (fun i hi => mem_range.1 hi) with
    ⟨error, hex⟩ | hex | ⟨slot, hsl, -, hnm, hex⟩
  · rw [hex]
    exact ⟨none, by simp, fun i _ _ _ => hkp i⟩
  · rw [hex]
    exact ⟨none, by simp, fun i _ _ _ => hkp i⟩
  · have hcleared : (d₁.store (fileTableStartSector + slot)
        inactive.encode).Sound :=
      (Change.clear slot hsl).sound (P := InMemory) (fun _ hfl => hfl) hsnd
    rw [hex, bind_ok]
    simp only [Bool.not_true, Bool.false_eq_true, if_false]
    rw [exec_bind, exec_refreshSuperblock hcleared.table hcleared.valid]
    refine ⟨some slot, ?_, ?_⟩
    · rintro _ ⟨⟩ _
      rw [← (hkp slot).entry]
      exact hnm
    · intro i _ hne _
      have hne' : i ≠ slot := by simpa using hne
      have hclr : d₁.KeepsSlot
          (d₁.store (fileTableStartSector + slot) inactive.encode) i := by
        refine .store _ (Nat.add_lt_add_left hsl _) ?_
        rw [entryAt_store_entry slot i (by simp [inactive]), if_neg hne']
      exact ((hkp i).trans hclr).trans (.superblock _ i)

/-- A read of sectors depends on the capacity and on these sectors only. -/
lemma readSectors_congr (hcap : d'.capacitySectors = d.capacitySectors) {sec n : ℕ}
    (h : ∀ a ∈ addresses sec n, d'.sectors a = d.sectors a) (buf : List UInt8) :
    (d'.exec (Disk.readSectors sec n buf)).outcome =
      (d.exec (Disk.readSectors sec n buf)).outcome := by
  have hacc : d'.accepts = d.accepts := by
    funext a
    rw [accepts, hcap, accepts]
  have hbs : ((addresses sec n).flatMap fun a => (d'.sectors a).bytes) =
      (addresses sec n).flatMap fun a => (d.sectors a).bytes :=
    flatMap_congr fun a ha => by rw [h a ha]
  rw [Disk.readSectors]
  split_ifs
  · rfl
  · rw [exec_bind, exec_bind, exec_readEach_eq, exec_readEach_eq, hacc, hbs]
    split_ifs <;> rfl

lemma KeepsSlot.readFileData (h : d.KeepsSlot d' i) (buf : List UInt8) :
    (d'.exec (readFileData (d.start i) (d.count i) buf)).outcome =
      (d.exec (readFileData (d.start i) (d.count i) buf)).outcome := by
  have hsect : ∀ a ∈ addresses (startSectorOf (d.start i))
      (d.count i * sectorsPerBlock % 2 ^ 32), d'.sectors a = d.sectors a := by
    intro a ha
    obtain ⟨k, hk, rfl⟩ := mem_map.1 ha
    have hsta := (d.entryAt i).startBlock.toNat_lt
    rw [mem_range] at hk
    have hk' : k < d.count i * sectorsPerBlock := hk.trans_le (mod_le _ _)
    have hwrap : U64.wrappingAdd (startSectorOf (d.start i)) k = startSectorOf (d.start i) + k :=
      wrappingAdd_startSectorOf hsta (hk.trans (mod_lt _ (by decide)))
    rw [hwrap]
    exact h.blocks k hk'
  rw [Disk.readFileData, exec_bind, exec_bind, exec_asU32, exec_asU32]
  exact readSectors_congr h.capacity hsect buf

lemma accepts_of_writeEach_ok {ws : List (ℕ × Sector)}
    (h : (d.exec (writeEach ws)).outcome = .returned (.ok ())) :
    ∀ w ∈ ws, d.accepts w.1 := by
  induction ws generalizing d with
  | nil => simp
  | cons w _ ih =>
    rw [writeEach, exec_bind] at h
    cases hw : d.accepts w.1 with
    | false =>
      rw [exec_writeBlock_refused hw] at h
      cases h
    | true =>
      rw [exec_writeBlock hw] at h
      intro v hv
      rcases mem_cons.1 hv with rfl | hv
      · exact hw
      · exact ih (d := d.store w.1 w.2) h v hv

lemma hasTable_of_accepts (h : d.accepts 128) : d.HasTable := by
  rw [accepts, decide_eq_true_eq, U64.saturatingAdd] at h
  simp only [HasTable, dataStartSector, fileTableStartSector, maxFiles]
  omega

def formatted (d : VirtioBlk) (now : UInt64) : VirtioBlk :=
  (d.store 0 (new d.capacitySectors now).sector).storeRange fileTableStartSector
    maxFiles fun _ => .zero

lemma exec_formatDisk {now : UInt64}
    (h : (d.exec (formatDisk d.capacitySectors now)).outcome = .returned (.ok ())) :
    d.HasTable ∧ (d.exec (formatDisk d.capacitySectors now)).state = d.formatted now := by
  rw [formatDisk, exec_bind, writeSuperblock] at *
  cases h0 : d.accepts 0 with
  | false =>
    rw [exec_writeBlock_refused h0] at h
    cases h
  | true =>
    rw [exec_writeBlock h0, bind_ok] at *
    have hacc := accepts_of_writeEach_ok h
    constructor
    · have hla : d.accepts 128 := hacc (128, .zero) (by
        simp [fileTableStartSector, maxFiles])
      exact hasTable_of_accepts hla
    · rw [exec_writeEach hacc, range'_eq_map_range, formatted, ← storeEach_range]
      simp [Function.comp_def]

lemma exec_formatDisk_ok (h : d.HasTable) :
    (d.exec (formatDisk d.capacitySectors now)).outcome = .returned (.ok ()) := by
  rw [formatDisk, exec_bind, writeSuperblock, exec_writeBlock h.accepts_zero, bind_ok,
    exec_writeEach]
  · rfl
  · intro w hw
    obtain ⟨sec, hsct, rfl⟩ := mem_map.1 hw
    rw [mem_range'_1] at hsct
    exact accepts_of_lt (hsct.2.trans_le h)

lemma formatted_inactive (hi : i < maxFiles) : ¬ (d.formatted now).Active i := by
  intro hact
  have hsct : (d.formatted now).sectors (fileTableStartSector + i) = .zero :=
    if_pos ⟨le_add_right _ _, Nat.add_lt_add_left hi _⟩
  rw [Active, entryAt, hsct] at hact
  exact hact rfl

/-- A disk that has been formatted is sound: it has no files. -/
lemma formatted_sound (h : d.HasTable) : (d.formatted now).Sound := by
  have hsup : (d.formatted now).superblock = new d.capacitySectors now := by rfl
  have hina : ∀ i < maxFiles, ¬ (d.formatted now).Active i := fun i hi => formatted_inactive now hi
  refine ⟨h, ?_, ?_, ⟨?_, ?_, ?_⟩, ?_, ?_⟩
  · exact isValid_new _ _
  · rw [hsup, totalBlocks_new]
    have hle := mod_le ((d.capacitySectors - dataStartSector) / sectorsPerBlock) (2 ^ 32)
    have hblks := div_mul_le_self (d.capacitySectors - dataStartSector) sectorsPerBlock
    calc startSectorOf _ ≤ dataStartSector + (d.capacitySectors - dataStartSector) :=
          Nat.add_le_add_left ((mul_le_mul_right _ hle).trans hblks) _
      _ = d.capacitySectors := Nat.add_sub_cancel' h
  · exact fun i hi hact => absurd hact (hina i hi)
  · exact fun i hi _ _ _ hact => absurd hact (hina i hi)
  · exact fun i hi hact => absurd hact (hina i hi)
  · exact fun i hi hact => absurd hact (hina i hi)
  · exact fun i hi hact => absurd hact (hina i hi)

end VirtioBlk

/-! ### Runs -/

/-- The calls that change a formatted disk. -/
inductive DiskOp
  | save (file : FileEntry)
  | delete (name : Str)
  | sync (files : List FileEntry)

namespace DiskOp

def program : DiskOp → DiskM Unit
  | .save file => saveEntry file
  | .delete name => deleteFileFromDisk name
  | .sync files => do let _ ← syncFilesystem files

/-- The files that the call is given satisfy `P`. -/
def Files (P : FileEntry → Prop) : DiskOp → Prop
  | .save file => P file
  | .delete _ => True
  | .sync files => ∀ file ∈ files, P file

variable (disk : Disk)

/-- The disk after a call, whatever it returns. -/
def step (op : DiskOp) : Disk := (exec disk op.program).state

variable {op : DiskOp} {device : VirtioBlk} {now : UInt64} {d : VirtioBlk}

lemma changes {P : FileEntry → Prop} (hP : ∀ file, P file → InMemory file)
    (h : d.Sound) (hop : op.Files P) : VirtioBlk.Changes P d (d.exec op.program).state := by
  cases op with
  | save => exact h.save_changes hP hop
  | delete name => exact h.delete_changes hP name
  | sync => exact .bind (h.sync_changes hP hop) fun _ => .refl

/-- The disk is sound, behind a coherent cache. -/
def SoundDisk : Prop := disk.cache.Coherent disk.device ∧ disk.device.Sound

lemma step_sound (op : DiskOp) (h : SoundDisk disk) (hop : op.Files InMemory) :
    SoundDisk (step disk op) := by
  obtain ⟨-, -, hdev, hcoh⟩ := Fronts.exec ⟨rfl, h.1⟩ op.program
  rw [SoundDisk, step, hdev]
  have hP : ∀ file, InMemory file → InMemory file := fun _ hfl => hfl
  exact ⟨hcoh, (changes hP h.2 hop).sound hP h.2⟩

/-- The calls on one file, with its name. -/
def fileName : DiskOp → Option Str
  | .save file => some file.name
  | .delete name => some name
  | .sync _ => none

lemma keepsOthers (h : d.Sound) (hop : op.Files InMemory) {name : Str}
    (hnm : op.fileName = some name) : d.KeepsOthers (d.exec op.program).state name := by
  cases op with
  | save =>
    cases hnm
    exact h.save_keepsOthers hop
  | delete =>
    cases hnm
    exact h.delete_keepsOthers name
  | sync => cases hnm

/-- A disk as `Disk::new` makes it, formatted. -/
def formattedDisk (device : VirtioBlk) (now : UInt64) :
    Execution Disk Sector DiskError DiskNote Unit :=
  exec ⟨device, .new 64⟩ (formatDisk device.capacitySectors now)

section
variable (h : (formattedDisk device now).outcome = .returned (.ok ()))
include h

lemma formattedDisk_fronts :
    device.HasTable ∧ Fronts (formattedDisk device now).state (device.formatted now) := by
  have hfro : Fronts ⟨device, .new 64⟩ device := ⟨rfl, .new 64 device⟩
  obtain ⟨hout, -, hfro'⟩ := hfro.exec (formatDisk device.capacitySectors now)
  obtain ⟨htab, hst⟩ := exec_formatDisk (hout.symm.trans h)
  rw [hst] at hfro'
  exact ⟨htab, hfro'⟩

lemma formattedDisk_sound : SoundDisk (formattedDisk device now).state := by
  obtain ⟨htab, hdev, hcoh⟩ := formattedDisk_fronts h
  rw [SoundDisk, hdev]
  exact ⟨hcoh, formatted_sound now htab⟩

end

/-- On a formatted disk and after any calls, failed ones included, the extent
invariant holds. Saving or deleting one more file changes at most one slot, a
free one or one with the name of the file, and what `read_file_data` returns
for every other active slot stays the same. -/
theorem run_extentsOk {device : VirtioBlk} {now : UInt64} {ops : List DiskOp} {disk : Disk}
    (hformat : (formattedDisk device now).outcome = .returned (.ok ()))
    (hops : ∀ op ∈ ops, op.Files InMemory)
    (hrun : run step (formattedDisk device now).state ops = disk) :
    disk.device.ExtentsOk ∧
      ∀ op : DiskOp, op.Files InMemory → ∀ name, op.fileName = some name →
        ∃ changed : Option ℕ,
          (∀ slot, changed = some slot → disk.device.Active slot →
            entryName (disk.device.entryAt slot) = .ok name) ∧
          ∀ i < maxFiles, some i ≠ changed → disk.device.Active i →
            (step disk op).device.entryAt i = disk.device.entryAt i ∧
            ∀ buffer,
              (exec (step disk op)
                (readFileData (disk.device.start i) (disk.device.count i) buffer)).outcome =
              (exec disk
                (readFileData (disk.device.start i) (disk.device.count i) buffer)).outcome := by
  have hsnd : SoundDisk disk := by
    rw [← hrun]
    exact run_invariant step_sound (formattedDisk_sound hformat) (stepsOk_of_forall hops _)
  refine ⟨hsnd.2.extents, ?_⟩
  intro op hop name hnm
  obtain ⟨changed, hchg, hkp⟩ := keepsOthers hsnd.2 hop hnm
  refine ⟨changed, hchg, ?_⟩
  intro i hi hne hact
  have hkeep := hkp i hi hne hact
  have hfro : Fronts disk disk.device := ⟨rfl, hsnd.1⟩
  have hfro' : Fronts (step disk op) (disk.device.exec op.program).state :=
    (hfro.exec op.program).2.2
  constructor
  · rw [hfro'.1, hkeep.entry]
  · intro buffer
    rw [(hfro'.exec _).1, (hfro.exec _).1]
    exact hkeep.readFileData buffer

def blankDevice (capacitySectors : ℕ) : VirtioBlk := ⟨capacitySectors, fun _ => .zero⟩

lemma formattedDisk_blank {cap : ℕ} (h : dataStartSector ≤ cap) :
    (formattedDisk (blankDevice cap) 0).outcome = .returned (.ok ()) := by
  have hfro : Fronts ⟨blankDevice cap, .new 64⟩ (blankDevice cap) := ⟨rfl, .new 64 _⟩
  exact (hfro.exec _).1.trans (exec_formatDisk_ok 0 h)

def smallFile (name : Str) : FileEntry :=
  ⟨name, [1], 0, 0, false, 1000, ⟨1000, true, true, false, false⟩⟩

/-- Two files on a disk with room for one: the second call fails. -/
theorem run_extentsOk_full :
    (run step (formattedDisk (blankDevice 137) 0).state
      [.save (smallFile ['/', 'a']), .save (smallFile ['/', 'b'])]).device.ExtentsOk := by
  refine (run_extentsOk (formattedDisk_blank (by decide)) ?_ rfl).1
  intro op hop
  rcases mem_cons.1 hop with rfl | hop
  · exact le_of_ble_eq_true rfl
  · obtain rfl := mem_singleton.1 hop
    exact le_of_ble_eq_true rfl

end DiskOp

end Waros.Kernel.Disk
