import Waros.Kernel.Disk.Extents

/-!
The disk as a set of files. A slot stores the file that `load_filesystem`
would find in it; the three kinds of changes of a device do to this file what
they are called. When the names on the disk are distinct, synchronising
replaces the whole set.
-/

namespace Waros.Kernel.Disk

open Lib Fs BlockProgram Execution Str List Disk DiskFileEntry

/-- The file that an entry of the table describes. -/
def fileOf (entry : DiskFileEntry) (name : Str) (data : List UInt8) : FileEntry where
  name := name
  data := data
  createdAt := entry.createdAt.toNat
  modifiedAt := entry.modifiedAt.toNat
  readonly := entry.readonly != 0
  ownerUid := entry.ownerUid
  permissions :=
    ⟨entry.ownerUid, entry.permOwnerRead != 0, entry.permOwnerWrite != 0,
      entry.permOthersRead != 0, entry.permOthersWrite != 0⟩

/-- A name that the name field holds: it ends before the last byte, and a zero
byte ends it. -/
def ShortName (name : Str) : Prop := byteLen name ≤ maxFilename - 1 ∧ 0 ∉ toUtf8 name

/-- What is left of a file on the disk: 64 bits of its times, and one owner. -/
def onDisk (file : FileEntry) : FileEntry :=
  { file with
    createdAt := file.createdAt % 2 ^ 64
    modifiedAt := file.modifiedAt % 2 ^ 64
    permissions := { file.permissions with ownerUid := file.ownerUid } }

/-- The name field of a short name is the name, filled up with zeros. -/
lemma takeWhile_nameField {name : Str} (h : ShortName name) :
    (nameField name).takeWhile (· ≠ 0) = toUtf8 name := by
  have hlen : (toUtf8 name).length ≤ maxFilename - 1 := by
    rw [length_toUtf8]
    exact h.1
  have hall : ∀ b ∈ toUtf8 name, decide (b ≠ 0) := by
    rintro b hb
    rw [decide_eq_true_eq]
    rintro rfl
    exact h.2 hb
  rw [nameField, take_of_length_le hlen, Bytes.put, take_zero, nil_append,
    takeWhile_append_of_pos hall]
  cases maxFilename - (toUtf8 name).length <;> simp

lemma entryName_diskEntry {file : FileEntry} (h : ShortName file.name) (lo cnt : ℕ) :
    entryName (diskEntry file lo cnt) = .ok file.name := by
  rw [entryName, show (diskEntry file lo cnt).name = nameField file.name from rfl,
    takeWhile_nameField h, ofUtf8_toUtf8]

lemma flag_ne_zero (b : Bool) : (flag b != 0) = b := by cases b <;> rfl

lemma fileOf_diskEntry (file : FileEntry) (lo cnt : ℕ) :
    fileOf (diskEntry file lo cnt) file.name file.data = onDisk file := by
  simp only [fileOf, diskEntry, onDisk, flag_ne_zero, UInt64.toNat_ofNat']

namespace VirtioBlk

variable {d d' : VirtioBlk}

lemma take_paddedData (data : List UInt8) : (paddedData data).take data.length = data := by
  rw [paddedData, Bytes.put, take_zero, nil_append, take_left']
  rfl

/-- The file in a slot. -/
def stored (d : VirtioBlk) (i : ℕ) : Option FileEntry :=
  if d.Active i then
    match entryName (d.entryAt i) with
    | .ok name =>
      some (fileOf (d.entryAt i) name
        ((d.extentBytes (d.start i) (d.count i)).take (d.entryAt i).size.toNat))
    | .error _ => none
  else none

variable {i : ℕ} {file : FileEntry} {name : Str} {files : List FileEntry}

lemma KeepsSlot.stored_eq (h : d.KeepsSlot d' i) : d'.stored i = d.stored i := by
  have hbs : d'.extentBytes (d.start i) (d.count i) = d.extentBytes (d.start i) (d.count i) :=
    flatMap_congr fun k hk => by rw [h.blocks k (mem_range.1 hk)]
  have hact : d'.Active i ↔ d.Active i := by rw [Active, h.entry, Active]
  have hsta : d'.start i = d.start i := by rw [start, h.entry, start]
  have hcnt : d'.count i = d.count i := by rw [count, h.entry, count]
  simp only [stored, hact, hsta, hcnt, hbs, h.entry]

lemma stored_of_inactive (h : ¬ d.Active i) : d.stored i = none := if_neg h

variable {slot start n : ℕ}

section
variable (hsl : slot < maxFiles)
include hsl

lemma stored_cleared {i : ℕ} :
    (d.store (fileTableStartSector + slot) inactive.encode).stored i =
      if i = slot then none else d.stored i := by
  have hnm : inactive.name.length = maxFilename := by simp [inactive]
  have hent := entryAt_store_entry (d := d) slot i hnm
  by_cases hi : i = slot
  · rw [if_pos hi] at hent ⊢
    apply stored_of_inactive
    rw [Active, hent]
    exact fun hact => hact rfl
  · rw [if_neg hi] at hent ⊢
    exact (KeepsSlot.store _ (Nat.add_lt_add_left hsl _) hent).stored_eq

lemma extentBytes_placed (hd : InMemory file) :
    (d.placed slot start file).extentBytes start (blockCountForLen file.data.length) =
      paddedData file.data := by
  have hsma : file.data.length < 2 ^ 43 := lt_of_le_of_lt hd (by decide)
  have hsct : ∀ k ∈ range (blockCountForLen file.data.length * sectorsPerBlock),
      ((d.placed slot start file).sectors (startSectorOf start + k)).bytes =
        (slice (paddedData file.data) k).bytes := by
    intro k hk
    have hge := startSectorOf_ge start
    have hne : ¬ startSectorOf start + k = fileTableStartSector + slot := by
      simp only [dataStartSector] at hge
      omega
    rw [mem_range] at hk
    rw [placed, store_sectors, if_neg hne, storeRange]
    simp [hk]
  rw [extentBytes, flatMap_congr hsct]
  apply flatMap_slice
  rw [length_paddedData hsma, mul_assoc]
  rfl

/-- Placing a file changes what its slot stores, and nothing else. -/
lemma stored_placed {i : ℕ} (hi : i < maxFiles) (hd : InMemory file) (hnm : ShortName file.name)
    (hpl : d.Placeable slot start (blockCountForLen file.data.length)) :
    (d.placed slot start file).stored i = if i = slot then some (onDisk file) else d.stored i := by
  by_cases hne : i = slot
  · subst hne
    have hent : (d.placed i start file).entryAt i =
        diskEntry file start (blockCountForLen file.data.length) := by
      rw [entryAt_placed hi, if_pos rfl]
    have hact : (d.placed i start file).Active i := by
      rw [Active, hent]
      exact (by decide : (1 : UInt8) ≠ 0)
    have hsz : (diskEntry file start (blockCountForLen file.data.length)).size.toNat =
        file.data.length := by
      exact Nat.mod_eq_of_lt (lt_of_le_of_lt hd (by decide))
    have hsta : (d.placed i start file).start i = start := by
      rw [VirtioBlk.start, hent]
      exact hpl.start_eq.1
    have hcnt : (d.placed i start file).count i = blockCountForLen file.data.length := by
      rw [count, hent]
      exact hpl.start_eq.2
    rw [if_pos rfl, stored, if_pos hact, hsta, hcnt, extentBytes_placed hi hd, hent,
      entryName_diskEntry hnm, hsz, take_paddedData]
    exact congrArg some (fileOf_diskEntry file _ _)
  · rw [if_neg hne]
    by_cases hact : d.Active i
    · exact (KeepsSlot.place hsl hi hne hact hpl.free).stored_eq
    · rw [stored_of_inactive hact]
      apply stored_of_inactive
      rwa [Active, entryAt_placed hi, if_neg hne]

end

/-- The names on the disk can be read and are distinct. -/
structure Named (d : VirtioBlk) : Prop where
  decodes : ∀ i < maxFiles, d.Active i → ∃ file, d.stored i = some file
  distinct : ∀ i < maxFiles, ∀ j < maxFiles, ∀ file file', d.stored i = some file →
    d.stored j = some file' → file.name = file'.name → i = j

/-- Names stay distinct when one slot is changed, and its new name is nowhere
else. -/
lemma Named.of_slot (h : d.Named) (slot : ℕ)
    (hact : ∀ i < maxFiles, i ≠ slot → d'.Active i → d.Active i)
    (ho : ∀ i < maxFiles, i ≠ slot → d'.stored i = d.stored i)
    (hsl : slot < maxFiles → d'.Active slot → ∃ file, d'.stored slot = some file)
    (hnew : slot < maxFiles → ∀ file, d'.stored slot = some file → ∀ i < maxFiles, i ≠ slot →
      ∀ file', d.stored i = some file' → file'.name ≠ file.name) : d'.Named := by
  refine ⟨?_, ?_⟩
  · intro i hi hi'
    by_cases hne : i = slot
    · subst hne
      exact hsl hi hi'
    · rw [ho i hi hne]
      exact h.decodes i hi (hact i hi hne hi')
  · intro i hi j hj file file' hfl hfl' hnm
    by_cases hne : i = slot
    · subst hne
      by_contra hij
      rw [ho j hj (symm hij)] at hfl'
      exact hnew hi file hfl j hj (.symm hij) file' hfl' hnm.symm
    by_cases hne' : j = slot
    · subst hne'
      rw [ho i hi hne] at hfl
      exact absurd hnm (hnew hj file' hfl' i hi hne file hfl)
    · rw [ho i hi hne] at hfl
      rw [ho j hj hne'] at hfl'
      exact h.distinct i hi j hj file file' hfl hfl' hnm

lemma stored_name (h : d.stored i = some file) :
    d.Active i ∧ entryName (d.entryAt i) = .ok file.name := by
  rw [stored] at h
  split_ifs at h with hact
  cases hnm : entryName (d.entryAt i) with
  | error =>
    rw [hnm] at h
    cases h
  | ok =>
    rw [hnm] at h
    cases h
    exact ⟨hact, rfl⟩

lemma stored_of_name (hact : d.Active i) (hnm : entryName (d.entryAt i) = .ok name) :
    ∃ file, d.stored i = some file ∧ file.name = name := by
  rw [stored, if_pos hact, hnm]
  exact ⟨_, rfl, rfl⟩

/-- No other slot has the name that the slot was searched for. -/
lemma SlotFor.name_ne (hsl : d.SlotFor name slot) (h : d.Named) (hi : i < maxFiles)
    (hne : i ≠ slot) (hfl : d.stored i = some file) : file.name ≠ name := by
  rintro rfl
  obtain ⟨hact, hnm⟩ := stored_name hfl
  have hlt := hsl.lt
  obtain ⟨t, free, hsearch, htgt⟩ := hsl
  obtain ⟨hfd, -, hn⟩ := search_spec hsearch
  cases t with
  | some j =>
    obtain rfl : j = slot := Option.some.inj htgt
    obtain ⟨-, -, hact', hnm'⟩ := hfd j rfl
    obtain ⟨file', hfl', hs⟩ := stored_of_name hact' hnm'
    exact hne (h.distinct i hi j hlt file file' hfl hfl' hs.symm)
  | none => exact (hn rfl i (mem_range.2 hi)).2 hact hnm

/-- A file that can be saved without loss of its name. -/
def Nameable (file : FileEntry) : Prop := InMemory file ∧ ShortName file.name

lemma Change.named {P : FileEntry → Prop} (hP : ∀ file, P file → Nameable file)
    (hchg : Change P d d') (h : d.Named) : d'.Named := by
  cases hchg with
  | superblock sb =>
    have hkp := KeepsSlot.superblock (d := d) sb
    refine h.of_slot maxFiles ?_ (fun i _ _ => (hkp i).stored_eq) ?_ ?_
    · intro i _ _ hact
      rwa [Active, (hkp i).entry] at hact
    · omega
    · omega
  | clear slot hsl =>
    have hself : (d.store (fileTableStartSector + slot)
        inactive.encode).stored slot = none := by
      rw [stored_cleared hsl, if_pos rfl]
    refine h.of_slot slot ?_ ?_ ?_ ?_
    · intro i _ hne hact
      rwa [Active, entryAt_store_entry slot i (by simp [inactive]), if_neg hne] at hact
    · intro i _ hne
      rw [stored_cleared hsl, if_neg hne]
    · intro _ hact
      rw [Active, entryAt_store_entry slot slot (by simp [inactive]), if_pos rfl] at hact
      exact absurd rfl hact
    · intro _ file hfl
      rw [hself] at hfl
      cases hfl
  | place slot _ file hsl hfl hpl =>
    obtain ⟨hd, hnm⟩ := hP file hfl
    have hstd := fun {i : ℕ} (hi : i < maxFiles) => stored_placed hsl.lt hi hd hnm hpl
    refine h.of_slot slot ?_ ?_ ?_ ?_
    · intro i hi hne hact
      rwa [Active, entryAt_placed hi, if_neg hne] at hact
    · intro i hi hne
      rw [hstd hi, if_neg hne]
    · intro hlt _
      exact ⟨_, by rw [hstd hlt, if_pos rfl]⟩
    · intro hlt file' hfl' i hi hne other ho
      rw [hstd hlt, if_pos rfl] at hfl'
      cases hfl'
      exact hsl.name_ne h hi hne ho

/-- Some slot stores the file. -/
def Holds (d : VirtioBlk) (file : FileEntry) : Prop := ∃ i < maxFiles, d.stored i = some file

/-- A sound disk whose names are distinct. -/
structure Proper (d : VirtioBlk) : Prop where
  sound : d.Sound
  named : d.Named

lemma Changes.proper (hchs : Changes Nameable d d') (h : d.Proper) : d'.Proper := by
  induction hchs with
  | refl => exact h
  | tail _ hchg ih =>
    exact ⟨hchg.sound (fun _ hfl => hfl.1) ih.sound, hchg.named (fun _ hfl => hfl) ih.named⟩

lemma holds_superblock (sb : Superblock) (file : FileEntry) :
    (d.store 0 sb.sector).Holds file ↔ d.Holds file := by
  simp only [Holds, (KeepsSlot.superblock (d := d) sb _).stored_eq]

/-- A file of this name is to be kept. -/
def keeps (files : List FileEntry) (name : Str) : Bool :=
  files.any fun file => isPersistablePath file.name && file.name == name

lemma keeps_eq_false (h : name ∉ files.map FileEntry.name) : keeps files name = false := by
  rw [keeps, any_eq_false]
  intro file hfl hs
  rw [Bool.and_eq_true, beq_iff_eq] at hs
  exact h (mem_map.2 ⟨file, hfl, hs.2⟩)

section
variable (h : d.Proper)
include h

/-- The sweep does not fail, and leaves the files that are to be kept. -/
lemma Proper.sweep (fs : List FileEntry) {ixs : List ℕ} (hidxs : ∀ i ∈ ixs, i < maxFiles) :
    ∃ d' trace, d.exec (sweep fs ixs) = .ok () d' trace ∧ Changes Nameable d d' ∧
      ∀ i, d'.stored i = if i ∈ ixs then (d.stored i).filter fun file => keeps fs file.name
        else d.stored i := by
  induction ixs generalizing d with
  | nil => exact ⟨d, [], rfl, .refl, fun i => by simp⟩
  | cons ix _ ih =>
    have hidx := hidxs ix (by simp)
    have hr := fun {d : VirtioBlk} (h : d.Proper) => ih h fun i hi => hidxs i (by simp [hi])
    rw [sweep, exec_bind, exec_readFileEntry h.sound.table hidx, bind_ok]
    by_cases hact : (d.entryAt ix).active = 0
    · have hn : d.stored ix = none := stored_of_inactive (not_not.2 hact)
      rw [if_pos hact]
      obtain ⟨d', trace, hex, hchs, hstd⟩ := hr h
      refine ⟨d', trace, hex, hchs, ?_⟩
      intro i
      rw [hstd]
      by_cases hi : i = ix
      · subst hi
        simp [hn]
      · simp [hi]
    rw [if_neg hact, exec_bind]
    obtain ⟨file, hfl⟩ := h.named.decodes ix hidx hact
    rw [(stored_name hfl).2, exec_lift_ok, bind_ok]
    rw [← keeps]
    cases hkeep : keeps fs file.name with
    | true =>
      obtain ⟨d', trace, hex, hchs, hstd⟩ := hr h
      refine ⟨d', trace, hex, hchs, ?_⟩
      intro i
      rw [hstd]
      by_cases hi : i = ix
      · subst hi
        simp [hfl, hkeep, Option.filter]
      · simp [hi]
    | false =>
      have hclr : Changes Nameable d
          (d.store (fileTableStartSector + ix) inactive.encode) :=
        .single (.clear ix hidx)
      simp only [Bool.not_false, if_true]
      obtain ⟨d', trace, hex, hchs, hstd⟩ := hr (hclr.proper h)
      rw [exec_bind, exec_writeFileEntry h.sound.table hidx, bind_ok, hex]
      refine ⟨d', _, rfl, hclr.trans hchs, ?_⟩
      intro i
      rw [hstd, stored_cleared hidx]
      by_cases hi : i = ix
      · subst hi
        simp [hfl, hkeep, Option.filter]
      · simp [hi]

/-- Saving a file replaces the file of its name. -/
lemma Proper.upsert (hfl : Nameable file)
    (hok : (d.exec (upsertFileEntry file)).outcome = .returned (.ok ())) :
    Changes Nameable d (d.exec (upsertFileEntry file)).state ∧
      ∀ other, (d.exec (upsertFileEntry file)).state.Holds other ↔
        other = onDisk file ∨ d.Holds other ∧ other.name ≠ file.name := by
  rcases h.sound.upsert_cases hfl.1 with ⟨error, hex⟩ | ⟨slot, start, hsl, hpl, hex⟩
  · rw [hex] at hok
    cases hok
  have hstd := fun {i : ℕ} (hi : i < maxFiles) => stored_placed hsl.lt hi hfl.1 hfl.2 hpl
  rw [hex]
  refine ⟨.single (.place slot start file hsl hfl hpl), ?_⟩
  intro other
  constructor
  · rintro ⟨i, hi, ho⟩
    rw [state_ok, hstd hi] at ho
    by_cases hne : i = slot
    · rw [if_pos hne] at ho
      exact .inl (Option.some.inj ho).symm
    · rw [if_neg hne] at ho
      exact .inr ⟨⟨i, hi, ho⟩, hsl.name_ne h.named hi hne ho⟩
  · rintro (rfl | ⟨⟨i, hi, ho⟩, hnm⟩)
    · exact ⟨slot, hsl.lt, (hstd hsl.lt).trans (if_pos rfl)⟩
    · refine ⟨i, hi, (hstd hi).trans ?_⟩
      rw [if_neg, ho]
      rintro rfl
      obtain ⟨hact, hnm'⟩ := stored_name ho
      exact hnm (Except.ok.inj (hnm'.symm.trans (hsl.name_eq hact)))

lemma Proper.upsertEach (hfs : ∀ file ∈ files, Nameable file)
    (hnd : (files.map FileEntry.name).Nodup) (syn : ℕ)
    (hok : (d.exec (upsertEach files syn)).outcome = .returned (.ok n)) :
    Changes Nameable d (d.exec (upsertEach files syn)).state ∧
      ∀ other, (d.exec (upsertEach files syn)).state.Holds other ↔
        (∃ file ∈ files, isPersistablePath file.name ∧ other = onDisk file) ∨
          d.Holds other ∧ keeps files other.name = false := by
  induction files generalizing d syn with
  | nil => exact ⟨.refl, fun other => by simp [upsertEach, keeps]⟩
  | cons file files ih =>
    rw [map_cons, nodup_cons] at hnd
    have hr := fun {d : VirtioBlk} (h : d.Proper) => ih h (fun f hf => hfs f (by simp [hf])) hnd.2
    rw [upsertEach] at hok ⊢
    cases hpers : isPersistablePath file.name with
    | false =>
      simp only [hpers] at hok ⊢
      obtain ⟨hchs, hhs⟩ := hr h syn hok
      refine ⟨hchs, fun other => (hhs other).trans ?_⟩
      simp [keeps, hpers]
    | true =>
      simp only [hpers, Bool.not_true, Bool.false_eq_true, if_false] at hok ⊢
      rw [exec_bind] at hok ⊢
      obtain ⟨⟨⟩, hups, hok, hst⟩ := bind_outcome_ok hok
      obtain ⟨hfst, hhs⟩ := h.upsert (hfs file (by simp)) hups
      obtain ⟨hchs, hhs'⟩ := hr (hfst.proper h) (syn + 1) hok
      rw [hst]
      refine ⟨hfst.trans hchs, ?_⟩
      intro other
      have hfre : keeps files (onDisk file).name = false := keeps_eq_false hnd.1
      have hco : keeps (file :: files) other.name = false ↔
          file.name ≠ other.name ∧ keeps files other.name = false := by
        simp [keeps, hpers]
      rw [hhs', hhs, hco]
      constructor
      · rintro (⟨f, hf, hf', rfl⟩ | ⟨rfl | ⟨ho, hnm⟩, hkp⟩)
        · exact .inl ⟨f, by simp [hf], hf', rfl⟩
        · exact .inl ⟨file, by simp, hpers, rfl⟩
        · exact .inr ⟨ho, hnm.symm, hkp⟩
      · rintro (⟨f, hf, hf', rfl⟩ | ⟨ho, hnm, hkp⟩)
        · rcases mem_cons.1 hf with rfl | hf
          · exact .inr ⟨.inl rfl, hfre⟩
          · exact .inl ⟨f, hf, hf', rfl⟩
        · exact .inr ⟨.inr ⟨ho, hnm.symm⟩, hkp⟩

/-- After a synchronisation the disk holds the persistable files. -/
lemma Proper.sync (hfs : ∀ file ∈ files, Nameable file) (hnd : (files.map FileEntry.name).Nodup)
    (hok : (d.exec (syncFilesystem files)).outcome = .returned (.ok n)) :
    (d.exec (syncFilesystem files)).state.Proper ∧
      ∀ other, (d.exec (syncFilesystem files)).state.Holds other ↔
        ∃ file ∈ files, isPersistablePath file.name ∧ other = onDisk file := by
  have hdy : Changes Nameable d _ := .single (.setState d fsStateDirty)
  rw [syncFilesystem, exec_bind, h.sound.exec_setSuperblockState, bind_ok] at hok
  rw [syncFilesystem, exec_bind, h.sound.exec_setSuperblockState, bind_ok, state_after]
  have hprop := hdy.proper h
  obtain ⟨d₂, trace, hswe, hswep, hstd⟩ := hprop.sweep files fun i hi => mem_range.1 hi
  rw [exec_bind, hswe, bind_ok, exec_bind] at hok
  rw [exec_bind, hswe, bind_ok, state_after, exec_bind]
  obtain ⟨k, hups, -, hst⟩ := bind_outcome_ok hok
  have hprop₂ := hswep.proper hprop
  obtain ⟨hupse, hhs₂⟩ := hprop₂.upsertEach hfs hnd 0 hups
  have hprop₃ := hupse.proper hprop₂
  rw [hst, exec_bind, exec_refreshSuperblock hprop₃.sound.table hprop₃.sound.valid,
    bind_ok, state_after, exec_pure, state_ok]
  refine ⟨Changes.proper (.single (.refresh _ _)) hprop₃, ?_⟩
  intro other
  rw [holds_superblock, hhs₂]
  refine or_iff_left ?_
  -- What the sweep left has the name of a file that was saved since.
  rintro ⟨⟨i, hi, ho⟩, hkp⟩
  rw [hstd, if_pos (mem_range.2 hi), Option.filter_eq_some_iff] at ho
  rw [ho.2] at hkp
  cases hkp

end

end VirtioBlk

end Waros.Kernel.Disk
