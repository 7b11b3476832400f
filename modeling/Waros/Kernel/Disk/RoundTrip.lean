import Waros.Kernel.Disk.Contents
import Waros.Kernel.Fs.FsRuns

/-!
`load_filesystem` on any device. The loop makes one turn for every slot of the
table; what a turn finds on the device is separated here from what the
filesystem makes of it.
-/

namespace Waros.Kernel.Disk

open Lib Fs BlockProgram Disk Execution

lemma readOnly_readEach (ss : List ℕ) : (readEach ss).ReadOnly := by
  induction ss with
  | nil => exact trivial
  | cons _ _ ih => exact .bind (fun _ => trivial) fun _ => .bind ih fun _ => trivial

variable (n : ℕ) (e : DiskFileEntry)

lemma readOnly_zeroed : (zeroed n).ReadOnly := .bind trivial fun _ => trivial

lemma readOnly_asU32 : (asU32 n).ReadOnly := by
  rw [asU32]
  split_ifs <;> exact trivial

lemma readOnly_readFileData (b n : ℕ) (buf : List UInt8) : (readFileData b n buf).ReadOnly := by
  refine .bind (readOnly_asU32 _) fun cnt => ?_
  rw [readSectors]
  split_ifs
  · exact trivial
  · exact .bind (readOnly_readEach _) fun _ => trivial

lemma readOnly_readFileEntry (i : ℕ) : (readFileEntry i).ReadOnly := by
  rw [readFileEntry]
  split_ifs
  · exact trivial
  · exact .bind (fun _ => trivial) fun _ => trivial

lemma readOnly_loadData : (loadData e).ReadOnly := by
  refine .bind (readOnly_zeroed _) fun data => ?_
  split_ifs
  · refine .bind (readOnly_zeroed _) fun buf => .bind (readOnly_readFileData ..) fun bs => ?_
    split_ifs <;> exact trivial
  · exact trivial

lemma readOnly_loadEntry : (loadEntry e).ReadOnly := by
  rw [loadEntry]
  split_ifs
  · exact trivial
  · refine .bind ?_ fun name => ?_
    · cases entryName e <;> exact trivial
    · split_ifs
      · exact trivial
      · exact .bind (readOnly_loadData e) fun _ => trivial

/-! ### One turn -/

/-- What one turn of the loop does with what it finds in its slot. -/
def turn (state : ℕ × WarFS) :
    Outcome (Except DiskError (Option LoadedFile)) → Outcome (Except DiskError (ℕ × WarFS))
  | .returned (.ok none) => .returned (.ok state)
  | .returned (.ok (some file)) =>
    match state.2.loadFileFromDisk file.name file.data file.ownerUid file.permissions
      file.readonly file.createdAt file.modifiedAt with
    | (.ok (), fs) => .returned (.ok (state.1 + 1, fs))
    | (.error error, _) => .returned (.error (.filesystemError error))
  | .returned (.error error) => .returned (.error error)
  | .panicked => .panicked

/-- All turns, until one of them ends the loop. -/
def loadAll (state : ℕ × WarFS) :
    List (Outcome (Except DiskError (Option LoadedFile))) → Outcome (Except DiskError (ℕ × WarFS))
  | [] => .returned (.ok state)
  | result :: results =>
    match turn state result with
    | .returned (.ok state) => loadAll state results
    | .returned (.error error) => .returned (.error error)
    | .panicked => .panicked

/-- A sequence of turns has a beginning. -/
lemma loadAll_of_append {state state' : ℕ × WarFS}
    {results results' : List (Outcome (Except DiskError (Option LoadedFile)))}
    (h : loadAll state (results ++ results') = .returned (.ok state')) :
    ∃ state', loadAll state results = .returned (.ok state') := by
  induction results generalizing state with
  | nil => exact ⟨state, rfl⟩
  | cons res _ ih =>
    rw [List.cons_append, loadAll] at h
    rw [loadAll]
    cases hturn : turn state res with
    | panicked =>
      rw [hturn] at h
      cases h
    | returned res =>
      rw [hturn] at h
      cases res with
      | error => cases h
      | ok => exact ih h

/-- The slot is read, then the file. -/
def findFile (index : ℕ) : DiskM (Option LoadedFile) := do
  let entry ← readFileEntry index
  loadEntry entry

lemma readOnly_loadIndex (st : ℕ × WarFS) (i : ℕ) : (loadIndex st i).ReadOnly := by
  refine .bind (readOnly_readFileEntry _) fun e => .bind (readOnly_loadEntry _) fun file => ?_
  cases file with
  | none => exact trivial
  | some =>
    dsimp only
    split <;> exact trivial

namespace VirtioBlk

variable {d d' : VirtioBlk} {α γ : Type}

lemma state_of_readOnly {p : DiskM α} (hp : p.ReadOnly) : (d.exec p).state = d :=
  hp.state_eq (fun _ _ => rfl) d

lemma exec_zeroed (n : ℕ) :
    d.exec (zeroed n) = .ok (.replicate n 0) d [.noted (.allocated n)] := rfl

lemma outcome_bind (p : DiskM α) (f : α → DiskM γ) :
    (d.exec (p >>= f)).outcome = match (d.exec p).outcome with
      | .returned (.ok value) => ((d.exec p).state.exec (f value)).outcome
      | .returned (.error error) => .returned (.error error)
      | .panicked => .panicked := by
  rw [exec_bind, Execution.bind]
  cases (d.exec p).outcome with
  | returned res => cases res <;> rfl
  | panicked => rfl

/-- What the turn for a slot finds. -/
def found (d : VirtioBlk) (index : ℕ) : Outcome (Except DiskError (Option LoadedFile)) :=
  (d.exec (findFile index)).outcome

lemma exec_loadIndex_outcome (st : ℕ × WarFS) (i : ℕ) :
    (d.exec (loadIndex st i)).outcome = turn st (d.found i) := by
  rw [loadIndex, found, findFile, outcome_bind, outcome_bind,
    state_of_readOnly (readOnly_readFileEntry i)]
  cases (d.exec (readFileEntry i)).outcome with
  | panicked => rfl
  | returned res =>
    rcases res with error | e
    · rfl
    dsimp only
    rw [outcome_bind]
    cases (d.exec (loadEntry e)).outcome with
    | panicked => rfl
    | returned res =>
      rcases res with error | file
      · rfl
      rcases file with _ | file
      · rfl
      dsimp only [turn]
      generalize st.2.loadFileFromDisk file.name file.data file.ownerUid
        file.permissions file.readonly file.createdAt file.modifiedAt = res
      obtain ⟨res, fs⟩ := res
      cases res <;> rfl

lemma exec_loadLoop_outcome (ixs : List ℕ) (st : ℕ × WarFS) :
    (d.exec (ixs.foldlM loadIndex st)).outcome = loadAll st (ixs.map d.found) := by
  induction ixs generalizing st with
  | nil => rfl
  | cons i _ ih =>
    rw [List.foldlM_cons, outcome_bind, exec_loadIndex_outcome,
      state_of_readOnly (readOnly_loadIndex st i), List.map_cons, loadAll]
    cases turn st (d.found i) with
    | panicked => rfl
    | returned res =>
      cases res with
      | error => rfl
      | ok st => exact ih st

/-- `load_filesystem` sees of the device what the turns find. -/
lemma exec_loadFilesystem_outcome (fs : WarFS) :
    (d.exec (loadFilesystem fs)).outcome = loadAll (0, fs) ((List.range maxFiles).map d.found) :=
  exec_loadLoop_outcome _ _

/-- A turn depends on its slot and the blocks of the slot. -/
lemma KeepsSlot.found_eq {i : ℕ} (h : d.KeepsSlot d' i) (hi : i < maxFiles) :
    d'.found i = d.found i := by
  have hacc : d'.accepts = d.accepts := by
    funext a
    rw [accepts, h.capacity, accepts]
  have hd : (d'.exec (loadData (d.entryAt i))).outcome =
      (d.exec (loadData (d.entryAt i))).outcome := by
    rw [loadData, outcome_bind, outcome_bind, exec_zeroed, exec_zeroed]
    split_ifs
    · have hrd := h.readFileData (.replicate ((d.entryAt i).blockCount.toNat * blockSize) 0)
      rw [start, count] at hrd
      rw [outcome_bind, outcome_bind, exec_zeroed, exec_zeroed]
      dsimp only [ok]
      rw [outcome_bind, outcome_bind, hrd]
      cases (d.exec (Disk.readFileData (d.entryAt i).startBlock.toNat
          (d.entryAt i).blockCount.toNat
          (.replicate ((d.entryAt i).blockCount.toNat * blockSize) 0))).outcome with
      | panicked => rfl
      | returned res =>
        cases res with
        | error => rfl
        | ok =>
          dsimp only
          split_ifs <;> rfl
    · rfl
  have hent : (d'.exec (loadEntry (d.entryAt i))).outcome =
      (d.exec (loadEntry (d.entryAt i))).outcome := by
    rw [loadEntry]
    split_ifs
    · rfl
    · rcases entryName (d.entryAt i) with error | name
      · rfl
      rw [exec_bind, exec_bind, exec_lift_ok, exec_lift_ok, bind_ok, bind_ok, after_nil, after_nil]
      split_ifs
      · rfl
      · rw [outcome_bind, outcome_bind, hd]
        cases (d.exec (loadData (d.entryAt i))).outcome with
        | panicked => rfl
        | returned res => cases res <;> rfl
  rw [found, findFile, exec_bind, exec_readFileEntry_eq hi, found, findFile, exec_bind,
    exec_readFileEntry_eq hi, hacc, h.entry]
  split_ifs
  · exact hent
  · rfl

/-- A turn for a free slot depends on the slot alone. -/
lemma found_of_inactive {i : ℕ} (hcap : d'.capacitySectors = d.capacitySectors)
    (hent : d'.entryAt i = d.entryAt i) (hi : i < maxFiles) (hact : ¬ d.Active i) :
    d'.found i = d.found i := by
  have hacc : d'.accepts = d.accepts := by
    funext a
    rw [accepts, hcap, accepts]
  have hina : (d.entryAt i).active = 0 := not_not.1 hact
  rw [found, findFile, exec_bind, exec_readFileEntry_eq hi, found, findFile, exec_bind,
    exec_readFileEntry_eq hi, hacc, hent]
  split_ifs
  · rw [bind_ok, bind_ok, loadEntry, if_pos hina]
    rfl
  · rfl

end VirtioBlk

/-!
## The round trip

Loading the filesystem from a disk that holds its files. Together with the
effect of a synchronisation this gives the round trip: what was saved is what
is loaded, for names that the table has room for.
-/

open VirtioBlk List FileEntry Nat
open WarFS (sortByName new)

/-- What the loop passes to `load_file_from_disk` for a file. -/
def loaded (file : FileEntry) : LoadedFile where
  name := file.name
  data := file.data
  ownerUid := file.ownerUid
  permissions := file.permissions
  readonly := file.readonly
  createdAt := file.createdAt
  modifiedAt := file.modifiedAt

/-- Files that WarFS accepts all together. -/
structure Loadable (files : List FileEntry) : Prop where
  names : (files.map name).Nodup
  canonical : ∀ file ∈ files, canonicalPath file.name = .ok file.name
  ne_root : ∀ file ∈ files, file.name ≠ ['/']
  sizes : ∀ file ∈ files, file.data.length ≤ maxFileSize
  owners : ∀ file ∈ files, file.ownerUid = file.permissions.ownerUid
  count : files.length ≤ maxFiles
  total : (files.map fun file => file.data.length).sum ≤ totalCapacity

lemma Loadable.perm {files files' : List FileEntry} (h : Loadable files)
    (hperm : files.Perm files') : Loadable files' where
  names := (hperm.map _).nodup_iff.1 h.names
  canonical file hfl := h.canonical file (hperm.mem_iff.2 hfl)
  ne_root file hfl := h.ne_root file (hperm.mem_iff.2 hfl)
  sizes file hfl := h.sizes file (hperm.mem_iff.2 hfl)
  owners file hfl := h.owners file (hperm.mem_iff.2 hfl)
  count := hperm.length_eq ▸ h.count
  total := (hperm.map fun file => file.data.length).sum_eq.symm.trans_le h.total

/-- The next file of a loadable list is accepted. -/
lemma Loadable.load {fs : WarFS} {file : FileEntry} {files : List FileEntry}
    (h : Loadable (fs.files ++ file :: files)) (hlim : fs.maxFiles = maxFiles) :
    fs.loadFileFromDisk file.name file.data file.ownerUid file.permissions file.readonly
      file.createdAt file.modifiedAt =
        (.ok (), { fs with files := sortByName (fs.files ++ [file]) }) := by
  have hmem : file ∈ fs.files ++ file :: files := by simp
  apply WarFS.loadFileFromDisk_create (h.canonical file hmem) (h.ne_root file hmem)
    (h.sizes file hmem)
  · have htot := h.total
    have hused : fs.usedWithout file.name ≤ fs.usedSpace := fs.usedWithout_le file.name
    rw [map_append, List.sum_append, map_cons, sum_cons] at htot
    rw [WarFS.usedSpace] at hused
    omega
  · have hns := h.names
    rw [map_append, nodup_append'] at hns
    refine (lookup_eq_none name).2 fun other ho hs => ?_
    exact hns.2.2 (mem_map.2 ⟨other, ho, rfl⟩) (by simp [hs])
  · have hcnt := h.count
    rw [length_append, length_cons] at hcnt
    omega
  · exact h.owners file hmem

def Sorted (files : List FileEntry) : Prop :=
  files.Pairwise fun left right => left.name < right.name

namespace VirtioBlk

variable {d : VirtioBlk}

variable {i : ℕ} {file : FileEntry}

lemma Sound.hasBlocks (h : d.Sound) (hi : i < maxFiles) (hact : d.Active i)
    (hblks : d.count i ≠ 0) : d.HasBlocks (d.start i) (d.count i) := by
  have hbel := h.extents.below i hi hact hblks
  have hstp := h.stop_le i hi hact hblks
  refine ⟨le_trans ?_ h.room, ?_⟩
  · exact Nat.add_le_add_left (mul_le_mul_right _ hbel) _
  · simp only [lastBlock, maxBlocks, heapSize, blockSize, maxFiles] at hstp
    omega

lemma Sound.loadData (h : d.Sound) (hi : i < maxFiles) (hact : d.Active i) :
    ∃ trace, d.exec (loadData (d.entryAt i)) =
      .ok ((d.extentBytes (d.start i) (d.count i)).take (d.entryAt i).size.toNat) d trace := by
  have hsz := h.extents.size_le i hi hact
  rw [Disk.loadData, exec_bind, exec_zeroed, bind_ok]
  by_cases hemp : (d.entryAt i).blockCount ≠ 0 ∧ (d.entryAt i).size ≠ 0
  · have hblks : d.count i ≠ 0 := by
      intro h0
      exact hemp.1 (UInt32.toNat_inj.1 h0)
    have hlen := length_extentBytes (d := d) (d.start i) (d.count i)
    rw [if_pos hemp, exec_bind, exec_zeroed, bind_ok, exec_bind]
    rw [show (d.entryAt i).startBlock.toNat = d.start i from rfl,
      show (d.entryAt i).blockCount.toNat = d.count i from rfl,
      exec_readFileData (h.hasBlocks hi hact hblks) (length_replicate ..), bind_ok]
    simp only [if_neg (not_lt.2 (hlen ▸ hsz))]
    exact ⟨_, rfl⟩
  · have h0 : (d.entryAt i).size.toNat = 0 := by
      by_contra hne
      have hblks : (d.entryAt i).blockCount = 0 := by
        by_contra hblks
        exact hemp ⟨hblks, fun hsz' => hne (congrArg UInt64.toNat hsz')⟩
      have hcnt : d.count i = 0 := congrArg UInt32.toNat hblks
      rw [hcnt] at hsz
      exact hne (le_zero.1 hsz)
    rw [if_neg hemp, h0]
    exact ⟨_, rfl⟩

lemma Sound.found_stored (h : d.Sound) (hi : i < maxFiles) (hfl : d.stored i = some file)
    (hpers : isPersistablePath file.name) :
    d.found i = .returned (.ok (some (loaded file))) := by
  obtain ⟨hact, hnm⟩ := stored_name hfl
  obtain ⟨trace, hd⟩ := h.loadData hi hact
  rw [stored, if_pos hact, hnm] at hfl
  rw [found, findFile, exec_bind, exec_readFileEntry h.table hi, bind_ok, loadEntry,
    if_neg hact, hnm, exec_bind, exec_lift_ok, bind_ok]
  simp only [hpers, Bool.not_true, Bool.false_eq_true, if_false]
  rw [exec_bind, hd, ← Option.some.inj hfl]
  rfl

lemma Sound.found_inactive (h : d.Sound) (hi : i < maxFiles) (hact : ¬ d.Active i) :
    d.found i = .returned (.ok none) := by
  have hina : (d.entryAt i).active = 0 := not_not.1 hact
  rw [found, findFile, exec_bind, exec_readFileEntry h.table hi, bind_ok, loadEntry, if_pos hina]
  rfl

/-- Loading appends the files of the slots to those that are there, and sorts. -/
lemma Proper.load (h : d.Proper) (ixs : List ℕ) (hidxs : ∀ i ∈ ixs, i < maxFiles)
    (hpers : ∀ i ∈ ixs, ∀ file, d.stored i = some file → isPersistablePath file.name)
    (fs : WarFS) (hlim : fs.maxFiles = maxFiles) (hsrt : Sorted fs.files)
    (hloa : Loadable (fs.files ++ ixs.filterMap d.stored)) (n : ℕ) :
    ∃ n' fs', loadAll (n, fs) (ixs.map d.found) = .returned (.ok (n', fs')) ∧
      Sorted fs'.files ∧ fs'.files.Perm (fs.files ++ ixs.filterMap d.stored) := by
  induction ixs generalizing fs n with
  | nil => exact ⟨n, fs, rfl, hsrt, by simp⟩
  | cons index ixs ih =>
    have hidx := hidxs index (by simp)
    have hr := ih (fun i hi => hidxs i (by simp [hi]))
      fun i hi => hpers i (by simp [hi])
    rw [map_cons, loadAll]
    cases hfl : d.stored index with
    | none =>
      have hact : ¬ d.Active index := by
        intro hact
        obtain ⟨file, hfl'⟩ := h.named.decodes index hidx hact
        rw [hfl] at hfl'
        cases hfl'
      rw [filterMap_cons_none hfl] at hloa ⊢
      rw [h.sound.found_inactive hidx hact]
      exact hr fs hlim hsrt hloa n
    | some file =>
      rw [filterMap_cons_some hfl] at hloa ⊢
      have hld := hloa.load hlim
      have hperm : (sortByName (fs.files ++ [file]) ++ ixs.filterMap d.stored).Perm
          (fs.files ++ file :: ixs.filterMap d.stored) := by
        rw [append_cons fs.files file (ixs.filterMap d.stored)]
        exact (perm_insertionSort (fun left right : FileEntry => left.name ≤ right.name)
          (fs.files ++ [file])).append_right _
      have hsrt' : Sorted (sortByName (fs.files ++ [file])) := by
        apply pairwise_lt_insertionSort name
        have hns := hloa.names
        rw [append_cons, map_append] at hns
        exact hns.of_append_left
      obtain ⟨n', fs', hex, hfs', hperm'⟩ :=
        hr { fs with files := sortByName (fs.files ++ [file]) } hlim
          hsrt' (hloa.perm hperm.symm) (n + 1)
      have hturn : turn (n, fs) (d.found index) =
          .returned (.ok (n + 1, { fs with files := sortByName (fs.files ++ [file]) })) := by
        rw [h.sound.found_stored hidx hfl (hpers index (by simp) file hfl)]
        simp only [turn, loaded, hld]
      rw [hturn]
      exact ⟨n', fs', hex, hfs', hperm'.trans hperm⟩

/-- The files on the disk, in the order of their slots. -/
def files (d : VirtioBlk) : List FileEntry := (range maxFiles).filterMap d.stored

lemma mem_files : file ∈ d.files ↔ d.Holds file := by
  simp only [files, mem_filterMap, mem_range, Holds]

lemma Named.nodup_files (h : d.Named) : d.files.Nodup := by
  rw [files, List.Nodup, pairwise_filterMap]
  refine .imp_of_mem ?_ (pairwise_lt_range (n := maxFiles))
  rintro i j hi hj hlt file hfl file' hfl' rfl
  have hij := h.distinct i (mem_range.1 hi) j (mem_range.1 hj) file file hfl hfl' rfl
  omega

/-- Loading a disk that holds the files of a sorted list gives back the list. -/
lemma Proper.loadFilesystem (h : d.Proper) {files : List FileEntry} (hsrt : Sorted files)
    (hloa : Loadable files) (hpers : ∀ file ∈ files, isPersistablePath file.name)
    (hhs : ∀ file, d.Holds file ↔ file ∈ files) :
    ∃ n fs, (d.exec (loadFilesystem new)).outcome = .returned (.ok (n, fs)) ∧ fs.files = files := by
  have hnd : files.Nodup := hloa.names.of_map _
  have hperm : d.files.Perm files := by
    rw [perm_ext_iff_of_nodup h.named.nodup_files hnd]
    intro file
    rw [mem_files, hhs]
  obtain ⟨n, fs, hld, hfs, hperm'⟩ := h.load (range maxFiles)
    (fun i hi => mem_range.1 hi)
    (fun i hi file hfl => hpers file ((hhs file).1 ⟨i, mem_range.1 hi, hfl⟩))
    new rfl .nil (hloa.perm hperm.symm) 0
  refine ⟨n, fs, (exec_loadFilesystem_outcome _).trans hld, ?_⟩
  refine List.Perm.eq_of_pairwise ?_ hfs hsrt (hperm'.trans hperm)
  intro a b _ _ hlt hlt'
  exact absurd hlt (lt_asymm hlt')

end VirtioBlk

/-! ### The round trip -/

namespace DiskOp

/-- The disk is proper, behind a coherent cache. -/
def ProperDisk (disk : Disk) : Prop := disk.cache.Coherent disk.device ∧ disk.device.Proper

lemma step_proper (disk : Disk) (op : DiskOp) (h : ProperDisk disk)
    (hop : op.Files VirtioBlk.Nameable) : ProperDisk (step disk op) := by
  obtain ⟨-, -, hdev, hcoh⟩ := Fronts.exec ⟨rfl, h.1⟩ op.program
  rw [ProperDisk, step, hdev]
  exact ⟨hcoh, (changes (fun _ hfl => hfl.1) h.2.sound hop).proper h.2⟩

lemma formattedDisk_proper {dev : VirtioBlk} {now : UInt64}
    (h : (formattedDisk dev now).outcome = .returned (.ok ())) :
    ProperDisk (formattedDisk dev now).state := by
  obtain ⟨htab, hdev, hcoh⟩ := formattedDisk_fronts h
  have hstd : ∀ i < maxFiles, (dev.formatted now).stored i = none := fun i hi =>
    stored_of_inactive (formatted_inactive now hi)
  rw [ProperDisk, hdev]
  refine ⟨hcoh, formatted_sound now htab, ?_, ?_⟩
  · exact fun i hi hact => absurd hact (formatted_inactive now hi)
  · intro i hi j _ file file' hfl
    rw [hstd i hi] at hfl
    cases hfl

lemma onDisk_eq_self {file : FileEntry} (hcrea : file.createdAt < 2 ^ 64)
    (hmodi : file.modifiedAt < 2 ^ 64)
    (hown : file.ownerUid = file.permissions.ownerUid) : onDisk file = file := by
  have hper : { file.permissions with ownerUid := file.ownerUid } = file.permissions := by rw [hown]
  rw [onDisk, mod_eq_of_lt hcrea, mod_eq_of_lt hmodi, hper]

lemma loadable_of_wellFormed {fs : WarFS} (h : fs.WellFormed) (howner : fs.OwnersAgree) :
    Loadable (fs.files.filter fun file => isPersistablePath file.name) where
  names := h.names_nodup.sublist (filter_sublist.map _)
  canonical file hfl := h.canonical file (mem_of_mem_filter hfl)
  ne_root file hfl := h.ne_root file (mem_of_mem_filter hfl)
  sizes file hfl := h.sizes file (mem_of_mem_filter hfl)
  owners file hfl := howner file (mem_of_mem_filter hfl)
  count := (length_filter_le _ _).trans h.count
  total := ((filter_sublist.map _).sum_le_sum fun _ _ => zero_le _).trans h.total

/-- On a formatted disk and after any calls with names of at most 95 bytes: when
the files of a filesystem with such names have been synchronised, loading them
into an empty filesystem gives all of them back, except for the two files that
are generated at every boot. -/
theorem sync_load {device : VirtioBlk} {now : UInt64} {ops : List DiskOp} {disk : Disk}
    {events : List (ℕ × FsOp)} {fs : WarFS} {synced : ℕ}
    (hformat : (formattedDisk device now).outcome = .returned (.ok ()))
    (hops : ∀ op ∈ ops, op.Files VirtioBlk.Nameable)
    (hrun : run step (formattedDisk device now).state ops = disk)
    (hevents : ∀ event ∈ events, event.2.ForOwner ∧ FsOp.FitsClock event)
    (hfs : run FsOp.step new events = fs)
    (hnames : ∀ file ∈ fs.files, Str.byteLen file.name ≤ maxFilename - 1)
    (hsync : (exec disk (syncFilesystem fs.files)).outcome = .returned (.ok synced)) :
    ∃ count fs', (exec (exec disk (syncFilesystem fs.files)).state
        (loadFilesystem new)).outcome = .returned (.ok (count, fs')) ∧
      fs'.files = fs.files.filter fun file => isPersistablePath file.name := by
  have hdisk : ProperDisk disk := by
    rw [← hrun]
    exact run_invariant step_proper (formattedDisk_proper hformat) (stepsOk_of_forall hops _)
  have hwell := FsOp.run_wellFormed events
  have howner := FsOp.run_ownersAgree fun event heve => (hevents event heve).1
  have htim := FsOp.run_timesFit fun event heve => (hevents event heve).2
  rw [hfs] at hwell howner htim
  have hname : ∀ file ∈ fs.files, VirtioBlk.Nameable file := fun file hfl =>
    ⟨(hwell.sizes file hfl).trans (by decide), hnames file hfl,
      zero_notMem_of_canonicalPath (hwell.canonical file hfl)⟩
  have hself : ∀ file ∈ fs.files, onDisk file = file := fun file hfl =>
    onDisk_eq_self (htim file hfl).1 (htim file hfl).2 (howner file hfl)
  have hfro : Fronts disk disk.device := ⟨rfl, hdisk.1⟩
  obtain ⟨hout, -, hfro'⟩ := hfro.exec (syncFilesystem fs.files)
  obtain ⟨hprop, hhs⟩ := hdisk.2.sync hname hwell.names_nodup (hout.symm.trans hsync)
  obtain ⟨count, fs', hld, hfil⟩ := hprop.loadFilesystem
    (hwell.sorted.sublist filter_sublist) (loadable_of_wellFormed hwell howner)
    (fun file hfl => (mem_filter.1 hfl).2)
    (by
      intro other
      rw [hhs, mem_filter]
      constructor
      · rintro ⟨file, hfl, hpers, rfl⟩
        rw [hself file hfl]
        exact ⟨hfl, hpers⟩
      · rintro ⟨hfl, hpers⟩
        exact ⟨other, hfl, hpers, (hself other hfl).symm⟩)
  exact ⟨count, fs', (hfro'.exec _).1.trans hld, hfil⟩

def emptyFile : FileEntry := { smallFile ['/', 'a'] with data := [] }

/-- A disk with one file, and a filesystem with another one. -/
def savedDisk : Disk := run step (formattedDisk (blankDevice 145) 0).state [.save emptyFile]

def createdFs : WarFS :=
  run FsOp.step new [(5, .create ['b'] [7] 1000 ⟨1000, true, true, false, false⟩ false)]

lemma savedDisk_fronts :
    Fronts savedDisk (((blankDevice 145).formatted 0).exec (saveEntry emptyFile)).state := by
  have hfmt := formattedDisk_blank (show dataStartSector ≤ 145 by decide)
  rw [savedDisk, run_cons, run_nil, step]
  exact ((formattedDisk_fronts hfmt).2.exec (saveEntry emptyFile)).2.2

theorem sync_load_createdFs :
    ∃ count fs', (exec (exec savedDisk (syncFilesystem createdFs.files)).state
        (loadFilesystem new)).outcome = .returned (.ok (count, fs')) ∧
      fs'.files = createdFs.files.filter fun file => isPersistablePath file.name := by
  have hfmt := formattedDisk_blank (show dataStartSector ≤ 145 by decide)
  have hsync : (exec savedDisk (syncFilesystem createdFs.files)).outcome = .returned (.ok 1) :=
    (savedDisk_fronts.exec _).1.trans (by decide +kernel)
  refine sync_load hfmt ?_ savedDisk.eq_def.symm ?_ createdFs.eq_def.symm ?_ hsync
  · intro op hop
    obtain rfl := mem_singleton.1 hop
    exact ⟨le_of_ble_eq_true rfl, by decide, by decide⟩
  · intro ev heve
    obtain rfl := mem_singleton.1 heve
    exact ⟨rfl, by decide, trivial⟩
  · decide

/-- A path of 96 bytes, the longest one that WarFS admits. -/
def longPath : Str := '/' :: replicate 31 'a' ++ '/' :: replicate 31 'b' ++ '/' :: replicate 31 'c'

def longPathFs : WarFS :=
  run FsOp.step new
    [(0, .write longPath [] 1000 .user ⟨1000, true, true, false, false⟩ false)]

/-- The same file under another name. -/
def shortenedFs : WarFS :=
  { longPathFs with
    files := longPathFs.files.map fun file => { file with name := longPath.dropLast } }

/-- A name of 96 bytes loses its last letter, although every call succeeds. -/
theorem sync_load_longPath :
    (formattedDisk (blankDevice 129) 0).outcome = .returned (.ok ()) ∧
      (exec (formattedDisk (blankDevice 129) 0).state
        (syncFilesystem longPathFs.files)).outcome = .returned (.ok 1) ∧
      (exec (exec (formattedDisk (blankDevice 129) 0).state
          (syncFilesystem longPathFs.files)).state (loadFilesystem new)).outcome =
        .returned (.ok (1, shortenedFs)) ∧
      shortenedFs.files ≠ longPathFs.files.filter fun file => isPersistablePath file.name := by
  have hfmt := formattedDisk_blank (show dataStartSector ≤ 129 by decide)
  have hfro := (formattedDisk_fronts hfmt).2
  obtain ⟨hsync, -, hfro'⟩ := hfro.exec (syncFilesystem longPathFs.files)
  refine ⟨hfmt, hsync.trans (by decide +kernel), ?_, by decide⟩
  exact (hfro'.exec _).1.trans (by decide +kernel)

end DiskOp

end Waros.Kernel.Disk
