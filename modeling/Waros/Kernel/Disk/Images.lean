import Waros.Kernel.Disk.Crash

/-!
Disk images that nobody has checked. The numbers in a file table go into the
sizes of buffers, into slices and into 32-bit sums. Here it is said for every
image, exactly, when loading and saving stay clear of panics, of sums that wrap
around and of buffers larger than the disk. Deleting always does.
-/

namespace Waros.Kernel.Disk

open Lib Fs BlockProgram Disk Execution VirtioBlk List Nat

/-- Nothing wraps around and no buffer is larger than the disk. -/
def Harmless (capacitySectors : ℕ) : DiskNote → Prop
  | .allocated n => n ≤ capacitySectors * sectorSize
  | .wrapped => False

namespace VirtioBlk

variable {d : VirtioBlk} {α γ : Type} {good : DiskNote → Prop} {p : DiskM α} {n : ℕ}
  (sector count : ℕ) (buffer : List UInt8) {startBlock blockCount : ℕ} {entry : DiskFileEntry}
  {index : ℕ} {fs : WarFS} {bytes : List UInt8} (state : UInt8) (ignoreIndex : Option ℕ)
  {file : FileEntry}

lemma clean_bind {f : α → DiskM γ} :
    (d.exec (p >>= f)).Clean good ↔
      (d.exec p).Clean good ∧ ∀ value, (d.exec p).outcome = .returned (.ok value) →
        ((d.exec p).state.exec (f value)).Clean good := by
  rw [exec_bind]
  exact Execution.clean_bind

lemma clean_of_quiet (hp : p.Quiet) : (d.exec p).Clean good := hp.clean good d

lemma clean_zeroed : (d.exec (zeroed n)).Clean good ↔ good (.allocated n) := by
  rw [exec_zeroed, clean_ok]
  simp [notesOf]

/-- A step that has allocated a buffer. -/
lemma clean_zeroed_bind {f : List UInt8 → DiskM γ} :
    (d.exec (zeroed n >>= f)).Clean good ↔
      good (.allocated n) ∧ (d.exec (f (replicate n 0))).Clean good := by
  rw [clean_bind, clean_zeroed]
  refine and_congr_right fun _ => ⟨fun h => h _ rfl, ?_⟩
  rintro h _ ⟨⟩
  exact h

lemma clean_asU32 : (d.exec (asU32 n)).Clean good ↔ (2 ^ 32 ≤ n → good .wrapped) := by
  rw [exec_asU32, clean_ok]
  split_ifs with hwrap
  · constructor
    · exact fun h _ => h .wrapped (by simp [notesOf])
    · intro h note hnote
      obtain rfl := mem_singleton.1 hnote
      exact h hwrap
  · exact ⟨fun _ hwrap' => absurd hwrap' hwrap, by simp [notesOf]⟩

/-! ### Loading -/

lemma quiet_readEach (ss : List ℕ) : (readEach ss).Quiet := by
  induction ss with
  | nil => exact trivial
  | cons _ _ ih => exact .bind (fun _ => trivial) fun _ => .bind ih fun _ => trivial

lemma quiet_readSectors : (Disk.readSectors sector count buffer).Quiet := by
  rw [Disk.readSectors]
  split_ifs
  · exact trivial
  · exact .bind (quiet_readEach _) fun _ => trivial

variable (i : ℕ) {buf : List UInt8} (name : Str)

lemma quiet_readFileEntry : (readFileEntry i).Quiet := by
  rw [readFileEntry]
  split_ifs
  · exact trivial
  · exact .bind (fun _ => trivial) fun _ => trivial

lemma clean_readFileData :
    (d.exec (readFileData startBlock blockCount buf)).Clean good ↔
      (2 ^ 32 ≤ blockCount * sectorsPerBlock → good .wrapped) := by
  rw [readFileData, clean_bind, clean_asU32]
  exact and_iff_left fun _ _ => clean_of_quiet (quiet_readSectors ..)

lemma accepts_iff {a : ℕ} (h : a + 1 < 2 ^ 64) : d.accepts a ↔ a < d.capacitySectors := by
  rw [accepts, decide_eq_true_eq, U64.saturatingAdd]
  omega

/-- Reading the blocks of a file succeeds when the device has them. -/
lemma readFileData_outcome (hsta : startBlock < 2 ^ 32) (hne : blockCount ≠ 0)
    (hcnt : blockCount * sectorsPerBlock < 2 ^ 32) (hbuf : buf.length = blockCount * blockSize) :
    (d.exec (readFileData startBlock blockCount buf)).outcome =
      if startSectorOf startBlock + blockCount * sectorsPerBlock ≤ d.capacitySectors then
        .returned (.ok (d.extentBytes startBlock blockCount))
      else .returned (.error .outOfBounds) := by
  have haddr : addresses (startSectorOf startBlock) (blockCount * sectorsPerBlock) =
      (range (blockCount * sectorsPerBlock)).map (startSectorOf startBlock + ·) :=
    map_congr_left fun _ hidx => wrappingAdd_startSectorOf hsta ((mem_range.1 hidx).trans hcnt)
  have hall : ((range (blockCount * sectorsPerBlock)).map
      (startSectorOf startBlock + ·)).all d.accepts ↔
        startSectorOf startBlock + blockCount * sectorsPerBlock ≤ d.capacitySectors := by
    have haccepts : ∀ index < blockCount * sectorsPerBlock,
        (d.accepts (startSectorOf startBlock + index) ↔
          startSectorOf startBlock + index < d.capacitySectors) := by
      intro index hidx
      apply accepts_iff
      simp only [startSectorOf, dataStartSector, fileTableStartSector, maxFiles, sectorsPerBlock,
        blockSize, sectorSize] at *
      omega
    have hpos : 0 < blockCount * sectorsPerBlock := mul_pos (pos_of_ne_zero hne) (by decide)
    simp only [all_map, all_eq_true, mem_range, Function.comp_apply]
    constructor
    · intro h
      have hla := (haccepts _ (sub_one_lt_of_lt hpos)).1 (h _ (sub_one_lt_of_lt hpos))
      omega
    · intro h index hidx
      rw [haccepts index hidx]
      omega
  have hlen : buf.length = blockCount * sectorsPerBlock * sectorSize := by
    rw [hbuf, mul_assoc]
    rfl
  rw [readFileData, exec_bind, exec_asU32_of_lt hcnt, bind_ok,
    Disk.readSectors, if_neg (by omega), exec_bind, exec_readEach_eq, haddr]
  simp only [hall]
  split_ifs
  · rw [bind_ok, drop_of_length_le (by omega), append_nil, flatMap_map]
    rfl
  · rfl

/-- The numbers of an entry fit together and to the device, as far as
`load_filesystem` relies on it. -/
def EntryFits (capacitySectors : ℕ) (entry : DiskFileEntry) : Prop :=
  entry.size.toNat ≤ capacitySectors * sectorSize ∧
    (entry.blockCount ≠ 0 → entry.size ≠ 0 →
      entry.blockCount.toNat * blockSize ≤ capacitySectors * sectorSize ∧
      entry.blockCount.toNat * sectorsPerBlock < 2 ^ 32 ∧
      (startSectorOf entry.startBlock.toNat + entry.blockCount.toNat * sectorsPerBlock ≤
          capacitySectors →
        entry.size.toNat ≤ entry.blockCount.toNat * blockSize))
  deriving Decidable

lemma clean_loadData :
    (d.exec (loadData entry)).Clean (Harmless d.capacitySectors) ↔
      EntryFits d.capacitySectors entry := by
  rw [loadData, clean_zeroed_bind]
  refine and_congr_right fun _ => ?_
  by_cases hblks : entry.blockCount ≠ 0 ∧ entry.size ≠ 0
  · have hne : entry.blockCount.toNat ≠ 0 := fun h0 => hblks.1 (UInt32.toNat_inj.1 h0)
    have hrd := fun hcnt =>
      readFileData_outcome (d := d) entry.startBlock.toNat_lt hne hcnt
        (length_replicate (n := entry.blockCount.toNat * blockSize) (a := 0))
    rw [if_pos hblks, clean_zeroed_bind, clean_bind, clean_readFileData]
    rw [forall_prop_of_true hblks.1, forall_prop_of_true hblks.2]
    refine and_congr_right fun _ => ?_
    have hwrap : (2 ^ 32 ≤ entry.blockCount.toNat * sectorsPerBlock →
        Harmless d.capacitySectors .wrapped) ↔
          entry.blockCount.toNat * sectorsPerBlock < 2 ^ 32 := not_le
    rw [hwrap]
    refine and_congr_right fun hcnt => ?_
    rw [hrd hcnt]
    have hlen := length_extentBytes (d := d) entry.startBlock.toNat entry.blockCount.toNat
    constructor
    · intro h hrm
      have hclear := h _ (if_pos hrm)
      by_contra hlt
      simp only [hlen, if_pos (not_le.1 hlt)] at hclear
      exact hclear.returns rfl
    · intro h v hval
      split_ifs at hval with hrm
      · cases hval
        simp only [hlen, if_neg (not_lt.2 (h hrm))]
        exact clean_of_quiet trivial
      · cases hval
  · rw [if_neg hblks]
    constructor
    · exact fun _ h₁ h₂ => absurd ⟨h₁, h₂⟩ hblks
    · exact fun _ => clean_of_quiet trivial

/-- The entry of the slot fits, if loading comes to reading its file. -/
def SlotFits (d : VirtioBlk) (index : ℕ) : Prop :=
  d.accepts (fileTableStartSector + index) = true → d.Active index →
    ∀ name, entryName (d.entryAt index) = .ok name → isPersistablePath name = true →
      EntryFits d.capacitySectors (d.entryAt index)

lemma clean_findFile (hidx : index < maxFiles) :
    (d.exec (findFile index)).Clean (Harmless d.capacitySectors) ↔ d.SlotFits index := by
  rw [findFile, exec_bind, exec_readFileEntry_eq hidx, SlotFits]
  cases haccepts : d.accepts (fileTableStartSector + index) with
  | false =>
    refine ⟨fun _ h => (by cases h), fun _ => ?_⟩
    exact clean_of_quiet (p := .fail .outOfBounds) trivial
  | true =>
    rw [if_pos rfl, bind_ok, after_nil, loadEntry]
    by_cases hact : d.Active index
    · rw [if_neg hact, exec_bind]
      cases hnm : entryName (d.entryAt index) with
      | error error =>
        refine ⟨fun _ _ _ _ h => (by cases h), fun _ => ?_⟩
        exact clean_of_quiet (p := .fail error) trivial
      | ok name =>
        rw [exec_lift_ok, bind_ok, after_nil]
        cases hpers : isPersistablePath name with
        | true =>
          simp only [Bool.not_true, Bool.false_eq_true, if_false]
          rw [clean_bind, clean_loadData]
          refine (and_iff_left ?_).trans ?_
          · exact fun _ _ => clean_of_quiet trivial
          · exact ⟨fun h _ _ _ _ _ => h, fun h => h trivial hact name rfl hpers⟩
        | false =>
          refine ⟨?_, fun _ => clean_of_quiet trivial⟩
          rintro _ _ _ _ ⟨⟩ htrue
          rw [hpers] at htrue
          cases htrue
    · rw [if_pos (not_not.1 hact)]
      exact ⟨fun _ _ h => absurd h hact, fun _ => clean_of_quiet trivial⟩

lemma clean_loadIndex (hidx : index < maxFiles) (st : ℕ × WarFS) :
    (d.exec (loadIndex st index)).Clean (Harmless d.capacitySectors) ↔ d.SlotFits index := by
  have hspl : ∃ rest : Option LoadedFile → DiskM (ℕ × WarFS),
      loadIndex st index = findFile index >>= rest ∧ ∀ file, (rest file).Quiet := by
    refine ⟨_, (bind_assoc _ _ _).symm, fun file => ?_⟩
    cases file with
    | none => exact trivial
    | some =>
      dsimp only
      split <;> exact trivial
  obtain ⟨rest, hspl, hr⟩ := hspl
  rw [hspl, clean_bind, clean_findFile hidx]
  exact and_iff_left fun file _ => clean_of_quiet (hr file)

/-- The bytes of a file whose entry fits: zeros when it has no blocks, else the
beginning of its blocks, if the device has them. -/
def bytesAt (d : VirtioBlk) (index : ℕ) : Option (List UInt8) :=
  let entry := d.entryAt index
  if entry.blockCount = 0 ∨ entry.size = 0 then some (replicate entry.size.toNat 0)
  else if startSectorOf entry.startBlock.toNat + entry.blockCount.toNat * sectorsPerBlock ≤
      d.capacitySectors then
    some ((d.extentBytes entry.startBlock.toNat entry.blockCount.toNat).take entry.size.toNat)
  else none

/-- What an image has in a slot: an error, no file to load, or a file. -/
def described (d : VirtioBlk) (index : ℕ) : Except DiskError (Option LoadedFile) :=
  if d.accepts (fileTableStartSector + index) = false then .error .outOfBounds
  else if d.Active index then
    match entryName (d.entryAt index) with
    | .error error => .error error
    | .ok name =>
      if isPersistablePath name then
        match d.bytesAt index with
        | none => .error .outOfBounds
        | some data => .ok (some (loaded (fileOf (d.entryAt index) name data)))
      else .ok none
  else .ok none

lemma loadData_outcome (hfit : EntryFits d.capacitySectors (d.entryAt index)) :
    (d.exec (loadData (d.entryAt index))).outcome = match d.bytesAt index with
      | none => .returned (.error .outOfBounds)
      | some data => .returned (.ok data) := by
  rw [loadData, exec_bind, exec_zeroed, bind_ok, bytesAt]
  by_cases hemp : (d.entryAt index).blockCount = 0 ∨ (d.entryAt index).size = 0
  · rw [if_neg (by tauto), if_pos hemp]
    rfl
  · rw [not_or] at hemp
    obtain ⟨-, hcnt, hsz⟩ := hfit.2 hemp.1 hemp.2
    have hne : (d.entryAt index).blockCount.toNat ≠ 0 := fun h0 => hemp.1 (UInt32.toNat_inj.1 h0)
    have hlen := length_extentBytes (d := d) (d.entryAt index).startBlock.toNat
    rw [if_pos hemp, if_neg (not_or.2 hemp), outcome_after, exec_bind, exec_zeroed,
      bind_ok, outcome_after, outcome_bind,
      readFileData_outcome (UInt32.toNat_lt _) hne hcnt (length_replicate ..)]
    split_ifs with hrm
    · simp only [hlen, if_neg (not_lt.2 (hsz hrm))]
      rfl
    · rfl

lemma found_eq_described (hidx : index < maxFiles) (hfit : d.SlotFits index) :
    d.found index = .returned (d.described index) := by
  rw [found, findFile, exec_bind, exec_readFileEntry_eq hidx, described]
  rcases haccepts : d.accepts (fileTableStartSector + index) with _ | _
  · rfl
  rw [if_pos rfl, bind_ok, after_nil, loadEntry]
  by_cases hact : d.Active index
  · rw [if_neg hact, if_pos hact, exec_bind]
    rcases hnm : entryName (d.entryAt index) with error | name
    · rfl
    rw [exec_lift_ok, bind_ok, after_nil]
    cases hpers : isPersistablePath name with
    | false => simp [ok, hpers]
    | true =>
      simp only [Bool.not_true, Bool.false_eq_true, if_false, hpers]
      rw [outcome_bind, loadData_outcome (hfit haccepts hact name hnm hpers)]
      cases d.bytesAt index <;> rfl
  · rw [if_pos (not_not.1 hact), if_neg hact]
    rfl

/-- No slot before this one ends the loop of `load_filesystem`. -/
def Reaches (d : VirtioBlk) (fs : WarFS) (index : ℕ) : Prop :=
  ∃ state, loadAll (0, fs) ((range index).map fun i => .returned (d.described i)) =
    .returned (.ok state)

lemma reaches_of_succ (h : d.Reaches fs (n + 1)) : d.Reaches fs n := by
  obtain ⟨state, hst⟩ := h
  rw [range_succ, map_append] at hst
  exact loadAll_of_append hst

lemma Reaches.mono {i n : ℕ} (h : d.Reaches fs n) (hi : i ≤ n) : d.Reaches fs i := by
  induction n, hi using le_induction with
  | base => exact h
  | succ _ _ ih => exact ih (reaches_of_succ h)

/-- The loop comes to a slot when none before it has numbers that do not fit. -/
lemma reaches_iff (hn : n ≤ maxFiles) (hfit : ∀ index < n, d.Reaches fs index → d.SlotFits index) :
    (∃ state, loadAll (0, fs) ((range n).map d.found) = .returned (.ok state)) ↔
      d.Reaches fs n := by
  induction n with
  | zero => exact .rfl
  | succ n ih =>
    have hbef := ih (le_of_succ_le hn) fun i hi => hfit i (lt_succ_of_lt hi)
    have hs : d.Reaches fs n → (range (n + 1)).map d.found =
        (range (n + 1)).map fun i => .returned (d.described i) := by
      intro hrch
      apply map_congr_left
      intro i hi
      rw [mem_range] at hi
      exact found_eq_described (hi.trans_le hn) (hfit i hi (hrch.mono (le_of_lt_succ hi)))
    constructor
    · rintro ⟨state, hst⟩
      have hrch := hbef.1 (loadAll_of_append (by rwa [range_succ, map_append]
        at hst))
      exact ⟨state, hs hrch ▸ hst⟩
    · intro hrch
      rw [hs (reaches_of_succ hrch)]
      exact hrch

/-- Loading is clean exactly when the entries that it comes to fit. -/
lemma clean_loadFilesystem {fs : WarFS} :
    (d.exec (loadFilesystem fs)).Clean (Harmless d.capacitySectors) ↔
      ∀ index < maxFiles, d.Reaches fs index → d.SlotFits index := by
  have hlp : ∀ n ≤ maxFiles,
      ((d.exec ((range n).foldlM loadIndex (0, fs))).Clean (Harmless d.capacitySectors) ↔
        ∀ index < n, d.Reaches fs index → d.SlotFits index) := by
    intro n hn
    induction n with
    | zero => exact ⟨fun _ _ h => absurd h (not_lt_zero _), fun _ => clean_of_quiet trivial⟩
    | succ n ih =>
      have hrch : (∀ index < n, d.Reaches fs index → d.SlotFits index) → _ :=
        reaches_iff (le_of_succ_le hn)
      rw [range_succ, foldlM_append, clean_bind, ih (le_of_succ_le hn),
        state_of_readOnly (readOnly_foldlM readOnly_loadIndex ..), exec_loadLoop_outcome]
      simp only [foldlM_cons, foldlM_nil, bind_pure, clean_loadIndex hn]
      constructor
      · rintro ⟨hbef, hla⟩ index hidx
        rcases Nat.lt_succ_iff_lt_or_eq.1 hidx with hlt | rfl
        · exact hbef index hlt
        · intro hidx
          obtain ⟨state, hst⟩ := (hrch hbef).2 hidx
          exact hla state hst
      · intro h
        have hbef := fun index hidx => h index (lt_succ_of_lt hidx)
        exact ⟨hbef, fun state hst => h n (lt_succ_self n) ((hrch hbef).1 ⟨state, hst⟩)⟩
  exact hlp maxFiles le_rfl

/-- The bytes are those of sectors of the data area, filled up with zeros. -/
def FromDataArea (d : VirtioBlk) (bytes : List UInt8) : Prop :=
  ∃ (sectors : List ℕ) (n : ℕ), (∀ a ∈ sectors, dataStartSector ≤ a ∧ a < d.capacitySectors) ∧
    bytes <+: (sectors.flatMap fun a => (d.sectors a).bytes) ++ replicate n 0

/-- Whatever the numbers are, the data area begins before the first sector read. -/
lemma readFileData_fromDataArea {b cnt n : ℕ} (hsta : b < 2 ^ 32)
    (h : (d.exec (readFileData b cnt (replicate n 0))).outcome =
      .returned (.ok bytes)) : d.FromDataArea bytes := by
  rw [readFileData, exec_bind, exec_asU32, bind_ok, outcome_after, Disk.readSectors] at h
  generalize hcnt : cnt * sectorsPerBlock % 2 ^ 32 = count at h
  have hlt : count < 2 ^ 32 := hcnt ▸ mod_lt _ (by decide)
  split_ifs at h
  · cases h
  · rw [exec_bind, exec_readEach_eq] at h
    split_ifs at h with hall
    · cases h
      refine ⟨addresses (startSectorOf b) count, n - count * sectorSize, ?_, ?_⟩
      · intro a ha
        have haccepts := all_eq_true.1 hall a ha
        obtain ⟨index, hidx, rfl⟩ := mem_map.1 ha
        rw [mem_range] at hidx
        rw [wrappingAdd_startSectorOf hsta (hidx.trans hlt)] at haccepts ⊢
        refine ⟨?_, (accepts_iff ?_).1 haccepts⟩
        · rw [startSectorOf]
          omega
        · simp only [startSectorOf, dataStartSector, fileTableStartSector, maxFiles,
            sectorsPerBlock, blockSize, sectorSize]
          omega
      · simp
    · cases h

lemma loadData_fromDataArea (h : (d.exec (loadData entry)).outcome = .returned (.ok bytes)) :
    d.FromDataArea bytes := by
  rw [loadData, exec_bind, exec_zeroed, bind_ok, outcome_after] at h
  split_ifs at h
  · rw [exec_bind, exec_zeroed, bind_ok, outcome_after, exec_bind] at h
    obtain ⟨buffer, hbuf, h, -⟩ := bind_outcome_ok h
    obtain ⟨sectors, n, hsect, hbs⟩ := readFileData_fromDataArea entry.startBlock.toNat_lt hbuf
    split_ifs at h
    · cases h
    · cases h
      have htake := take_prefix entry.size.toNat buffer
      exact ⟨sectors, n, hsect, htake.trans hbs⟩
  · cases h
    exact ⟨[], entry.size.toNat, by simp, by simp⟩

/-- What a turn loads comes from the data area. -/
lemma found_fromDataArea {file : LoadedFile} (h : d.found index = .returned (.ok (some file))) :
    d.FromDataArea file.data := by
  rw [found, findFile, exec_bind] at h
  obtain ⟨entry, -, h, -⟩ := bind_outcome_ok h
  rw [state_of_readOnly (readOnly_readFileEntry _), loadEntry] at h
  split_ifs at h
  · cases h
  · rw [exec_bind] at h
    obtain ⟨name, -, h, -⟩ := bind_outcome_ok h
    rw [state_of_readOnly (by cases entryName entry <;> exact trivial)] at h
    split_ifs at h
    · cases h
    · rw [exec_bind] at h
      obtain ⟨data, hd, h, -⟩ := bind_outcome_ok h
      cases h
      exact loadData_fromDataArea hd

lemma quiet_lift (res : Except DiskError α) : (lift res : DiskM α).Quiet := by
  cases res <;> exact trivial

lemma quiet_readSuperblock : readSuperblock.Quiet := by
  refine .bind (fun _ => trivial) fun buffer => ?_
  dsimp only
  split_ifs <;> exact trivial

lemma quiet_setSuperblockState : (setSuperblockState state).Quiet :=
  .bind quiet_readSuperblock fun _ => trivial

lemma quiet_writeFileEntry (e : DiskFileEntry) : (writeFileEntry i e).Quiet := by
  rw [writeFileEntry]
  split_ifs <;> exact trivial

lemma quiet_refreshSuperblock : (refreshSuperblock state).Quiet := by
  refine .bind quiet_readSuperblock fun superblock => .bind ?_ fun usedBlocks =>
    .bind ?_ fun _ => ?_
  · refine quiet_foldlM (fun count index => ?_) _ _
    exact .bind (quiet_readFileEntry _) fun _ => trivial
  · refine quiet_foldlM (fun count index => ?_) _ _
    exact .bind (quiet_readFileEntry _) fun _ => trivial
  · exact trivial

lemma quiet_clearEntry (ixs : List ℕ) : (clearEntry name ixs).Quiet := by
  induction ixs with
  | nil => exact trivial
  | cons _ _ ih =>
    refine .bind (quiet_readFileEntry _) fun entry => ?_
    split_ifs
    · exact ih
    · refine .bind (quiet_lift _) fun found => ?_
      split_ifs
      · exact .bind (quiet_writeFileEntry ..) fun _ => trivial
      · exact ih

lemma quiet_deleteFileFromDisk : (deleteFileFromDisk name).Quiet := by
  refine .bind (quiet_setSuperblockState _) fun _ => .bind (quiet_clearEntry ..) fun found => ?_
  split_ifs
  · exact trivial
  · exact .bind (quiet_refreshSuperblock _) fun _ => trivial

/-! ### Saving -/

/-- No block number behind an entry wraps around, except for one of the entries. -/
def RangesFit (d : VirtioBlk) (ignoreIndex : Option ℕ) : Prop :=
  ∀ index < maxFiles, d.accepts (fileTableStartSector + index) = true →
    d.Occupies ignoreIndex index → d.start index + d.count index < 2 ^ 32

lemma readOnly_rangeStep (rs : List (ℕ × ℕ)) (i : ℕ) : (rangeStep ignoreIndex rs i).ReadOnly := by
  rw [rangeStep]
  split_ifs
  · exact trivial
  · refine .bind (readOnly_readFileEntry _) fun entry => ?_
    split_ifs
    · exact trivial
    · exact .bind (readOnly_asU32 _) fun _ => trivial

lemma clean_rangeStep (hidx : index < maxFiles) (ign : Option ℕ) (rs : List (ℕ × ℕ)) :
    (d.exec (rangeStep ign rs index)).Clean (Harmless d.capacitySectors) ↔
      (d.accepts (fileTableStartSector + index) → d.Occupies ign index →
        d.start index + d.count index < 2 ^ 32) := by
  cases haccepts : d.accepts (fileTableStartSector + index) with
  | false =>
    refine ⟨fun _ h => (by cases h), fun _ => ?_⟩
    rw [rangeStep]
    split_ifs
    · exact clean_of_quiet trivial
    · rw [exec_bind, exec_readFileEntry_eq hidx, if_neg (by simp [haccepts])]
      exact clean_of_quiet (p := .fail .outOfBounds) trivial
  | true =>
    rw [exec_rangeStep hidx haccepts, clean_ok, rangeNotes]
    split_ifs with hwrap
    · constructor
      · exact fun h => (h .wrapped (by simp [notesOf])).elim
      · exact fun h => absurd (h rfl hwrap.1) (not_lt.2 hwrap.2)
    · constructor
      · exact fun _ _ hocc => not_le.1 fun h => hwrap ⟨hocc, h⟩
      · exact fun _ => by simp [notesOf]

lemma clean_usedRanges :
    (d.exec (usedRanges ignoreIndex)).Clean (Harmless d.capacitySectors) ↔
      d.RangesFit ignoreIndex := by
  have hlp : ∀ n ≤ maxFiles, ((d.exec ((range n).foldlM (rangeStep ignoreIndex) [])).Clean
          (Harmless d.capacitySectors) ↔
        ∀ index < n, d.accepts (fileTableStartSector + index) →
          d.Occupies ignoreIndex index → d.start index + d.count index < 2 ^ 32) := by
    intro n hn
    induction n with
    | zero => exact ⟨fun _ _ h => absurd h (not_lt_zero _), fun _ => clean_of_quiet trivial⟩
    | succ n ih =>
      rw [range_succ, foldlM_append, clean_bind, ih (le_of_succ_le hn),
        state_of_readOnly (readOnly_foldlM (readOnly_rangeStep ignoreIndex) ..)]
      simp only [foldlM_cons, foldlM_nil, bind_pure, clean_rangeStep hn]
      constructor
      · rintro ⟨hbef, hla⟩ index hidx haccepts
        rcases Nat.lt_succ_iff_lt_or_eq.1 hidx with hlt | rfl
        · exact hbef index hlt haccepts
        · -- The device has the slots before this one too, so the loop comes to it.
          have hearl : ∀ i < index, d.accepts (fileTableStartSector + i) := by
            intro i hi
            rw [accepts_iff (by simp only [fileTableStartSector, maxFiles] at *; omega)] at *
            omega
          have hbody : ∀ rs, ∀ i ∈ range index, d.exec (rangeStep ignoreIndex rs i) = .ok _ d _ :=
            fun rs i hi => exec_rangeStep ((mem_range.1 hi).trans hn)
              (hearl i (mem_range.1 hi)) ignoreIndex rs
          exact hla _ (congrArg outcome (exec_foldlM handler hbody [])) haccepts
      · intro h
        exact ⟨fun index hidx => h index (lt_succ_of_lt hidx), fun _ _ => h n (lt_succ_self n)⟩
  exact hlp maxFiles le_rfl

/-- The loop ends normally only when the device has the whole table. -/
lemma hasTable_of_usedRanges {ign : Option ℕ} {rs : List (ℕ × ℕ)}
    (h : (d.exec (usedRanges ign)).outcome = .returned (.ok rs))
    (higno : ∀ i, ign = some i → d.accepts (fileTableStartSector + i)) :
    d.HasTable := by
  have hla : d.accepts (fileTableStartSector + 127) := by
    by_cases hign : some 127 = ign
    · exact higno 127 hign.symm
    · have hspl : usedRanges ign =
          (range 127).foldlM (rangeStep ign) [] >>= fun rs => rangeStep ign rs 127 := by
        change (range (127 + 1)).foldlM (rangeStep ign) [] = _
        rw [range_succ]
        simp
      rw [hspl, exec_bind] at h
      obtain ⟨before, -, hend, -⟩ := bind_outcome_ok h
      rw [state_of_readOnly (readOnly_foldlM (readOnly_rangeStep ign) ..), rangeStep,
        if_neg hign, exec_bind, exec_readFileEntry_eq (by decide)] at hend
      by_contra href
      rw [if_neg href] at hend
      cases hend
  rw [accepts_iff (by decide)] at hla
  exact hla

lemma readOnly_allocateBlocks (cnt : ℕ) (ign : Option ℕ) : (allocateBlocks cnt ign).ReadOnly := by
  refine .bind (.bind (fun _ => trivial) fun buffer => ?_) fun superblock =>
    .bind (readOnly_foldlM (readOnly_rangeStep ign) ..) fun rs => ?_
  all_goals
    dsimp only
    split_ifs <;> exact trivial

section
variable (haccepts : d.accepts 0 = true) (hvalid : d.superblock.isValid = true)
include haccepts hvalid

lemma clean_allocateBlocks (cnt : ℕ) (ignoreIndex : Option ℕ) :
    (d.exec (allocateBlocks cnt ignoreIndex)).Clean (Harmless d.capacitySectors) ↔
      d.RangesFit ignoreIndex := by
  rw [allocateBlocks, exec_bind, exec_readSuperblock haccepts, if_pos hvalid,
    bind_ok, after_nil, clean_bind, clean_usedRanges]
  refine and_iff_left fun rs _ => ?_
  dsimp only
  split_ifs <;> exact clean_of_quiet trivial

/-- First fit finds blocks. -/
lemma allocateBlocks_returns (cnt : ℕ) {ign : Option ℕ}
    (higno : ∀ i, ign = some i → d.accepts (fileTableStartSector + i)) :
    (∃ start, (d.exec (allocateBlocks cnt ign)).outcome = .returned (.ok start)) ↔
      d.HasTable ∧ ((d.gap cnt ign).2 ∨ min ((d.gap cnt ign).1 + cnt) (2 ^ 32 - 1) ≤
          d.superblock.totalBlocks.toNat) := by
  constructor
  · rintro ⟨start, h⟩
    have htab : d.HasTable := by
      rw [allocateBlocks, exec_bind, exec_readSuperblock haccepts, if_pos hvalid,
        bind_ok, exec_bind] at h
      obtain ⟨rs, hrngs, -⟩ := bind_outcome_ok h
      exact hasTable_of_usedRanges hrngs higno
    rw [exec_allocateBlocks htab hvalid] at h
    split_ifs at h with hfit
    · exact ⟨htab, hfit⟩
    · cases h
  · rintro ⟨htab, hfit⟩
    rw [exec_allocateBlocks htab hvalid, if_pos hfit]
    exact ⟨_, rfl⟩

end

lemma quiet_writeSectors : (Disk.writeSectors sector count buffer).Quiet := by
  have hqui : ∀ ws, (writeEach ws).Quiet := by
    intro ws
    induction ws with
    | nil => exact trivial
    | cons _ _ ih => exact .bind trivial fun _ => ih
  rw [Disk.writeSectors]
  split_ifs
  · exact trivial
  · exact hqui _

lemma clean_placeFile (hd : InMemory file) (slot lo : ℕ) :
    (d.exec (placeFile file slot lo)).Clean (Harmless d.capacitySectors) ↔
      (blockCountForLen file.data.length ≠ 0 →
        blockCountForLen file.data.length * blockSize ≤ d.capacitySectors * sectorSize) := by
  have hblks := blockCountForLen_le hd
  have hlen := le_blockCountForLen (lt_of_le_of_lt hd (by decide))
  rw [placeFile]
  by_cases h0 : blockCountForLen file.data.length = 0
  · simp only [h0, ne_eq, not_true_eq_false]
    exact ⟨fun _ h => h.elim, fun _ => clean_of_quiet (quiet_writeFileEntry ..)⟩
  · simp only [h0, ne_eq, not_false_eq_true, if_true, true_implies]
    rw [clean_bind, writeFileData]
    simp only [h0, if_false]
    rw [clean_zeroed_bind]
    simp only [length_replicate, if_neg (not_lt.2 hlen)]
    rw [clean_bind, clean_asU32]
    refine (and_iff_left fun _ _ => clean_of_quiet (quiet_writeFileEntry ..)).trans
      (and_iff_left ⟨fun hwrap => ?_, fun _ _ => clean_of_quiet ?_⟩)
    · simp only [maxBlocks, heapSize, blockSize, sectorsPerBlock, sectorSize] at *
      omega
    · exact .bind (quiet_writeSectors ..) fun _ => trivial

/-- There are blocks for the file: the old ones, or those that first fit finds. -/
def FindsBlocks (d : VirtioBlk) (target : Option ℕ) (count : ℕ) : Prop :=
  (∃ i, target = some i ∧ count ≤ d.count i) ∨
    d.HasTable ∧ ((d.gap count target).2 = true ∨
      min ((d.gap count target).1 + count) (2 ^ 32 - 1) ≤ d.superblock.totalBlocks.toNat)

/-- The file can be saved: if new blocks are needed, no block number behind an entry
wraps around; and a file for which there are blocks is not larger than the disk. -/
def SaveFits (d : VirtioBlk) (file : FileEntry) : Prop :=
  let count := blockCountForLen file.data.length
  ∀ target free, d.search file.name (range maxFiles) none = .ok (target, free) →
    target.or free ≠ none → count ≠ 0 →
    ((∀ i, target = some i → d.count i < count) → d.RangesFit target) ∧
      (d.FindsBlocks target count → count * blockSize ≤ d.capacitySectors * sectorSize)

lemma clean_upsertFileEntry (haccepts : d.accepts 0)
    (hvalid : d.superblock.isValid) (hd : InMemory file) :
    (d.exec (upsertFileEntry file)).Clean (Harmless d.capacitySectors) ↔ d.SaveFits file := by
  rw [exec_upsertFileEntry, SaveFits]
  cases hsearch : d.search file.name (range maxFiles) none with
  | error error =>
    refine ⟨fun _ _ _ h => (by cases h), fun _ => ?_⟩
    exact clean_of_quiet (p := .fail error) trivial
  | ok res =>
    obtain ⟨target, free⟩ := res
    have higno : ∀ i, target = some i → d.accepts (fileTableStartSector + i) :=
      fun i hi => ((search_spec hsearch).1 i hi).2.1
    cases hsl : target.or free with
    | none =>
      simp only [hsl]
      refine ⟨?_, fun _ => clean_of_quiet (p := .fail .diskFull) trivial⟩
      rintro _ _ _ ⟨⟩ hso
      exact absurd hsl hso
    | some =>
      have hso : target.or free ≠ none := by simp [hsl]
      have hred : ∀ P : Option ℕ → Prop, (∀ target' free',
          (.ok (target, free) : Except DiskError (Option ℕ × Option ℕ)) =
            .ok (target', free') → target'.or free' ≠ none → P target') ↔ P target := by
        intro P
        refine ⟨fun h => h target free rfl hso, ?_⟩
        rintro h _ _ ⟨⟩ -
        exact h
      simp only [hsl]
      rw [hred]
      rcases d.chooseBlocks_cases target (blockCountForLen file.data.length) with
        ⟨h0, hcho⟩ | ⟨i, rfl, hne, heno, hcho⟩ | ⟨hne, hmo, hcho⟩
      · rw [hcho, exec_pure, bind_ok, after_nil, clean_placeFile hd]
        omega
      · rw [hcho, exec_pure, bind_ok, after_nil, clean_placeFile hd]
        refine forall_congr' fun _ => ⟨fun h => ⟨fun hmo => ?_, fun _ => h⟩, fun h => ?_⟩
        · exact absurd (hmo i rfl) (not_lt.2 heno)
        · exact h.2 (.inl ⟨i, rfl, heno⟩)
      · have hfinish : d.FindsBlocks target (blockCountForLen file.data.length) ↔
            ∃ lo, (d.exec (allocateBlocks (blockCountForLen file.data.length)
              target)).outcome = .returned (.ok lo) := by
          rw [allocateBlocks_returns haccepts hvalid _ higno]
          refine or_iff_right ?_
          rintro ⟨i, hi, heno⟩
          exact absurd (hmo i hi) (not_lt.2 heno)
        rw [hcho, Execution.clean_bind, clean_allocateBlocks haccepts hvalid,
          state_of_readOnly (readOnly_allocateBlocks (blockCountForLen file.data.length) target),
          hfinish]
        simp only [clean_placeFile hd]
        constructor
        · rintro ⟨hrngs, hpl⟩ -
          exact ⟨fun _ => hrngs, fun ⟨lo, hsta⟩ => hpl lo hsta hne⟩
        · intro h
          exact ⟨(h hne).1 hmo, fun lo hsta _ => (h hne).2 ⟨lo, hsta⟩⟩

lemma saveFits_marked : d.marked.SaveFits file ↔ d.SaveFits file := by
  have htot : d.marked.superblock.totalBlocks = d.superblock.totalBlocks :=
    Superblock.totalBlocks_setState d.superblock fsStateDirty
  have htab : d.marked.HasTable ↔ d.HasTable := .rfl
  simp only [SaveFits, FindsBlocks, RangesFit, htot, htab]
  simp only [marked, search_store_zero, count_store_zero, start_store_zero, occupies_store_zero,
    gap_store_zero, store_accepts, store_capacity]

/-- Saving is clean exactly when the file fits to the image. -/
lemma clean_saveEntry (haccepts : d.accepts 0) (hvalid : d.superblock.isValid)
    (hd : InMemory file) :
    (d.exec (saveEntry file)).Clean (Harmless d.capacitySectors) ↔ d.SaveFits file := by
  have hmar : d.marked.superblock.isValid :=
    (Superblock.isValid_setState d.superblock fsStateDirty).trans hvalid
  have hups := clean_upsertFileEntry (d := d.marked) haccepts hmar hd
  rw [saveFits_marked] at hups
  rw [saveEntry, exec_bind, exec_setSuperblockState haccepts, if_pos hvalid, bind_ok,
    clean_after, ← hups, clean_bind]
  refine (and_iff_right (by simp [notesOf])).trans (and_iff_left fun _ _ => clean_of_quiet ?_)
  exact .bind (quiet_refreshSuperblock _) fun _ => trivial

end VirtioBlk

/-- What nobody who reads a disk wants to see does not happen: no call panics, wraps
a number around or allocates more than the disk, and files get no bytes from outside
the data area. -/
structure ImageSafe (disk : Disk) (fs : WarFS) (file : FileEntry) (name : Str) : Prop where
  load : (exec disk (loadFilesystem fs)).Clean (Harmless disk.device.capacitySectors)
  inside : ∀ index < maxFiles, ∀ file,
    (exec disk (findFile index)).outcome = .returned (.ok (some file)) →
      disk.device.FromDataArea file.data
  save : (exec disk (saveEntry file)).Clean (Harmless disk.device.capacitySectors)
  delete : (exec disk (deleteFileFromDisk name)).Clean (Harmless disk.device.capacitySectors)

lemma Fronts.clean_iff {α : Type} {disk : Disk} {dev : VirtioBlk} (h : Fronts disk dev)
    {p : DiskM α} {good : DiskNote → Prop} :
    (Disk.exec disk p).Clean good ↔ (dev.exec p).Clean good := by
  obtain ⟨hout, htra, -⟩ := h.exec p
  constructor
  · exact fun hclear => ⟨hout ▸ hclear.returns, htra ▸ hclear.notes⟩
  · exact fun hclear => ⟨hout.symm ▸ hclear.returns, htra.symm ▸ hclear.notes⟩

/-- Every image with a valid superblock: the calls are safe exactly when the entries
that loading comes to fit the disk, and the file that is saved does. -/
theorem imageSafe_iff {disk : Disk} (hcoherent : disk.cache.Coherent disk.device)
    (haccepts : disk.device.accepts 0 = true) (hvalid : disk.device.superblock.isValid = true)
    (fs : WarFS) {file : FileEntry} (hdata : InMemory file) (name : Str) :
    ImageSafe disk fs file name ↔
      (∀ index < maxFiles, disk.device.Reaches fs index → disk.device.SlotFits index) ∧
        disk.device.SaveFits file := by
  have hfro : Fronts disk disk.device := ⟨rfl, hcoherent⟩
  have hld := hfro.clean_iff.trans (@VirtioBlk.clean_loadFilesystem _ fs)
  have hsv := hfro.clean_iff.trans (clean_saveEntry haccepts hvalid hdata)
  constructor
  · exact fun h => ⟨hld.1 h.load, hsv.1 h.save⟩
  · rintro ⟨hslo, hfit⟩
    refine ⟨hld.2 hslo, ?_, hsv.2 hfit, ?_⟩
    · intro index _ file hfl
      rw [(hfro.exec _).1] at hfl
      exact found_fromDataArea hfl
    · exact hfro.clean_iff.2 (clean_of_quiet (quiet_deleteFileFromDisk name))

namespace DiskOp

/-- A file on the disk, and a new one beside it. -/
theorem imageSafe_newFile :
    ImageSafe twoSectorsDisk WarFS.new (smallFile ['/', 'b']) ['/', 'a'] := by
  obtain ⟨hcoherent, hsound⟩ := twoSectorsDisk_sound
  refine (imageSafe_iff hcoherent hsound.table.accepts_zero hsound.valid .new
    (le_of_ble_eq_true rfl) _).2 ⟨?_, ?_⟩
  · have hfits : ∀ i < maxFiles, twoSectorsDisk.device.Active i →
        EntryFits twoSectorsDisk.device.capacitySectors (twoSectorsDisk.device.entryAt i) := by
      rw [twoSectorsDisk_fronts.1]
      decide +kernel
    exact fun index hindex _ _ hactive _ _ _ => hfits index hindex hactive
  · refine fun _ _ _ _ _ => ⟨fun _ index hindex _ hocc => ?_, fun _ => ?_⟩
    · exact hsound.extents.stop_lt hindex hocc.2.1 hocc.2.2
    · rw [twoSectorsDisk_fronts.1]
      decide +kernel

/-- The entry of a file of 5000 bytes in one block. -/
def forgedEntry : DiskFileEntry := { diskEntry (smallFile ['/', 'a']) 0 1 with size := 5000 }

/-- An image with this entry in its table. -/
def forgedDisk : Disk where
  device := ((blankDevice 145).formatted 0).store fileTableStartSector forgedEntry.encode
  cache := .new 64

/-- Loading it panics. -/
theorem imageSafe_forged :
    forgedDisk.device.superblock.isValid = true ∧
      (exec forgedDisk (loadFilesystem WarFS.new)).outcome = .panicked := by
  decide +kernel

end DiskOp

end Waros.Kernel.Disk
