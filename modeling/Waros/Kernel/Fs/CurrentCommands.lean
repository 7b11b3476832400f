import Mathlib.Data.List.Infix
import Waros.Kernel.Fs.FileMap

/-!
Moving and searching files on behalf of the login session
(`kernel/src/fs/mod.rs`, `move_current` and `find_current`).

A move reads, writes and deletes, and nothing undoes the write when the
deletion is refused. The search looks at the names of all files, whoever may
read them.
-/

namespace Waros.Kernel.Fs

open Lib Auth CurrentSession CurrentOp WarFS List FilePermissions Str

/-! ### Moving -/

section
variable (db : UserDB) (s : CurrentSession) (fs : WarFS) (source destination : Str) (now : ℕ)

def moveCurrent : Except FsError Str × WarFS :=
  match readCurrent db s fs source with
  | .error error => (.error error, fs)
  | .ok (_, data) =>
    match writeCurrent db s fs destination data now with
    | (.error error, fs') => (.error error, fs')
    | (.ok path, fs') => withResult path (deleteCurrent db s fs' source)

/-- A move that succeeds leaves the bytes of the source under the destination
and, unless both are one path, nothing under the source; one that fails
changes nothing. -/
def Moves : Prop :=
  match moveCurrent db s fs source destination now with
  | (.error _, fs') => fs' = fs
  | (.ok _, fs') =>
    ∃ canonical target entry, canonicalPath (resolvePath s source) = .ok canonical ∧
      canonicalPath (resolvePath s destination) = .ok target ∧ fs.find canonical = some entry ∧
      (fs'.find target).map FileEntry.data = some entry.data ∧
      (canonical ≠ target → fs'.find canonical = none)

/-- The session may read the file under the name: `entry`, at `canonical`. -/
structure MayRead (name canonical : Str) (entry : FileEntry) : Prop where
  access : canAccessPath db s (resolvePath s name) = true
  path : canonicalPath (resolvePath s name) = .ok canonical
  found : fs.find canonical = some entry
  granted : entry.permissions.canRead (currentUid s) (currentRole s) = true

/-- The session may write the bytes under the name, which stands for `target`. -/
structure MayWrite (name target : Str) (data : List UInt8) : Prop
    extends fs.Accepts target data (currentUid s) (currentRole s) where
  access : canAccessPath db s (resolvePath s name) = true
  path : canonicalPath (resolvePath s name) = .ok target

def MayDelete (entry : FileEntry) : Prop :=
  entry.readonly = false ∧ (currentRole s = .admin ∨ entry.ownerUid = currentUid s)

/-- Once the session may read the source and write the destination, it may delete
the source and the two are different files, or it may not and the destination
holds the same bytes already, written in the same tick. -/
def MoveSound : Prop :=
  ∀ canonical target entry, MayRead db s fs source canonical entry →
    MayWrite db s fs destination target entry.data →
    MayDelete s entry ∧ canonical ≠ target ∨
      ¬ MayDelete s entry ∧
        ∃ old, fs.find target = some old ∧ old.data = entry.data ∧ old.modifiedAt = now

variable {db s fs source destination now} {name target canonical : Str} {data : List UInt8}

theorem readCurrent_of_mayRead {entry : FileEntry} (h : MayRead db s fs name canonical entry) :
    readCurrent db s fs name = .ok (resolvePath s name, entry.data) := by
  simp [readCurrent, readAs, h.access, h.path, h.found, h.granted]

theorem mayRead_of_readCurrent {resolved : Str}
    (h : readCurrent db s fs name = .ok (resolved, data)) :
    ∃ canonical entry, MayRead db s fs name canonical entry ∧ entry.data = data := by
  simp only [readCurrent] at h
  split_ifs at h with haccess
  split at h
  · next hread =>
    cases h
    obtain ⟨canonical, entry, hpath, hfound, hgranted, hdata⟩ := readAs_ok hread
    exact ⟨canonical, entry, ⟨by simpa using haccess, hpath, hfound, hgranted⟩, hdata⟩
  · cases h

/-- The entry that a write leaves under the destination. -/
def written (fs : WarFS) (s : CurrentSession) (name target : Str) (data : List UInt8) (now : ℕ) :
    FileEntry :=
  match fs.find target with
  | some old => { old with data, modifiedAt := now, readonly := false }
  | none =>
    newEntry target data (defaultPermissionsFor (resolvePath s name) (currentUid s)) false now

theorem written_data : (written fs s name target data now).data = data := by
  rw [written]
  split <;> rfl

theorem writeCurrent_of_mayWrite (h : MayWrite db s fs name target data) :
    writeCurrent db s fs name data now =
      (.ok (resolvePath s name), fs.place target (some (written fs s name target data now))) := by
  have hstore : fs.writeAs (resolvePath s name) data (currentUid s) (currentRole s)
      (defaultPermissionsFor (resolvePath s name) (currentUid s)) now =
        (.ok (), fs.place target (some (written fs s name target data now))) :=
    h.toAccepts.write h.path
  simp only [writeCurrent, h.access, hstore]
  rfl

theorem withResult_ok {path path' : Str} {r : Except FsError Unit × WarFS} {fs' : WarFS}
    (h : withResult path' r = (.ok path, fs')) : ∃ fs'', r = (.ok (), fs'') := by
  obtain ⟨error | ok, fs''⟩ := r
  · cases h
  · exact ⟨fs'', rfl⟩

theorem mayWrite_of_writeCurrent {path : Str} {fs' : WarFS}
    (h : writeCurrent db s fs name data now = (.ok path, fs')) :
    ∃ target, MayWrite db s fs name target data := by
  simp only [writeCurrent] at h
  split_ifs at h with haccess
  · cases h
  obtain ⟨fs'', h⟩ := withResult_ok h
  obtain ⟨target, hpath, haccepts⟩ := accepts_of_write h
  exact ⟨target, haccepts, by simpa using haccess, hpath⟩

theorem writeCurrent_of_not_mayWrite (now : ℕ)
    (h : ¬ ∃ target, MayWrite db s fs name target data) :
    ∃ error, writeCurrent db s fs name data now = (.error error, fs) := by
  simp only [writeCurrent]
  split_ifs with haccess
  · exact ⟨_, rfl⟩
  · have hcases : FsOp.Refused now fs (.write (resolvePath s name) data (currentUid s)
        (currentRole s) (defaultPermissionsFor (resolvePath s name) (currentUid s)) false) ∨ _ :=
      FsOp.write_cases _ _ _ _ _ _
    rcases hcases with ⟨error, hrefused⟩ | ⟨target, -, -, hdone⟩
    · exact ⟨error, congrArg (withResult _) hrefused⟩
    · have hok : ∃ fs', writeCurrent db s fs name data now = (.ok (resolvePath s name), fs') := by
        simp only [writeCurrent, haccess]
        exact ⟨_, congrArg (withResult _) hdone⟩
      exact absurd (mayWrite_of_writeCurrent hok.choose_spec) h

theorem MayWrite.admits (h : MayWrite db s fs name target data) :
    fs.Admits target (some (written fs s name target data now)) := by
  have hroom := h.room
  rw [U64.saturatingAdd, totalCapacity] at hroom
  refine ⟨?_, .inl ⟨h.ne_root, ?_, ?_, h.slot⟩⟩
  · rw [written]
    cases hfound : fs.find target with
    | some old => exact show old.name = target from lookup_key hfound
    | none => rfl
  · rw [written_data]
    exact h.size
  · rw [written_data, totalCapacity]
    omega

/-- Writing the destination does not change who may delete the source. -/
theorem MayWrite.mayDelete_iff {entry found : FileEntry}
    (hwrite : MayWrite db s fs name target data)
    (hfs : fs.WellFormed) (hentry : fs.find canonical = some entry)
    (hfound : (fs.place target (some (written fs s name target data now))).find canonical =
      some found) : MayDelete s found ↔ MayDelete s entry := by
  have hplace : ∀ n, _ = if n = target then some (written fs s name target data now)
      else fs.find n := find_place hfs.names_nodup hwrite.admits.name_eq
  rw [hplace] at hfound
  split_ifs at hfound with heq
  · subst heq
    rw [written, hentry] at hfound
    cases hfound
    rw [MayDelete, MayDelete, (hwrite.writable entry hentry).1]
  · rw [hentry] at hfound
    cases hfound
    rfl

/-- The write changes nothing exactly when the bytes are there already, from the
same tick. -/
theorem MayWrite.place_eq_iff (h : MayWrite db s fs name target data) (hfs : fs.WellFormed) :
    fs.place target (some (written fs s name target data now)) = fs ↔
      ∃ old, fs.find target = some old ∧ old.data = data ∧ old.modifiedAt = now := by
  have hplace : ∀ n, _ = if n = target then some (written fs s name target data now)
      else fs.find n := find_place hfs.names_nodup h.admits.name_eq
  constructor
  · intro heq
    have hfound : fs.find target = some (written fs s name target data now) := by
      conv_lhs => rw [← heq]
      rw [hplace, if_pos rfl]
    refine ⟨_, hfound, written_data, ?_⟩
    rw [written]
    cases fs.find target <;> rfl
  · rintro ⟨old, hfound, rfl, rfl⟩
    have hsame : written fs s name target old.data old.modifiedAt = old := by
      rw [written, hfound]
      dsimp only
      rw [← (h.writable old hfound).1]
    rw [hsame]
    exact (place_of_find hfound id).symm.trans (by rw [modifyFirst_id])

/-- A move does what it says exactly under the condition. -/
theorem moves_iff (hfs : fs.WellFormed) :
    Moves db s fs source destination now ↔ MoveSound db s fs source destination now := by
  rcases hread : readCurrent db s fs source with error | ⟨resolved, data⟩
  · refine iff_of_true (by simp [Moves, moveCurrent, hread]) fun canonical target entry hmay => ?_
    rw [readCurrent_of_mayRead hmay] at hread
    cases hread
  obtain ⟨canonical, entry, hmay, rfl⟩ := mayRead_of_readCurrent hread
  by_cases hwrite : ∃ target, MayWrite db s fs destination target entry.data
  swap
  · obtain ⟨error, hrefused⟩ := writeCurrent_of_not_mayWrite now hwrite
    refine iff_of_true (by simp [Moves, moveCurrent, hread, hrefused]) ?_
    intro canonical' target entry' hmay' hwrite'
    obtain rfl := Except.ok.inj (hmay.path.symm.trans hmay'.path)
    obtain rfl := Option.some.inj (hmay.found.symm.trans hmay'.found)
    exact absurd ⟨target, hwrite'⟩ hwrite
  obtain ⟨target, hwrite⟩ := hwrite
  have hsound : MoveSound db s fs source destination now ↔
      (MayDelete s entry ∧ canonical ≠ target ∨ ¬ MayDelete s entry ∧
        ∃ old, fs.find target = some old ∧ old.data = entry.data ∧ old.modifiedAt = now) := by
    refine ⟨fun h => h canonical target entry hmay hwrite, fun h => ?_⟩
    intro canonical' target' entry' hmay' hwrite'
    obtain rfl := Except.ok.inj (hmay.path.symm.trans hmay'.path)
    obtain rfl := Option.some.inj (hmay.found.symm.trans hmay'.found)
    obtain rfl := Except.ok.inj (hwrite.path.symm.trans hwrite'.path)
    exact h
  rw [hsound]
  let fs' := fs.place target (some (written fs s destination target entry.data now))
  have hplace : ∀ n, fs'.find n = if n = target then
      some (written fs s destination target entry.data now) else fs.find n :=
    find_place hfs.names_nodup hwrite.admits.name_eq
  have hfs' : fs'.WellFormed := hfs.place (canonicalPath_idem hwrite.path) hwrite.admits
  have hmove : moveCurrent db s fs source destination now =
      withResult (resolvePath s destination) (withResult (resolvePath s source)
        (fs'.deleteAs (resolvePath s source) (currentUid s) (currentRole s))) := by
    simp [moveCurrent, hread, writeCurrent_of_mayWrite hwrite, deleteCurrent, hmay.access, fs']
  rw [Moves, hmove, hmay.path, hwrite.path]
  rcases FsOp.deleteAs_cases fs' (resolvePath s source) (currentUid s) (currentRole s) with
    ⟨canonical', found, hreaches, hdelete⟩ | ⟨hrefused, error, hdelete⟩
  · -- the source is deleted, which loses the bytes when it is the destination
    obtain rfl : canonical = canonical' := Except.ok.inj (hmay.path.symm.trans hreaches.1)
    have hdeletes : MayDelete s entry :=
      (hwrite.mayDelete_iff hfs hmay.found hreaches.2.1).1 hreaches.2.2
    have hlast : ∀ n, _ = if n = canonical then none else fs'.find n :=
      find_place hfs'.names_nodup (by simp)
    rw [hdelete, and_iff_right hdeletes, or_iff_left fun h => h.1 hdeletes]
    refine ⟨?_, fun hne => ?_⟩
    · rintro ⟨_, _, _, ⟨⟩, ⟨⟩, -, hbytes, -⟩ rfl
      rw [hlast, if_pos rfl] at hbytes
      cases hbytes
    · refine ⟨canonical, target, entry, rfl, rfl, hmay.found, ?_,
        fun _ => by rw [hlast, if_pos rfl]⟩
      rw [hlast, if_neg hne.symm, hplace, if_pos rfl]
      exact congrArg some written_data
  · -- the copy stays, so the call must have written nothing new
    have hkeeps : ¬ MayDelete s entry := fun hdeletes => by
      obtain ⟨found, hfound⟩ : ∃ found, fs'.find canonical = some found := by
        rw [hplace]
        split_ifs
        · exact ⟨_, rfl⟩
        · exact ⟨_, hmay.found⟩
      exact hrefused ⟨canonical, found, hmay.path, hfound,
        (hwrite.mayDelete_iff hfs hmay.found hfound).2 hdeletes⟩
    rw [hdelete, or_iff_right fun h => hkeeps h.1, and_iff_right hkeeps]
    exact hwrite.place_eq_iff hfs

end

theorem oneFile_wellFormed {uid : UInt16} {name : Str} (hname : canonicalPath name = .ok name)
    (hroot : name ≠ ['/']) : (oneFile uid name).WellFormed where
  sorted := pairwise_singleton ..
  canonical := oneFile_namesCanonical _ hname
  ne_root := by simpa [oneFile, newEntry] using hroot
  limit := rfl
  count := by simp [oneFile, Fs.maxFiles]
  sizes := by simp [oneFile, newEntry, maxFileSize]
  total := by simp [oneFile, newEntry, usedSpace, totalCapacity]

/-- A move between two files in the own home. -/
theorem moves_ownHome :
    Moves threeUsers (some bobSession)
    (oneFile 2 "/home/bob/a".toList) "a".toList "b".toList 0 := by
  refine (moves_iff (oneFile_wellFormed (by decide) (by decide))).2 ?_
  intro canonical target entry hmay hwrite
  obtain rfl : "/home/bob/a".toList = canonical := Except.ok.inj (by rw [← hmay.path]; decide)
  obtain rfl : "/home/bob/b".toList = target := Except.ok.inj (by rw [← hwrite.path]; decide)
  cases hmay.found
  exact .inl ⟨⟨rfl, .inr rfl⟩, by decide⟩

/-- `bob` moves a file onto itself and it is gone. -/
theorem not_moves_onto_itself :
    ¬ Moves threeUsers (some bobSession)
    (oneFile 2 "/home/bob/a".toList) "a".toList "a".toList 0 := by
  rintro ⟨_, _, _, -, -, -, hbs, -⟩
  cases hbs

/-! ### Searching -/

def basename (path : Str) : Str := afterLast '/' path

def isDirectoryMarker (path : Str) : Bool := basename path == directoryMarkerName

/-- The search takes the file. -/
def isFound (query name : Str) : Bool :=
  !isDirectoryMarker name && (contains name query || contains (basename name) query)

def findCurrent (fs : WarFS) (pattern : Str) : Except FsError (List Str) :=
  let query := trim pattern
  if query = [] then .error .invalidFilename
  else .ok ((fs.files.filter fun entry => isFound query entry.name).map FileEntry.name)

variable (db : UserDB) (s : CurrentSession)

/-- The session may read the file, and it lies in no other user's home. -/
def mayRead (entry : FileEntry) : Bool :=
  entry.permissions.canRead (currentUid s) (currentRole s) && canAccessPath db s entry.name

/-- What the search finds are files that the session may read, and it does not
depend on the others. -/
def FindsReadable (pattern : Str) : Prop :=
  ∀ fs : WarFS, fs.WellFormed → (∀ paths, findCurrent fs pattern = .ok paths →
      ∀ path ∈ paths, ∃ entry ∈ fs.files, entry.name = path ∧ mayRead db s entry = true) ∧
    ∀ fs' : WarFS, fs'.WellFormed →
      fs.files.filter (mayRead db s) = fs'.files.filter (mayRead db s) →
      findCurrent fs pattern = findCurrent fs' pattern

/-- The text is part of the path of a file: of a canonical path that is neither
the root nor a directory marker. -/
def InFilePath (query : Str) : Prop :=
  ∃ before after, canonicalPath (before ++ (query ++ after)) = .ok (before ++ (query ++ after)) ∧
    before ++ (query ++ after) ≠ ['/'] ∧ isDirectoryMarker (before ++ (query ++ after)) = false

lemma mayRead_of_admin {s : CurrentSession} (h : currentRole s = .admin) (e : FileEntry) :
    mayRead db s e := by
  cases s with
  | none => rfl
  | some ses =>
    have hro : ses.user.role = .admin := h
    simp [mayRead, canRead, canAccessPath, h, hro]

theorem contains_iff (text query : Str) :
    Str.contains text query = true ↔ ∃ before after, text = before ++ (query ++ after) := by
  rw [Str.contains, any_eq_true]
  constructor
  · rintro ⟨tail, htail, hquery⟩
    obtain ⟨before, rfl⟩ := (mem_tails _ _).1 htail
    obtain ⟨after, rfl⟩ := isPrefixOf_iff_prefix.1 hquery
    exact ⟨before, after, rfl⟩
  · rintro ⟨before, after, rfl⟩
    exact ⟨query ++ after, (mem_tails _ _).2 (suffix_append _ _),
      isPrefixOf_iff_prefix.2 (prefix_append _ _)⟩

theorem basename_suffix (path : Str) : basename path <:+ path := by
  rw [basename, afterLast, ← reverse_prefix, reverse_reverse]
  exact takeWhile_prefix _

/-- The search takes a file exactly when the text is part of its path. -/
theorem isFound_iff (query name : Str) : isFound query name = true ↔
    isDirectoryMarker name = false ∧ ∃ before after, name = before ++ (query ++ after) := by
  rw [isFound, Bool.and_eq_true, Bool.not_eq_true', Bool.or_eq_true, contains_iff, contains_iff]
  refine and_congr_right fun _ => ⟨?_, .inl⟩
  rintro (h | ⟨before, after, hbase⟩)
  · exact h
  · obtain ⟨rest, hrest⟩ := basename_suffix name
    exact ⟨rest ++ before, after, by rw [append_assoc, ← hbase, hrest]⟩

theorem findCurrent_of_not_inFilePath {fs : WarFS} (hfs : fs.WellFormed) {pattern : Str}
    (hnil : trim pattern ≠ []) (h : ¬ InFilePath (trim pattern)) :
    findCurrent fs pattern = .ok [] := by
  have hnone : fs.files.filter (fun entry => isFound (trim pattern) entry.name) = [] := by
    refine filter_eq_nil_iff.2 fun entry hentry hfound => h ?_
    obtain ⟨hmarker, before, after, hname⟩ := (isFound_iff _ _).1 hfound
    refine ⟨before, after, ?_, ?_, ?_⟩ <;> rw [← hname]
    · exact hfs.canonical entry hentry
    · exact hfs.ne_root entry hentry
    · exact hmarker
  simp [findCurrent, hnil, hnone]

/-- The search keeps to what the session may read exactly when the session is an
administrator's or the text is part of no file path. -/
theorem findsReadable_iff (db : UserDB) (s : CurrentSession) (pattern : Str) :
    FindsReadable db s pattern ↔
      trim pattern = [] ∨ ¬ InFilePath (trim pattern) ∨ currentRole s = .admin := by
  constructor
  · intro h
    by_contra hnot
    simp only [not_or, not_not] at hnot
    obtain ⟨hnil, ⟨before, after, hcanonical, hroot, hmarker⟩, hrole⟩ := hnot
    let name := before ++ (trim pattern ++ after)
    have hfound : findCurrent (oneFile (currentUid s + 1) name) pattern = .ok [name] := by
      have htaken : isFound (trim pattern) name = true :=
        (isFound_iff _ _).2 ⟨hmarker, before, after, rfl⟩
      simp [findCurrent, oneFile, newEntry, hnil, htaken]
    obtain ⟨entry, hentry, -, hread⟩ :=
      (h _ (oneFile_wellFormed hcanonical hroot)).1 _ hfound name mem_cons_self
    rw [mem_singleton.1 hentry] at hread
    simp [mayRead, newEntry, privateFor, defaultFor, canRead, hrole] at hread
  · rintro (hnil | hnowhere | hadmin) fs hfs
    · simp [findCurrent, hnil]
    · by_cases hnil : trim pattern = []
      · simp [findCurrent, hnil]
      · refine ⟨fun paths hpaths => ?_, fun fs' hfs' _ => ?_⟩
        · rw [findCurrent_of_not_inFilePath hfs hnil hnowhere] at hpaths
          cases hpaths
          simp
        · rw [findCurrent_of_not_inFilePath hfs hnil hnowhere,
            findCurrent_of_not_inFilePath hfs' hnil hnowhere]
    · have hall := mayRead_of_admin db hadmin
      have hfilter : ∀ files : List FileEntry, files.filter (mayRead db s) = files :=
        fun files => filter_eq_self.2 fun entry _ => hall entry
      refine ⟨fun paths hpaths path hpath => ?_, fun fs' _ hsame => ?_⟩
      · simp only [findCurrent] at hpaths
        split_ifs at hpaths
        cases hpaths
        obtain ⟨entry, hentry, rfl⟩ := mem_map.1 hpath
        exact ⟨entry, (mem_filter.1 hentry).1, rfl, hall entry⟩
      · rw [hfilter, hfilter] at hsame
        rw [findCurrent, findCurrent, hsame]

/-- `bob` finds root's private file. -/
theorem not_findsReadable_bob :
    findCurrent (oneFile 0 "/root/key".toList) "key".toList = .ok ["/root/key".toList] ∧
      ¬ FindsReadable threeUsers (some bobSession) "key".toList := by
  refine ⟨rfl, fun h => ?_⟩
  obtain ⟨e, hent, -, hrd⟩ :=
    (h (oneFile 0 "/root/key".toList) (oneFile_wellFormed (by decide) (by decide))).1 _ rfl
      "/root/key".toList mem_cons_self
  rw [mem_singleton.1 hent] at hrd
  cases hrd

end Waros.Kernel.Fs
