import Mathlib.Data.Char
import Mathlib.Data.List.Lex
import Waros.Lib.U64
import Waros.Kernel.Fs.Path

/-!
The in-memory filesystem WarFS (`kernel/src/fs/mod.rs`): a list of entries
sorted by name. The operations return their result together with the
filesystem they leave behind, also when they fail. Copying a change through
to a disk is not part of the model.
-/

namespace Waros.Kernel.Fs

open Lib Auth FilePermissions U64

structure FileEntry where
  name : Str
  data : List UInt8
  createdAt : ℕ
  modifiedAt : ℕ
  readonly : Bool
  ownerUid : UInt16
  permissions : FilePermissions
  deriving DecidableEq

structure WarFS where
  files : List FileEntry
  maxFiles : ℕ
  deriving DecidableEq

def maxFiles : ℕ := 128
def maxFileSize : ℕ := 1024 * 1024
def totalCapacity : ℕ := 4 * 1024 * 1024

namespace WarFS

def new : WarFS := ⟨[], Fs.maxFiles⟩

variable (fs : WarFS) (canonical : Str)

def find : Option FileEntry := lookup FileEntry.name canonical fs.files

def sortByName (files : List FileEntry) : List FileEntry :=
  files.insertionSort fun left right => left.name ≤ right.name

def usedWithout : ℕ :=
  ((fs.files.filter fun entry => entry.name ≠ canonical).map fun entry => entry.data.length).sum

/-- The new entry of a write under a name that does not exist yet. -/
def newEntry (data : List UInt8) (permissions : FilePermissions) (readonly : Bool) (now : ℕ) :
    FileEntry where
  name := canonical
  data := data
  createdAt := now
  modifiedAt := now
  readonly := readonly
  ownerUid := permissions.ownerUid
  permissions := permissions

/-- The second half of `write_internal_owned`: an existing entry is changed in
place, a new one is inserted. -/
def storeEntry (data : List UInt8) (currentUid : UInt16) (currentRole : UserRole)
    (permissions : FilePermissions) (readonly : Bool) (now : ℕ) : Except FsError Unit × WarFS :=
  match fs.find canonical with
  | some entry =>
    if entry.readonly then (.error .readOnly, fs)
    else if !entry.permissions.canWrite currentUid currentRole then
      (.error .permissionDenied, fs)
    else
      let files := modifyFirst FileEntry.name canonical
        (fun entry => { entry with data, modifiedAt := now, readonly }) fs.files
      (.ok (), { fs with files })
  | none =>
    if fs.files.length ≥ fs.maxFiles then (.error .filesystemFull, fs)
    else
      let entry := newEntry canonical data permissions readonly now
      (.ok (), { fs with files := sortByName (fs.files ++ [entry]) })

def writeInternalOwned (name : Str) (data : List UInt8) (currentUid : UInt16)
    (currentRole : UserRole) (permissions : FilePermissions) (readonly : Bool) (now : ℕ) :
    Except FsError Unit × WarFS :=
  if data.length > maxFileSize then (.error .fileTooLarge, fs)
  else
    match canonicalPath name with
    | .error error => (.error error, fs)
    | .ok canonical =>
      if canonical = ['/'] then (.error .invalidFilename, fs)
      else if saturatingAdd (fs.usedWithout canonical) data.length > totalCapacity then
        (.error .filesystemFull, fs)
      else fs.storeEntry canonical data currentUid currentRole permissions readonly now

def writeAs (name : Str) (data : List UInt8) (currentUid : UInt16) (currentRole : UserRole)
    (permissions : FilePermissions) (now : ℕ) : Except FsError Unit × WarFS :=
  fs.writeInternalOwned name data currentUid currentRole permissions false now

def touchAs (name : Str) (currentUid : UInt16) (currentRole : UserRole)
    (permissions : FilePermissions) (now : ℕ) : Except FsError Unit × WarFS :=
  fs.writeAs name [] currentUid currentRole permissions now

/-- An existing entry is replaced and becomes a system file, also when it is
read-only; the capacity is checked as for a write. -/
def seedSystem (name : Str) (data : List UInt8) (readonly : Bool) (now : ℕ) :
    Except FsError Unit × WarFS :=
  if data.length > maxFileSize then (.error .fileTooLarge, fs)
  else
    match canonicalPath name with
    | .error error => (.error error, fs)
    | .ok canonical =>
      if canonical = ['/'] then (.error .invalidFilename, fs)
      else if saturatingAdd (fs.usedWithout canonical) data.length > totalCapacity then
        (.error .filesystemFull, fs)
      else
        match fs.find canonical with
        | some _ =>
          let files := modifyFirst FileEntry.name canonical (fun entry =>
            { entry with
              data, modifiedAt := now, readonly, ownerUid := 0
              permissions := system }) fs.files
          (.ok (), { fs with files })
        | none =>
          if fs.files.length ≥ fs.maxFiles then (.error .filesystemFull, fs)
          else
            let entry := newEntry canonical data system readonly now
            (.ok (), { fs with files := sortByName (fs.files ++ [entry]) })

/-- An entry read from a disk, with its owner and its times. -/
def loadFileFromDisk (name : Str) (data : List UInt8) (ownerUid : UInt16)
    (permissions : FilePermissions) (readonly : Bool) (createdAt modifiedAt : ℕ) :
    Except FsError Unit × WarFS :=
  if data.length > maxFileSize then (.error .fileTooLarge, fs)
  else
    match canonicalPath name with
    | .error error => (.error error, fs)
    | .ok canonical =>
      if canonical = ['/'] then (.error .invalidFilename, fs)
      else if saturatingAdd (fs.usedWithout canonical) data.length > totalCapacity then
        (.error .filesystemFull, fs)
      else
        let permissions := { permissions with ownerUid }
        match fs.find canonical with
        | some _ =>
          let files := modifyFirst FileEntry.name canonical (fun entry =>
            { entry with data, createdAt, modifiedAt, readonly, ownerUid, permissions })
            fs.files
          (.ok (), { fs with files })
        | none =>
          if fs.files.length ≥ fs.maxFiles then (.error .filesystemFull, fs)
          else
            let entry : FileEntry :=
              ⟨canonical, data, createdAt, modifiedAt, readonly, ownerUid, permissions⟩
            (.ok (), { fs with files := sortByName (fs.files ++ [entry]) })

def readAs (name : Str) (currentUid : UInt16) (currentRole : UserRole) :
    Except FsError (List UInt8) :=
  match canonicalPath name with
  | .error error => .error error
  | .ok canonical =>
    match fs.find canonical with
    | none => .error .fileNotFound
    | some entry =>
      if !entry.permissions.canRead currentUid currentRole then .error .permissionDenied
      else .ok entry.data

def read (name : Str) : Except FsError (List UInt8) := fs.readAs name 0 .admin

/-- `exists`. -/
def contains (name : Str) : Bool :=
  match canonicalPath name with
  | .error _ => false
  | .ok canonical => (fs.find canonical).isSome

def statAs (name : Str) (currentUid : UInt16) (currentRole : UserRole) : Except FsError FileEntry :=
  match canonicalPath name with
  | .error error => .error error
  | .ok canonical =>
    match fs.find canonical with
    | none => .error .fileNotFound
    | some entry =>
      if !entry.permissions.canRead currentUid currentRole then .error .permissionDenied
      else .ok entry

def usedSpace : ℕ := (fs.files.map fun entry => entry.data.length).sum

def directoryExistsCanonical (path : Str) : Bool :=
  if path = ['/'] then true
  else
    fs.files.any fun entry =>
      entry.name == directoryMarkerPath path || (path ++ ['/']).isPrefixOf entry.name

/-- Creates a file under a name that must not exist yet. -/
def createNewAs (name : Str) (data : List UInt8) (ownerUid : UInt16)
    (permissions : FilePermissions) (readonly : Bool) (now : ℕ) : Except FsError Unit × WarFS :=
  if data.length > maxFileSize then (.error .fileTooLarge, fs)
  else
    match canonicalPath name with
    | .error error => (.error error, fs)
    | .ok canonical =>
      if canonical = ['/'] then (.error .invalidFilename, fs)
      else if (fs.find canonical).isSome then (.error .alreadyExists, fs)
      else if !fs.directoryExistsCanonical (parentDirectory canonical) then
        (.error .fileNotFound, fs)
      else if fs.files.length ≥ fs.maxFiles then (.error .filesystemFull, fs)
      else if saturatingAdd fs.usedSpace data.length > totalCapacity then
        (.error .filesystemFull, fs)
      else
        let entry := { newEntry canonical data permissions readonly now with ownerUid }
        (.ok (), { fs with files := sortByName (fs.files ++ [entry]) })

def deleteAs (name : Str) (currentUid : UInt16) (currentRole : UserRole) :
    Except FsError Unit × WarFS :=
  match canonicalPath name with
  | .error error => (.error error, fs)
  | .ok canonical =>
    match fs.find canonical with
    | none => (.error .fileNotFound, fs)
    | some entry =>
      if entry.readonly then (.error .readOnly, fs)
      else if currentRole ≠ .admin ∧ entry.ownerUid ≠ currentUid then
        (.error .permissionDenied, fs)
      else
        (.ok (), { fs with files := fs.files.eraseP fun entry => entry.name = canonical })

/-- The mode string is applied to the entry in place; its verdict comes
afterwards. -/
def chmodAs (name : Str) (currentUid : UInt16) (currentRole : UserRole) (mode : Str) :
    Except FsError Unit × WarFS :=
  match canonicalPath name with
  | .error error => (.error error, fs)
  | .ok canonical =>
    match fs.find canonical with
    | none => (.error .fileNotFound, fs)
    | some entry =>
      if entry.readonly then (.error .readOnly, fs)
      else if currentRole ≠ .admin ∧ entry.ownerUid ≠ currentUid then
        (.error .permissionDenied, fs)
      else
        let files := modifyFirst FileEntry.name canonical (fun entry =>
          { entry with permissions := (entry.permissions.applyModeString mode).2 }) fs.files
        (if (entry.permissions.applyModeString mode).1 then .ok ()
          else .error .invalidFilename, { fs with files })

/-- Every entry is stored under its canonical path. -/
def NamesCanonical : Prop := ∀ entry ∈ fs.files, canonicalPath entry.name = .ok entry.name

lemma find_sortByName (fs : List FileEntry) (maxFiles : ℕ) (name : Str) :
    (mk (sortByName fs) maxFiles).find name = (mk fs maxFiles).find name := by
  exact lookup_insertionSort FileEntry.name (fun left right => left.name ≤ right.name)
    (fun _ _ h => le_of_eq h) name fs

variable {data : List UInt8} {uid : UInt16} {role : UserRole} {name : Str}

/-- A write of a new name below the limits creates its entry. -/
lemma writeInternalOwned_create {fs : WarFS} {name can : Str} (uid : UInt16)
    (role : UserRole) (perms : FilePermissions) (readonly : Bool) (now : ℕ)
    (hcan : canonicalPath name = .ok can) (hrt : can ≠ ['/']) (hsz : data.length ≤ maxFileSize)
    (hused : fs.usedWithout can + data.length ≤ totalCapacity)
    (hnew : fs.find can = none) (hrm : fs.files.length < fs.maxFiles) :
    ∃ fs', fs.writeInternalOwned name data uid role perms readonly now = (.ok (), fs') ∧
      fs'.find can ≠ none := by
  have hcap : ¬ saturatingAdd (fs.usedWithout can) data.length > totalCapacity := by
    simp only [saturatingAdd] at *
    omega
  rw [writeInternalOwned, if_neg (not_lt.mpr hsz)]
  simp only [hcan]
  rw [if_neg hrt, if_neg hcap, storeEntry]
  simp only [hnew]
  rw [if_neg (not_le.mpr hrm)]
  refine ⟨_, rfl, ?_⟩
  rw [find_sortByName, find, lookup_append_singleton]
  simp [newEntry]

/-- Loading a file of a new name below the limits. -/
lemma loadFileFromDisk_create {fs : WarFS} {file : FileEntry}
    (hcan : canonicalPath file.name = .ok file.name) (hrt : file.name ≠ ['/'])
    (hsz : file.data.length ≤ maxFileSize)
    (hused : fs.usedWithout file.name + file.data.length ≤ totalCapacity)
    (hnew : fs.find file.name = none) (hrm : fs.files.length < fs.maxFiles)
    (hown : file.ownerUid = file.permissions.ownerUid) :
    fs.loadFileFromDisk file.name file.data file.ownerUid file.permissions file.readonly
      file.createdAt file.modifiedAt =
        (.ok (), { fs with files := sortByName (fs.files ++ [file]) }) := by
  have hcap : ¬ saturatingAdd (fs.usedWithout file.name) file.data.length > totalCapacity := by
    simp only [saturatingAdd] at *
    omega
  rw [loadFileFromDisk, if_neg (not_lt.mpr hsz)]
  simp only [hcan]
  rw [if_neg hrt, if_neg hcap]
  simp only [hnew]
  rw [if_neg (not_le.mpr hrm)]
  have hper : { file.permissions with ownerUid := file.ownerUid } = file.permissions := by rw [hown]
  rw [hper]

lemma readAs_ok {fs : WarFS} (h : fs.readAs name uid role = .ok data) :
    ∃ canonical entry, canonicalPath name = .ok canonical ∧ fs.find canonical = some entry ∧
      entry.permissions.canRead uid role ∧ entry.data = data := by
  simp only [readAs] at h
  split at h
  · cases h
  split at h
  · cases h
  split_ifs at h with hrd
  cases h
  exact ⟨_, _, ‹_›, ‹_›, by simpa using hrd, rfl⟩

lemma statAs_ok {fs : WarFS} {e : FileEntry} (h : fs.statAs name uid role = .ok e) :
    ∃ canonical, canonicalPath name = .ok canonical ∧ fs.find canonical = some e ∧
      e.permissions.canRead uid role := by
  simp only [statAs] at h
  split at h
  · cases h
  split at h
  · cases h
  split_ifs at h with hrd
  cases h
  exact ⟨_, ‹_›, ‹_›, by simpa using hrd⟩

end WarFS

end Waros.Kernel.Fs
