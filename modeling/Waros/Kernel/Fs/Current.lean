import Waros.Kernel.Fs.WarFS

/-!
File operations on behalf of the login session (`kernel/src/fs/mod.rs`,
`write_current` and its siblings). Each one resolves the given name against
the session, makes the home check on the resolved string, and only then
hands the string to WarFS. Audit records are left out.
-/

namespace Waros.Kernel.Fs

open Lib Auth CurrentSession

/-- Replaces the value of a successful operation. -/
def withResult {α β : Type} (b : β) : Except FsError α × WarFS → Except FsError β × WarFS
  | (.ok _, fs) => (.ok b, fs)
  | (.error error, fs) => (.error error, fs)

section
variable (db : UserDB) (s : CurrentSession) (fs : WarFS) (path : Str) (name : Str)
  (data : List UInt8) (now : ℕ)

def directoryExists : Bool :=
  let resolved := resolvePath s path
  if resolved = ['/'] then true
  else
    fs.files.any fun entry =>
      entry.name == directoryMarkerPath resolved || (resolved ++ ['/']).isPrefixOf entry.name

def writeCurrent : Except FsError Str × WarFS :=
  let resolved := resolvePath s name
  if !canAccessPath db s resolved then (.error .permissionDenied, fs)
  else
    withResult resolved (fs.writeAs resolved data (currentUid s) (currentRole s)
      (defaultPermissionsFor resolved (currentUid s)) now)

def touchCurrent : Except FsError Str × WarFS :=
  let resolved := resolvePath s name
  if !canAccessPath db s resolved then (.error .permissionDenied, fs)
  else
    withResult resolved (fs.touchAs resolved (currentUid s) (currentRole s)
      (defaultPermissionsFor resolved (currentUid s)) now)

def readCurrent : Except FsError (Str × List UInt8) :=
  let resolved := resolvePath s name
  if !canAccessPath db s resolved then .error .permissionDenied
  else
    match fs.readAs resolved (currentUid s) (currentRole s) with
    | .ok data => .ok (resolved, data)
    | .error error => .error error

def deleteCurrent : Except FsError Str × WarFS :=
  let resolved := resolvePath s name
  if !canAccessPath db s resolved then (.error .permissionDenied, fs)
  else withResult resolved (fs.deleteAs resolved (currentUid s) (currentRole s))

def mkdirCurrent : Except FsError Str × WarFS :=
  let resolved := resolvePath s path
  if !canAccessPath db s resolved then (.error .permissionDenied, fs)
  else if !directoryExists s fs (parentDirectory resolved) then (.error .fileNotFound, fs)
  else
    withResult resolved (fs.writeAs (directoryMarkerPath resolved) [] (currentUid s)
      (currentRole s) (defaultPermissionsFor resolved (currentUid s)) now)

def statCurrent : Except FsError FileEntry :=
  let resolved := resolvePath s name
  if !canAccessPath db s resolved then .error .permissionDenied
  else fs.statAs resolved (currentUid s) (currentRole s)

def validateCreateNewCurrent : Except FsError Str :=
  let resolved := resolvePath s name
  if !canAccessPath db s resolved then .error .permissionDenied
  else
    match canonicalPath resolved with
    | .error error => .error error
    | .ok canonical =>
      if canonical = ['/'] then .error .invalidFilename
      else if (fs.find canonical).isSome then .error .alreadyExists
      else if !directoryExists s fs (parentDirectory canonical) then .error .fileNotFound
      else .ok canonical

def createNewCurrent : Except FsError Str × WarFS :=
  match validateCreateNewCurrent db s fs name with
  | .error error => (.error error, fs)
  | .ok resolved =>
    withResult resolved (fs.createNewAs resolved data (currentUid s)
      (defaultPermissionsFor resolved (currentUid s)) false now)

def relativeChildPath (directory path : Str) : Option Str :=
  if directory = ['/'] then Str.stripPrefix ['/'] path
  else Str.stripPrefix (directory ++ ['/']) path

/-- The entries of a directory: the name of each one and whether it is a
directory itself. A directory shows up once, with the first file below it. -/
def dirEntries (directory : Str) : List FileEntry → List Str → List (Str × Bool)
  | [], _ => []
  | entry :: entries, seen =>
    if !entry.permissions.canRead (currentUid s) (currentRole s) then
      dirEntries directory entries seen
    else
      match relativeChildPath directory entry.name with
      | none => dirEntries directory entries seen
      | some relative =>
        match relative.splitOn '/' with
        | first :: rest =>
          if relative = [] ∨ first = directoryMarkerName then
            dirEntries directory entries seen
          else if rest = [] then (first, false) :: dirEntries directory entries seen
          else if first ∈ seen then dirEntries directory entries seen
          else (first, true) :: dirEntries directory entries (first :: seen)
        | [] => dirEntries directory entries seen

def listEntriesCurrent : Except FsError (Str × List (Str × Bool)) :=
  let directory := resolvePath s path
  if !canAccessPath db s directory then .error .permissionDenied
  else if !directoryExists s fs directory then .error .fileNotFound
  else
    .ok (directory, (dirEntries s directory fs.files []).mergeSort fun left right =>
      left.1 ≤ right.1)

end

lemma withResult_eq_ok {α β : Type} {b c : β} {r : Except FsError α × WarFS} {fs : WarFS} :
    withResult b r = (.ok c, fs) ↔ ∃ a, r = (.ok a, fs) ∧ b = c := by
  obtain ⟨res, fs'⟩ := r
  cases res with
  | error => simp [withResult]
  | ok => simp [withResult, and_comm]

end Waros.Kernel.Fs
