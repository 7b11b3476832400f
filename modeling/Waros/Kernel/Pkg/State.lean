import Waros.Lib.Fallible
import Waros.Pkg.Bundle
import Waros.Kernel.Fs.Current
import Waros.Kernel.Fs.FsRuns
import Waros.Kernel.Security.Capabilities

/-!
The package manager (`kernel/src/pkg/mod.rs`) and the records that it and the
offline updates keep (`kernel/src/pkg/update.rs`).

A call works on the login session and the clock, on WarFS and on the list of
installed packages, and keeps what it has changed when it fails. What
`serde_json` makes of the records is a parameter, as are the hash and the
network. Audit records and serial output are left out.
-/

namespace Waros.Kernel.Pkg

open Lib Waros.Pkg Fs Security

structure InstalledPackage where
  name : Str
  version : Str
  description : Str
  files : List Str
  installedAt : ℕ
  sizeBytes : ℕ
  signedBy : Str
  signatureScheme : Str
  deriving DecidableEq

structure PackageInfo where
  name : Str
  version : Str
  description : Str
  sha256 : Str
  dependencies : List Str
  downloadUrl : Str

structure PackageIndex where
  packages : List PackageInfo

structure VerifiedPackage where
  bundle : WarPackBundle
  signedBy : Str
  signatureScheme : Str

def VerifiedPackage.manifest (verified : VerifiedPackage) : Manifest :=
  verified.bundle.signedManifest.manifest

inductive PkgError
  | packageNotFound
  | packageNotInstalled
  | checksumMismatch
  | unsignedPackage
  | signatureInvalid
  | metadataMismatch
  | permissionDenied
  | dependencyCycle
  | dependencyNotFound (name : Str)
  | downloadFailed
  | extractFailed
  | installFailed
  | networkError
  | bundleUnavailable
  | updateBusy
  | noStagedBundle
  | noPendingUpdate
  | bootConfirmationRequired
  | rollbackUnavailable
  | recoveryBlocked
  | stateCorrupted
  deriving DecidableEq

inductive UpdatePhase
  | staged
  | pendingConfirmation
  | confirmed
  | failed
  | rolledBack
  deriving DecidableEq

structure UpdateTransaction where
  packageName : Str
  fromVersion : Option Str
  toVersion : Str
  sourcePath : Str
  stagedPath : Option Str
  rollbackPath : Str
  phase : UpdatePhase
  appliedAt : Option ℕ
  confirmedAt : Option ℕ
  bootStarted : Bool
  bootObserved : Bool
  failureReason : Option Str
  lastBootNote : Option Str
  deriving DecidableEq

structure UpdateState where
  schemaVersion : ℕ
  recoveryRequested : Bool
  recoveryReason : Option Str
  current : Option UpdateTransaction
  deriving DecidableEq

def UpdateState.default : UpdateState := ⟨1, false, none, none⟩

structure RollbackFileRecord where
  path : Str
  existed : Bool
  data : List UInt8
  ownerUid : UInt16
  permissionsMode : Str
  readonly : Bool
  createdAt : ℕ
  modifiedAt : ℕ

structure RollbackRecord where
  packageName : Str
  toVersion : Str
  previousInstalled : Option InstalledPackage
  files : List RollbackFileRecord
  capturedAt : ℕ

/-- The code that the package manager calls and that is not part of the
kernel. -/
structure PkgEnv where
  crypto : Crypto
  root : TrustRoot
  sha256Hex : List UInt8 → Str
  bundles : List UInt8 → Option WarPackBundle
  states : Codec UpdateState
  records : Codec RollbackRecord
  lists : Codec (List InstalledPackage)

/-- What a call finds around it: the other parts of the kernel, the readings
of the tick counter, those of the file operations apart, and the network. -/
structure World where
  kernel : KernelState
  fileTicks : ℕ → ℕ
  ticks : ℕ → ℕ
  httpGet : Str → Option (List UInt8)

structure PkgState where
  world : World
  volume : Volume
  installed : List InstalledPackage
  index : Option PackageIndex

namespace PkgState

/-- The entry under a canonical path. -/
def find (s : PkgState) (canonical : Str) : Option FileEntry := s.volume.find canonical

variable (s : PkgState)

def installedPackage (name : Str) : Option InstalledPackage :=
  lookup InstalledPackage.name name s.installed

/-- The state after the tick counter has been read. -/
def ticked : PkgState :=
  { s with world := { s.world with ticks := fun n => s.world.ticks (n + 1) } }

def withInstalled (installed : List InstalledPackage) : PkgState := { s with installed }

end PkgState

abbrev Call (α : Type) : Type := Fallible PkgState PkgError α

/-! ### Calls into other parts of the kernel -/

def tickCount : Call ℕ := fun s => (.ok (s.world.ticks 0), s.ticked)

def perform (op : KernelOp) : Fallible PkgState FsError Unit := fun s =>
  let result := s.volume.perform (s.world.fileTicks 0) op
  let world := { s.world with fileTicks := fun n => s.world.fileTicks (n + 1) }
  (result.1, { s with volume := result.2, world })

/-- A call into WarFS whose failure is a failure of the installation. -/
def change (op : KernelOp) : Call Unit := (perform op).mapError fun _ => .installFailed

variable (path : Str)

def writeOp (data : List UInt8) : KernelOp := ⟨.write path data 0 .admin .system false, trivial⟩

def chmodOp (path mode : Str) : KernelOp := ⟨.chmod path 0 .admin mode, trivial⟩

def deleteOp : KernelOp := ⟨.delete path 0 .admin, trivial⟩

/-- A delete that does not mind when there is nothing to delete. -/
def discard : Call Unit := fun s =>
  match perform (deleteOp path) s with
  | (.ok (), t) => (.ok (), t)
  | (.error .fileNotFound, t) => (.ok (), t)
  | (.error _, t) => (.error .installFailed, t)

/-- Writes a record as the system file that it is kept in. -/
def saveEncoded {α : Type} (codec : Codec α) (refused : PkgError) (path : Str) (value : α) :
    Call Unit :=
  match codec.encode value with
  | none => .fail refused
  | some bytes => change (writeOp path bytes)

def requirePkgInstall : Call Unit := .read fun s =>
  match sessionRequire s.world.kernel .pkgInstall with
  | .ok () => .ok ()
  | .error _ => .error .permissionDenied

section
variable (env : PkgEnv)

def mapVerifyError : VerifyError → PkgError
  | .signatureMissing => .unsignedPackage
  | _ => .signatureInvalid

/-- A bundle that has been verified, with the names in its signature. -/
def verifiedPackage (bundle : WarPackBundle) : VerifiedPackage :=
  ⟨bundle, bundle.signedManifest.signature.keyId, bundle.signedManifest.signature.scheme⟩

def verifyLocalBundleBytes (bytes : List UInt8) : Except PkgError VerifiedPackage :=
  match env.bundles bytes with
  | none => .error .extractFailed
  | some bundle =>
    match verifyBundle env.crypto bundle env.root with
    | .error error => .error (mapVerifyError error)
    | .ok () => .ok (verifiedPackage bundle)

variable (package : PackageInfo) (verified : VerifiedPackage)

def verifyPackageBytes (bytes : List UInt8) : Except PkgError VerifiedPackage :=
  if env.sha256Hex bytes ≠ package.sha256 then .error .checksumMismatch
  else
    match verifyLocalBundleBytes env bytes with
    | .error error => .error error
    | .ok verified =>
      if verified.manifest.name ≠ package.name ∨ verified.manifest.version ≠ package.version ∨
          verified.manifest.description ≠ package.description ∨
          verified.manifest.dependencies ≠ package.dependencies then
        .error .metadataMismatch
      else .ok verified

def localInstalledPath : Str := "/var/pkg/installed.json".toList

def saveInstalledList : Call Unit := fun s =>
  saveEncoded env.lists .extractFailed localInstalledPath s.installed s

def fetchPackage (location : Str) : Call (List UInt8) := .read fun s =>
  if ['/'].isPrefixOf location then
    match s.volume.fs.read location with
    | .ok bytes => .ok bytes
    | .error _ => .error .downloadFailed
  else
    match s.world.httpGet location with
    | some body => .ok body
    | none => .error .downloadFailed

/-- The files of the installed version that the new manifest does not name. -/
def staleFiles (manifest : Manifest) (previous : Option InstalledPackage) : List Str :=
  match previous with
  | none => []
  | some previous =>
    previous.files.filter fun file => manifest.files.all fun next => next.path ≠ file

def executableMode : Str := ['r', 'w', 'r', '-']

def writeFile (payloads : List WarPackPayload) (file : ManifestFile) : Call Unit :=
  match lookup WarPackPayload.source file.source payloads with
  | none => .fail .extractFailed
  | some payload => do
    change (writeOp file.path (Str.toUtf8 payload.contents))
    if file.executable then change (chmodOp file.path executableMode)

def installedRecord (bundleSize installedAt : ℕ) :
    InstalledPackage where
  name := verified.manifest.name
  version := verified.manifest.version
  description := verified.manifest.description
  files := verified.manifest.files.map ManifestFile.path
  installedAt := installedAt
  sizeBytes := bundleSize
  signedBy := verified.signedBy
  signatureScheme := verified.signatureScheme

def replacePackage (name : Str) (next : Option InstalledPackage)
    (installed : List InstalledPackage) : List InstalledPackage :=
  installed.filter (fun package => package.name ≠ name) ++ next.toList

def setInstalled (f : List InstalledPackage → List InstalledPackage) : Call Unit :=
  .modify fun s => s.withInstalled (f s.installed)

def applyVerifiedBundle (bundleSize : ℕ) :
    Call InstalledPackage := do
  let previous ← .read fun s => .ok (s.installedPackage verified.manifest.name)
  .each ((staleFiles verified.manifest previous).map discard)
  .each (verified.manifest.files.map (writeFile verified.bundle.payloads))
  let installedAt ← tickCount
  let installed := installedRecord verified bundleSize installedAt
  setInstalled (replacePackage verified.manifest.name (some installed))
  saveInstalledList env
  pure installed

def install : Call Unit := do
  let installed ← .read fun s => .ok (s.installedPackage package.name).isSome
  if installed then pure ()
  else do
    let bundleBytes ← fetchPackage package.downloadUrl
    let verified ← .read fun _ => verifyPackageBytes env package bundleBytes
    let _ ← applyVerifiedBundle env verified bundleBytes.length
    pure ()

end

end Waros.Kernel.Pkg
