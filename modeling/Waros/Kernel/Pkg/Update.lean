import Waros.Kernel.Pkg.State

/-!
Offline updates and recovery (`kernel/src/pkg/update.rs`).

The transaction lives in a file of WarFS, next to a snapshot of what the last
apply of each package replaced. Every call loads the state from that file and
saves it there; a file that does not exist stands for the default state.
-/

namespace Waros.Kernel.Pkg

open Lib Waros.Pkg Auth Fs Wire UpdateState

def updateStatePath : Str := "/var/pkg/update-state.json".toList
def stagedDirPath : Str := "/var/pkg/staged".toList
def rollbackDirPath : Str := "/var/pkg/rollback".toList

def stagedBundlePath (name version : Str) : Str :=
  stagedDirPath ++ '/' :: (name ++ '-' :: (version ++ ".warpack".toList))

def rollbackRecordPath (name : Str) : Str := rollbackDirPath ++ '/' :: (name ++ ".json".toList)

section
variable (env : PkgEnv)

variable (state : UpdateState) (s : PkgState) (path : Str) (rollback : RollbackRecord)
  (manifest : Manifest) (previous : Option InstalledPackage) (file : RollbackFileRecord)
  (sourcePath : Str) (reason : Str)

def saveState : Call Unit := saveEncoded env.states .installFailed updateStatePath state

def loadState : Except PkgError UpdateState :=
  match s.volume.fs.read updateStatePath with
  | .error .fileNotFound => .ok default
  | .error _ => .error .installFailed
  | .ok bytes =>
    match env.states.decode bytes with
    | none => .error .stateCorrupted
    | some state => .ok state

def UpdateState.busy : Bool :=
  match state.current with
  | none => false
  | some transaction => transaction.phase = .pendingConfirmation ∨ transaction.phase = .failed

def ensureStateReplaceable : Call Unit :=
  if state.busy then .fail .updateBusy else pure ()

def storeRollbackRecord : Call Unit := saveEncoded env.records .installFailed path rollback

def loadRollbackRecord (s : PkgState) : Except PkgError RollbackRecord :=
  match s.volume.fs.read path with
  | .error _ => .error .rollbackUnavailable
  | .ok bytes =>
    match env.records.decode bytes with
    | none => .error .rollbackUnavailable
    | some rollback => .ok rollback

def readLocalBundle (s : PkgState) : Except PkgError (Str × List UInt8) :=
  match readCurrent s.world.kernel.users s.world.kernel.session s.volume.fs path with
  | .ok found => .ok found
  | .error _ => .error .bundleUnavailable

def pushUniquePath (paths : List Str) (path : Str) : List Str :=
  if paths.contains path then paths else paths ++ [path]

/-- The paths that an apply can touch, each spelling once. -/
def capturedPaths : List Str :=
  let paths := (manifest.files.map ManifestFile.path).foldl pushUniquePath []
  match previous with
  | none => paths
  | some previous => previous.files.foldl pushUniquePath paths

def captureFile : RollbackFileRecord :=
  match s.volume.fs.statAs path 0 .admin with
  | .ok entry =>
    ⟨path, true, entry.data, entry.ownerUid, entry.permissions.modeString, entry.readonly,
      entry.createdAt, entry.modifiedAt⟩
  | .error _ => ⟨path, false, [], 0, ['r', 'w', '-', '-'], false, 0, 0⟩

def captureRollbackRecord :
    Call RollbackRecord := do
  let files ← .read fun s => .ok ((capturedPaths manifest previous).map (captureFile s))
  let capturedAt ← tickCount
  pure ⟨manifest.name, manifest.version, previous, files, capturedAt⟩

/-- `load_file_from_disk` with the owner and the times of the snapshot. -/
def loadOp (permissions : FilePermissions) : KernelOp :=
  ⟨.load file.path file.data file.ownerUid permissions file.readonly file.createdAt
    file.modifiedAt, trivial⟩

def restoreFile : Call Unit :=
  if file.existed then
    match (FilePermissions.defaultFor file.ownerUid).applyModeString file.permissionsMode with
    | (false, _) => .fail .rollbackUnavailable
    | (true, permissions) => change (loadOp file permissions)
  else discard file.path

def restoreRollbackFiles : Call Unit := .each (rollback.files.map restoreFile)

/-! ### The calls -/

def stageBundleFromPath : Call UpdateTransaction := do
  requirePkgInstall
  let (resolved, bytes) ← .read (readLocalBundle path)
  let verified ← .read fun _ => verifyLocalBundleBytes env bytes
  let state ← .read (loadState env)
  ensureStateReplaceable state
  let stagedPath := stagedBundlePath verified.manifest.name verified.manifest.version
  change (writeOp stagedPath bytes)
  let installed ← .read fun s => .ok (s.installedPackage verified.manifest.name)
  let transaction : UpdateTransaction := {
    packageName := verified.manifest.name
    fromVersion := installed.map InstalledPackage.version
    toVersion := verified.manifest.version
    sourcePath := resolved
    stagedPath := some stagedPath
    rollbackPath := rollbackRecordPath verified.manifest.name
    phase := .staged
    appliedAt := none
    confirmedAt := none
    bootStarted := false
    bootObserved := false
    failureReason := none
    lastBootNote := some "offline bundle staged for explicit apply".toList }
  saveState env { state with current := some transaction }
  pure transaction

def appliedTransaction (stagedOverride : Option Str) (appliedAt : ℕ) : UpdateTransaction where
  packageName := manifest.name
  fromVersion := previous.map InstalledPackage.version
  toVersion := manifest.version
  sourcePath := sourcePath
  stagedPath := stagedOverride.or
    (if stagedDirPath.isPrefixOf sourcePath then some sourcePath else none)
  rollbackPath := rollbackRecordPath manifest.name
  phase := .pendingConfirmation
  appliedAt := some appliedAt
  confirmedAt := none
  bootStarted := false
  bootObserved := false
  failureReason := none
  lastBootNote := some "offline apply completed; awaiting boot confirmation".toList

/-- The part of an apply that changes files: the snapshot, the installation
and the new state. -/
def applyVerifiedPackage (verified : VerifiedPackage) (size : ℕ) (sourcePath : Str)
    (stagedOverride : Option Str) : Call UpdateTransaction := do
  let previous ← .read fun s => .ok (s.installedPackage verified.manifest.name)
  let rollback ← captureRollbackRecord verified.manifest previous
  storeRollbackRecord env (rollbackRecordPath verified.manifest.name) rollback
  let _ ← applyVerifiedBundle env verified size
  let appliedAt ← tickCount
  let transaction :=
    appliedTransaction verified.manifest previous sourcePath stagedOverride appliedAt
  saveState env
    { state with current := some transaction, recoveryRequested := false, recoveryReason := none }
  pure transaction

def applyVerifiedBundleBytes (bytes : List UInt8) (stagedOverride : Option Str) :
    Call UpdateTransaction := do
  let state ← .read (loadState env)
  ensureStateReplaceable state
  let verified ← .read fun _ => verifyLocalBundleBytes env bytes
  applyVerifiedPackage env state verified bytes.length sourcePath stagedOverride

def applyBundleFromPath : Call UpdateTransaction := do
  requirePkgInstall
  let (resolved, bytes) ← .read (readLocalBundle path)
  applyVerifiedBundleBytes env resolved bytes none

def stagedBundle : Except PkgError (Str × List UInt8) :=
  match loadState env s with
  | .error error => .error error
  | .ok state =>
    match state.current.bind UpdateTransaction.stagedPath with
    | none => .error .noStagedBundle
    | some stagedPath =>
      match s.volume.fs.read stagedPath with
      | .error _ => .error .noStagedBundle
      | .ok bytes => .ok (stagedPath, bytes)

def applyStagedBundle : Call UpdateTransaction := do
  requirePkgInstall
  let (stagedPath, bytes) ← .read (stagedBundle env)
  applyVerifiedBundleBytes env stagedPath bytes (some stagedPath)

def pendingTransaction : Call UpdateTransaction :=
  match state.current with
  | none => .fail .noPendingUpdate
  | some transaction =>
    if transaction.phase = .pendingConfirmation then pure transaction
    else .fail .noPendingUpdate

def confirmPendingUpdate : Call UpdateTransaction := do
  requirePkgInstall
  let state ← .read (loadState env)
  let transaction ← pendingTransaction state
  if !transaction.bootObserved then .fail .bootConfirmationRequired
  else do
    let confirmedAt ← tickCount
    let snapshot := { transaction with
      phase := .confirmed
      confirmedAt := some confirmedAt
      bootStarted := false
      bootObserved := false
      failureReason := none
      lastBootNote := some "update confirmed after shell-ready boot".toList }
    saveState env
      { state with current := some snapshot, recoveryRequested := false, recoveryReason := none }
    pure snapshot

def rejectPendingUpdate : Call UpdateTransaction := do
  requirePkgInstall
  let state ← .read (loadState env)
  let transaction ← pendingTransaction state
  let snapshot := { transaction with
    phase := .failed
    failureReason := some reason
    lastBootNote := some "update explicitly rejected".toList }
  saveState env { state with
    current := some snapshot
    recoveryRequested := true
    recoveryReason := some "pending update rejected".toList }
  pure snapshot

/-- The part of a rollback that changes files. -/
def rollbackTo (state : UpdateState) (transaction : UpdateTransaction) :
    Call UpdateTransaction := do
  restoreRollbackFiles rollback
  setInstalled (replacePackage rollback.packageName rollback.previousInstalled)
  saveInstalledList env
  let confirmedAt ← tickCount
  let snapshot := { transaction with
    phase := .rolledBack
    bootStarted := false
    bootObserved := false
    confirmedAt := some confirmedAt
    failureReason := none
    lastBootNote := some "rollback restored pre-apply filesystem state".toList }
  saveState env
    { state with current := some snapshot, recoveryRequested := false, recoveryReason := none }
  pure snapshot

/-- The current transaction and the snapshot that a rollback restores. -/
def rollbackPlan : Except PkgError (UpdateState × UpdateTransaction × RollbackRecord) :=
  match loadState env s with
  | .error error => .error error
  | .ok state =>
    match state.current with
    | none => .error .rollbackUnavailable
    | some transaction =>
      match loadRollbackRecord env transaction.rollbackPath s with
      | .error error => .error error
      | .ok rollback => .ok (state, transaction, rollback)

def rollbackCurrentUpdate : Call UpdateTransaction := do
  requirePkgInstall
  let (state, transaction, rollback) ← .read (rollbackPlan env)
  rollbackTo env rollback state transaction

def clearCompletedState : Call Unit := do
  requirePkgInstall
  let state ← .read (loadState env)
  ensureStateReplaceable state
  saveState env { state with
    current := none
    recoveryReason := if state.recoveryRequested then state.recoveryReason else none }

def requestRecovery : Call Unit := do
  let state ← .read (loadState env)
  saveState env { state with recoveryRequested := true, recoveryReason := some reason }

def clearRecoveryRequest : Call Unit := do
  let state ← .read (loadState env)
  if state.busy then .fail .recoveryBlocked
  else saveState env { state with recoveryRequested := false, recoveryReason := none }

structure BootHealthReport where
  recoveryRequested : Bool
  summary : Str

def bootPending (transaction : UpdateTransaction) : UpdateState × Str :=
  let title := transaction.packageName ++ ' ' :: transaction.toVersion
  if transaction.bootStarted && !transaction.bootObserved then
    ({ state with
        current := some { transaction with
          phase := .failed
          failureReason := some "post-update boot did not reach shell-ready".toList }
        recoveryRequested := true
        recoveryReason := some "post-update boot failed before shell-ready".toList },
      title ++ " failed health check before shell-ready; recovery requested".toList)
  else if transaction.bootObserved then
    ({ state with
        current := some { transaction with
          phase := .failed
          failureReason := some "post-update boot was not confirmed before the next boot".toList }
        recoveryRequested := true
        recoveryReason := some "post-update boot was not confirmed".toList },
      title ++ " was not confirmed before reboot; recovery requested".toList)
  else
    ({ state with
        current := some { transaction with
          bootStarted := true
          lastBootNote := some "boot started; awaiting confirmation".toList } },
      title ++ " pending confirmation".toList)

def bootState : UpdateState × Str :=
  match state.current with
  | none => (state, "idle".toList)
  | some transaction =>
    let title := transaction.packageName ++ ' ' :: transaction.toVersion
    match transaction.phase with
    | .pendingConfirmation => bootPending state transaction
    | .staged => (state, title ++ " staged for explicit apply".toList)
    | .confirmed => (state, title ++ " confirmed".toList)
    | .failed =>
      ({ state with
          recoveryRequested := true
          recoveryReason :=
            state.recoveryReason.or (some "failed update requires recovery".toList) },
        title ++ " failed and requires recovery".toList)
    | .rolledBack => (state, title ++ " rolled back".toList)

/-- A state that cannot be saved is dropped. -/
def prepareBoot : Call BootHealthReport := fun s =>
  match loadState env s with
  | .error .stateCorrupted =>
    (.ok ⟨true, "update state metadata is corrupted; recovery mode requested".toList⟩, s)
  | loaded =>
    let next := bootState (loaded.toOption.getD default)
    (.ok ⟨next.1.recoveryRequested, next.2⟩, (saveState env next.1 s).2)

def noteShellReady : Call (Option Str) := do
  let state ← .read (loadState env)
  match state.current with
  | none => pure none
  | some transaction =>
    if transaction.phase ≠ .pendingConfirmation ∨ !transaction.bootStarted then pure none
    else if transaction.bootObserved then pure none
    else do
      let snapshot := { transaction with
        bootObserved := true
        lastBootNote := some "shell-ready reached; confirmation required".toList }
      saveState env { state with current := some snapshot }
      pure (some (transaction.packageName ++ ' ' :: (transaction.toVersion ++
        " reached shell-ready; confirmation required".toList)))

end

/-! ### Records on the wire

Formats for the records, to evaluate the calls on. -/

def InstalledPackage.wire : Wire InstalledPackage :=
  (strWire.pair (strWire.pair (strWire.pair ((list strWire).pair (nat.pair
    (nat.pair (strWire.pair strWire))))))).comap
    (fun p => (p.name, p.version, p.description, p.files, p.installedAt, p.sizeBytes, p.signedBy,
      p.signatureScheme))
    (fun (name, version, description, files, installedAt, sizeBytes, signedBy,
      signatureScheme) => ⟨name, version, description, files, installedAt, sizeBytes, signedBy,
        signatureScheme⟩) fun _ => rfl

def UpdatePhase.code : UpdatePhase → ℕ
  | .staged => 0
  | .pendingConfirmation => 1
  | .confirmed => 2
  | .failed => 3
  | .rolledBack => 4

def UpdatePhase.ofCode : ℕ → UpdatePhase
  | 0 => .staged
  | 1 => .pendingConfirmation
  | 2 => .confirmed
  | 3 => .failed
  | _ => .rolledBack

lemma UpdatePhase.ofCode_code (phase : UpdatePhase) : ofCode phase.code = phase := by
  cases phase <;> rfl

def UpdateTransaction.wire : Wire UpdateTransaction :=
  (strWire.pair (strWire.option.pair (strWire.pair (strWire.pair (strWire.option.pair
    (strWire.pair ((nat.comap _ _ UpdatePhase.ofCode_code).pair
      (nat.option.pair (nat.option.pair (bool.pair (bool.pair
        (strWire.option.pair strWire.option)))))))))))).comap
    (fun t => (t.packageName, t.fromVersion, t.toVersion, t.sourcePath, t.stagedPath,
      t.rollbackPath, t.phase, t.appliedAt, t.confirmedAt, t.bootStarted, t.bootObserved,
      t.failureReason, t.lastBootNote))
    (fun (packageName, fromVersion, toVersion, sourcePath, stagedPath, rollbackPath, phase,
      appliedAt, confirmedAt, bootStarted, bootObserved, failureReason, lastBootNote) =>
        ⟨packageName, fromVersion, toVersion, sourcePath, stagedPath, rollbackPath, phase,
          appliedAt, confirmedAt, bootStarted, bootObserved, failureReason, lastBootNote⟩)
    fun _ => rfl

def UpdateState.wire : Wire UpdateState :=
  (nat.pair (bool.pair (strWire.option.pair UpdateTransaction.wire.option))).comap
    (fun s => (s.schemaVersion, s.recoveryRequested, s.recoveryReason, s.current))
    (fun (schemaVersion, recoveryRequested, recoveryReason, current) =>
      ⟨schemaVersion, recoveryRequested, recoveryReason, current⟩) fun _ => rfl

def RollbackFileRecord.wire : Wire RollbackFileRecord :=
  (strWire.pair (bool.pair ((list byte).pair
    ((nat.comap UInt16.toNat .ofNat fun _ => UInt16.ofNat_toNat).pair
      (strWire.pair (bool.pair (nat.pair nat))))))).comap
    (fun f => (f.path, f.existed, f.data, f.ownerUid, f.permissionsMode, f.readonly, f.createdAt,
      f.modifiedAt))
    (fun (path, existed, data, ownerUid, permissionsMode, readonly, createdAt, modifiedAt) =>
      ⟨path, existed, data, ownerUid, permissionsMode, readonly, createdAt, modifiedAt⟩)
    fun _ => rfl

def RollbackRecord.wire : Wire RollbackRecord :=
  (strWire.pair (strWire.pair (InstalledPackage.wire.option.pair
    ((list RollbackFileRecord.wire).pair nat)))).comap
    (fun r => (r.packageName, r.toVersion, r.previousInstalled, r.files, r.capturedAt))
    (fun (packageName, toVersion, previousInstalled, files, capturedAt) =>
      ⟨packageName, toVersion, previousInstalled, files, capturedAt⟩) fun _ => rfl

/-- The surroundings with the scheme without secrets. The bundle that a file
stands for is looked up by its bytes. -/
def clearEnv (bundles : List UInt8 → Option WarPackBundle) : PkgEnv where
  crypto := .clear
  root := clearRoot
  sha256Hex := hexEncode
  bundles := bundles
  states := wire.codec
  records := RollbackRecord.wire.codec
  lists := (list InstalledPackage.wire).codec

/-- A console of a system that was just booted, without a network, whose clock
counts from a given tick on. -/
def bootWorld (start : ℕ) : World where
  kernel := .init ⟨[], 1000⟩
  fileTicks n := start + n
  ticks n := start + n
  httpGet _ := none

/-- A system that was just booted, with the given files and no packages. -/
def bootedWith (volume : Volume) : PkgState := ⟨bootWorld 10, volume, [], none⟩

/-- A package of one file. -/
def toolBundle : WarPackBundle :=
  clearBundle ⟨['t'], ['1'], [], [], [], [⟨['/', 't'], ['x'], false, 1⟩], [], [], []⟩
    [⟨['x'], ['X']⟩]

def oneBundle (bundle : WarPackBundle) : PkgEnv :=
  clearEnv fun bytes => if bytes = [1] then some bundle else none

def bundleVolume : Volume := Volume.empty.after [(1, writeOp ['/', 'b'] [1])]

end Waros.Kernel.Pkg
