import Waros.Kernel.Pkg.Effects

/-!
What the update calls do to the state file. Whatever a call returns, the file
is as before, or it holds the state that the call saves; `Next` says which
states these are.

The calls write other files as well. The directories of the staged bundles
and of the rollback records are apart from the state file, so only the paths
that come from a manifest or from a snapshot can lead to it.
-/

namespace Waros.Kernel.Pkg

open Lib Waros.Pkg Auth Fs Fallible List Except

variable {canonical name : Str}

/-- A file with an extension that is named below a directory stays there. -/
lemma canonical_in_directory (dirs : List Str) (ext : Str) (hdirs : ∀ c ∈ dirs, Proper c)
    (hne : dirs ≠ []) (hext : ext.any Str.isWhitespace = false)
    (h : canonicalPath (render dirs ++ '/' :: (name ++ '.' :: ext)) = .ok canonical) :
    render dirs <+: canonical := by
  have htrim : .trim (render dirs ++ '/' :: (name ++ '.' :: ext)) =
      render dirs ++ '/' :: (name ++ '.' :: ext) := by
    have hspl : render dirs ++ '/' :: (name ++ '.' :: ext) =
        (render dirs ++ '/' :: name) ++ '.' :: ext := by simp
    have hsla : Str.isWhitespace '/' = false := by decide
    rw [hspl, Str.trim_append_cons (by decide) (by simpa using hext)]
    cases dirs <;> simp [render, hsla]
  obtain ⟨-, -, rfl, -⟩ := canonicalPath_eq_ok.1 h
  have hall : dirs ++ components (name ++ '.' :: ext) ≠ [] := by simp [hne]
  rw [htrim, components_append_slash, components_render hdirs, render_eq_flatMap hne,
    render_eq_flatMap hall, flatMap_append]
  exact ⟨_, rfl⟩

lemma canonical_rollbackRecordPath
    (h : canonicalPath (rollbackRecordPath name) = .ok canonical) :
    rollbackDirPath <+: canonical :=
  canonical_in_directory ["var".toList, "pkg".toList, "rollback".toList] "json".toList
    (by decide) (by simp) (by decide) h

lemma canonical_stagedBundlePath {version : Str}
    (h : canonicalPath (stagedBundlePath name version) = .ok canonical) :
    stagedDirPath <+: canonical := by
  have hp : stagedBundlePath name version =
      stagedDirPath ++ '/' :: ((name ++ '-' :: version) ++ '.' :: "warpack".toList) := by
    rw [append_assoc]
    rfl
  rw [hp] at h
  exact canonical_in_directory ["var".toList, "pkg".toList, "staged".toList] "warpack".toList
    (by decide) (by simp) (by decide) h

lemma canonicalPath_updateStatePath : canonicalPath updateStatePath = .ok updateStatePath := by
  decide

lemma rollbackRecordPath_ne_state (name : Str) :
    canonicalPath (rollbackRecordPath name) ≠ .ok updateStatePath := fun h =>
  absurd (canonical_rollbackRecordPath h) (by decide)

lemma stagedBundlePath_ne_state (name version : Str) :
    canonicalPath (stagedBundlePath name version) ≠ .ok updateStatePath := fun h =>
  absurd (canonical_stagedBundlePath h) (by decide)

/-! ### Steps that miss a file -/

variable (n : Str) (s : PkgState)

/-- The entry under a canonical path stays. -/
def KeepsFile (s t : PkgState) : Prop := t.find n = s.find n

lemma KeepsFile.refl : KeepsFile n s s := rfl

lemma KeepsFile.trans (s t u : PkgState) (hst : KeepsFile n s t) (htu : KeepsFile n t u) :
    KeepsFile n s u :=
  Eq.trans htu hst

section
variable {n : Str}

lemma keepsFile_change (op : KernelOp) (hn : canonicalPath op.1.name ≠ .ok n) :
    Fallible.Keeps (KeepsFile n) (change op) := fun _ =>
  Volume.find_perform_of_ne hn

variable {path : Str}

lemma keepsFile_discard (hn : canonicalPath path ≠ .ok n) :
    Fallible.Keeps (KeepsFile n) (discard path) := by
  intro s
  rcases discard_cases path s with ⟨t, ht, hs⟩ | ⟨t, canonical, ht, hcan, hput⟩
  · rw [ht]
    exact congrFun hs.find n
  · have hne : n ≠ canonical := fun h => hn (h ▸ hcan)
    rw [ht, KeepsFile, hput.find, Function.update_of_ne hne]

lemma keepsFile_writeFile {payloads : List WarPackPayload} {file : ManifestFile}
    (hn : canonicalPath file.path ≠ .ok n) :
    Fallible.Keeps (KeepsFile n) (writeFile payloads file) := by
  rw [writeFile]
  cases lookup WarPackPayload.source file.source payloads with
  | none => exact .refl n
  | some pay =>
    refine (keepsFile_change (writeOp _ _) hn).bind (.trans n) fun _ => ?_
    split
    · exact keepsFile_change _ hn
    · exact keeps_pure (.refl n) ()

variable {α : Type} (env : PkgEnv)

lemma keepsFile_saveEncoded (codec : Codec α) (refused : PkgError) (v : α)
    (hn : canonicalPath path ≠ .ok n) :
    Fallible.Keeps (KeepsFile n) (saveEncoded codec refused path v) := by
  rw [saveEncoded]
  cases codec.encode v with
  | none => exact .refl n
  | some bytes => exact keepsFile_change _ hn

lemma keepsFile_saveInstalledList (hn : n ≠ localInstalledPath) :
    Fallible.Keeps (KeepsFile n) (saveInstalledList env) := fun s =>
  keepsFile_saveEncoded env.lists .extractFailed s.installed
    (fun h => hn (ok.inj (canonicalPath_localInstalledPath.symm.trans h)).symm) s

lemma keepsFile_tickCount : Fallible.Keeps (KeepsFile n) tickCount := fun _ => rfl

lemma keepsFile_setInstalled (f : List InstalledPackage → List InstalledPackage) :
    Fallible.Keeps (KeepsFile n) (setInstalled f) := fun _ => rfl

lemma keepsFile_each {step : α → Call Unit} {xs : List α}
    (h : ∀ item ∈ xs, Fallible.Keeps (KeepsFile n) (step item)) :
    Fallible.Keeps (KeepsFile n) (each (xs.map step)) := by
  apply Fallible.Keeps.each (KeepsFile.refl n) (.trans n)
  intro x hx
  obtain ⟨item, hitem, rfl⟩ := mem_map.1 hx
  exact h item hitem

lemma keepsFile_restoreFile {file : RollbackFileRecord} (hn : canonicalPath file.path ≠ .ok n) :
    Fallible.Keeps (KeepsFile n) (restoreFile file) := by
  rw [restoreFile]
  split
  · split
    · exact .refl n
    · exact keepsFile_change _ hn
  · exact keepsFile_discard hn

lemma keepsFile_restoreRollbackFiles {rollback : RollbackRecord}
    (hn : ¬ LeadsTo (rollback.files.map RollbackFileRecord.path) n) :
    Fallible.Keeps (KeepsFile n) (restoreRollbackFiles rollback) :=
  keepsFile_each fun file hfl =>
    keepsFile_restoreFile fun h => hn ⟨file.path, mem_map_of_mem hfl, h⟩

lemma mem_foldl_pushUniquePath {paths more : List Str} :
    path ∈ more.foldl pushUniquePath paths ↔ path ∈ paths ∨ path ∈ more := by
  induction more generalizing paths with
  | nil => simp
  | cons next more ih =>
    rw [foldl_cons, ih, pushUniquePath]
    split_ifs with hmem
    · constructor
      · rintro (h | h)
        · exact .inl h
        · exact .inr (mem_cons_of_mem _ h)
      · rintro (h | h)
        · exact .inl h
        · rcases mem_cons.1 h with rfl | h
          · exact .inl (contains_iff_mem.1 hmem)
          · exact .inr h
    · simp [or_assoc]

/-- A snapshot covers the files of the manifest and those of the installed
version. -/
lemma mem_capturedPaths {man : Manifest} {prev : Option InstalledPackage} :
    path ∈ capturedPaths man prev ↔ path ∈ man.files.map ManifestFile.path ∨
        ∃ package, prev = some package ∧ path ∈ package.files := by
  cases prev <;> simp [capturedPaths, mem_foldl_pushUniquePath]

lemma staleFiles_subset_capturedPaths (man : Manifest) (previous : Option InstalledPackage) :
    staleFiles man previous ⊆ capturedPaths man previous := by
  intro path hp
  rw [mem_capturedPaths]
  cases previous with
  | none => exact absurd hp (by simp [staleFiles])
  | some package => exact .inr ⟨package, rfl, mem_of_mem_filter hp⟩

/-- An installation touches the paths of its snapshot and the list of
packages. -/
lemma applyVerifiedBundle_keepsFile {ver : VerifiedPackage} (size : ℕ) {s : PkgState}
    (hli : n ≠ localInstalledPath) (hcaptured : ¬ LeadsTo (capturedPaths ver.manifest
      (s.installedPackage ver.manifest.name)) n) :
    (applyVerifiedBundle env ver size s).2.find n = s.find n := by
  have hsta : ∀ path ∈ staleFiles ver.manifest
      (s.installedPackage ver.manifest.name), canonicalPath path ≠ .ok n :=
    fun path hp h => hcaptured ⟨path, staleFiles_subset_capturedPaths _ _ hp, h⟩
  have hfs : ∀ file ∈ ver.manifest.files, canonicalPath file.path ≠ .ok n :=
    fun file hfl h => hcaptured ⟨file.path, mem_capturedPaths.2 (.inl (mem_map_of_mem hfl)), h⟩
  have hbody : Fallible.Keeps (KeepsFile n) (do
      each ((staleFiles ver.manifest
        (s.installedPackage ver.manifest.name)).map discard)
      each (ver.manifest.files.map (writeFile ver.bundle.payloads))
      let installedAt ← tickCount
      setInstalled (replacePackage ver.manifest.name
        (some (installedRecord ver size installedAt)))
      saveInstalledList env
      pure (installedRecord ver size installedAt)) := by
    refine (keepsFile_each fun path hp => keepsFile_discard (hsta path hp)).bind
      (.trans n) fun _ => ?_
    refine (keepsFile_each fun file hfl => keepsFile_writeFile (hfs file hfl)).bind
      (.trans n) fun _ => ?_
    refine keepsFile_tickCount.bind (.trans n) fun _ => ?_
    refine (keepsFile_setInstalled _).bind (.trans n) fun _ => ?_
    refine (keepsFile_saveInstalledList env hli).bind (.trans n) fun _ => ?_
    exact .refl n
  exact hbody s

end

section
variable {env : PkgEnv} {s t : PkgState} {state : UpdateState}

lemma loadState_congr (h : t.find updateStatePath = s.find updateStatePath) :
    loadState env t = loadState env s := by
  rw [loadState, loadState, Volume.read_congr canonicalPath_updateStatePath h]

lemma loadState_of_absent
    (h : s.find updateStatePath = none) : loadState env s = .ok .default := by
  have hrd : s.volume.fs.read updateStatePath = .error .fileNotFound := by
    rw [s.volume.read_eq, canonicalPath_updateStatePath]
    simp [show s.volume.find updateStatePath = none from h]
  rw [loadState, hrd]

lemma keepsFile_saveState {n : Str} (hn : n ≠ updateStatePath) (st : UpdateState) :
    Fallible.Keeps (KeepsFile n) (saveState env st) :=
  keepsFile_saveEncoded env.states .installFailed st
    fun h => hn (ok.inj (canonicalPath_updateStatePath.symm.trans h)).symm

/-- A step that misses the state file. -/
lemma loadState_of_keepsFile
    (hstate : loadState env s = .ok state) (h : KeepsFile updateStatePath s t) :
    loadState env t = .ok state :=
  (loadState_congr h).trans hstate

lemma loadState_of_saved (hround : env.states.RoundTrips)
    (h : saveState env state s = (.ok (), t)) : loadState env t = .ok state := by
  obtain ⟨bytes, canonical, henc, hcan, hput⟩ := saveEncoded_ok h
  obtain rfl := ok.inj (canonicalPath_updateStatePath.symm.trans hcan)
  have hf := congrFun hput.find updateStatePath
  rw [Function.update_self] at hf
  rw [loadState, Volume.read_of_find canonicalPath_updateStatePath hf]
  simp [hround state bytes henc]

end

/-! ### The calls -/

inductive UpdateOp
  | stage (path : Str)
  | apply (path : Str)
  | applyStaged
  | confirm
  | reject (reason : Str)
  | rollback
  | clearCompleted
  | requestRecovery (reason : Str)
  | clearRecovery
  | prepareBoot
  | noteShellReady

namespace UpdateOp

variable (env : PkgEnv)

/-- The call, with its result left out. -/
def call : UpdateOp → Call Unit
  | .stage path => do
    let _ ← stageBundleFromPath env path
  | .apply path => do
    let _ ← applyBundleFromPath env path
  | .applyStaged => do
    let _ ← applyStagedBundle env
  | .confirm => do
    let _ ← confirmPendingUpdate env
  | .reject reason => do
    let _ ← rejectPendingUpdate env reason
  | .rollback => do
    let _ ← rollbackCurrentUpdate env
  | .clearCompleted => clearCompletedState env
  | .requestRecovery reason => Pkg.requestRecovery env reason
  | .clearRecovery => clearRecoveryRequest env
  | .prepareBoot => do
    let _ ← Pkg.prepareBoot env
  | .noteShellReady => do
    let _ ← Pkg.noteShellReady env

variable (s : PkgState)

/-- The bundle that an apply starts from: the name and the bytes of its file. -/
def source : UpdateOp → Option (Str × List UInt8)
  | .apply path => (readLocalBundle path s).toOption
  | .applyStaged => (stagedBundle env s).toOption
  | _ => none

def package (op : UpdateOp) : Option VerifiedPackage :=
  (op.source env s).bind fun found => (verifyLocalBundleBytes env found.2).toOption

def Applies : UpdateOp → Prop
  | .apply _ | .applyStaged => True
  | _ => False

/-- The states that a call saves, given the one that it loads. -/
def Next (before after : UpdateState) : UpdateOp → Prop
  | .stage _ =>
    before.busy = false ∧ ∃ transaction, after = { before with current := some transaction } ∧
      transaction.phase = .staged ∧ transaction.bootStarted = false ∧
      transaction.bootObserved = false
  | .apply _ | .applyStaged =>
    before.busy = false ∧ ∃ transaction, after.current = some transaction ∧
      transaction.phase = .pendingConfirmation ∧ transaction.bootStarted = false ∧
      transaction.bootObserved = false
  | .confirm => ∃ old transaction, before.current = some old ∧
      old.phase = .pendingConfirmation ∧ old.bootObserved = true ∧
      after.current = some transaction ∧ transaction.phase = .confirmed ∧
      transaction.bootStarted = false ∧ transaction.bootObserved = false ∧
      transaction.rollbackPath = old.rollbackPath
  | .reject _ => ∃ old transaction, before.current = some old ∧
      old.phase = .pendingConfirmation ∧ after.current = some transaction ∧
      transaction.phase = .failed ∧ transaction.bootStarted = old.bootStarted ∧
      transaction.bootObserved = old.bootObserved ∧
      transaction.rollbackPath = old.rollbackPath ∧ after.recoveryRequested = true
  | .rollback => ∃ transaction, after.current = some transaction ∧
      transaction.phase = .rolledBack ∧ transaction.bootStarted = false ∧
      transaction.bootObserved = false
  | .clearCompleted => after.current = none
  | .requestRecovery _ => after.current = before.current ∧ after.recoveryRequested = true
  | .clearRecovery => before.busy = false ∧ after.current = before.current
  | .prepareBoot => after = (bootState before).1
  | .noteShellReady => ∃ old transaction, before.current = some old ∧
      old.phase = .pendingConfirmation ∧ old.bootStarted = true ∧
      after.current = some transaction ∧ transaction.phase = .pendingConfirmation ∧
      transaction.bootStarted = true ∧ transaction.bootObserved = true ∧
      transaction.rollbackPath = old.rollbackPath ∧
      after.recoveryRequested = before.recoveryRequested

/-- Neither the files of the package that an apply installs nor those of the
version that it replaces are spelled to be at the canonical path. -/
def PackageSpares (n : Str) (op : UpdateOp) : Prop :=
  ∀ verified ∈ op.package env s,
    ¬ LeadsTo (capturedPaths verified.manifest (s.installedPackage verified.manifest.name)) n
  deriving Decidable

/-- Nor are the files of the snapshot that a rollback restores. -/
def SnapshotSpares (n : Str) : Prop :=
  ∀ plan ∈ (rollbackPlan env s).toOption,
    ¬ LeadsTo (plan.2.2.files.map RollbackFileRecord.path) n
  deriving Decidable

/-- No path of the package or of the snapshot leads to the state file. -/
def SparesFile : UpdateOp → Prop
  | op@(.apply _) | op@.applyStaged => op.PackageSpares env s updateStatePath
  | .rollback => SnapshotSpares env s updateStatePath
  | _ => True

/-- Moreover, a boot can save the state. -/
def SparesState : UpdateOp → Prop
  | .prepareBoot => ∀ state ∈ (loadState env s).toOption,
      (saveState env (bootState state).1 s).1 = .ok ()
  | op => op.SparesFile env s

instance (s : PkgState) (op : UpdateOp) : Decidable (op.SparesState env s) := by
  cases op <;> (dsimp only [SparesState, SparesFile]; infer_instance)

end UpdateOp

/-- A call, and the surroundings that it finds. -/
structure UpdateEvent where
  world : World
  op : UpdateOp

def PkgState.inWorld (world : World) : PkgState := { s with world }

/-! ### What the calls save -/

section
variable {env : PkgEnv} {s : PkgState} {E : PkgError → PkgState → Prop} {Q : Unit → PkgState → Prop}
  {op : UpdateOp} {bytes : List UInt8} {verified : VerifiedPackage}

lemma wp_requirePkgInstall (hQ : Q () s)
    (hE : E .permissionDenied s) : wp requirePkgInstall Q E s := by
  apply wp_read
  · intro _ _
    exact hQ
  · intro e he
    split at he
    · cases he
    · cases he
      exact hE

variable {st : UpdateState}

lemma wp_ensureStateReplaceable (hQ : st.busy = false → Q () s) (hE : E .updateBusy s) :
    wp (ensureStateReplaceable st) Q E s := by
  rw [ensureStateReplaceable]
  split_ifs with hbusy
  · exact hE
  · exact hQ (by simpa using hbusy)

lemma wp_saveState (hround : env.states.RoundTrips) (hQ : ∀ t, loadState env t = .ok st → Q () t)
    (hE : ∀ e t, loadState env t = loadState env s → E e t) :
    wp (saveState env st) Q E s := by
  rw [wp_iff]
  constructor
  · intro _ t h
    exact hQ t (loadState_of_saved hround h)
  · intro e t h
    exact hE e t (loadState_congr (congrFun (saveEncoded_error h).find updateStatePath))

lemma wp_pendingTransaction {Q : UpdateTransaction → PkgState → Prop}
    (hQ : ∀ transaction, st.current = some transaction →
      transaction.phase = .pendingConfirmation → Q transaction s) (hE : E .noPendingUpdate s) :
    wp (pendingTransaction st) Q E s := by
  rw [pendingTransaction]
  cases hcur : st.current with
  | none => exact hE
  | some transaction =>
    simp only []
    split_ifs with hph
    · exact hQ transaction hcur hph
    · exact hE

/-- Both ways to apply a bundle check the caller and read the bundle; what they
do then is `apply_verified_bundle_bytes`. -/
lemma UpdateOp.Applies.wp (hop : op.Applies) {Q : PkgState → Prop} (hE : ∀ e, E e s)
    (hbs : ∀ path bytes stagedOverride, op.source env s = some (path, bytes) →
      wp (applyVerifiedBundleBytes env path bytes stagedOverride) (fun _ => Q) E s) :
    wp (op.call env) (fun _ => Q) E s := by
  cases op with
  | apply path =>
    simp only [call, applyBundleFromPath, wp_bind]
    refine wp_requirePkgInstall ?_ (hE _)
    refine wp_read (fun found hfd => ?_) fun e _ => hE e
    exact hbs found.1 found.2 none (by simp [source, hfd, Except.toOption])
  | applyStaged =>
    simp only [call, applyStagedBundle, wp_bind]
    refine wp_requirePkgInstall ?_ (hE _)
    refine wp_read (fun found hfd => ?_) fun e _ => hE e
    exact hbs found.1 found.2 (some found.1) (by simp [source, hfd, Except.toOption])
  | _ => exact hop.elim

lemma UpdateOp.mem_package {path : Str} (hsrc : op.source env s = some (path, bytes))
    (hver : verifyLocalBundleBytes env bytes = .ok verified) :
    verified ∈ op.package env s := by
  simp [package, hsrc, hver, Except.toOption]

/-- The call saves a state that follows from the one before, or fails and leaves the
state file as it is. -/
def UpdateOp.Saves (op : UpdateOp) (env : PkgEnv) (state : UpdateState) (s : PkgState) {α : Type}
    (call : Call α) : Prop :=
  wp call (fun _ t => ∃ after, op.Next state after ∧ loadState env t = .ok after)
    (fun _ t => loadState env t = .ok state) s

variable {state : UpdateState} (hround : env.states.RoundTrips)
  (hstate : loadState env s = .ok state)
include hstate

lemma wp_loadState {Q : UpdateState → PkgState → Prop} (hQ : Q state s) :
    wp (read (loadState env)) Q (fun _ t => loadState env t = .ok state) s := by
  refine wp_read (fun loaded hld => ?_) fun _ _ => hstate
  obtain rfl := ok.inj (hstate.symm.trans hld)
  exact hQ

include hround

lemma stage_next (path : Str) :
    (UpdateOp.stage path).Saves env state s (stageBundleFromPath env path) := by
  simp only [UpdateOp.Saves, stageBundleFromPath, wp_bind]
  refine wp_requirePkgInstall ?_ hstate
  refine wp_read (fun found _ => ?_) fun _ _ => hstate
  refine wp_read (fun verified _ => ?_) fun _ _ => hstate
  refine wp_loadState hstate ?_
  refine wp_ensureStateReplaceable (fun hbusy => ?_) hstate
  have hkp : Fallible.Keeps (KeepsFile updateStatePath) (change (writeOp (stagedBundlePath
      verified.manifest.name verified.manifest.version) found.2)) :=
    keepsFile_change _ (stagedBundlePath_ne_state _ _)
  refine hkp.wp (fun _ t ht => ?_) fun _ t ht => loadState_of_keepsFile hstate ht
  refine wp_saveState hround (fun u hu => ?_) fun _ u hu =>
    hu.trans (loadState_of_keepsFile hstate ht)
  exact ⟨_, ⟨hbusy, _, rfl, rfl, rfl, rfl⟩, hu⟩

lemma applyVerifiedPackage_next (size : ℕ) (src : Str) (ov : Option Str)
    (hsp : ¬ LeadsTo (capturedPaths verified.manifest
      (s.installedPackage verified.manifest.name)) updateStatePath) :
    wp (applyVerifiedPackage env state verified size src ov)
      (fun _ t => ∃ transaction, loadState env t = .ok { state with
          current := some transaction, recoveryRequested := false, recoveryReason := none } ∧
        transaction.phase = .pendingConfirmation ∧ transaction.bootStarted = false ∧
        transaction.bootObserved = false)
      (fun _ t => loadState env t = .ok state) s := by
  simp only [applyVerifiedPackage, wp_bind]
  refine wp_saveEncoded (fun t bytes canonical _ hcan hput => ?_) fun _ t hs =>
    loadState_of_keepsFile hstate (congrFun hs.find updateStatePath)
  have hstd : KeepsFile updateStatePath s t := by
    have hne : updateStatePath ≠ canonical := by
      rintro rfl
      exact rollbackRecordPath_ne_state _ hcan
    rw [KeepsFile, hput.find, Function.update_of_ne hne, ticked_find]
  have hinst : t.installedPackage verified.manifest.name =
      s.installedPackage verified.manifest.name :=
    congrArg (lookup InstalledPackage.name verified.manifest.name) hput.installed
  have happ := applyVerifiedBundle_keepsFile env size (by decide)
    (hinst.symm ▸ hsp)
  refine wp_of_state happ (fun _ u hu => ?_) fun _ u hu =>
    loadState_of_keepsFile hstate (.trans _ _ _ _ hstd hu)
  have hld := loadState_of_keepsFile hstate (.trans _ _ _ _ hstd hu)
  refine wp_saveState hround (fun v hv => ?_) fun _ v hv => hv.trans hld
  exact ⟨_, hv, rfl, rfl, rfl⟩

lemma applyVerifiedBundleBytes_next (src : Str) (ov : Option Str)
    (hsp : ∀ verified, verifyLocalBundleBytes env bytes = .ok verified →
      ¬ LeadsTo (capturedPaths verified.manifest
        (s.installedPackage verified.manifest.name)) updateStatePath) :
    UpdateOp.applyStaged.Saves env state s
      (applyVerifiedBundleBytes env src bytes ov) := by
  simp only [UpdateOp.Saves, applyVerifiedBundleBytes, wp_bind]
  refine wp_loadState hstate ?_
  refine wp_ensureStateReplaceable (fun hbusy => ?_) hstate
  refine wp_read (fun verified hver => ?_) fun _ _ => hstate
  refine (applyVerifiedPackage_next hround hstate _ _ _ (hsp verified hver)).mono ?_ fun _ _ h => h
  rintro _ t ⟨transaction, hload, hph, hstar, hobs⟩
  exact ⟨_, ⟨hbusy, transaction, rfl, hph, hstar, hobs⟩, hload⟩

lemma confirm_next : UpdateOp.confirm.Saves env state s (confirmPendingUpdate env) := by
  simp only [UpdateOp.Saves, confirmPendingUpdate, wp_bind]
  refine wp_requirePkgInstall ?_ hstate
  refine wp_loadState hstate ?_
  refine wp_pendingTransaction (fun tx hcur hph => ?_) hstate
  split_ifs with hobs
  · exact hstate
  rw [wp_bind, wp_tickCount, wp_bind]
  refine wp_saveState hround (fun t ht => ⟨_, ?_, ht⟩) fun _ t ht => ht.trans hstate
  exact ⟨tx, _, hcur, hph, by simpa using hobs, rfl, rfl, rfl, rfl, rfl⟩

lemma reject_next (reason : Str) :
    (UpdateOp.reject reason).Saves env state s (rejectPendingUpdate env reason) := by
  simp only [UpdateOp.Saves, rejectPendingUpdate, wp_bind]
  refine wp_requirePkgInstall ?_ hstate
  refine wp_loadState hstate ?_
  refine wp_pendingTransaction (fun tx hcur hph => ?_) hstate
  refine wp_saveState hround (fun t ht => ⟨_, ?_, ht⟩) fun _ t ht => ht.trans hstate
  exact ⟨tx, _, hcur, hph, rfl, rfl, rfl, rfl, rfl, rfl⟩

lemma rollback_next
    (hsp : UpdateOp.SnapshotSpares env s updateStatePath) :
    UpdateOp.rollback.Saves env state s (rollbackCurrentUpdate env) := by
  simp only [UpdateOp.Saves, rollbackCurrentUpdate, rollbackTo, wp_bind]
  refine wp_requirePkgInstall ?_ hstate
  refine wp_read (fun plan hpl => ?_) fun _ _ => hstate
  have hpl' : plan ∈ (rollbackPlan env s).toOption := by rw [hpl]; rfl
  refine (keepsFile_restoreRollbackFiles (hsp plan hpl')).wp (fun _ t ht => ?_)
    fun _ t ht => loadState_of_keepsFile hstate ht
  have hli := keepsFile_saveInstalledList env
    (by decide : updateStatePath ≠ localInstalledPath)
  refine hli.wp (fun _ u hu => ?_) fun _ u hu =>
    loadState_of_keepsFile hstate (.trans _ _ _ _ ht hu)
  have hld := loadState_of_keepsFile hstate (.trans _ _ _ _ ht hu)
  refine wp_saveState hround (fun v hv => ⟨_, ?_, hv⟩) fun _ v hv => hv.trans hld
  exact ⟨_, rfl, rfl, rfl, rfl⟩

lemma clearCompleted_next :
    UpdateOp.clearCompleted.Saves env state s (clearCompletedState env) := by
  simp only [UpdateOp.Saves, clearCompletedState, wp_bind]
  refine wp_requirePkgInstall ?_ hstate
  refine wp_loadState hstate ?_
  refine wp_ensureStateReplaceable (fun hbusy => ?_) hstate
  refine wp_saveState hround (fun t ht => ⟨_, ?_, ht⟩) fun _ t ht => ht.trans hstate
  exact rfl

lemma requestRecovery_next (reason : Str) :
    (UpdateOp.requestRecovery reason).Saves env state s (requestRecovery env reason) := by
  simp only [UpdateOp.Saves, requestRecovery, wp_bind]
  refine wp_loadState hstate ?_
  refine wp_saveState hround (fun t ht => ⟨_, ?_, ht⟩) fun _ t ht => ht.trans hstate
  exact ⟨rfl, rfl⟩

lemma clearRecovery_next : UpdateOp.clearRecovery.Saves env state s (clearRecoveryRequest env) := by
  simp only [UpdateOp.Saves, clearRecoveryRequest, wp_bind]
  refine wp_loadState hstate ?_
  split_ifs with hbusy
  · exact hstate
  · refine wp_saveState hround (fun t ht => ⟨_, ?_, ht⟩) fun _ t ht => ht.trans hstate
    exact ⟨by simpa using hbusy, rfl⟩

omit hround in
lemma prepareBoot_of_loaded :
    prepareBoot env s = (.ok ⟨(bootState state).1.recoveryRequested, (bootState state).2⟩,
      (saveState env (bootState state).1 s).2) := by
  simp only [prepareBoot, hstate]
  rfl

lemma prepareBoot_next (hsav : (saveState env (bootState state).1 s).1 = .ok ()) :
    UpdateOp.prepareBoot.Saves env state s (prepareBoot env) := by
  have hsave : saveState env (bootState state).1 s =
      (.ok (), (saveState env (bootState state).1 s).2) := Prod.ext hsav rfl
  rw [UpdateOp.Saves, wp, prepareBoot_of_loaded hstate]
  exact ⟨_, rfl, loadState_of_saved hround hsave⟩

lemma noteShellReady_next :
    wp (noteShellReady env)
      (fun _ t => loadState env t = .ok state ∨
        ∃ after, UpdateOp.noteShellReady.Next state after ∧ loadState env t = .ok after)
      (fun _ t => loadState env t = .ok state) s := by
  simp only [noteShellReady, wp_bind]
  refine wp_loadState hstate ?_
  rcases hcur : state.current with _ | tx
  · exact .inl hstate
  simp only []
  split_ifs with hwait hobs
  · exact .inl hstate
  · exact .inl hstate
  · rw [not_or, not_not] at hwait
    rw [wp_bind]
    refine wp_saveState hround (fun t ht => .inr ⟨_, ?_, ht⟩) fun _ t ht => ht.trans hstate
    exact ⟨tx, _, hcur, hwait.1, by simpa using hwait.2, rfl, hwait.1,
      by simpa using hwait.2, rfl, rfl, rfl⟩

/-- Whatever a call returns, the state file holds what it held before, or what
the call saves; a call that fails has saved nothing. -/
lemma UpdateOp.call_next (op : UpdateOp) (hsp : op.SparesState env s) :
    wp (op.call env)
      (fun _ t => (op = .noteShellReady ∧ loadState env t = .ok state) ∨
        ∃ after, op.Next state after ∧ loadState env t = .ok after)
      (fun _ t => loadState env t = .ok state) s := by
  have hvoid : ∀ {α : Type} (x : Call α), op.Saves env state s x →
      wp (x >>= fun _ => pure PUnit.unit)
        (fun _ t => (op = .noteShellReady ∧ loadState env t = .ok state) ∨
          ∃ after, op.Next state after ∧ loadState env t = .ok after)
        (fun _ t => loadState env t = .ok state) s := by
    intro α x hx
    rw [wp_bind]
    exact hx.mono (fun _ _ h => .inr h) fun _ _ h => h
  cases op with
  | stage path => exact hvoid _ (stage_next hround hstate path)
  | apply | applyStaged =>
    refine Applies.wp (by trivial) (fun _ => hstate) fun sourcePath bytes stagedOverride hsrc => ?_
    have happ := applyVerifiedBundleBytes_next hround hstate sourcePath stagedOverride
      fun verified hver => hsp verified (mem_package hsrc hver)
    exact happ.mono (fun _ _ h => .inr h) fun _ _ h => h
  | confirm => exact hvoid _ (confirm_next hround hstate)
  | reject why => exact hvoid _ (reject_next hround hstate why)
  | rollback => exact hvoid _ (rollback_next hround hstate hsp)
  | clearCompleted =>
    exact (clearCompleted_next hround hstate).mono (fun _ _ h => .inr h) fun _ _ h => h
  | requestRecovery why =>
    exact (requestRecovery_next hround hstate why).mono (fun _ _ h => .inr h) fun _ _ h => h
  | clearRecovery =>
    exact (clearRecovery_next hround hstate).mono (fun _ _ h => .inr h) fun _ _ h => h
  | prepareBoot => exact hvoid _ (prepareBoot_next hround hstate (hsp state (by rw [hstate]; rfl)))
  | noteShellReady =>
    rw [call, wp_bind]
    refine (noteShellReady_next hround hstate).mono (fun _ _ h => ?_) fun _ _ h => h
    exact h.imp (fun h => ⟨rfl, h⟩) id

/-- The state after a call: the one before, or the one that the call saves. A
boot may fail to save its state. -/
lemma UpdateOp.call_loaded (op : UpdateOp) (hsp : op.SparesFile env s) :
    ∃ after, loadState env (op.call env s).2 = .ok after ∧ ((after = state ∧
          ((op.call env s).1.isOk → op = .noteShellReady ∨ op = .prepareBoot)) ∨
        ((op.call env s).1.isOk ∧ op.Next state after)) := by
  by_cases hunsa : op = .prepareBoot ∧ (saveState env (bootState state).1 s).1 ≠ .ok ()
  · obtain ⟨rfl, hunsa⟩ := hunsa
    refine ⟨state, ?_, .inl ⟨rfl, fun _ => .inr rfl⟩⟩
    have hboot : (prepareBoot.call env s).2 = (saveState env (bootState state).1 s).2 := by
      rw [call, bind_of_ok (prepareBoot_of_loaded hstate)]
      rfl
    rw [hboot]
    rcases hsv : saveState env (bootState state).1 s with ⟨error | _, t⟩
    · exact loadState_of_keepsFile hstate (congrFun (saveEncoded_error hsv).find updateStatePath)
    · exact absurd (congrArg Prod.fst hsv) hunsa
  · have hstp : op.SparesState env s := by
      cases op with
      | prepareBoot =>
        intro found hfd
        rw [hstate] at hfd
        cases hfd
        exact not_not.1 fun h => hunsa ⟨rfl, h⟩
      | _ => exact hsp
    have hnx := op.call_next hround hstate hstp
    rcases hc : op.call env s with ⟨error | _, t⟩
    · exact ⟨state, hnx.error hc, .inl ⟨rfl, fun h => absurd h Bool.false_ne_true⟩⟩
    · rcases hnx.ok hc with ⟨hop, hld⟩ | ⟨after, haft, hld⟩
      · exact ⟨state, hld, .inl ⟨rfl, fun _ => .inl hop⟩⟩
      · exact ⟨after, hld, .inr ⟨rfl, haft⟩⟩

end

end Waros.Kernel.Pkg
