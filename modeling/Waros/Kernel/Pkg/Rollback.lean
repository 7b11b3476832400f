import Waros.Kernel.Pkg.Snapshot
import Waros.Kernel.Pkg.BootHealth

/-!
A rollback after an apply. Between the two only the state file changes, and
the transaction keeps the path of its rollback record.
-/

namespace Waros.Kernel.Pkg

open Lib Waros.Pkg Fs Option UpdateOp
open UpdateTransaction (rollbackPath)

section
variable {env : PkgEnv}

namespace UpdateOp

/-- The calls that lead from an apply to a decision about it. -/
def Health : UpdateOp → Prop
  | .prepareBoot | .noteShellReady | .confirm | .reject _ => True
  | _ => False

lemma Health.bookkeeping {op : UpdateOp} (h : op.Health) : op.Bookkeeping := by
  cases op <;> first | exact h.elim | exact trivial

end UpdateOp

/-- The current transaction has its rollback record under the path. -/
def Awaits (env : PkgEnv) (path : Str) (s : PkgState) : Prop :=
  ∃ state transaction, loadState env s = .ok state ∧ state.current = some transaction ∧
    transaction.rollbackPath = path

variable {path : Str} {op : UpdateOp} {s : PkgState}

lemma Awaits.congr {s t : PkgState} (h : Awaits env path s)
    (hload : loadState env t = loadState env s) : Awaits env path t := by
  obtain ⟨state, transaction, hst, hr⟩ := h
  exact ⟨state, transaction, hload.trans hst, hr⟩

lemma bootState_rollbackPath (st : UpdateState) :
    (bootState st).1.current.map rollbackPath = st.current.map rollbackPath := by
  cases hcur : st.current with
  | none => simp only [bootState, hcur]
  | some tx =>
    cases hph : tx.phase <;> simp only [bootState, hcur, hph, bootPending]
    split_ifs <;> rfl

lemma UpdateOp.Health.next_rollbackPath (hop : op.Health) {bef aft : UpdateState}
    (h : op.Next bef aft) :
    aft.current.map rollbackPath = bef.current.map rollbackPath := by
  cases op with
  | prepareBoot =>
    obtain rfl : aft = (bootState bef).1 := h
    exact bootState_rollbackPath bef
  | noteShellReady =>
    obtain ⟨old, next, hold, -, -, haft, -, -, -, hs, -⟩ := h
    rw [haft, hold, map_some, map_some, hs]
  | confirm =>
    obtain ⟨old, next, hold, -, -, haft, -, -, -, hs⟩ := h
    rw [haft, hold, map_some, map_some, hs]
  | reject =>
    obtain ⟨old, next, hold, -, haft, -, -, -, hs, -⟩ := h
    rw [haft, hold, map_some, map_some, hs]
  | _ => exact hop.elim

lemma UpdateOp.Health.awaits (hsts : env.states.RoundTrips) (hop : op.Health)
    (h : Awaits env path s) : Awaits env path (op.call env s).2 := by
  obtain ⟨state, transaction, hst, hcur, hp⟩ := h
  have hsp : op.SparesFile env s := by cases op <;> first | exact hop.elim | exact trivial
  obtain ⟨after, haft, ⟨rfl, -⟩ | ⟨-, hnx⟩⟩ := op.call_loaded hsts hst hsp
  · exact ⟨after, transaction, haft, hcur, hp⟩
  · have hs := hop.next_rollbackPath hnx
    rw [hcur, map_some, map_eq_some_iff] at hs
    obtain ⟨next, hnx, hnextPath⟩ := hs
    exact ⟨after, next, haft, hnx, hnextPath.trans hp⟩

/-- The state after a call in its surroundings. -/
def UpdateEvent.after (env : PkgEnv) (s : PkgState) (event : UpdateEvent) : PkgState :=
  (event.op.call env (s.inWorld event.world)).2

/-- From an apply on, the calls in between change the state file only, and the
transaction keeps its record. -/
lemma awaits_run (hsts : env.states.RoundTrips) {evs : List UpdateEvent}
    (hevs : ∀ event ∈ evs, event.op.Health) (h : Awaits env path s) :
    OnlyState s (run (UpdateEvent.after env) s evs) ∧
      Awaits env path (run (UpdateEvent.after env) s evs) := by
  have hstp : ∀ t (event : UpdateEvent), OnlyState s t ∧ Awaits env path t →
      event.op.Health → OnlyState s (event.after env t) ∧ Awaits env path (event.after env t) := by
    rintro t event ⟨honly, hawa⟩ hop
    have hword : OnlyState t (t.inWorld event.world) := ⟨rfl, fun _ _ => rfl⟩
    refine ⟨?_, hop.awaits hsts (hawa.congr rfl)⟩
    exact honly.trans _ _ _ (hword.trans _ _ _ (call_onlyState hop.bookkeeping _))
  exact run_invariant hstp ⟨.refl s, h⟩ (stepsOk_of_forall hevs s)

/-- The condition on an apply: none of the package's own files replaces its
rollback record by another record. -/
def UpdateOp.PlantsNoRecord (env : PkgEnv) (s : PkgState) (op : UpdateOp) : Prop :=
  ∀ verified ∈ op.package env s, ∀ bytes ∈ verified.planted, env.records.decode bytes = none
  deriving Decidable

/-- Restoring the snapshot of an apply undoes it. -/
lemma Applied.restored {ver : VerifiedPackage} {s t u v : PkgState}
    (h : Applied env ver s t) (hbtw : OnlyState t u)
    (hrest : Restoration (s.snapshot ver.manifest) u v) :
    ∀ n, Outside n → v.find n = s.find n := by
  intro n hn
  obtain ⟨w, hfs, hf⟩ := hrest.restored
  obtain ⟨-, hots, hcaptured⟩ := each_restoreFile_ok hfs
  have hpat : (s.snapshot ver.manifest).files.map RollbackFileRecord.path =
      s.touched ver.manifest := by
    simp [PkgState.snapshot, PkgState.touched, Function.comp_def]
  rw [hpat] at hots hcaptured
  rw [hf n hn]
  by_cases htouc : LeadsTo (s.touched ver.manifest) n
  · refine hcaptured n (s.find n) htouc fun file hfl hcan => ?_
    obtain ⟨path, -, rfl⟩ := List.mem_map.1 hfl
    rw [captureFile_path] at hcan
    exact captureFile_entryAt hcan
  · rw [hots n htouc, hbtw.find n hn.ne_state, h.others n hn htouc]

lemma replacePackage_replacePackage (name : Str) (first second : Option InstalledPackage)
    (hfst : ∀ package ∈ first, package.name = name) (installed : List InstalledPackage) :
    replacePackage name second (replacePackage name first installed) =
      replacePackage name second installed := by
  cases first <;> simp_all [replacePackage]

/-- An apply that succeeds and a rollback that succeeds, with the calls of the
boot and the decision in between, leave the files that are not the package
manager's and the set of installed packages as they were, unless the package
brings a rollback record of its own along. -/
theorem rollback_restores (hstates : env.states.RoundTrips) (hrecords : env.records.RoundTrips)
    {s t u : PkgState} {op : UpdateOp} (hop : op.Applies)
    (hnames : (s.installed.map InstalledPackage.name).Nodup) (hplants : op.PlantsNoRecord env s)
    (happly : op.call env s = (.ok (), t)) {events : List UpdateEvent}
    (hevents : ∀ event ∈ events, event.op.Health) {world : World}
    (hrollback : UpdateOp.rollback.call env
      ((run (UpdateEvent.after env) t events).inWorld world) = (.ok (), u)) :
    (∀ n, Outside n → u.find n = s.find n) ∧ u.installed.Perm s.installed := by
  obtain ⟨ver, hver, happ⟩ := hop.call_ok hstates hrecords happly
  obtain ⟨state, transaction, hst, hcur, -, hp⟩ := happ.current
  obtain ⟨rec, hrec⟩ := happ.canonical
  obtain ⟨hbtw, hawa⟩ := awaits_run hstates hevents
    ⟨state, transaction, hst, hcur, hp⟩
  have hbef : OnlyState t ((run (UpdateEvent.after env) t events).inWorld world) :=
    ⟨hbtw.installed, hbtw.find⟩
  obtain ⟨_, w, hc, hpure⟩ := Fallible.bind_eq_ok.1 hrollback
  obtain rfl : w = u := congrArg Prod.snd hpure
  obtain ⟨state', transaction', rollback, hpl, hres⟩ := rollbackCurrentUpdate_ok hc
  -- the record is the snapshot, since nothing has replaced it
  have hsnap : rollback = s.snapshot ver.manifest := by
    obtain ⟨hld, hcur', hload⟩ := rollbackPlan_eq_ok.1 hpl
    obtain ⟨_, _, hst', hcur'', hp'⟩ := hawa
    obtain rfl := Except.ok.inj (hst'.symm.trans hld)
    obtain rfl := some.inj (hcur''.symm.trans hcur')
    have hne : rec ≠ updateStatePath := by
      rintro rfl
      exact rollbackRecordPath_ne_state _ hrec
    rw [hp', loadRollbackRecord_congr hrec (hbef.find rec hne)] at hload
    rcases happ.found rollback hload with hsnap | ⟨bs, hplace, hdec⟩
    · exact hsnap
    · cases hdec.symm.trans (hplants ver hver bs hplace)
  rw [hsnap] at hres
  refine ⟨happ.restored hbef hres, ?_⟩
  obtain ⟨installed, hnm, hinst⟩ := happ.installed
  rw [hres.installed, hbef.installed, hinst]
  show (replacePackage ver.manifest.name _ (replacePackage ver.manifest.name _ _)).Perm _
  rw [replacePackage_replacePackage _ _ _ (by simpa using hnm)]
  exact filter_append_lookup_perm InstalledPackage.name _ hnames

/-- A system with the bundle and another version of its file. -/
def toolSystem : PkgState := bootedWith (bundleVolume.after [(2, writeOp ['/', 't'] [5])])

def confirmedBoot : List UpdateEvent :=
  [⟨bootWorld 30, .prepareBoot⟩, ⟨bootWorld 40, .noteShellReady⟩, ⟨bootWorld 50, .confirm⟩]

theorem rollback_restores_tool :
    let env := oneBundle toolBundle
    let applied := (apply ['/', 'b']).call env toolSystem
    let confirmed := run (UpdateEvent.after env) applied.2 confirmedBoot
    let undone := rollback.call env (confirmed.inWorld (bootWorld 60))
    applied.1 = .ok () ∧ undone.1 = .ok () ∧
      (∀ n, Outside n → undone.2.find n = toolSystem.find n) ∧
      undone.2.installed.Perm toolSystem.installed := by
  intro env applied confirmed undone
  have happl : applied.1 = .ok () := by decide +kernel
  have hundo : undone.1 = .ok () := by decide +kernel
  have happ : applied = (.ok (), applied.2) := Prod.ext happl rfl
  have hund : undone = (.ok (), undone.2) := Prod.ext hundo rfl
  have hop : (apply ['/', 'b']).Applies := trivial
  exact ⟨happl, hundo, rollback_restores UpdateState.wire.codec_roundTrips
    RollbackRecord.wire.codec_roundTrips hop List.nodup_nil (by decide +kernel) happ
    (by simp [confirmedBoot, UpdateOp.Health]) hund⟩

def emptyRecord : RollbackRecord := ⟨['t'], ['1'], none, [], 0⟩

def plantedText : Str := (RollbackRecord.wire.put emptyRecord).map fun byte => .ofNat byte.toNat

/-- A signed package whose second file goes to its rollback record. -/
def plantingBundle : WarPackBundle :=
  clearBundle ⟨['t'], ['1'], [], [], [], [⟨['/', 't'], ['x'], false, 1⟩,
      ⟨rollbackRecordPath ['t'], ['y'], false, plantedText.length⟩], [], [], []⟩
    [⟨['x'], ['X']⟩, ⟨['y'], plantedText⟩]

/-- The apply and the rollback succeed, and the file of the package stays. -/
theorem rollback_keeps_planted :
    let env := oneBundle plantingBundle
    let applied := (apply ['/', 'b']).call env (bootedWith bundleVolume)
    let undone := rollback.call env applied.2
    verifyBundle env.crypto plantingBundle env.root = .ok () ∧
      applied.1 = .ok () ∧ undone.1 = .ok () ∧ Outside ['/', 't'] ∧
      (bootedWith bundleVolume).find ['/', 't'] = none ∧
      (undone.2.find ['/', 't']).map FileEntry.data = some (Str.toUtf8 ['X']) := by
  decide +kernel

end

/-!
## Whole runs

Which snapshot a rollback restores, over whole runs. Records are kept by the
name of the package and outlive their transaction. A history variable next to
the system holds the snapshot that the apply of the current transaction has
taken, until the transaction is rolled back, replaced or cleared.
-/

open Auth Fallible KeepsFile RollbackFileRecord UpdateState

/-- The bundle of a transaction in this phase is applied and not rolled back. -/
def UpdatePhase.applied : UpdatePhase → Bool
  | .pendingConfirmation | .confirmed | .failed => true
  | .staged | .rolledBack => false

/-- An update call, a file operation of someone else, or a change of the list
of packages. -/
inductive PkgEvent
  | update (event : UpdateEvent)
  | file (now : ℕ) (op : KernelOp)
  | installed (installed : List InstalledPackage)

/-- The system, and the snapshot of the current transaction's own apply. -/
structure Recorded where
  state : PkgState
  own : Option RollbackRecord

variable (env : PkgEnv) (s : PkgState)

/-- The snapshot after a call. -/
def UpdateOp.takes (before : PkgState) (succeeded : Bool) (own : Option RollbackRecord) :
    UpdateOp → Option RollbackRecord
  | op@(.apply _) | op@.applyStaged =>
    if succeeded then
      (op.package env before).map fun verified => before.snapshot verified.manifest
    else own
  | .stage _ | .rollback | .clearCompleted => if succeeded then none else own
  | _ => own

def Recorded.step (m : Recorded) : PkgEvent → Recorded
  | .update event =>
    let before := m.state.inWorld event.world
    let result := event.op.call env before
    ⟨result.2, event.op.takes env before result.1.isOk m.own⟩
  | .file now op => ⟨{ m.state with volume := (m.state.volume.perform now op).2 }, m.own⟩
  | .installed installed => ⟨m.state.withInstalled installed, m.own⟩

/-- The path leads neither to the state file nor to a rollback record. -/
def Apart (path : Str) : Prop :=
  ∀ n ∈ (canonicalPath path).toOption, n ≠ updateStatePath ∧ ¬ rollbackDirPath <+: n
  deriving Decidable

/-- The canonical path of the record of a transaction that is confirmed. -/
def confirmedRecord : Option Str :=
  ((loadState env s).toOption.bind current).bind fun transaction =>
    if transaction.phase = .confirmed then (canonicalPath transaction.rollbackPath).toOption
    else none

/-- The guard on a call. The files of a package that is applied are apart from
the state and the records, and an apply that replaces the record of a confirmed
transaction succeeds; a rollback that finds a record finds a transaction that
is applied. -/
def UpdateOp.Careful : UpdateOp → Prop
  | op@(.apply _) | op@.applyStaged => ∀ verified ∈ op.package env s,
      (∀ path ∈ s.touched verified.manifest, Apart path) ∧
        ∀ record ∈ confirmedRecord env s,
          canonicalPath (rollbackRecordPath verified.manifest.name) = .ok record →
          (op.call env s).1.isOk = true
  | .rollback => ∀ plan ∈ (rollbackPlan env s).toOption, plan.2.1.phase.applied = true
  | _ => True

def Recorded.Careful (m : Recorded) : PkgEvent → Prop
  | .update event => event.op.Careful env (m.state.inWorld event.world)
  | .file _ op => Apart op.1.name
  | .installed _ => True

instance (env : PkgEnv) (s : PkgState) : (op : UpdateOp) → Decidable (op.Careful env s)
  | .apply _ | .applyStaged | .rollback => by dsimp only [UpdateOp.Careful]; infer_instance
  | .stage _ | .confirm | .reject _ | .clearCompleted | .requestRecovery _ | .clearRecovery
  | .prepareBoot | .noteShellReady => .isTrue trivial

instance (env : PkgEnv) (m : Recorded) (event : PkgEvent) : Decidable (m.Careful env event) := by
  cases event <;> (dsimp only [Recorded.Careful]; infer_instance)

section
variable {env : PkgEnv} {s : PkgState} {n : Str}

lemma keepsFile_stage (hst : n ≠ updateStatePath) (hstaged : ¬ stagedDirPath <+: n)
    (path : Str) : Fallible.Keeps (KeepsFile n) (stageBundleFromPath env path) := by
  have hrd : ∀ {α β : Type} f {g : α → Call β},
      (∀ a, Fallible.Keeps (KeepsFile n) (g a)) → Fallible.Keeps (KeepsFile n) (.read f >>= g) :=
    fun f _ hg => (keeps_read (refl n) f).bind (trans n) hg
  refine hrd _ fun _ => hrd _ fun found => hrd _ fun ver => hrd _ fun state => ?_
  have hrepl : Fallible.Keeps (KeepsFile n) (ensureStateReplaceable state) := by
    rw [ensureStateReplaceable]
    split
    · exact refl n
    · exact refl n
  refine hrepl.bind (trans n) fun _ => ?_
  have hwr : Fallible.Keeps (KeepsFile n) (change (writeOp (stagedBundlePath
      ver.manifest.name ver.manifest.version) found.2)) :=
    keepsFile_change _ fun h => hstaged (canonical_stagedBundlePath h)
  refine hwr.bind (trans n) fun _ => hrd _ fun installed => ?_
  exact (keepsFile_saveState hst _).bind (trans n) fun _ => refl n

lemma applyVerifiedPackage_keepsFile (st : UpdateState) {ver : VerifiedPackage}
    (size : ℕ) (src : Str) (ov : Option Str) (hli : n ≠ localInstalledPath)
    (hst : n ≠ updateStatePath)
    (hrec : canonicalPath (rollbackRecordPath ver.manifest.name) ≠ .ok n)
    (htouc : ¬ LeadsTo (s.touched ver.manifest) n) :
    wp (applyVerifiedPackage env st ver size src ov)
      (fun _ t => KeepsFile n s t) (fun _ t => KeepsFile n s t) s := by
  simp only [applyVerifiedPackage, wp_bind]
  refine wp_saveEncoded (fun t _ canonical _ hcan hput => ?_) fun _ t hs => congrFun hs.find n
  have hstd : KeepsFile n s t := by
    have hne : n ≠ canonical := fun h => hrec (h ▸ hcan)
    rw [KeepsFile, hput.find, Function.update_of_ne hne, ticked_find]
  have hke : t.touched ver.manifest = s.touched ver.manifest :=
    PkgState.touched_congr hput.installed _
  have happ := applyVerifiedBundle_keepsFile env size hli (hke.symm ▸ htouc)
  refine wp_of_state happ (fun _ u hu => ?_) fun _ u hu => trans _ _ _ _ hstd hu
  have hinst : KeepsFile n s u := trans _ _ _ _ hstd hu
  exact (keepsFile_saveState hst _).wp (fun _ v hv => trans _ _ _ _ hinst hv)
    fun _ v hv => trans _ _ _ _ hinst hv

/-- An apply that is refused because of the state changes nothing; any other
apply touches its record, its paths, the list and the state. -/
lemma applyVerifiedBundleBytes_keepsFile (src : Str) {bs : List UInt8}
    (ov : Option Str) (hli : n ≠ localInstalledPath) (hst : n ≠ updateStatePath)
    (hpkg : ∀ verified, verifyLocalBundleBytes env bs = .ok verified →
      ¬ LeadsTo (s.touched verified.manifest) n ∧
        ∀ state, loadState env s = .ok state → state.busy = false →
          canonicalPath (rollbackRecordPath verified.manifest.name) ≠ .ok n) :
    wp (applyVerifiedBundleBytes env src bs ov)
      (fun _ t => KeepsFile n s t) (fun _ t => KeepsFile n s t) s := by
  simp only [applyVerifiedBundleBytes, wp_bind]
  refine wp_read (fun state hld => ?_) fun _ _ => refl n s
  refine wp_ensureStateReplaceable (fun hbusy => ?_) (refl n s)
  refine wp_read (fun verified hver => ?_) fun _ _ => refl n s
  obtain ⟨htouc, hrec⟩ := hpkg verified hver
  exact applyVerifiedPackage_keepsFile _ _ _ _ hli hst (hrec state hld hbusy) htouc

lemma UpdateOp.Applies.keepsFile {op : UpdateOp} (hop : op.Applies)
    (hli : n ≠ localInstalledPath) (hst : n ≠ updateStatePath)
    (hpkg : ∀ verified ∈ op.package env s, ¬ LeadsTo (s.touched verified.manifest) n ∧
      ∀ state, loadState env s = .ok state → state.busy = false →
        canonicalPath (rollbackRecordPath verified.manifest.name) ≠ .ok n) :
    KeepsFile n s (op.call env s).2 := by
  have hwp : Fallible.wp (op.call env) (fun _ t => KeepsFile n s t)
      (fun _ t => KeepsFile n s t) s := by
    refine hop.wp (fun _ => .refl n s) fun path bs stagedOverride hsrc => ?_
    refine applyVerifiedBundleBytes_keepsFile _ _ hli hst fun verified hver => ?_
    exact hpkg verified (mem_package hsrc hver)
  exact hwp.state (fun _ _ h => h) fun _ _ h => h

/-- A rollback touches the paths of its snapshot, the list and the state. -/
lemma keepsFile_rollback (hli : n ≠ localInstalledPath) (hst : n ≠ updateStatePath)
    (hsp : UpdateOp.SnapshotSpares env s n) :
    KeepsFile n s (rollback.call env s).2 := by
  have hsta : KeepsFile n s s := refl n s
  rw [call]
  refine wp.state (Q := fun _ t => KeepsFile n s t) (E := fun _ t => KeepsFile n s t)
    ?_ (fun _ _ h => h) fun _ _ h => h
  simp only [rollbackCurrentUpdate, rollbackTo, wp_bind]
  refine wp_requirePkgInstall ?_ hsta
  refine wp_read (fun plan hpl => ?_) fun _ _ => hsta
  have hfs := hsp plan (by rw [hpl]; rfl)
  refine (keepsFile_restoreRollbackFiles hfs).wp (fun _ t ht => ?_) fun _ t ht => ht
  refine (keepsFile_saveInstalledList env hli).wp (fun _ u hu => ?_) fun _ u hu =>
    trans _ _ _ _ ht hu
  have hlist : KeepsFile n s u := trans _ _ _ _ ht hu
  exact (keepsFile_saveState hst _).wp (fun _ v hv => trans _ _ _ _ hlist hv)
    fun _ v hv => trans _ _ _ _ hlist hv

end

/-! ### The invariant -/

section
variable {env : PkgEnv}

/-- The record of the transaction is the snapshot of its own apply. -/
structure Holds (env : PkgEnv) (own : Option RollbackRecord) (s : PkgState)
    (transaction : UpdateTransaction) (rollback : RollbackRecord) (record : Str) : Prop where
  own : own = some rollback
  canonical : canonicalPath transaction.rollbackPath = .ok record
  directory : rollbackDirPath <+: record
  loaded : loadRollbackRecord env transaction.rollbackPath s = .ok rollback
  apart : ∀ file ∈ rollback.files, Apart file.path

/-- The state can be loaded, and the record of a transaction that is applied
is its own. -/
def Recorded.Sound (env : PkgEnv) (m : Recorded) : Prop :=
  ∃ state, loadState env m.state = .ok state ∧
    ∀ transaction, state.current = some transaction → transaction.phase.applied = true →
      ∃ rollback record, Holds env m.own m.state transaction rollback record

variable {record : Str} {paths : List Str} {own : Option RollbackRecord}
  {rollback : RollbackRecord} {state : UpdateState} {transaction : UpdateTransaction}
  {op : UpdateOp} {m : Recorded}

section
variable (h : rollbackDirPath <+: record)
include h

lemma ne_state_of_directory : record ≠ updateStatePath := by
  rintro rfl
  exact absurd h (by decide)

lemma ne_list_of_directory : record ≠ localInstalledPath := by
  rintro rfl
  exact absurd h (by decide)

lemma not_staged_of_directory : ¬ stagedDirPath <+: record := by
  intro hstaged
  rcases List.prefix_or_prefix_of_prefix h hstaged with hpre | hpre
  · exact absurd hpre (by decide)
  · exact absurd hpre (by decide)

end

lemma not_leadsTo_of_apart (hpat : ∀ path ∈ paths, Apart path)
    (h : rollbackDirPath <+: record) : ¬ LeadsTo paths record := by
  rintro ⟨path, hp, hcan⟩
  exact (hpat path hp record (by rw [hcan]; rfl)).2 h

lemma not_leadsTo_state_of_apart (hpat : ∀ path ∈ paths, Apart path) :
    ¬ LeadsTo paths updateStatePath := by
  rintro ⟨path, hp, hcan⟩
  exact (hpat path hp updateStatePath (by rw [hcan]; rfl)).1 rfl

variable {s t : PkgState}

/-- A step that misses the record, after which the transaction has the same
record path. -/
lemma Holds.congr {old transaction : UpdateTransaction} (h : Holds env own s old rollback record)
    (hp : transaction.rollbackPath = old.rollbackPath) (hf : t.find record = s.find record) :
    Holds env own t transaction rollback record where
  own := h.own
  canonical := hp ▸ h.canonical
  directory := h.directory
  loaded := by rw [hp, loadRollbackRecord_congr h.canonical hf, h.loaded]
  apart := h.apart

/-- A boot leaves an applied transaction applied and makes none applied. -/
lemma bootState_applied (hcur : (bootState state).1.current = some transaction)
    (happ : transaction.phase.applied) :
    ∃ old, state.current = some old ∧ old.phase.applied ∧
      transaction.rollbackPath = old.rollbackPath := by
  cases hold : state.current with
  | none =>
    simp only [bootState, hold] at hcur
    cases hcur
  | some old =>
    refine ⟨old, rfl, ?_⟩
    cases hph : old.phase with
    | pendingConfirmation =>
      have hp := bootState_rollbackPath state
      rw [hcur, hold] at hp
      exact ⟨rfl, some.inj hp⟩
    | confirmed | failed | staged | rolledBack =>
      simp only [bootState, hold, hph] at hcur
      cases hcur
      exact ⟨by rw [← hph]; exact happ, rfl⟩

/-- A transaction that is applied after a call of the bookkeeping was so
before. -/
lemma UpdateOp.Bookkeeping.next_applied (hop : op.Bookkeeping) {bef aft : UpdateState}
    (h : op.Next bef aft) (hcur : aft.current = some transaction)
    (happ : transaction.phase.applied) :
    op ≠ .clearCompleted ∧ ∃ old, bef.current = some old ∧ old.phase.applied ∧
      transaction.rollbackPath = old.rollbackPath := by
  cases op with
  | stage | apply | applyStaged | rollback => exact hop.elim
  | clearCompleted => cases hcur.symm.trans h
  | confirm =>
    obtain ⟨old, next, hold, hph, -, haft, -, -, -, hs⟩ := h
    obtain rfl := some.inj (haft.symm.trans hcur)
    exact ⟨by simp, old, hold, by rw [hph]; rfl, hs⟩
  | reject =>
    obtain ⟨old, next, hold, hph, haft, -, -, -, hs, -⟩ := h
    obtain rfl := some.inj (haft.symm.trans hcur)
    exact ⟨by simp, old, hold, by rw [hph]; rfl, hs⟩
  | noteShellReady =>
    obtain ⟨old, next, hold, hph, -, haft, -, -, -, hs, -⟩ := h
    obtain rfl := some.inj (haft.symm.trans hcur)
    exact ⟨by simp, old, hold, by rw [hph]; rfl, hs⟩
  | requestRecovery => exact ⟨by simp, transaction, h.1.symm.trans hcur, happ, rfl⟩
  | clearRecovery => exact ⟨by simp, transaction, h.2.symm.trans hcur, happ, rfl⟩
  | prepareBoot =>
    obtain rfl : aft = (bootState bef).1 := h
    exact ⟨by simp, bootState_applied hcur happ⟩

/-- The calls that neither stage, apply nor roll back. -/
lemma sound_bookkeeping (hsts : env.states.RoundTrips) (hop : op.Bookkeeping)
    (h : Recorded.Sound env ⟨s, own⟩) :
    Recorded.Sound env ⟨(op.call env s).2, op.takes env s (op.call env s).1.isOk own⟩ := by
  obtain ⟨state, hst, hhs⟩ := h
  have hsp : op.SparesFile env s := by cases op <;> first | exact hop.elim | exact trivial
  have honly : OnlyState s (op.call env s).2 := call_onlyState hop s
  have hke : ∀ (old transaction) rollback record,
      Holds env own s old rollback record → transaction.rollbackPath = old.rollbackPath →
      Holds env own (op.call env s).2 transaction rollback record := fun _ _ _ _ hold hp =>
    hold.congr hp (honly.find _ (ne_state_of_directory hold.directory))
  have htaken : ((op.call env s).1.isOk → op ≠ .clearCompleted) →
      op.takes env s (op.call env s).1.isOk own = own := by
    intro hne
    cases op with
    | stage | apply | applyStaged | rollback => exact hop.elim
    | clearCompleted => rw [takes, if_neg fun hok => hne hok rfl]
    | _ => rfl
  obtain ⟨after, haft, ⟨rfl, hok⟩ | ⟨hok, hnx⟩⟩ := op.call_loaded hsts hst hsp
  · rw [htaken fun hsucc hop => by rcases hok hsucc with rfl | rfl <;> cases hop]
    refine ⟨after, haft, fun transaction hcur happ => ?_⟩
    obtain ⟨rollback, record, hold⟩ := hhs transaction hcur happ
    exact ⟨rollback, record, hke _ _ _ _ hold rfl⟩
  · refine ⟨after, haft, fun transaction hcur happ => ?_⟩
    obtain ⟨hne, old, hbef, hwas, hp⟩ := hop.next_applied hnx hcur happ
    obtain ⟨rollback, record, hold⟩ := hhs old hbef hwas
    rw [htaken fun _ => hne]
    exact ⟨rollback, record, hke _ _ _ _ hold hp⟩

lemma sound_stage (hsts : env.states.RoundTrips) (path : Str) (h : Recorded.Sound env ⟨s, own⟩) :
    Recorded.Sound env ⟨((stage path).call env s).2,
      (stage path).takes env s ((stage path).call env s).1.isOk own⟩ := by
  obtain ⟨state, hst, hhs⟩ := h
  obtain ⟨after, haft, ⟨rfl, hok⟩ | ⟨-, hnx⟩⟩ := (stage path).call_loaded hsts hst trivial
  · rw [takes, if_neg fun hsucc => by rcases hok hsucc with hop | hop <;> cases hop]
    refine ⟨after, haft, fun transaction hcur happ => ?_⟩
    obtain ⟨rollback, record, hold⟩ := hhs transaction hcur happ
    refine ⟨rollback, record, hold.congr rfl ?_⟩
    have hkp : KeepsFile record s (stageBundleFromPath env path s).2 :=
      keepsFile_stage (ne_state_of_directory hold.directory)
        (not_staged_of_directory hold.directory) path s
    rwa [call, snd_bind_pure]
  · refine ⟨after, haft, fun transaction hcur happ => ?_⟩
    obtain ⟨-, staged, rfl, hph, -⟩ := hnx
    cases hcur
    rw [hph] at happ
    cases happ

lemma UpdateOp.Applies.careful (hop : op.Applies) (hcare : op.Careful env s)
    {ver : VerifiedPackage} (hver : ver ∈ op.package env s) :
    (∀ path ∈ s.touched ver.manifest, Apart path) ∧ ∀ record ∈ confirmedRecord env s,
        canonicalPath (rollbackRecordPath ver.manifest.name) = .ok record →
        (op.call env s).1.isOk := by
  cases op with
  | apply | applyStaged => exact hcare ver hver
  | _ => exact hop.elim

section
variable (hsts : env.states.RoundTrips)
include hsts

/-- An apply that succeeds has stored its own snapshot. -/
lemma sound_applied (hrecs : env.records.RoundTrips) (hop : op.Applies) (hcare : op.Careful env s)
    (hc : op.call env s = (.ok (), t)) (own : Option RollbackRecord) :
    Recorded.Sound env ⟨t, op.takes env s true own⟩ := by
  obtain ⟨ver, hver, happ⟩ := hop.call_ok hsts hrecs hc
  obtain ⟨hap, -⟩ := hop.careful hcare hver
  obtain ⟨state, transaction, hst, hcur, -, hp⟩ := happ.current
  obtain ⟨record, hrec⟩ := happ.canonical
  have hdir := canonical_rollbackRecordPath hrec
  have htaken : op.takes env s true own = some (s.snapshot ver.manifest) := by
    cases op with
    | apply | applyStaged => rw [takes, if_pos rfl, hver, map_some]
    | _ => exact hop.elim
  refine ⟨state, hst, fun transaction' hcur' _ => ?_⟩
  obtain rfl := some.inj (hcur.symm.trans hcur')
  refine ⟨s.snapshot ver.manifest, record, htaken, hp ▸ hrec, hdir, ?_, ?_⟩
  · rw [hp]
    exact happ.stored record hrec (not_leadsTo_of_apart hap hdir)
  · intro file hfl
    obtain ⟨path, hmem, rfl⟩ := List.mem_map.1 hfl
    rw [captureFile_path]
    exact hap path hmem

/-- An apply that fails has left the record of an applied transaction alone. -/
lemma sound_refused (hop : op.Applies)
    (hcare : op.Careful env s) {err : PkgError} (hc : op.call env s = (.error err, t))
    (h : Recorded.Sound env ⟨s, own⟩) : Recorded.Sound env ⟨t, own⟩ := by
  obtain ⟨state, hst, hhs⟩ := h
  have hsp : op.SparesFile env s := by
    cases op with
    | apply | applyStaged => exact fun ver hver => not_leadsTo_state_of_apart (hcare ver hver).1
    | _ => exact hop.elim
  have hld := op.call_loaded hsts hst hsp
  rw [hc] at hld
  obtain ⟨after, haft, ⟨rfl, -⟩ | ⟨hok, -⟩⟩ := hld
  · refine ⟨after, haft, fun transaction hcur happ => ?_⟩
    obtain ⟨rollback, record, hold⟩ := hhs transaction hcur happ
    have hkp : KeepsFile record s (op.call env s).2 := by
      refine hop.keepsFile (ne_list_of_directory hold.directory)
        (ne_state_of_directory hold.directory) fun ver hver => ?_
      obtain ⟨hap, hsuc⟩ := hop.careful hcare hver
      refine ⟨not_leadsTo_of_apart hap hold.directory, fun state hld hbusy hrec => ?_⟩
      -- a transaction that is applied and does not block the apply is confirmed
      obtain rfl := Except.ok.inj (hst.symm.trans hld)
      have hconf : transaction.phase = .confirmed := by
        rw [busy] at hbusy
        cases hph : transaction.phase <;> simp_all [UpdatePhase.applied]
      have hmem : record ∈ confirmedRecord env s := by
        have hst' : loadState env s = .ok after := hst
        simp [confirmedRecord, hst', Except.toOption, hcur, hconf, hold.canonical]
      have hok := hsuc record hmem hrec
      rw [hc] at hok
      exact absurd hok Bool.false_ne_true
    rw [hc] at hkp
    exact ⟨rollback, record, hold.congr rfl hkp⟩
  · exact absurd hok Bool.false_ne_true

lemma sound_apply (hrecs : env.records.RoundTrips)
    (hop : op.Applies) (hcare : op.Careful env s) (h : Recorded.Sound env ⟨s, own⟩) :
    Recorded.Sound env ⟨(op.call env s).2, op.takes env s (op.call env s).1.isOk own⟩ := by
  rcases hc : op.call env s with ⟨error | _, t⟩
  · have htaken : op.takes env s false own = own := by
      cases op <;> first | exact hop.elim | rfl
    show Recorded.Sound env ⟨t, op.takes env s false own⟩
    rw [htaken]
    exact sound_refused hsts hop hcare hc h
  · exact sound_applied hsts hrecs hop hcare hc own

end

/-- In a sound system a rollback that finds a record finds the snapshot of the
transaction's own apply. -/
lemma Recorded.Sound.plan (h : Recorded.Sound env ⟨s, own⟩)
    (hcare : UpdateOp.rollback.Careful env s)
    (hpl : rollbackPlan env s = .ok (state, transaction, rollback)) :
    transaction.phase.applied ∧ ∃ record, Holds env own s transaction rollback record := by
  obtain ⟨loaded, hld, hhs⟩ := h
  obtain ⟨hst, hcur, hload⟩ := rollbackPlan_eq_ok.1 hpl
  obtain rfl := Except.ok.inj (hld.symm.trans hst)
  have happ := hcare (loaded, transaction, rollback) (by rw [hpl]; rfl)
  obtain ⟨found, record, hold⟩ := hhs transaction hcur happ
  obtain rfl := Except.ok.inj (hold.loaded.symm.trans hload)
  exact ⟨happ, record, hold⟩

lemma sound_rollback (hsts : env.states.RoundTrips)
    (hcare : UpdateOp.rollback.Careful env s) (h : Recorded.Sound env ⟨s, own⟩) :
    Recorded.Sound env ⟨(UpdateOp.rollback.call env s).2,
      UpdateOp.rollback.takes env s (UpdateOp.rollback.call env s).1.isOk own⟩ := by
  have hfs : ∀ plan ∈ (rollbackPlan env s).toOption, ∀ file ∈ plan.2.2.files, Apart file.path := by
    rintro ⟨state, transaction, rollback⟩ hpl
    cases hfd : rollbackPlan env s with
    | error =>
      rw [hfd] at hpl
      cases hpl
    | ok =>
      rw [hfd] at hpl
      cases hpl
      obtain ⟨-, record, hold⟩ := h.plan hcare hfd
      exact hold.apart
  have hpat : ∀ plan ∈ (rollbackPlan env s).toOption,
      ∀ path ∈ plan.2.2.files.map RollbackFileRecord.path, Apart path := by
    intro plan hpl path hp
    obtain ⟨file, hfl, rfl⟩ := List.mem_map.1 hp
    exact hfs plan hpl file hfl
  obtain ⟨state, hst, hhs⟩ := h
  have hsp : rollback.SparesFile env s := fun plan hpl => not_leadsTo_state_of_apart (hpat plan hpl)
  obtain ⟨after, haft, ⟨rfl, hok⟩ | ⟨-, hnx⟩⟩ := rollback.call_loaded hsts hst hsp
  · rw [takes, if_neg fun hsucc => by rcases hok hsucc with hop | hop <;> cases hop]
    refine ⟨after, haft, fun transaction hcur happ => ?_⟩
    obtain ⟨rollback, record, hold⟩ := hhs transaction hcur happ
    refine ⟨rollback, record, hold.congr rfl ?_⟩
    exact keepsFile_rollback (ne_list_of_directory hold.directory)
      (ne_state_of_directory hold.directory) fun plan hpl =>
        not_leadsTo_of_apart (hpat plan hpl) hold.directory
  · refine ⟨after, haft, fun transaction hcur happ => ?_⟩
    obtain ⟨rolledBack, hcur', hph, -⟩ := hnx
    obtain rfl := some.inj (hcur'.symm.trans hcur)
    rw [hph] at happ
    cases happ

lemma Recorded.Sound.congr (h : m.Sound env)
    (hf : ∀ n, n = updateStatePath ∨ rollbackDirPath <+: n → t.find n = m.state.find n) :
    Recorded.Sound env ⟨t, m.own⟩ := by
  obtain ⟨state, hst, hhs⟩ := h
  refine ⟨state, (loadState_congr (hf _ (.inl rfl))).trans hst, fun transaction hcur happ => ?_⟩
  obtain ⟨rollback, record, hold⟩ := hhs transaction hcur happ
  exact ⟨rollback, record, hold.congr rfl (hf _ (.inr hold.directory))⟩

lemma Recorded.Sound.step (hsts : env.states.RoundTrips) (hrecs : env.records.RoundTrips)
    {ev : PkgEvent} (h : m.Sound env) (hcare : m.Careful env ev) :
    (m.step env ev).Sound env := by
  cases ev with
  | file =>
    refine h.congr fun n hn => Volume.find_perform_of_ne fun hcan => ?_
    obtain ⟨hst, hrec⟩ := hcare n (by rw [hcan]; rfl)
    exact hn.elim hst hrec
  | installed => exact h.congr fun _ _ => rfl
  | update ev =>
    obtain ⟨world, op⟩ := ev
    have hword : Recorded.Sound env ⟨m.state.inWorld world, m.own⟩ := h.congr fun _ _ => rfl
    cases op with
    | stage path => exact sound_stage hsts path hword
    | apply | applyStaged => exact sound_apply hsts hrecs (by trivial) hcare hword
    | rollback => exact sound_rollback hsts hcare hword
    | _ => exact sound_bookkeeping hsts (by trivial) hword

/-- In every run from no update state whose steps are careful: a careful
rollback changes a file outside of the package manager's directory only if the
current transaction is applied and not rolled back, and then the file is one of
the snapshot that the transaction's own apply has taken. -/
theorem rollback_own_snapshot (hstates : env.states.RoundTrips)
    (hrecords : env.records.RoundTrips) {s : PkgState} (hstart : s.find updateStatePath = none)
    {events : List PkgEvent}
    (hok : StepsOk (Recorded.step env) (Recorded.Careful env) ⟨s, none⟩ events) :
    let m := run (Recorded.step env) ⟨s, none⟩ events
    ∀ world, m.Careful env (.update ⟨world, .rollback⟩) → ∀ n,
      (m.step env (.update ⟨world, .rollback⟩)).state.find n ≠ m.state.find n → Outside n →
      ∃ state transaction rollback,
        rollbackPlan env (m.state.inWorld world) = .ok (state, transaction, rollback) ∧
        transaction.phase.applied = true ∧ m.own = some rollback ∧
        LeadsTo (rollback.files.map path) n := by
  intro m world hcare n hchg hn
  have hinit : Recorded.Sound env ⟨s, none⟩ := by
    refine ⟨default, loadState_of_absent hstart, fun transaction hcur => ?_⟩
    cases hcur
  have hsnd : m.Sound env :=
    run_invariant (fun m ev h hcare => h.step hstates hrecords hcare) hinit hok
  have hword : Recorded.Sound env ⟨m.state.inWorld world, m.own⟩ := hsnd.congr fun _ _ => rfl
  have hsp : ¬ UpdateOp.SnapshotSpares env (m.state.inWorld world) n := fun hsp =>
    hchg (keepsFile_rollback hn.ne_list hn.ne_state hsp)
  simp only [UpdateOp.SnapshotSpares, not_forall, not_not] at hsp
  obtain ⟨⟨state, transaction, rollback⟩, hpl, hleast⟩ := hsp
  replace hpl :
      rollbackPlan env (m.state.inWorld world) = .ok (state, transaction, rollback) := by
    cases hfd : rollbackPlan env (m.state.inWorld world) with
    | error =>
      rw [hfd] at hpl
      cases hpl
    | ok =>
      rw [hfd] at hpl
      rw [some.inj hpl]
  obtain ⟨happ, record, hold⟩ := hword.plan hcare hpl
  exact ⟨state, transaction, rollback, hpl, happ, hold.own, hleast⟩

end

/-- An update that is applied, booted and confirmed, and a file that someone
writes. -/
def confirmedUpdate : List PkgEvent :=
  [.update ⟨bootWorld 20, .apply ['/', 'b']⟩, .update ⟨bootWorld 30, .prepareBoot⟩,
    .update ⟨bootWorld 40, .noteShellReady⟩, .file 45 (writeOp ['/', 'u'] [7]),
    .update ⟨bootWorld 50, .confirm⟩]

theorem rollback_own_snapshot_confirmed :
    let env := oneBundle toolBundle
    let m := run (Recorded.step env) ⟨bootedWith bundleVolume, none⟩ confirmedUpdate
    (m.step env (.update ⟨bootWorld 60, .rollback⟩)).state.find ['/', 't'] ≠
        m.state.find ['/', 't'] ∧
      ∃ state transaction rollback,
        rollbackPlan env (m.state.inWorld (bootWorld 60)) = .ok (state, transaction, rollback) ∧
        transaction.phase.applied = true ∧ m.own = some rollback ∧
        LeadsTo (rollback.files.map path) ['/', 't'] := by
  intro env m
  have hchg : (m.step env (.update ⟨bootWorld 60, .rollback⟩)).state.find ['/', 't'] ≠
      m.state.find ['/', 't'] := by
    decide +kernel
  refine ⟨hchg, ?_⟩
  exact rollback_own_snapshot UpdateState.wire.codec_roundTrips RollbackRecord.wire.codec_roundTrips
    (by decide) (by decide +kernel) (bootWorld 60) (by decide +kernel) ['/', 't'] hchg
    (by decide)

/-- An update that is applied and rolled back, and a file that someone writes
where the package had one. -/
def undoneUpdate : List PkgEvent :=
  [.update ⟨bootWorld 20, .apply ['/', 'b']⟩, .update ⟨bootWorld 30, .rollback⟩,
    .file 40 (writeOp ['/', 't'] [7])]

/-- A second rollback removes the file, though the transaction is already
rolled back. -/
theorem rollback_again_deletes :
    let env := oneBundle toolBundle
    let m := run (Recorded.step env) ⟨bootedWith bundleVolume, none⟩ undoneUpdate
    let undone := UpdateOp.rollback.call env (m.state.inWorld (bootWorld 50))
    (loadState env m.state).toOption.bind phase = some .rolledBack ∧ m.own = none ∧
      Outside ['/', 't'] ∧ (m.state.find ['/', 't']).map FileEntry.data = some [7] ∧
      undone.1 = .ok () ∧ undone.2.find ['/', 't'] = none := by
  decide +kernel

end Waros.Kernel.Pkg
