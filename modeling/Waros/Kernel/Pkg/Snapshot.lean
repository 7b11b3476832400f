import Waros.Kernel.Pkg.StateFile

/-!
Snapshots. An apply that succeeds has recorded what was under every path that
it touches; restoring the record puts it back. The calls between an apply and
a rollback change the state file and nothing else.
-/

namespace Waros.Kernel.Pkg

open Lib Waros.Pkg Auth Fs Fallible Volume List Function FilePermissions RollbackFileRecord Except

/-- The files that do not belong to the package manager. -/
def Outside (n : Str) : Prop := ¬ "/var/pkg/".toList <+: n
  deriving Decidable

variable {n : Str} {s t : PkgState}

lemma Outside.ne_list (h : Outside n) : n ≠ localInstalledPath := by
  rintro rfl
  exact h (by decide)

lemma Outside.ne_state (h : Outside n) : n ≠ updateStatePath := by
  rintro rfl
  exact h (by decide)

lemma Outside.ne_record {name : Str} (h : Outside n) :
    canonicalPath (rollbackRecordPath name) ≠ .ok n := fun hcan =>
  h (trans (by decide) (canonical_rollbackRecordPath hcan))

/-- What a record says is under the canonical path of its file. -/
def RollbackFileRecord.entryAt (file : RollbackFileRecord) (canonical : Str) : Option FileEntry :=
  if file.existed then
    let permissions := ((defaultFor file.ownerUid).applyModeString file.permissionsMode).2
    some ⟨canonical, file.data, file.createdAt, file.modifiedAt, file.readonly, file.ownerUid,
      { permissions with ownerUid := file.ownerUid }⟩
  else none

lemma restoreFile_ok {file : RollbackFileRecord} (h : restoreFile file s = (.ok (), t)) :
    ∃ canonical, canonicalPath file.path = .ok canonical ∧
      Puts canonical (file.entryAt canonical) s t := by
  rw [restoreFile] at h
  cases hexis : file.existed with
  | false =>
    rw [hexis] at h
    obtain ⟨canonical, hcan, hput⟩ := discard_ok h
    refine ⟨canonical, hcan, ?_⟩
    rwa [entryAt, hexis]
  | true =>
    rw [hexis] at h
    rcases hmo : (defaultFor file.ownerUid).applyModeString
      file.permissionsMode with ⟨_ | _, permissions⟩
    · rw [hmo] at h
      cases h
    · rw [hmo] at h
      obtain ⟨canonical, hcan, hput⟩ := change_ok (modeKnown_loadOp _ _) h
      refine ⟨canonical, hcan, hput.toFrame, hput.find.trans ?_⟩
      simp only [entryAt, hexis, hmo]
      cases hold : s.find canonical with
      | none => rfl
      | some old =>
        have hnm : old.name = canonical := find_name hold
        rw [← hnm]
        rfl

/-- After a loop that succeeds, a path holds what its records say, if they
agree, and the other paths are as before. -/
lemma each_restoreFile_ok {fs : List RollbackFileRecord}
    (h : each (fs.map restoreFile) s = (.ok (), t)) :
    Frame s t ∧ (∀ n, ¬ LeadsTo (fs.map path) n → t.find n = s.find n) ∧
      ∀ n value, LeadsTo (fs.map path) n →
        (∀ file ∈ fs, canonicalPath file.path = .ok n → file.entryAt n = value) →
        t.find n = value := by
  induction fs generalizing s with
  | nil =>
    cases h
    exact ⟨.refl _, fun _ _ => rfl, fun _ _ hn => by simp [LeadsTo] at hn⟩
  | cons file fs ih =>
    rw [map_cons, each_cons_eq_ok] at h
    obtain ⟨u, hu, ht⟩ := h
    obtain ⟨canonical, hcan, hput⟩ := restoreFile_ok hu
    obtain ⟨hfr, ho, hres⟩ := ih ht
    refine ⟨hput.toFrame.trans hfr, ?_, ?_⟩
    · intro n hn
      rw [map_cons, leadsTo_cons, not_or, hcan] at hn
      have hne : n ≠ canonical := fun heq => hn.1 (by rw [heq])
      rw [ho n hn.2, hput.find, update_of_ne hne]
    · intro n value hn hval
      obtain ⟨hhead, htail⟩ := forall_mem_cons.1 hval
      by_cases hlat : LeadsTo (fs.map path) n
      · exact hres n value hlat htail
      · rw [map_cons, leadsTo_cons, or_iff_left hlat] at hn
        obtain rfl := ok.inj (hcan.symm.trans hn)
        rw [ho canonical hlat, hput.find, update_self]
        exact hhead hn

/-- A file that is captured is recorded as it is. -/
lemma captureFile_entryAt {path : Str} (h : canonicalPath path = .ok n) :
    (captureFile s path).entryAt n = s.find n := by
  have hsa := s.volume.stat_eq path
  rw [h] at hsa
  cases hf : s.volume.find n with
  | none =>
    simp only [hf] at hsa
    rw [captureFile, hsa]
    exact hf.symm
  | some e =>
    rw [captureFile, hsa]
    have hnm : e.name = n := find_name hf
    have hown : e.ownerUid = e.permissions.ownerUid := find_owner hf
    have hmo := applyModeString_modeString e.permissions
    simp only [entryAt, hmo, PkgState.find, hf]
    obtain ⟨name, data, createdAt, modifiedAt, readonly, ownerUid, perms⟩ := e
    obtain rfl : name = n := hnm
    obtain rfl : ownerUid = perms.ownerUid := hown
    rfl

@[simp] lemma captureFile_path (s : PkgState) (path : Str) : (captureFile s path).path = path := by
  rw [captureFile]
  split <;> rfl

section
variable {env : PkgEnv}

/-- What a rollback that succeeds has done. -/
structure Restoration (rollback : RollbackRecord) (s t : PkgState) : Prop where
  restored : ∃ u, restoreRollbackFiles rollback s = (.ok (), u) ∧
    ∀ n, Outside n → t.find n = u.find n
  installed : t.installed =
    replacePackage rollback.packageName rollback.previousInstalled s.installed

variable {rollback : RollbackRecord} {state : UpdateState} {s t : PkgState}
  {transaction : UpdateTransaction} {verified : VerifiedPackage} {record : Str}
  {path canonical : Str} {size : ℕ} {cleared written : PkgState} {bytes : List UInt8}
  {sourcePath : Str} {stagedOverride : Option Str} {op : UpdateOp}

lemma rollbackTo_ok {transaction snapshot : UpdateTransaction}
    (h : rollbackTo env rollback state transaction s = (.ok snapshot, t)) :
    Restoration rollback s t := by
  obtain ⟨_, u, hr, h⟩ := bind_eq_ok.1 h
  rw [setInstalled_bind] at h
  obtain ⟨_, v, hli, h⟩ := bind_eq_ok.1 h
  rw [tickCount_bind] at h
  obtain ⟨_, w, hsv, hpure⟩ := bind_eq_ok.1 h
  obtain rfl : w = t := congrArg Prod.snd hpure
  obtain ⟨_, -, hli⟩ := saveInstalledList_ok hli
  obtain ⟨_, canonical, -, hcan, hsv⟩ := saveEncoded_ok hsv
  obtain rfl := ok.inj (canonicalPath_updateStatePath.symm.trans hcan)
  constructor
  · refine ⟨u, hr, fun n hn => ?_⟩
    rw [hsv.find, update_of_ne hn.ne_state, ticked_find, hli.find,
      update_of_ne hn.ne_list, withInstalled_find]
  · rw [hsv.installed, ticked_installed, hli.installed, withInstalled_installed,
      (each_restoreFile_ok hr).1.installed]

lemma rollbackCurrentUpdate_ok {snapshot : UpdateTransaction}
    (h : rollbackCurrentUpdate env s = (.ok snapshot, t)) :
    ∃ state transaction rollback, rollbackPlan env s = .ok (state, transaction, rollback) ∧
      Restoration rollback s t := by
  obtain ⟨_, u, hrequ, h⟩ := bind_eq_ok.1 h
  obtain rfl : s = u := congrArg Prod.snd hrequ
  obtain ⟨⟨state, transaction, rollback⟩, hpl, h⟩ := read_bind_eq_ok.1 h
  exact ⟨state, transaction, rollback, hpl, rollbackTo_ok h⟩

lemma rollbackPlan_eq_ok {s : PkgState} :
    rollbackPlan env s = .ok (state, transaction, rollback) ↔
      loadState env s = .ok state ∧ state.current = some transaction ∧
        loadRollbackRecord env transaction.rollbackPath s = .ok rollback := by
  rw [rollbackPlan]
  constructor
  · intro h
    split at h
    · cases h
    split at h
    · cases h
    split at h
    · cases h
    · cases h
      exact ⟨‹_›, ‹_›, ‹_›⟩
  · rintro ⟨hsta, hcur, hrec⟩
    simp only [hsta, hcur, hrec]

/-! ### Applying -/

/-- The record that `capture_rollback_record` makes. -/
def PkgState.snapshot (s : PkgState) (manifest : Manifest) : RollbackRecord :=
  let previous := s.installedPackage manifest.name
  ⟨manifest.name, manifest.version, previous,
    (capturedPaths manifest previous).map (captureFile s), s.world.ticks 0⟩

/-- The paths that an apply of the manifest touches. -/
def PkgState.touched (s : PkgState) (manifest : Manifest) : List Str :=
  capturedPaths manifest (s.installedPackage manifest.name)

lemma PkgState.touched_congr (h : t.installed = s.installed) (manifest : Manifest) :
    t.touched manifest = s.touched manifest :=
  congrArg (fun installed => capturedPaths manifest
    (lookup InstalledPackage.name manifest.name installed)) h

/-- What the package's own files put where its rollback record is. -/
def VerifiedPackage.planted (verified : VerifiedPackage) : List (List UInt8) :=
  let record := canonicalPath (rollbackRecordPath verified.manifest.name)
  (verified.manifest.files.filter fun file => canonicalPath file.path = record).filterMap
    fun file => (lookup WarPackPayload.source file.source verified.bundle.payloads).map
      fun payload => Str.toUtf8 payload.contents

lemma VerifiedPackage.mem_planted {file : ManifestFile} {pay : WarPackPayload}
    (hfl : file ∈ verified.manifest.files)
    (hrec : canonicalPath (rollbackRecordPath verified.manifest.name) = .ok record)
    (hsd : Sends verified.bundle.payloads file record pay) :
    Str.toUtf8 pay.contents ∈ verified.planted := by
  rw [planted, mem_filterMap]
  refine ⟨file, mem_filter.2 ⟨hfl, ?_⟩, by rw [hsd.2]; rfl⟩
  rw [hrec, hsd.1]
  exact decide_eq_true rfl

structure Applied (env : PkgEnv) (verified : VerifiedPackage) (s t : PkgState) : Prop where
  canonical : ∃ record, canonicalPath (rollbackRecordPath verified.manifest.name) = .ok record
  current : ∃ state transaction, loadState env t = .ok state ∧ state.current = some transaction ∧
    transaction.phase = .pendingConfirmation ∧
    transaction.rollbackPath = rollbackRecordPath verified.manifest.name
  valid : ∀ path ∈ s.touched verified.manifest, ∃ n, canonicalPath path = .ok n
  others : ∀ n, Outside n → ¬ LeadsTo (s.touched verified.manifest) n → t.find n = s.find n
  installed : ∃ record, record.name = verified.manifest.name ∧
    t.installed = replacePackage verified.manifest.name (some record) s.installed
  stored : ∀ canonical,
    canonicalPath (rollbackRecordPath verified.manifest.name) = .ok canonical →
    ¬ LeadsTo (s.touched verified.manifest) canonical →
    loadRollbackRecord env (rollbackRecordPath verified.manifest.name) t =
      .ok (s.snapshot verified.manifest)
  found : ∀ rollback,
    loadRollbackRecord env (rollbackRecordPath verified.manifest.name) t = .ok rollback →
    rollback = s.snapshot verified.manifest ∨
      ∃ bytes ∈ verified.planted, env.records.decode bytes = some rollback

section
variable (hcan : canonicalPath path = .ok canonical)
include hcan

lemma loadRollbackRecord_eq_ok {s : PkgState} :
    loadRollbackRecord env path s = .ok rollback ↔
      ∃ entry, s.find canonical = some entry ∧ env.records.decode entry.data = some rollback := by
  rw [loadRollbackRecord, s.volume.read_eq, hcan]
  simp only [PkgState.find]
  cases s.volume.find canonical with
  | none => simp
  | some entry =>
    simp only [Option.some.injEq, exists_eq_left']
    cases env.records.decode entry.data <;> simp

lemma loadRollbackRecord_congr (h : t.find canonical = s.find canonical) :
    loadRollbackRecord env path t = loadRollbackRecord env path s := by
  rw [loadRollbackRecord, loadRollbackRecord, read_congr hcan h]

end

section
variable (h : Installation env verified size s t cleared written bytes)
include h

/-- A path after an installation: as before, gone, or with the contents of one
of the package's files. -/
lemma Installation.find_cases {n : Str} (hn : n ≠ localInstalledPath) :
    t.find n = s.find n ∨ t.find n = none ∨ ∃ file ∈ verified.manifest.files, ∃ payload entry,
        Sends verified.bundle.payloads file n payload ∧ t.find n = some entry ∧
          entry.data = Str.toUtf8 payload.contents := by
  obtain ⟨now, hsav⟩ := h.saved
  have hwn : t.find n = written.find n := by rw [hsav, update_of_ne hn]
  rw [hwn]
  by_cases hfl : LeadsTo (verified.manifest.files.map ManifestFile.path) n
  · exact .inr (.inr (written_of_leadsTo h.writes hfl))
  · rw [(each_writeFile_ok h.writes).2.1 n hfl, (each_discard_ok h.discards).2 n]
    split_ifs
    · exact .inr (.inl rfl)
    · exact .inl rfl

/-- The paths of an installation that succeeds are valid. -/
lemma Installation.valid :
    ∀ path ∈ s.touched verified.manifest, ∃ n, canonicalPath path = .ok n := by
  have hfs : ∀ file ∈ verified.manifest.files, ∃ n, canonicalPath file.path = .ok n := by
    intro file hfl
    obtain ⟨n, _, hn, -⟩ := (each_writeFile_ok h.writes).2.2.1 file hfl
    exact ⟨n, hn⟩
  intro path hp
  rcases mem_capturedPaths.1 hp with hp | ⟨previous, hprev, hp⟩
  · obtain ⟨file, hfl, rfl⟩ := mem_map.1 hp
    exact hfs file hfl
  · by_cases hke : ∃ file ∈ verified.manifest.files, file.path = path
    · obtain ⟨file, hfl, rfl⟩ := hke
      exact hfs file hfl
    · apply canonical_of_each_discard h.discards path
      rw [hprev]
      simp only [staleFiles, mem_filter, all_eq_true, decide_eq_true_eq]
      exact ⟨hp, fun file hfl heq => hke ⟨file, hfl, heq⟩⟩

end

/-- The stages of an apply that succeeds: `u` has the record, `v` the package
and `t` the new state. -/
structure Stages (env : PkgEnv) (verified : VerifiedPackage) (s u v t : PkgState)
    (record : Str) : Prop where
  canonical : canonicalPath (rollbackRecordPath verified.manifest.name) = .ok record
  stored : loadRollbackRecord env (rollbackRecordPath verified.manifest.name) u =
    .ok (s.snapshot verified.manifest)
  unchanged : ∀ n, n ≠ record → u.find n = s.find n
  listed : u.installed = s.installed
  installation : ∃ size cleared written bytes,
    Installation env verified size u v cleared written bytes
  kept : ∀ n, n ≠ localInstalledPath → ¬ LeadsTo (s.touched verified.manifest) n →
    v.find n = u.find n
  saved : ∀ n, n ≠ updateStatePath → t.find n = v.find n
  installed : t.installed = v.installed
  current : ∃ state transaction, loadState env t = .ok state ∧ state.current = some transaction ∧
    transaction.phase = .pendingConfirmation ∧
    transaction.rollbackPath = rollbackRecordPath verified.manifest.name

lemma applyVerifiedPackage_stages (hsts : env.states.RoundTrips) (hrecs : env.records.RoundTrips)
    (h : applyVerifiedPackage env state verified size sourcePath stagedOverride s =
      (.ok transaction, t)) : ∃ u v record, Stages env verified s u v t record := by
  rw [applyVerifiedPackage, read_bind_eq_ok] at h
  obtain ⟨previous, hprev, h⟩ := h
  cases hprev
  have hcaptured : captureRollbackRecord verified.manifest
      (s.installedPackage verified.manifest.name) s =
        (.ok (s.snapshot verified.manifest), s.ticked) :=
    rfl
  rw [bind_of_ok hcaptured] at h
  obtain ⟨_, u, hsto, h⟩ := bind_eq_ok.1 h
  obtain ⟨_, v, happ, h⟩ := bind_eq_ok.1 h
  rw [tickCount_bind] at h
  obtain ⟨_, w, hsv, hpure⟩ := bind_eq_ok.1 h
  obtain rfl : w = t := congrArg Prod.snd hpure
  have hld := loadState_of_saved hsts hsv
  obtain ⟨bytes, record, henc, hrec, hsto⟩ := saveEncoded_ok hsto
  obtain ⟨_, canonical, -, hcan, hsv⟩ := saveEncoded_ok hsv
  obtain rfl := ok.inj (canonicalPath_updateStatePath.symm.trans hcan)
  refine ⟨u, v, record, hrec, ?_, fun n hn => ?_, hsto.installed,
    ⟨size, applyVerifiedBundle_ok happ⟩, fun n hli hn => ?_, fun n hn => ?_, hsv.installed,
    ⟨_, _, hld, rfl, rfl, rfl⟩⟩
  · rw [loadRollbackRecord_eq_ok hrec]
    refine ⟨_, by rw [hsto.find, update_self], ?_⟩
    rw [writtenEntry_data]
    exact hrecs _ _ henc
  · rw [hsto.find, update_of_ne hn, ticked_find]
  · rw [← PkgState.touched_congr (s := s) (t := u) hsto.installed] at hn
    have hkp := applyVerifiedBundle_keepsFile env size hli hn
    rwa [happ] at hkp
  · rw [hsv.find, update_of_ne hn, ticked_find]

lemma Stages.applied {s u v t : PkgState} (h : Stages env verified s u v t record) :
    Applied env verified s t := by
  obtain ⟨size, cleared, written, bytes, hinst⟩ := h.installation
  have hdir := canonical_rollbackRecordPath h.canonical
  have hsta : record ≠ updateStatePath := by
    rintro rfl
    exact absurd hdir (by decide)
  have hli : record ≠ localInstalledPath := by
    rintro rfl
    exact absurd hdir (by decide)
  have hf := h.saved record hsta
  have htouc := PkgState.touched_congr h.listed verified.manifest
  refine ⟨⟨record, h.canonical⟩, h.current, htouc ▸ hinst.valid, fun n hn hunto => ?_, ?_, ?_, ?_⟩
  · have hne : n ≠ record := by
      rintro rfl
      exact hn.ne_record h.canonical
    rw [h.saved n hn.ne_state, h.kept n hn.ne_list hunto, h.unchanged n hne]
  · exact ⟨_, rfl, by rw [h.installed, hinst.installed, h.listed]⟩
  · intro canonical hcan hunto
    obtain rfl := ok.inj (h.canonical.symm.trans hcan)
    rw [← h.stored]
    exact loadRollbackRecord_congr h.canonical (hf.trans (h.kept record hli hunto))
  · intro rollback hload
    obtain ⟨e, hent, hdec⟩ := (loadRollbackRecord_eq_ok h.canonical).1 hload
    rw [hf] at hent
    rcases hinst.find_cases hli with hke | hgo | ⟨file, hfl, payload, found, hsd, hfd, hd⟩
    · left
      rw [hke] at hent
      have hload' := (loadRollbackRecord_eq_ok h.canonical).2 ⟨e, hent, hdec⟩
      exact ok.inj (hload'.symm.trans h.stored)
    · rw [hgo] at hent
      cases hent
    · right
      obtain rfl := Option.some.inj (hfd.symm.trans hent)
      exact ⟨_, VerifiedPackage.mem_planted hfl h.canonical hsd, hd ▸ hdec⟩

lemma applyVerifiedBundleBytes_ok (hsts : env.states.RoundTrips) (hrecs : env.records.RoundTrips)
    (h : applyVerifiedBundleBytes env sourcePath bytes stagedOverride s = (.ok transaction, t)) :
    ∃ verified, verifyLocalBundleBytes env bytes = .ok verified ∧ Applied env verified s t := by
  rw [applyVerifiedBundleBytes] at h
  obtain ⟨state, _, h⟩ := read_bind_eq_ok.1 h
  obtain ⟨_, u, hrepl, h⟩ := bind_eq_ok.1 h
  obtain ⟨verified, hver, happ⟩ := read_bind_eq_ok.1 h
  have hs : u = s := by
    rw [ensureStateReplaceable] at hrepl
    split_ifs at hrepl
    · cases congrArg Prod.fst hrepl
    · exact (congrArg Prod.snd hrepl).symm
  rw [hs] at happ
  obtain ⟨_, _, _, hstaged⟩ := applyVerifiedPackage_stages hsts hrecs happ
  exact ⟨verified, hver, hstaged.applied⟩

lemma UpdateOp.Applies.call_ok (hsts : env.states.RoundTrips)
    (hrecs : env.records.RoundTrips) (hop : op.Applies) (h : op.call env s = (.ok (), t)) :
    ∃ verified ∈ op.package env s, Applied env verified s t := by
  have hwp : Fallible.wp (op.call env)
      (fun _ t => ∃ verified ∈ op.package env s, Applied env verified s t) (fun _ _ => True) s := by
    refine hop.wp (fun _ => trivial) fun path bytes stagedOverride hsrc => ?_
    refine wp_iff.2 ⟨fun transaction u hu => ?_, fun _ _ _ => trivial⟩
    obtain ⟨verified, hver, happl⟩ := applyVerifiedBundleBytes_ok hsts hrecs hu
    exact ⟨verified, mem_package hsrc hver, happl⟩
  exact hwp.ok h

/-- Only the state file and the clock have changed. -/
structure OnlyState (s t : PkgState) : Prop where
  installed : t.installed = s.installed
  find : ∀ n, n ≠ updateStatePath → t.find n = s.find n

lemma OnlyState.refl (s : PkgState) : OnlyState s s := ⟨rfl, fun _ _ => rfl⟩

lemma OnlyState.trans (s t u : PkgState) (hst : OnlyState s t) (htu : OnlyState t u) :
    OnlyState s u :=
  ⟨htu.installed.trans hst.installed, fun n hn => (htu.find n hn).trans (hst.find n hn)⟩

variable (st : UpdateState)

lemma onlyState_saveState : Fallible.Keeps OnlyState (saveState env st) := by
  intro s
  rcases hsv : saveState env st s with ⟨error | _, t⟩
  · have hs := saveEncoded_error hsv
    exact ⟨hs.installed, fun n _ => congrFun hs.find n⟩
  · obtain ⟨_, canonical, -, hcan, hput⟩ := saveEncoded_ok hsv
    obtain rfl := ok.inj (canonicalPath_updateStatePath.symm.trans hcan)
    exact ⟨hput.installed, fun n hn => by rw [hput.find, update_of_ne hn]⟩

lemma onlyState_tickCount : Fallible.Keeps OnlyState tickCount := fun _ => ⟨rfl, fun _ _ => rfl⟩

lemma onlyState_ensureStateReplaceable : Fallible.Keeps OnlyState (ensureStateReplaceable st) := by
  rw [ensureStateReplaceable]
  split
  · exact .refl
  · exact .refl

lemma onlyState_pendingTransaction : Fallible.Keeps OnlyState (pendingTransaction st) := by
  rw [pendingTransaction]
  split
  · exact .refl
  · split
    · exact .refl
    · exact .refl

/-- The calls that neither stage, apply nor roll back. -/
def UpdateOp.Bookkeeping : UpdateOp → Prop
  | .stage _ | .apply _ | .applyStaged | .rollback => False
  | _ => True

lemma UpdateOp.call_onlyState (hop : op.Bookkeeping) : Fallible.Keeps OnlyState (op.call env) := by
  have hrd : ∀ {α β : Type} f {g : α → Call β},
      (∀ a, Fallible.Keeps OnlyState (g a)) → Fallible.Keeps OnlyState (.read f >>= g) :=
    fun f _ hg => (keeps_read .refl f).bind .trans hg
  have hvoid : ∀ {α : Type} {x : Call α}, Fallible.Keeps OnlyState x →
      Fallible.Keeps OnlyState (x >>= fun _ => pure PUnit.unit) := fun hx =>
    hx.bind .trans fun _ => .refl
  cases op with
  | stage | apply | applyStaged | rollback => exact hop.elim
  | confirm =>
    refine hvoid (hrd _ fun _ => hrd _ fun state => ?_)
    refine (onlyState_pendingTransaction state).bind .trans fun transaction => ?_
    split
    · exact .refl
    · refine onlyState_tickCount.bind .trans fun _ => ?_
      exact (onlyState_saveState _).bind .trans fun _ => .refl
  | reject why =>
    refine hvoid (hrd _ fun _ => hrd _ fun state => ?_)
    refine (onlyState_pendingTransaction state).bind .trans fun transaction => ?_
    exact (onlyState_saveState _).bind .trans fun _ => .refl
  | clearCompleted =>
    refine hrd _ fun _ => hrd _ fun state => ?_
    exact (onlyState_ensureStateReplaceable state).bind .trans fun _ => onlyState_saveState _
  | requestRecovery why => exact hrd _ fun state => onlyState_saveState _
  | clearRecovery =>
    refine hrd _ fun state => ?_
    split
    · exact .refl
    · exact onlyState_saveState _
  | prepareBoot =>
    refine hvoid fun s => ?_
    rw [Pkg.prepareBoot]
    split
    · exact .refl s
    · exact onlyState_saveState _ s
  | noteShellReady =>
    refine hvoid (hrd _ fun state => ?_)
    split
    · exact .refl
    · split_ifs
      · exact .refl
      · exact .refl
      · exact (onlyState_saveState _).bind .trans fun _ => .refl

end

end Waros.Kernel.Pkg
