import Waros.Kernel.Exec.WriteConfinement
import Waros.Kernel.Fs.FsRuns

/-!
For whom the file system calls act. They go through the helpers of the login
session, so the identity that is checked is the one on the console, not the
one of the process. `filesAsOwner_iff` says when the two give the same answer.
-/

namespace Waros.Kernel.Exec

open Lib Auth Fs Memory Security AddressSpace SyscallState WarFS List FilePermissions
  CurrentSession
variable {M : Mapper}

section
variable (users : UserDB) (uid : Uid)

/-- The home rule for a uid with its own role. -/
def mayEnter (path : Str) : Bool :=
  if storedRole users uid = .admin then true
  else
    match protectedPathOwner users (.trim path) with
    | none => true
    | some (ownerUid, _) => ownerUid == uid

/-- The path leads to a file that the uid may read with its own role. -/
def Granted (fs : WarFS) (path : Str) : Prop :=
  ∃ canonical entry, canonicalPath path = .ok canonical ∧ fs.find canonical = some entry ∧
    mayEnter users uid path = true ∧
    entry.permissions.canRead uid (storedRole users uid) = true

/-- The name stands in a directory for a file that the uid may read. -/
def Shown (fs : WarFS) (directory name : Str) : Prop :=
  ∃ entry ∈ fs.files, ∃ relative rest, relativeChildPath directory entry.name = some relative ∧
    relative.splitOn '/' = name :: rest ∧
    entry.permissions.canRead uid (storedRole users uid) = true

end

/-- A call is made by a process of the uid, with the given users and session. -/
structure MadeBy (users : UserDB) (session : CurrentSession) (uid : Uid) (s : SyscallState M) :
    Prop where
  users : s.kernel.users = users
  session : s.kernel.session = session
  process : ∃ process, s.currentProcess = some process ∧ process.uid = uid

/-- Whatever the files and the process are, the calls give access only to what
the uid of the process is granted. -/
structure FilesAsOwner (M : Mapper) (users : UserDB) (session : CurrentSession) (uid : Uid) :
    Prop where
  sysOpen : ∀ (s s' : SyscallState M) env path fd, MadeBy users session uid s →
    s.sysOpen env path 0 0 = (.returned fd, s') → 0 ≤ fd →
    ∃ name, s.readWarexecPathChecked env.memory path .fileLike = .returned (.ok name) ∧
      Granted users uid s.fs (session.resolvePath name)
  sysRead : ∀ (s s' : SyscallState M) fd buffer len count, MadeBy users session uid s →
    s.sysRead fd buffer len = (.returned count, s') → 0 < count →
    ∃ handle, s.descriptorTarget fd = .ok (.file handle) ∧
      Granted users uid s.fs (session.resolvePath handle.path)
  sysStat : ∀ (s s' : SyscallState M) env path statOut, MadeBy users session uid s →
    s.sysStat env path statOut = (.returned 0, s') →
    ∃ name, s.readWarexecPathChecked env.memory path .fileLike = .returned (.ok name) ∧
      Granted users uid s.fs (session.resolvePath name)
  openDirectory : ∀ (s s' : SyscallState M) env path fd, MadeBy users session uid s →
    s.sysOpen env path warexecOpenDirectory 0 = (.returned fd, s') → 0 ≤ fd →
    ∃ name handle, s.readWarexecPathChecked env.memory path .directory = .returned (.ok name) ∧
      s.openTarget name warexecOpenDirectory = .ok (.directory handle) ∧
      mayEnter users uid (session.resolvePath name) = true ∧
      ∀ entry ∈ handle.entries, Shown users uid s.fs (session.resolvePath name) entry.name
  sysReaddir : ∀ (s₀ s s' : SyscallState M) name opened fd handle entryOut,
    MadeBy users session uid s₀ →
    s₀.openTarget name warexecOpenDirectory = .ok (.directory opened) →
    s.descriptorTarget fd = .ok (.directory handle) → handle.entries = opened.entries →
    s.sysReaddir fd entryOut = (.returned 1, s') →
    ∃ entry moved, s.readdirPlan fd = .ok (entry, moved) ∧
      Shown users uid s₀.fs (session.resolvePath name) entry.name
  openCreate : ∀ (s s' : SyscallState M) env path fd, MadeBy users session uid s →
    s.sysOpen env path warexecOpenCreateWrite 0 = (.returned fd, s') → 0 ≤ fd →
    ∃ name, s.readWarexecPathChecked env.memory path .fileLike = .returned (.ok name) ∧
      mayEnter users uid (session.resolvePath name) = true
  sysClose : ∀ (s s' : SyscallState M) env fd result, MadeBy users session uid s →
    s.sysClose env fd = (result, s') → s'.fs ≠ s.fs →
    ∃ handle entry, s.descriptorTarget fd = .ok (.file handle) ∧ entry ∈ s'.fs.files ∧
      canonicalPath (session.resolvePath handle.path) = .ok entry.name ∧
      mayEnter users uid (session.resolvePath handle.path) = true ∧
      entry.permissions.canWrite uid (storedRole users uid) = true

/-- The uid is an administrator's, or the console is logged in as the uid and
not as an administrator. -/
def ActsFor (users : UserDB) (session : CurrentSession) (uid : Uid) : Prop :=
  storedRole users uid = .admin ∨
    ∃ login, session = some login ∧ login.user.uid = uid ∧ login.user.role ≠ .admin

section
variable {users : UserDB} {session : CurrentSession} {uid : Uid}

section
variable (h : ActsFor users session uid)
include h

lemma mayEnter_of_session {path : Str}
    (hac : canAccessPath users session path) : mayEnter users uid path := by
  rw [mayEnter]
  split_ifs with hadm
  · rfl
  · obtain ⟨login, rfl, rfl, hro⟩ := h.resolve_left hadm
    rwa [canAccessPath, if_neg hro] at hac

lemma canRead_of_session {perms : FilePermissions}
    (hrd : perms.canRead session.currentUid session.currentRole) :
    perms.canRead uid (storedRole users uid) := by
  rcases h with hadm | ⟨login, rfl, rfl, hro⟩
  · simp [canRead, hadm]
  · have hrd' : perms.canRead login.user.uid login.user.role := hrd
    rw [canRead] at hrd'
    rw [canRead]
    split_ifs <;> simp_all

/-- A file that the session has just created can be written. -/
lemma canWrite_of_session (path : Str) :
    (defaultPermissionsFor path session.currentUid).canWrite uid (storedRole users uid) := by
  rcases h with hadm | ⟨login, rfl, rfl, -⟩
  · simp [canWrite, hadm]
  · rw [canWrite, defaultPermissionsFor]
    split_ifs <;> first | rfl | exact absurd rfl ‹_›

end

variable {fs : WarFS} {entry : FileEntry} {name : Str}

lemma granted_of_readCurrent (h : ActsFor users session uid) {found : Str × List UInt8}
    (hrd : readCurrent users session fs name = .ok found) :
    Granted users uid fs (session.resolvePath name) := by
  rw [readCurrent] at hrd
  split_ifs at hrd with hac
  split at hrd
  · next hfi =>
      obtain ⟨can, entry, hcan, hf, hgr, -⟩ := readAs_ok hfi
      exact ⟨can, entry, hcan, hf, mayEnter_of_session h (by simpa using hac),
        canRead_of_session h hgr⟩
  · cases hrd

lemma granted_of_statCurrent (h : ActsFor users session uid)
    (hsa : statCurrent users session fs name = .ok entry) :
    Granted users uid fs (session.resolvePath name) := by
  rw [statCurrent] at hsa
  split_ifs at hsa with hac
  obtain ⟨can, hcan, hf, hgr⟩ := statAs_ok hsa
  exact ⟨can, entry, hcan, hf, mayEnter_of_session h (by simpa using hac), canRead_of_session h hgr⟩

lemma validateCreateNewCurrent_ok {can : Str}
    (h : validateCreateNewCurrent users session fs name = .ok can) :
    canAccessPath users session (session.resolvePath name) ∧
      canonicalPath (session.resolvePath name) = .ok can ∧ fs.find can = none := by
  rw [validateCreateNewCurrent] at h
  split_ifs at h with hac
  split at h
  · cases h
  · next hcan =>
      split_ifs at h with _ hf
      cases h
      exact ⟨by simpa using hac, hcan, by simpa using hf⟩

lemma mayEnter_of_validate (h : ActsFor users session uid) {name canonical : Str}
    (hval : validateCreateNewCurrent users session fs name = .ok canonical) :
    mayEnter users uid (session.resolvePath name) ∧
      canonicalPath (session.resolvePath name) = .ok canonical := by
  obtain ⟨hac, hcan, -⟩ := validateCreateNewCurrent_ok hval
  exact ⟨mayEnter_of_session h hac, hcan⟩

/-- A creation is refused, or adds a file of the session's. -/
lemma createNewCurrent_cases (us : UserDB) (ses : CurrentSession) (fs : WarFS)
    (name : Str) (data : List UInt8) (now : ℕ) :
    (∃ error, createNewCurrent us ses fs name data now = (.error error, fs)) ∨
      ∃ canonical entry, validateCreateNewCurrent us ses fs name = .ok canonical ∧
        createNewCurrent us ses fs name data now =
          (.ok canonical, { fs with files := sortByName (fs.files ++ [entry]) }) ∧
        entry.name = canonical ∧ entry.data = data ∧
        entry.permissions = defaultPermissionsFor canonical ses.currentUid := by
  rw [createNewCurrent]
  rcases hval : validateCreateNewCurrent us ses fs name with error | canonical
  · exact .inl ⟨error, rfl⟩
  simp only [createNewAs, canonicalPath_idem (validateCreateNewCurrent_ok hval).2.1]
  split_ifs
  all_goals try exact .inl ⟨_, rfl⟩
  exact .inr ⟨canonical, _, rfl, rfl, rfl, rfl, rfl⟩

/-- The entries of a listing are files that the session may read. -/
lemma shown_of_dirEntries (h : ActsFor users session uid) {directory : Str} :
    ∀ {entries : List FileEntry} {seen : List Str}, entries ⊆ fs.files →
      ∀ shown ∈ dirEntries session directory entries seen,
        Shown users uid fs directory shown.1 := by
  intro entries
  induction entries with
  | nil => simp [dirEntries]
  | cons entry _ ih =>
    intro seen hsub shown hsh
    have hr := cons_subset.1 hsub
    rw [dirEntries] at hsh
    split_ifs at hsh with href
    · exact ih hr.2 shown hsh
    rw [Bool.not_eq_true, Bool.not_eq_false'] at href
    cases hrela : relativeChildPath directory entry.name with
    | none =>
      simp only [hrela] at hsh
      exact ih hr.2 shown hsh
    | some relative =>
      cases hspl : relative.splitOn '/' with
      | nil =>
        simp only [hrela, hspl] at hsh
        exact ih hr.2 shown hsh
      | cons first rest =>
        have hfst : Shown users uid fs directory first :=
          ⟨entry, hr.1, relative, rest, hrela, hspl, canRead_of_session h href⟩
        simp only [hrela, hspl] at hsh
        split_ifs at hsh
        · exact ih hr.2 shown hsh
        · rcases mem_cons.1 hsh with rfl | hsh
          · exact hfst
          · exact ih hr.2 shown hsh
        · exact ih hr.2 shown hsh
        · rcases mem_cons.1 hsh with rfl | hsh
          · exact hfst
          · exact ih hr.2 shown hsh

end

/-! ### The calls

A call that fails returns a negative number, so a result that is not negative
comes from the session's checks. -/

namespace SyscallState

lemma mapFsError_neg (err : FsError) : mapFsError err < 0 := by cases err <;> decide

variable {memory : UserBytes} {pointer : ℕ} {error : ℤ} {flags : UInt32} {s s' : SyscallState M}
  {env : SyscallEnv} {fd : UInt32}

lemma readString_error {sp : AddressSpace} :
    ∀ {left : ℕ} {bytes : List UInt8},
      readString memory sp pointer left bytes = .returned (.error error) →
      error = efault ∨ error = einval := by
  intro left
  induction left with
  | zero =>
    rintro bytes ⟨⟩
    exact .inl rfl
  | succ _ ih =>
    intro bytes h
    rw [readString] at h
    split at h
    · cases h
      exact .inl rfl
    · split_ifs at h
      · cases h
        exact .inl rfl
      · split at h
        · cases h
        · split_ifs at h
          · split at h
            · cases h
            · cases h
              exact .inr rfl
          · exact ih h

lemma readWarexecPathChecked_error {s : SyscallState M} {kind : WarExecPathKind}
    (h : s.readWarexecPathChecked memory pointer kind = .returned (.error error)) : error < 0 := by
  have hstr : ∀ e, s.readUserStringChecked memory pointer maxUserStringLen =
      .returned (.error e) → e < 0 := by
    intro e he
    rw [readUserStringChecked] at he
    split_ifs at he
    · cases he
      decide
    · split at he
      · cases he
        decide
      · rcases readString_error he with rfl | rfl <;> decide
  rw [readWarexecPathChecked] at h
  split at h
  · cases h
  · cases h
    exact hstr _ ‹_›
  · split at h
    · cases h
      decide
    · cases h

lemma openTarget_error {s : SyscallState M} {path : Str}
    (h : s.openTarget path flags = .error error) : error < 0 := by
  rw [openTarget] at h
  split_ifs at h
  all_goals
    split at h
    · cases h
      exact mapFsError_neg _
    · cases h

lemma sysOpen_ok {path : ℕ} {fd : ℤ} (h : s.sysOpen env path flags 0 = (.returned fd, s'))
    (hfd : 0 ≤ fd) :
    ∃ name target, s.readWarexecPathChecked env.memory path
        (if flags = warexecOpenDirectory then .directory else .fileLike) = .returned (.ok name) ∧
      s.openTarget name flags = .ok target := by
  rw [sysOpen, if_neg (by simp)] at h
  by_cases hfl : flags ≠ 0 ∧ flags ≠ warexecOpenDirectory ∧ flags ≠ warexecOpenCreateWrite
  · rw [if_pos hfl] at h
    cases h
    cases hfd
  rw [if_neg hfl] at h
  split at h
  · cases h
  · next herr =>
      cases h
      exact absurd (readWarexecPathChecked_error herr) (by omega)
  · next name hnm =>
      split at h
      · next herr =>
          cases h
          exact absurd (openTarget_error herr) (by omega)
      · next target htgt => exact ⟨name, target, hnm, htgt⟩

lemma descriptorTarget_error {s : SyscallState M} (h : s.descriptorTarget fd = .error error) :
    error < 0 := by
  rw [descriptorTarget] at h
  split at h
  · cases h
    decide
  · split at h
    · cases h
      decide
    · cases h

lemma readPlan_error {s : SyscallState M} {len : ℕ} {res : ℤ}
    (h : s.readPlan fd len = .error res) : res ≤ 0 := by
  rw [readPlan] at h
  split at h
  · cases h
    exact (descriptorTarget_error ‹_›).le
  · split_ifs at h
    · cases h
      decide
    · cases h
      decide
    · split at h
      · cases h
        decide
      · dsimp only at h
        split_ifs at h
        cases h
        decide
  · cases h
    decide

/-- Bytes are read only from a file that the session can read. -/
lemma sysRead_pos {buf len : ℕ} {n : ℤ}
    (h : s.sysRead fd buf len = (.returned n, s')) (hcnt : 0 < n) :
    ∃ handle found, s.descriptorTarget fd = .ok (.file handle) ∧
      readCurrent s.kernel.users s.kernel.session s.fs handle.path = .ok found := by
  rw [sysRead] at h
  cases hpl : s.readPlan fd len with
  | error =>
    rw [hpl] at h
    cases h
    exact absurd (readPlan_error hpl) (by omega)
  | ok =>
    rw [readPlan] at hpl
    split at hpl
    · cases hpl
    · next handle hhandle =>
        split_ifs at hpl
        split at hpl
        · cases hpl
        · next found hfnd => exact ⟨handle, _, hhandle, hfnd⟩
    · cases hpl

lemma sysStat_ok {path statOut : ℕ} (h : s.sysStat env path statOut = (.returned 0, s')) :
    ∃ name entry, s.readWarexecPathChecked env.memory path .fileLike = .returned (.ok name) ∧
      statCurrent s.kernel.users s.kernel.session s.fs name = .ok entry := by
  rw [sysStat, statPlan] at h
  cases hnm : s.readWarexecPathChecked env.memory path .fileLike with
  | panicked =>
    rw [hnm] at h
    cases h
  | returned o =>
    cases o with
    | error =>
      rw [hnm] at h
      have hneg := readWarexecPathChecked_error hnm
      cases h
      cases hneg
    | ok name =>
      refine ⟨name, ?_⟩
      cases hsa : statCurrent s.kernel.users s.kernel.session s.fs name with
      | error error =>
        simp only [hnm, hsa] at h
        have hneg := mapFsError_neg error
        have h0 : mapFsError error = 0 := by
          injection h with h
          injection h
        omega
      | ok entry => exact ⟨entry, rfl, rfl⟩

lemma sysReaddir_ok {out : ℕ} {handle : DirectoryHandle}
    (hhandle : s.descriptorTarget fd = .ok (.directory handle))
    (h : s.sysReaddir fd out = (.returned 1, s')) :
    ∃ entry moved, s.readdirPlan fd = .ok (entry, moved) ∧ entry ∈ handle.entries := by
  cases hent : handle.entries[handle.cursor]? with
  | none =>
    have hpl : s.readdirPlan fd = .error 0 := by simp only [readdirPlan, hhandle, hent]
    rw [sysReaddir, hpl] at h
    cases h
  | some entry =>
    refine ⟨entry, { handle with cursor := U64.saturatingAdd handle.cursor 1 }, ?_,
      mem_of_getElem? hent⟩
    simp only [readdirPlan, hhandle, hent]

lemma modifyCurrent_fs (s : SyscallState M) (f : Process → Process) :
    (s.modifyCurrent f).fs = s.fs := by
  rw [modifyCurrent]
  split <;> rfl

lemma closeDescriptor_fs (s : SyscallState M) (fd : UInt32) :
    (s.closeDescriptor fd).2.fs = s.fs := by
  rw [closeDescriptor]
  split
  · rfl
  · exact modifyCurrent_fs _ _

/-- Closing changes the files only by the file that is created. -/
lemma sysClose_fs {res : Outcome ℤ} (h : s.sysClose env fd = (res, s')) (hfs : s'.fs ≠ s.fs) :
    ∃ handle, s.descriptorTarget fd = .ok (.file handle) ∧
      s'.fs = (createNewCurrent s.kernel.users s.kernel.session s.fs handle.path handle.stagedData
        env.now).2 := by
  rw [sysClose] at h
  split at h
  · cases h
    exact absurd rfl hfs
  · next handle hhandle =>
      refine ⟨handle, hhandle, ?_⟩
      split_ifs at h
      · split at h
        · next hcre =>
            cases h
            rw [hcre]
        · next fs hcre =>
            rw [hcre]
            have hcl := closeDescriptor_fs { s with fs } fd
            rwa [h] at hcl
      · have hcl := closeDescriptor_fs s fd
        rw [h] at hcl
        exact absurd hcl hfs
  · have hcl := closeDescriptor_fs s fd
    rw [h] at hcl
    exact absurd hcl hfs

end SyscallState

section
variable {users : UserDB} {session : CurrentSession} {uid : Uid}

lemma shown_of_openTarget (h : ActsFor users session uid) {s : SyscallState M}
    (hmd : MadeBy users session uid s) {name : Str} {t : DescriptorTarget}
    (htgt : s.openTarget name warexecOpenDirectory = .ok t) :
    ∃ handle, t = .directory handle ∧ mayEnter users uid (session.resolvePath name) ∧
      ∀ entry ∈ handle.entries, Shown users uid s.fs (session.resolvePath name) entry.name := by
  rw [openTarget, if_pos rfl, hmd.users, hmd.session, listEntriesCurrent]
    at htgt
  split at htgt
  · cases htgt
  · next resolved entries hli =>
      split_ifs at hli with hac
      cases hli
      cases htgt
      refine ⟨_, rfl, mayEnter_of_session h (by simpa using hac), ?_⟩
      intro entry hent
      obtain ⟨shown, hsh, rfl⟩ := mem_map.1 hent
      exact shown_of_dirEntries h (.refl _) shown ((mem_mergeSort).1 hsh)

lemma filesAsOwner_of_actsFor (h : ActsFor users session uid) :
    FilesAsOwner M users session uid where
  sysOpen := by
    intro s s' env path fd hmd hop hfd
    obtain ⟨name, target, hnm, htgt⟩ := sysOpen_ok hop hfd
    refine ⟨name, hnm, ?_⟩
    rw [openTarget, if_neg (by decide), if_neg (by decide), hmd.users, hmd.session] at htgt
    split at htgt
    · cases htgt
    · next found hfnd => exact granted_of_readCurrent h hfnd
  sysRead := by
    intro s s' fd buf len n hmd hrd hcnt
    obtain ⟨handle, found, hhandle, hfnd⟩ := sysRead_pos hrd hcnt
    rw [hmd.users, hmd.session] at hfnd
    exact ⟨handle, hhandle, granted_of_readCurrent h hfnd⟩
  sysStat := by
    intro s s' env path statOut hmd hsa
    obtain ⟨name, entry, hnm, hent⟩ := sysStat_ok hsa
    rw [hmd.users, hmd.session] at hent
    exact ⟨name, hnm, granted_of_statCurrent h hent⟩
  openDirectory := by
    intro s s' env path fd hmd hop hfd
    obtain ⟨name, target, hname, htarget⟩ := sysOpen_ok hop hfd
    obtain ⟨handle, rfl, henter, hshown⟩ := shown_of_openTarget h hmd htarget
    exact ⟨name, handle, hname, htarget, henter, hshown⟩
  sysReaddir := by
    intro s₀ s s' name opened fd handle entryOut hmd hope hhandle hents hrd
    obtain ⟨_, htgt, -, hsh⟩ := shown_of_openTarget h hmd hope
    cases htgt
    obtain ⟨entry, moved, hpl, hmem⟩ := sysReaddir_ok hhandle hrd
    exact ⟨entry, moved, hpl, hsh entry (hents ▸ hmem)⟩
  openCreate := by
    intro s s' env path fd hmd hop hfd
    obtain ⟨name, target, hnm, htgt⟩ := sysOpen_ok hop hfd
    refine ⟨name, hnm, ?_⟩
    rw [openTarget, if_neg (by decide), if_pos rfl, hmd.users, hmd.session]
      at htgt
    split at htgt
    · cases htgt
    · next hval => exact (mayEnter_of_validate h hval).1
  sysClose := by
    intro s s' env fd res hmd hcl hfs
    obtain ⟨handle, hhandle, hcre⟩ := sysClose_fs hcl hfs
    rw [hmd.users, hmd.session] at hcre
    rw [hcre] at hfs ⊢
    rcases createNewCurrent_cases users session s.fs handle.path handle.stagedData env.now with
      ⟨error, href⟩ | ⟨_, entry, hval, hcrea, rfl, -, hper⟩
    · exact absurd (congrArg Prod.snd href) hfs
    obtain ⟨hente, hcan⟩ := mayEnter_of_validate h hval
    refine ⟨handle, entry, hhandle, ?_, hcan, hente, ?_⟩
    · simp [hcrea, sortByName]
    · rw [hper]
      exact canWrite_of_session h _

/-! ### A file that is not the caller's -/

variable (machine : Machine M) (users : UserDB) (session : CurrentSession) (uid owner : Uid)

/-- A process of the uid runs, and there is one file, `/a`, that only its owner
may read. -/
def oneFile : SyscallState M where
  kernel :=
    { (KernelState.init users).setCurrentPid (some 1) with
      session
      table := ⟨[{ Process.kernelTask 0 [] uid .running [] .normal 0 .elf [] ⟨0⟩ with pid := 1 }],
        2, none⟩ }
  fs := ⟨[newEntry "/a".toList [42] (.privateFor owner) false 0], 128⟩
  machine

/-- The name `/a` stands at the bottom of the stack. -/
def nameEnv : SyscallEnv :=
  { quietEnv with
    memory := fun address =>
      if address = 0x7FDFF000 then some 0x2F else if address = 0x7FDFF001 then some 0x61
      else some 0 }

lemma oneFile_madeBy : MadeBy users session uid (oneFile machine users session uid owner) where
  users := rfl
  session := rfl
  process := ⟨_, rfl, rfl⟩

lemma oneFile_name :
    (oneFile machine users session uid owner).readWarexecPathChecked nameEnv.memory 0x7FDFF000
      .fileLike = .returned (.ok "/a".toList) := by
  have hstr : readString nameEnv.memory (new 0) 0x7FDFF000
      maxUserStringLen [] = .returned (.ok "/a".toList) := by decide
  have hp : canonicalizeWarexecPath "/a".toList false = .ok "/a".toList := by decide
  obtain ⟨p, hproc, hspc⟩ : ∃ p, (oneFile machine users session uid owner).currentProcess = some p ∧
        p.addressSpace = new 0 := ⟨_, rfl, rfl⟩
  rw [readWarexecPathChecked, readUserStringChecked, if_neg (by decide), hproc]
  simp only [hspc, hstr]
  rfl

lemma resolvePath_oneFile : session.resolvePath "/a".toList = "/a".toList := by
  cases session with
  | none => decide
  | some => rfl

lemma oneFile_canAccessPath : canAccessPath users session "/a".toList := by
  have hown : protectedPathOwner users (.trim "/a".toList) = none := rfl
  cases session with
  | none => rfl
  | some =>
    rw [canAccessPath]
    split_ifs <;> rfl

lemma find_oneFile : (oneFile machine users session uid owner).fs.find "/a".toList =
    some (newEntry "/a".toList [42] (.privateFor owner) false 0) := rfl

lemma not_granted_oneFile (hro : storedRole users uid ≠ .admin) (hown : uid ≠ owner) :
    ¬ Granted users uid (oneFile machine users session uid owner).fs "/a".toList := by
  rintro ⟨can, entry, hcan, hf, -, hgr⟩
  have hp : canonicalPath "/a".toList = .ok "/a".toList := by decide
  cases hp.symm.trans hcan
  cases (find_oneFile machine users session uid owner).symm.trans hf
  rw [canRead, if_neg hro] at hgr
  change (if uid = owner then true else false) at hgr
  rw [if_neg hown] at hgr
  cases hgr

variable {session owner}

lemma sysOpen_oneFile
    (hrd : (privateFor owner).canRead session.currentUid session.currentRole) :
    ∃ s', (oneFile machine users session uid owner).sysOpen nameEnv 0x7FDFF000 0 0 =
      (.returned 3, s') := by
  have hcan : canonicalPath "/a".toList = .ok "/a".toList := by decide
  have hper : (newEntry "/a".toList [42] (.privateFor owner) false 0).permissions =
    .privateFor owner := rfl
  have hfi : readCurrent users session (oneFile machine users session uid owner).fs
      "/a".toList = .ok ("/a".toList, [42]) := by
    simp only [readCurrent, resolvePath_oneFile, oneFile_canAccessPath, readAs, hcan,
      find_oneFile, hper, hrd]
    rfl
  have hmd := oneFile_madeBy machine users session uid owner
  have htgt : (oneFile machine users session uid owner).openTarget "/a".toList 0 =
      .ok (.file ⟨"/a".toList, 0, .readOnly, []⟩) := by
    rw [openTarget, if_neg (by decide), if_neg (by decide), hmd.users, hmd.session, hfi]
  rw [sysOpen, if_neg (by simp), if_neg (by simp), if_neg (by decide), oneFile_name]
  simp only [htgt]
  exact ⟨_, rfl⟩

variable {uid}

/-- Otherwise some owner's private files can be read by the session and not by
the uid. -/
lemma exists_owner (h : ¬ ActsFor users session uid) :
    storedRole users uid ≠ .admin ∧ ∃ owner, uid ≠ owner ∧
      (privateFor owner).canRead session.currentUid session.currentRole := by
  obtain ⟨hro, hlog⟩ := not_or.1 h
  refine ⟨hro, ?_⟩
  by_cases huid : uid = session.currentUid
  · -- the session has the same uid, so it is an administrator's
    have hadm : session.currentRole = .admin := by
      cases session with
      | none => rfl
      | some login =>
        by_contra hne
        exact hlog ⟨login, rfl, huid.symm, hne⟩
    refine ⟨uid + 1, by simp, ?_⟩
    rw [canRead, if_pos hadm]
  · refine ⟨session.currentUid, huid, ?_⟩
    rw [canRead]
    split_ifs <;> first | rfl | exact absurd rfl ‹_›

lemma actsFor_of_filesAsOwner (m : Machine M) (h : FilesAsOwner M users session uid) :
    ActsFor users session uid := by
  by_contra hacts
  obtain ⟨hro, owner, hown, hrd⟩ := exists_owner users hacts
  obtain ⟨s', hop⟩ := sysOpen_oneFile m users uid hrd
  obtain ⟨name, hnm, hgr⟩ :=
    h.sysOpen _ _ _ _ _ (oneFile_madeBy m users session uid owner) hop (by decide)
  rw [oneFile_name] at hnm
  cases hnm
  rw [resolvePath_oneFile] at hgr
  exact not_granted_oneFile m users session uid owner hro hown hgr

end

/-- The calls give the processes of a uid access only to what the uid is
granted, whatever the files and the process are, exactly when the uid is an
administrator's or the console is logged in as that user. -/
theorem filesAsOwner_iff (machine : Machine M) (users : UserDB) (session : CurrentSession)
    (uid : Uid) : FilesAsOwner M users session uid ↔ ActsFor users session uid :=
  ⟨actsFor_of_filesAsOwner users machine, filesAsOwner_of_actsFor⟩

def twoUsers : UserDB where
  users := [⟨0, "root".toList, replicate 32 0, replicate 16 0, .admin, "/root".toList, true, 0, 0⟩,
    ⟨1, "a".toList, replicate 32 0, replicate 16 0, .user, "/home/a".toList, true, 0, 0⟩]
  nextUid := 2

/-- Nobody is logged in, and a process of the user opens a private file of the
root user. -/
theorem sysOpen_private_file :
    let s := oneFile smallMachine twoUsers none 1 0
    MadeBy twoUsers none 1 s ∧ (s.sysOpen nameEnv 0x7FDFF000 0 0).1 = .returned 3 ∧
      s.readWarexecPathChecked nameEnv.memory 0x7FDFF000 .fileLike = .returned (.ok "/a".toList) ∧
      ¬ Granted twoUsers 1 s.fs "/a".toList ∧ ¬ FilesAsOwner fourLevel twoUsers none 1 := by
  have hrole : storedRole twoUsers 1 ≠ .admin := by decide
  have hacts : ¬ ActsFor twoUsers none 1 := by
    rintro (hadmin | ⟨login, hlogin, -⟩)
    · exact hrole hadmin
    · cases hlogin
  have hread : (privateFor 0).canRead (currentUid none) (currentRole none) := rfl
  obtain ⟨s', hopen⟩ := sysOpen_oneFile smallMachine twoUsers 1 hread
  refine ⟨oneFile_madeBy _ _ _ _ _, congrArg Prod.fst hopen, oneFile_name _ _ _ _ _,
    not_granted_oneFile _ _ _ _ _ hrole (by decide), fun h => hacts ?_⟩
  exact actsFor_of_filesAsOwner _ smallMachine h

end Waros.Kernel.Exec
