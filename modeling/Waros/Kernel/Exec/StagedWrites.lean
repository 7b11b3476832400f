import Waros.Kernel.Exec.ReadHistory

/-!
The histories of descriptors for writing. A file that is being created exists
only in the descriptor until it is closed: `sys_write` appends to the staged
data, and `sys_close` creates the file with it or leaves everything as it was.
In between the rest of the system may do what it likes with the other
descriptors, the other processes and the files.
-/

namespace Waros.Kernel.Exec

open Lib Memory Fs WarFS List Outcome Option

namespace SyscallState

variable {M : Mapper}

/-- The descriptor creates the file with that path, and holds the data. -/
def Stages (s : SyscallState M) (fd : UInt32) (path : Str) (staged : List UInt8) : Prop :=
  s.descriptorTarget fd = .ok (.file ⟨path, staged.length, .createWrite, staged⟩)

lemma putBytes_append (data bytes : List UInt8) :
    putBytes data data.length bytes = data ++ bytes := by
  simp [putBytes]

lemma length_of_mapM {α β : Type} {f : α → Option β} {xs : List α} {ys : List β}
    (h : xs.mapM f = some ys) : ys.length = xs.length := by
  induction xs generalizing ys with
  | nil => simp_all
  | cons _ _ ih =>
    rw [mapM_cons] at h
    obtain ⟨y, -, h⟩ := bind_eq_some_iff.1 h
    obtain ⟨rest, hr, h⟩ := bind_eq_some_iff.1 h
    rw [← some.inj h, length_cons, length_cons, ih hr]

lemma length_loadBytes {memory : UserBytes} {a len : ℕ} {bs : List UInt8}
    (h : loadBytes memory a len = some bs) : bs.length = len :=
  (length_of_mapM h).trans length_range

variable {fd other : UInt32} {path : Str} {staged : List UInt8}

/-- A new descriptor for writing holds nothing yet. -/
lemma sysOpen_stages {s s₁ : SyscallState M} {env : SyscallEnv} {pathPtr : ℕ}
    (h : s.sysOpen env pathPtr warexecOpenCreateWrite 0 = (.returned fd.toNat, s₁))
    (hslo : ∀ process, s.currentProcess = some process →
      process.fdTable.entries.length ≤ kernelHeapSize) :
    ∃ path, s.readWarexecPathChecked env.memory pathPtr .fileLike = .returned (.ok path) ∧
      s₁.Stages fd path [] := by
  obtain ⟨path, target, hp, htgt, hfd⟩ := sysOpen_descriptorTarget h hslo
  rw [openTarget, if_neg (by decide), if_pos rfl] at htgt
  split at htgt
  · cases htgt
  · rw [← Except.ok.inj htgt] at hfd
    exact ⟨path, hp, hfd⟩

section

variable {s : SyscallState M} {fd : UInt32} {path : Str} {staged : List UInt8}

lemma copyFromUserPtrChecked_cases (s : SyscallState M) (env : SyscallEnv) (buf : ℕ)
    {len : ℕ} (hlen : len ≠ 0) :
    s.copyFromUserPtrChecked env buf len = .panicked ∨
      (∃ error < 0, s.copyFromUserPtrChecked env buf len = .returned (.error error)) ∨
      ∃ bytes, s.copyFromUserPtrChecked env buf len = .returned (.ok bytes) ∧
        loadBytes env.memory buf len = some bytes := by
  rw [copyFromUserPtrChecked, if_neg hlen]
  rcases hrng : s.validateUserRange buf len with error | _
  · exact .inr (.inl ⟨error, validateUserRange_error_neg hrng, rfl⟩)
  split_ifs
  · exact .inl rfl
  · cases hld : loadBytes env.memory buf len with
    | none => exact .inl rfl
    | some bytes => exact .inr (.inr ⟨bytes, rfl, rfl⟩)

/-- A write changes nothing and does not return a length, or appends its whole
buffer and returns its length. -/
lemma sysWrite_cases (h : s.Stages fd path staged) (env : SyscallEnv) (buf len : ℕ) :
    (∃ outcome, s.sysWrite env fd buf len = (outcome, s) ∧
      ∀ result, outcome = .returned result → result ≤ 0) ∨
    ∃ bytes, loadBytes env.memory buf len = some bytes ∧ 0 < len ∧
      s.sysWrite env fd buf len = (.returned len, s.setTarget fd
          (.file ⟨path, (staged ++ bytes).length, .createWrite, staged ++ bytes⟩)) := by
  rw [sysWrite]
  by_cases hlen : len = 0
  · rw [if_pos hlen]
    refine .inl ⟨_, rfl, fun result hres => ?_⟩
    rw [← returned.inj hres]
  rw [if_neg hlen]
  rcases s.copyFromUserPtrChecked_cases env buf hlen with
    hcp | ⟨error, hneg, hcp⟩ | ⟨bytes, hcp, hld⟩
  · rw [hcp]
    exact .inl ⟨_, rfl, fun result hres => by cases hres⟩
  · rw [hcp]
    refine .inl ⟨_, rfl, fun result hres => ?_⟩
    rw [← returned.inj hres]
    exact hneg.le
  · have hbs := length_loadBytes hld
    rw [hcp, show s.descriptorTarget fd = _ from h]
    dsimp only
    rw [if_pos rfl, stageBytes]
    rw [U64.checkedAdd]
    split_ifs
    · dsimp only
      split_ifs
      · refine .inl ⟨_, rfl, fun result hres => ?_⟩
        rw [← returned.inj hres]
        decide
      · refine .inr ⟨bytes, hld, pos_of_ne_zero hlen, ?_⟩
        rw [putBytes_append, length_append, hbs]
    · refine .inl ⟨_, rfl, fun result hres => ?_⟩
      rw [← returned.inj hres]
      decide

/-- A creation is refused, or adds the one file. -/
lemma createNewCurrent_find (us : Auth.UserDB) (ses : Auth.CurrentSession) (fs : WarFS)
    (name : Str) (data : List UInt8) (now : ℕ) :
    (∃ error, createNewCurrent us ses fs name data now = (.error error, fs)) ∨
      ∃ canonical entry fs', createNewCurrent us ses fs name data now = (.ok canonical, fs') ∧
        canonicalPath (ses.resolvePath name) = .ok canonical ∧ fs.find canonical = none ∧
        fs'.find canonical = some entry ∧ entry.data = data ∧
        ∀ other, other ≠ canonical → fs'.find other = fs.find other := by
  rcases createNewCurrent_cases us ses fs name data now with
    href | ⟨canonical, entry, hval, hcrea, hnm, hd, -⟩
  · exact .inl href
  obtain ⟨-, hcan, hnew⟩ := validateCreateNewCurrent_ok hval
  refine .inr ⟨canonical, entry, _, hcrea, hcan, hnew, ?_, hd, fun other ho => ?_⟩
  · rw [find_sortByName, find, lookup_append_singleton, hnm, if_pos rfl,
      show lookup FileEntry.name canonical fs.files = none from hnew, none_or]
  · rw [find_sortByName, find, lookup_append_singleton, hnm, if_neg ho.symm, or_none]
    rfl

/-- Closing is refused and changes nothing, or creates the file. -/
lemma sysClose_cases (h : s.Stages fd path staged) (env : SyscallEnv) :
    (∃ error < 0, s.sysClose env fd = (.returned error, s)) ∨ (s.sysClose env fd).1 = .returned 0 ∧
      ∃ canonical entry, canonicalPath (s.kernel.session.resolvePath path) = .ok canonical ∧
        s.fs.find canonical = none ∧ (s.sysClose env fd).2.fs.find canonical = some entry ∧
        entry.data = staged ∧
        ∀ other, other ≠ canonical → (s.sysClose env fd).2.fs.find other = s.fs.find other := by
  rw [sysClose, show s.descriptorTarget fd = _ from h]
  dsimp only
  rw [if_pos rfl]
  rcases createNewCurrent_find s.kernel.users s.kernel.session s.fs path staged env.now with
    ⟨error, hcre⟩ | ⟨canonical, entry, fs', hcre, hcan, hnew, hf, hd, hots⟩
  · rw [hcre]
    exact .inl ⟨_, mapFsError_neg error, rfl⟩
  · rw [hcre]
    obtain ⟨process, descriptor, hproc, hget, -⟩ := descriptorTarget_eq_ok_iff.1 h
    refine .inr ⟨?_, canonical, entry, hcan, hnew, ?_⟩
    · have hproc' : { s with fs := fs' }.currentProcess = some process := hproc
      simp only [closeDescriptor, hproc', FileDescriptorTable.close, hget, if_true]
    · rw [closeDescriptor_fs]
      exact ⟨hf, hd, hots⟩

end

inductive FileCall
  | openFile (env : SyscallEnv) (path : ℕ) (flags mode : UInt32)
  | read (fd : UInt32) (buffer len : ℕ)
  | write (env : SyscallEnv) (fd : UInt32) (buffer len : ℕ)
  | close (env : SyscallEnv) (fd : UInt32)
  | stat (env : SyscallEnv) (path statOut : ℕ)
  | fstat (fd : UInt32) (statOut : ℕ)
  | readdir (fd : UInt32) (entryOut : ℕ)

def FileCall.descriptor : FileCall → Option UInt32
  | .openFile .. | .stat .. => none
  | .read fd .. | .write _ fd .. | .close _ fd | .fstat fd _ | .readdir fd _ => some fd

def fileCall (s : SyscallState M) : FileCall → Outcome ℤ × SyscallState M
  | .openFile env path flags mode => s.sysOpen env path flags mode
  | .read fd buffer len => s.sysRead fd buffer len
  | .write env fd buffer len => s.sysWrite env fd buffer len
  | .close env fd => s.sysClose env fd
  | .stat env path statOut => s.sysStat env path statOut
  | .fstat fd statOut => s.sysFstat fd statOut
  | .readdir fd entryOut => s.sysReaddir fd entryOut

section

variable (s : SyscallState M)

include s

lemma replyStruct_eq (dst : ℕ) (bs : List UInt8) (res : ℤ) :
    ∃ stores, (s.replyStruct dst bs res).2 = { s with machine := { s.machine with stores } } := by
  obtain ⟨stores, hsto⟩ := Machine.store_eq s.machine dst bs.length
    fun i => bs.getD i 0
  unfold replyStruct writeStructToUserChecked storeUser
  cases s.validateUserRange dst bs.length with
  | error => exact ⟨s.machine.stores, rfl⟩
  | ok =>
    generalize s.machine.store dst bs.length (fun i => bs.getD i 0) = r at hsto ⊢
    obtain ⟨fault, machine⟩ := r
    cases fault <;> exact ⟨stores, by rw [← hsto]⟩

lemma sysStat_eq (env : SyscallEnv) (path statOut : ℕ) :
    ∃ stores, (s.sysStat env path statOut).2 = { s with machine := { s.machine with stores } } := by
  rw [sysStat]
  split
  · exact ⟨s.machine.stores, rfl⟩
  · exact ⟨s.machine.stores, rfl⟩
  · exact s.replyStruct_eq ..

lemma sysFstat_eq (fd : UInt32) (statOut : ℕ) :
    ∃ stores, (s.sysFstat fd statOut).2 = { s with machine := { s.machine with stores } } := by
  rw [sysFstat]
  split
  · exact ⟨s.machine.stores, rfl⟩
  · exact s.replyStruct_eq ..

lemma sysOpen_fs (env : SyscallEnv) (path : ℕ) (fl mode : UInt32) :
    (s.sysOpen env path fl mode).2.fs = s.fs := by
  rw [sysOpen]
  generalize (if fl = warexecOpenDirectory then WarExecPathKind.directory
    else .fileLike) = kind
  split_ifs
  · rfl
  · rfl
  split
  · rfl
  · rfl
  · split
    · rfl
    · split
      · rfl
      · exact modifyCurrent_fs _ _

/-- A write changes no other descriptor, whatever it writes to. -/
lemma sysWrite_keeps (env : SyscallEnv) (h : other ≠ fd) (buf len : ℕ) :
    (s.sysWrite env fd buf len).2.descriptorTarget other = s.descriptorTarget other := by
  rw [sysWrite]
  split_ifs
  · rfl
  split
  · rfl
  · rfl
  · split
    · rfl
    · rfl
    · rfl
    · split_ifs
      · rw [stageBytes]
        split
        · rfl
        · split_ifs
          · rfl
          · exact descriptorTarget_setTarget_of_ne h _
      · rfl
    · rfl

lemma sysReaddir_keeps (h : other ≠ fd) (out : ℕ) :
    (s.sysReaddir fd out).2.descriptorTarget other = s.descriptorTarget other := by
  rw [sysReaddir]
  split
  · rfl
  · dsimp only
    split_ifs
    · exact descriptorTarget_setTarget_of_ne h _
    · obtain ⟨ss, hrep⟩ := replyStruct_eq (s.setTarget fd _) out _ 1
      rw [hrep]
      exact descriptorTarget_setTarget_of_ne h _

end

variable {call : FileCall}

/-- A call on something else leaves the descriptor alone. -/
lemma fileCall_keeps {s : SyscallState M} {target : DescriptorTarget}
    (h : s.descriptorTarget fd = .ok target) (hc : call.descriptor ≠ some fd) :
    (s.fileCall call).2.descriptorTarget fd = .ok target := by
  cases call with
  | openFile env path fl mode => exact sysOpen_keeps h env path fl mode
  | read _ buf len =>
    exact (s.sysRead_keeps (fun heq => hc (congrArg some heq.symm)) buf len).trans h
  | write env _ buf len =>
    exact (s.sysWrite_keeps env (fun heq => hc (congrArg some heq.symm)) buf len).trans h
  | close env => exact (s.sysClose_keeps env fun heq => hc (congrArg some heq.symm)).trans h
  | stat env path statOut =>
    obtain ⟨ss, hsa⟩ := s.sysStat_eq env path statOut
    rw [fileCall, hsa]
    exact h
  | fstat other statOut =>
    obtain ⟨ss, hsa⟩ := s.sysFstat_eq other statOut
    rw [fileCall, hsa]
    exact h
  | readdir _ entryOut =>
    exact (s.sysReaddir_keeps (fun heq => hc (congrArg some heq.symm)) entryOut).trans h

/-! ### Histories -/

/-- What a call hands over to the descriptor: the buffer of a write to it that
returns a positive length. -/
def accepted (fd : UInt32) (s : SyscallState M) : FileCall → List UInt8
  | .write env fd' buffer len =>
    match (s.sysWrite env fd' buffer len).1 with
    | .returned result =>
      if fd' = fd ∧ 0 < result then (loadBytes env.memory buffer len).getD [] else []
    | .panicked => []
  | .openFile .. | .read .. | .close .. | .stat .. | .fstat .. | .readdir .. => []

/-- The process makes a call, or something else happens: other processes run,
files come and go, the session changes. -/
inductive FileEvent (M : Mapper)
  | call (call : FileCall)
  | elsewhere (s : SyscallState M)

def afterEvent (s : SyscallState M) : FileEvent M → SyscallState M
  | .call call => (s.fileCall call).2
  | .elsewhere s' => s'

/-- The descriptor is not closed, and only the calls of its process use it. -/
def StaysOpen (fd : UInt32) (s : SyscallState M) : FileEvent M → Prop
  | .call call => ∀ env, call = .close env fd → (s.fileCall call).1 ≠ .returned 0
  | .elsewhere s' => s'.descriptorTarget fd = s.descriptorTarget fd

/-- All that was handed over, in order. -/
def handedOver (fd : UInt32) : SyscallState M → List (FileEvent M) → List UInt8
  | _, [] => []
  | s, .call call :: events => s.accepted fd call ++ handedOver fd (s.fileCall call).2 events
  | _, .elsewhere s' :: events => handedOver fd s' events

/-- A call on the descriptor: it is closed for good, or takes what it is handed
and leaves the files alone. -/
lemma fileCall_stages {s : SyscallState M}
    (h : s.Stages fd path staged) (hc : call.descriptor = some fd)
    (hop : ∀ env, call = .close env fd → (s.fileCall call).1 ≠ .returned 0) :
    (s.fileCall call).2.Stages fd path (staged ++ s.accepted fd call) ∧
      (s.fileCall call).2.fs = s.fs := by
  cases call with
  | openFile | stat => cases hc
  | read other _ len =>
    obtain rfl : other = fd := some.inj hc
    have hpl : s.readPlan other len = .error enosys := by
      rw [readPlan, show s.descriptorTarget other = _ from h]
      rfl
    rw [fileCall, sysRead, hpl, accepted, append_nil]
    exact ⟨h, rfl⟩
  | write env other buf len =>
    obtain rfl : other = fd := some.inj hc
    rw [fileCall, accepted]
    rcases sysWrite_cases h env buf len with ⟨o, hwr, hle⟩ | ⟨bs, hld, hpos, hwr⟩
    · rw [hwr]
      refine ⟨?_, rfl⟩
      cases o with
      | panicked =>
        rw [append_nil]
        exact h
      | returned res =>
        dsimp only
        rw [if_neg fun hres => absurd (hle res rfl) (not_le.2 hres.2), append_nil]
        exact h
    · rw [hwr]
      dsimp only
      rw [if_pos ⟨rfl, by exact_mod_cast hpos⟩, hld]
      exact ⟨descriptorTarget_setTarget_self h _, modifyCurrent_fs _ _⟩
  | close env other =>
    obtain rfl : other = fd := some.inj hc
    rw [accepted, append_nil]
    rcases sysClose_cases h env with ⟨error, -, hcl⟩ | ⟨h0, -⟩
    · rw [fileCall, hcl]
      exact ⟨h, rfl⟩
    · exact absurd h0 (hop env rfl)
  | fstat other statOut =>
    obtain ⟨ss, hsa⟩ := s.sysFstat_eq other statOut
    rw [fileCall, hsa, accepted, append_nil]
    exact ⟨h, rfl⟩
  | readdir other =>
    obtain rfl : other = fd := some.inj hc
    have hpl : s.readdirPlan other = .error enosys := by
      rw [readdirPlan, show s.descriptorTarget other = _ from h]
    rw [fileCall, sysReaddir, hpl, accepted, append_nil]
    exact ⟨h, rfl⟩

lemma accepted_of_ne {s : SyscallState M} (h : call.descriptor ≠ some fd) :
    s.accepted fd call = [] := by
  cases call with
  | write =>
    rw [accepted]
    split
    · exact if_neg fun hres => h (congrArg some hres.1)
    · rfl
  | _ => rfl

/-- A whole history: the descriptor holds what was handed over. -/
lemma stages_run {s : SyscallState M} {evs : List (FileEvent M)} (h : s.Stages fd path staged)
    (hevs : StepsOk afterEvent (fun s => s.StaysOpen fd) s evs) :
    (run afterEvent s evs).Stages fd path (staged ++ s.handedOver fd evs) := by
  induction evs generalizing s staged with
  | nil =>
    rw [handedOver, append_nil]
    exact h
  | cons ev _ ih =>
    obtain ⟨heve, hevs⟩ := hevs
    cases ev with
    | elsewhere => exact ih (.trans heve h) hevs
    | call call =>
      rw [handedOver, ← append_assoc]
      refine ih ?_ hevs
      by_cases hc : call.descriptor = some fd
      · exact (fileCall_stages h hc heve).1
      · rw [accepted_of_ne hc, append_nil]
        exact fileCall_keeps h hc

/-- What the calls on a descriptor for writing do, given what it holds. -/
structure WritesAtClose (s : SyscallState M) (fd : UInt32) (path : Str) (staged : List UInt8) :
    Prop where
  /-- Only a close that returns 0 changes the files. -/
  files : ∀ call : FileCall, call.descriptor = some fd →
    (∀ env, call = .close env fd → (s.fileCall call).1 ≠ .returned 0) →
    (s.fileCall call).2.fs = s.fs
  /-- The descriptor stands at the end of what it holds. -/
  holds : s.Stages fd path staged
  write_failed : ∀ env buffer len,
    (∀ result, (s.sysWrite env fd buffer len).1 = .returned result → result ≤ 0) →
    (s.sysWrite env fd buffer len).2 = s
  close_failed : ∀ env, (s.sysClose env fd).1 ≠ .returned 0 → (s.sysClose env fd).2 = s
  close_done : ∀ env, (s.sysClose env fd).1 = .returned 0 → ∃ canonical entry,
    canonicalPath (s.kernel.session.resolvePath path) = .ok canonical ∧
    s.fs.find canonical = none ∧ (s.sysClose env fd).2.fs.find canonical = some entry ∧
    entry.data = staged ∧
    ∀ other, other ≠ canonical → (s.sysClose env fd).2.fs.find other = s.fs.find other

lemma writesAtClose_of_stages {s : SyscallState M}
    (h : s.Stages fd path staged) : s.WritesAtClose fd path staged where
  files _ hc hop := (fileCall_stages h hc hop).2
  holds := h
  write_failed env buffer len hfail := by
    rcases sysWrite_cases h env buffer len with ⟨o, hwr, -⟩ | ⟨bs, -, hpos, hwr⟩
    · rw [hwr]
    · have hle := hfail len (by rw [hwr])
      omega
  close_failed env hfail := by
    rcases sysClose_cases h env with ⟨error, -, hcl⟩ | ⟨h0, -⟩
    · rw [hcl]
    · exact absurd h0 hfail
  close_done env hdone := by
    rcases sysClose_cases h env with ⟨error, hneg, hcl⟩ | ⟨-, hcrea⟩
    · rw [hcl] at hdone
      have herr := returned.inj hdone
      omega
    · exact hcrea

/-- A descriptor is opened for writing. Whatever calls the process makes and
whatever else happens, until the descriptor is closed: it holds the buffers of
the writes to it that succeeded, and it becomes a file with them when it is
closed, not before. -/
theorem staged_until_closed {s s₁ : SyscallState M} {env : SyscallEnv} {pathPtr : ℕ}
    {fd : UInt32}
    (hopen : s.sysOpen env pathPtr warexecOpenCreateWrite 0 = (.returned fd.toNat, s₁))
    (hslots : ∀ process, s.currentProcess = some process →
      process.fdTable.entries.length ≤ kernelHeapSize) :
    s₁.fs = s.fs ∧
    ∃ path, s.readWarexecPathChecked env.memory pathPtr .fileLike = .returned (.ok path) ∧
      ∀ events : List (FileEvent M), StepsOk afterEvent (fun s => s.StaysOpen fd) s₁ events →
        (run afterEvent s₁ events).WritesAtClose fd path (s₁.handedOver fd events) := by
  obtain ⟨path, hp, hsta⟩ := sysOpen_stages hopen hslots
  refine ⟨?_, path, hp, fun events hevs => ?_⟩
  · have hfs := s.sysOpen_fs env pathPtr warexecOpenCreateWrite 0
    rwa [hopen] at hfs
  · exact writesAtClose_of_stages (stages_run hsta hevs)

/-- A file is opened in an empty filesystem, and its own name is written to it. -/
theorem staged_until_closed_name : let s : SyscallState fourLevel :=
      { oneFile smallMachine ⟨[], 1000⟩ none 1000 0 with fs := ⟨[], 128⟩ }
    let events : List (FileEvent fourLevel) := [.call (.write nameEnv 3 0x7FDFF000 2)]
    ∃ s₁, s.sysOpen nameEnv 0x7FDFF000 warexecOpenCreateWrite 0 = (.returned 3, s₁) ∧
      (run afterEvent s₁ events).WritesAtClose 3 "/a".toList (s₁.handedOver 3 events) := by
  intro s events
  have hop : ∃ s₁, s.sysOpen nameEnv 0x7FDFF000 warexecOpenCreateWrite 0 =
      (.returned (3 : UInt32).toNat, s₁) := by
    exact ⟨_, rfl⟩
  obtain ⟨s₁, hop⟩ := hop
  obtain ⟨-, path, hp, hstaged⟩ := staged_until_closed hop fun p hproc => by
    cases hproc
    decide
  obtain rfl : "/a".toList = path := by injection hp with hp; injection hp
  refine ⟨s₁, hop, hstaged events ⟨?_, trivial⟩⟩
  intro env hcl
  cases hcl

end SyscallState

end Waros.Kernel.Exec
