import Waros.Kernel.Exec.LoaderSafety
import Waros.Kernel.Exec.Spawn
import Waros.Kernel.Security.SessionRuns

/-!
Capabilities over runs of spawns, execs and drops.

A process is created with what it inherits from its parent, cut down to the
default set of its user, and from then on its capabilities only shrink. What a
process drops is lost for it and for all that it spawns from then on; a child
that it spawned before keeps its own capabilities.

Between the calls the users, the session and the scheduler may change in any
way, and every call may find any filesystem and any machine.
-/

namespace Waros.Kernel.Security

open Lib Auth Exec Memory Capabilities ProcessTable SyscallState Loader KernelState Option

inductive CapabilityEvent (M : Mapper)
  | environment (users : UserDB) (session : CurrentSession) (scheduler : Scheduler)
  | ensureShell (now : ℕ)
  | spawnProcess (fs : Fs.WarFS) (machine : Machine M) (loader : LoaderEnv) (path : Str)
      (args : List Str) (env : List (Str × Str)) (uid : Uid) (parentPid : Pid)
      (priority : Priority) (now : ℕ)
  | spawnCommand (commandLine : Str) (priority : Priority) (task : Option ℕ) (now : ℕ)
  | execve (fs : Fs.WarFS) (machine : Machine M) (memory : UserBytes) (loader : LoaderEnv)
      (kernelCr3 path argv : ℕ)
  | drop (caps : Capabilities)

variable {M : Mapper}

def capabilityStep (k : KernelState) : CapabilityEvent M → KernelState
  | .environment users session scheduler => { k with users, session, scheduler }
  | .ensureShell now => (ensureShellProcess k now).2
  | .spawnProcess fs machine loader path args env uid parentPid priority now =>
    ((⟨k, fs, machine⟩ : SyscallState M).spawnProcess loader path args env uid parentPid
      priority now).2.kernel
  | .spawnCommand commandLine priority task now =>
    (spawnShellCommand k commandLine priority task now).2
  | .execve fs machine memory loader kernelCr3 path argv =>
    ((⟨k, fs, machine⟩ : SyscallState M).sysExecve memory loader kernelCr3 path argv).2.kernel
  | .drop caps => dropCapabilities k caps

/-- The state in which `spawn_process` or `spawn_shell_command` creates its
process; the latter has made sure that there is a shell. An event that spawns
nothing has no such moment, and the state after it stands in. -/
def atSpawn (k : KernelState) : CapabilityEvent M → KernelState
  | .spawnProcess _ _ _ _ _ _ _ _ _ _ => k
  | .spawnCommand _ _ _ now => (ensureShellProcess k now).2
  | event => capabilityStep k event

/-- The event spawns `child` under the pid. -/
def Spawns (k : KernelState) (event : CapabilityEvent M) (pid : Pid) (child : Process) : Prop :=
  (atSpawn k event).table.get pid = none ∧ (capabilityStep k event).table.get pid = some child

/-- A set of pids together with those of the processes that the event spawns
from one of them. -/
def withChildren (k : KernelState) (event : CapabilityEvent M) (family : Set Pid) : Set Pid :=
  family ∪ {pid | ∃ child, Spawns k event pid child ∧ child.parentPid ∈ family}

/-- A set of pids together with those of all the processes that come from them
in the course of the events. -/
def familyAfter (k : KernelState) (family : Set Pid) : List (CapabilityEvent M) → Set Pid
  | [] => family
  | event :: events => familyAfter (capabilityStep k event) (withChildren k event family) events

/-! ### Processes stay, and their capabilities shrink -/

/-- Every process of `k` is still there in `k'`, with no more capabilities. -/
def Narrows (k k' : KernelState) : Prop :=
  ∀ pid uid caps, holder k.table pid = some (uid, caps) →
    ∃ caps', holder k'.table pid = some (uid, caps') ∧ caps' ⊆ caps

variable (k : KernelState) (s : SyscallState M) (loader : LoaderEnv) (event : CapabilityEvent M)
  {pid : Pid} {caps : Capabilities} {family : Set Pid}

lemma Narrows.refl : Narrows k k := fun _ _ caps h => ⟨caps, h, .refl caps⟩

lemma Narrows.trans {k₁ k₂ k₃ : KernelState} (h₁ : Narrows k₁ k₂) (h₂ : Narrows k₂ k₃) :
    Narrows k₁ k₃ := by
  intro pid uid caps h
  obtain ⟨caps₂, hhd₂, hsub₂⟩ := h₁ pid uid caps h
  obtain ⟨caps₃, hhd₃, hsub₃⟩ := h₂ pid uid caps₂ hhd₂
  exact ⟨caps₃, hhd₃, Capabilities.Subset.trans hsub₃ hsub₂⟩

variable {k' : KernelState} {child process : Process}

lemma Narrows.of_or {k : KernelState} {extra : Pid → Option (Uid × Capabilities)}
    (h : ∀ j, holder k'.table j = (holder k.table j).or (extra j)) : Narrows k k' := by
  intro pid uid caps hhd
  exact ⟨caps, by rw [h, hhd]; rfl, .refl caps⟩

lemma Narrows.of_eq {k : KernelState} (h : k'.table = k.table) : Narrows k k' := by
  intro pid uid caps hhd
  exact ⟨caps, by rw [h, hhd], .refl caps⟩

/-- Changing one process, with no capability added. -/
lemma Narrows.modify (pid : Pid) {f : Process → Process} (hpid : ∀ p, (f p).pid = p.pid)
    (huid : ∀ p, (f p).uid = p.uid) (hca : ∀ p, k.table.get pid = some p →
      (f p).effectiveCapabilities ⊆ p.effectiveCapabilities) :
    Narrows k { k with table := k.table.modify pid f } := by
  intro j uid caps hhd
  obtain ⟨process, hproc, hpair⟩ := map_eq_some_iff.mp hhd
  cases hpair
  by_cases hj : j = pid
  · subst hj
    refine ⟨(f process).effectiveCapabilities, ?_, hca process hproc⟩
    simp [holder, get_modify k.table j hpid, hproc, huid]
  · refine ⟨process.effectiveCapabilities, ?_, .refl _⟩
    simp [holder, get_modify k.table pid hpid, hproc, hj]

lemma narrows_ensureShellProcess (now : ℕ) : Narrows k (ensureShellProcess k now).2 := by
  generalize hr : ensureShellProcess k now = r
  have hsrc := ensureShellProcess_source k now
  rw [hr] at hsrc
  cases hsrc with
  | reused => exact .of_eq rfl
  | created _ hcre =>
    have hhd := holder_createProcess hcre
    exact .of_or hhd
  | full => exact fun pid uid caps h => ⟨caps, h, .refl caps⟩

lemma narrows_spawnShellCommand (cmd : Str) (prio : Priority) (task : Option ℕ) (now : ℕ) :
    Narrows (ensureShellProcess k now).2 (spawnShellCommand k cmd prio task now).2 := by
  rcases spawnShellCommand_cases k cmd prio task now with hs | ⟨_, _, _, _, hspn⟩
  · rw [hs]
    exact .refl _
  · exact .of_or hspn.holder

lemma narrows_dropCapabilities (caps : Capabilities) : Narrows k (dropCapabilities k caps) := by
  unfold dropCapabilities
  split
  · exact .refl k
  · exact .modify k _ (fun _ => rfl) (fun _ => rfl) fun _ _ => remove_subset _ _

lemma addProcess_cases (p : Process) (prio : Priority) :
    (s.addProcess p prio).2.kernel = s.kernel ∨
      Spawned s.kernel p (s.addProcess p prio).2.kernel := by
  unfold addProcess
  split
  · exact .inl rfl
  · next hcre => exact .inr (.of_createProcess hcre prio)

lemma spawnProcess_cases (path : Str) (args : List Str) (env : List (Str × Str)) (uid : Uid)
    (par : Pid) (prio : Priority) (now : ℕ) :
    (s.spawnProcess loader path args env uid par prio now).2.kernel = s.kernel ∨
      ∃ process : Process, process.uid = uid ∧ process.parentPid = par ∧
        process.effectiveCapabilities = spawnCapabilities s.kernel par uid ∧
        Spawned s.kernel process
          (s.spawnProcess loader path args env uid par prio now).2.kernel := by
  unfold spawnProcess
  split
  · exact .inl rfl
  · split
    · exact .inl rfl
    · split
      · exact .inl rfl
      · next pageTablePhys m _ =>
        generalize mapProcessImage loader pageTablePhys _ _ _ m = r
        obtain ⟨o, m'⟩ := r
        match o with
        | .panicked | .returned (.error _) => exact .inl rfl
        | .returned (.ok image) =>
          rcases addProcess_cases (s.restore m')
            (processOf s.kernel path env uid par prio now pageTablePhys image)
            prio with hs | hspn
          · exact .inl hs
          · exact .inr ⟨_, rfl, rfl, rfl, hspn⟩

lemma execImage_cases (cr3 : ℕ) (pid : Pid) (old : Process) (path : Str) (args : List Str) :
    (s.execImage loader cr3 pid old path args).2.kernel = s.kernel ∨
      ∃ pageTablePhys image, (s.execImage loader cr3 pid old path args).2.kernel = { s.kernel with
          table := s.kernel.table.modify pid (replaceImage path pageTablePhys image
            (execCapabilities s.kernel old.effectiveCapabilities old.uid)) } := by
  unfold execImage
  split
  · exact .inl rfl
  · split
    · exact .inl rfl
    · split
      · exact .inl rfl
      · next pageTablePhys m _ =>
        generalize mapProcessImage loader pageTablePhys _ _ _ m = r
        obtain ⟨o, m'⟩ := r
        match o with
        | .panicked | .returned (.error _) => exact .inl rfl
        | .returned (.ok image) =>
          refine .inr ⟨pageTablePhys, image, ?_⟩
          dsimp only [commitExec]
          generalize teardownProcessImage cr3 old.pageTablePhys old.addressSpace
            (s.restore m').machine = teardown
          obtain ⟨o, m''⟩ := teardown
          cases o <;> rfl

lemma narrows_sysExecve (memory : UserBytes) (ld : LoaderEnv) (cr3 path argv : ℕ) :
    Narrows s.kernel (s.sysExecve memory ld cr3 path argv).2.kernel := by
  unfold sysExecve
  split
  · exact .refl _
  · exact .refl _
  · next pathStr args _ =>
    split
    · exact .refl _
    · next pid _ =>
      split
      · exact .refl _
      · next old hold =>
        rcases execImage_cases s ld cr3 pid old pathStr args with hs | ⟨_, _, hnew⟩
        · rw [hs]
          exact .refl _
        · rw [hnew]
          refine .modify s.kernel pid (fun _ => rfl) (fun _ => rfl) ?_
          intro process hproc
          obtain rfl := some.inj (hold.symm.trans hproc)
          exact inter_subset_left _ _

lemma narrows_atSpawn : Narrows (atSpawn k event) (capabilityStep k event) := by
  cases event with
  | spawnProcess fs m loader path args env uid par prio now =>
    rcases spawnProcess_cases (⟨k, fs, m⟩) loader path args env uid
      par prio now with hs | ⟨_, _, _, _, hspn⟩
    · exact .of_eq (congrArg table hs)
    · exact .of_or hspn.holder
  | spawnCommand commandLine prio task now =>
    exact narrows_spawnShellCommand k commandLine prio task now
  | _ => exact .refl _

lemma narrows_step : Narrows k (capabilityStep k event) := by
  cases event with
  | environment => exact .of_eq rfl
  | ensureShell now => exact narrows_ensureShellProcess k now
  | spawnProcess fs m loader path args env uid par prio now =>
    exact narrows_atSpawn k (.spawnProcess fs m loader path args env uid par prio now)
  | spawnCommand commandLine prio task now =>
    exact (narrows_ensureShellProcess k now).trans
      (narrows_spawnShellCommand k commandLine prio task now)
  | execve fs m mem loader kernelCr3 path argv =>
    exact narrows_sysExecve (⟨k, fs, m⟩) mem loader kernelCr3 path argv
  | drop caps => exact narrows_dropCapabilities k caps

lemma narrows_run (evs : List (CapabilityEvent M)) : Narrows k (run capabilityStep k evs) :=
  run_related .refl .trans narrows_step k evs

lemma Spawned.child_caps {k : KernelState}
    (h : Spawned k process k') (hn : k.table.get pid = none) (hch : k'.table.get pid = some child) :
    child.uid = process.uid ∧ child.parentPid = process.parentPid ∧
      child.effectiveCapabilities = process.effectiveCapabilities := by
  have hhd := h.holder pid
  simp only [Security.holder, hn, hch, map_some, map_none, none_or] at hhd
  split_ifs at hhd
  obtain ⟨huid, hca⟩ := Prod.mk.inj (some.inj hhd)
  exact ⟨huid, h.parentPid pid hn child hch, hca⟩

variable {ev : CapabilityEvent M}

/-- A spawned process has what it inherits from the parent it was given. -/
lemma Spawns.caps_eq {k : KernelState} (h : Spawns k ev pid child) :
    child.effectiveCapabilities = spawnCapabilities
    (atSpawn k ev) child.parentPid child.uid := by
  obtain ⟨hn, hch⟩ := h
  cases ev with
  | spawnProcess fs m loader path args env uid parentPid prio now =>
    rcases spawnProcess_cases (⟨k, fs, m⟩) loader path args env uid
      parentPid prio now with hs | ⟨process, huid, hpar, hca, hspn⟩
    · rw [capabilityStep, hs] at hch
      cases hn.symm.trans hch
    · obtain ⟨huid', hpar', hca'⟩ := hspn.child_caps hn hch
      rw [hca', hca, huid', huid, hpar', hpar]
      rfl
  | spawnCommand commandLine prio task now =>
    rcases spawnShellCommand_cases k commandLine prio task now with
      hs | ⟨process, huid, hpar, hca, hspn⟩
    · rw [capabilityStep, hs] at hch
      cases hn.symm.trans hch
    · obtain ⟨huid', hpar', hca'⟩ := hspn.child_caps hn hch
      rw [hca', hca, huid', hpar', hpar]
      rfl
  | _ => cases hn.symm.trans hch

lemma Spawns.caps_of_parent {k : KernelState} {parent : Process} (h : Spawns k ev pid child)
    (hpar : (atSpawn k ev).table.get child.parentPid = some parent) :
    child.effectiveCapabilities = parent.effectiveCapabilities.inter
      (defaultForUid (atSpawn k ev) child.uid) := by
  rw [h.caps_eq, spawnCapabilities, processCapabilities, hpar]
  rfl

/-- The processes of the set exist, and none has one of the capabilities. -/
def Clear (k : KernelState) (caps : Capabilities) (family : Set Pid) : Prop :=
  ∀ pid ∈ family, ∃ owner, holder k.table pid = some owner ∧ owner.2.Disjoint caps

lemma Clear.narrows {k : KernelState} (h : Clear k caps family) (hk : Narrows k k') :
    Clear k' caps family := by
  intro pid hpid
  obtain ⟨⟨uid, held⟩, hhd, hdisj⟩ := h pid hpid
  obtain ⟨held', hhd', hsub⟩ := hk pid uid held hhd
  exact ⟨(uid, held'), hhd', .mono hsub hdisj⟩

lemma narrows_to_atSpawn : Narrows k (atSpawn k event) := by
  cases event with
  | spawnProcess => exact .refl k
  | spawnCommand _ _ _ now | ensureShell now => exact narrows_ensureShellProcess k now
  | environment => exact .of_eq rfl
  | execve fs m mem loader kernelCr3 path argv =>
    exact narrows_step k (.execve fs m mem loader kernelCr3 path argv)
  | drop caps => exact narrows_dropCapabilities k caps

/-- A process spawned from a clear one is clear. -/
lemma Clear.step {k : KernelState} (h : Clear k caps family) (ev : CapabilityEvent M) :
    Clear (capabilityStep k ev) caps (withChildren k ev family) := by
  rintro pid (hpid | ⟨child, hspace, hpar⟩)
  · exact h.narrows (narrows_step k ev) pid hpid
  · obtain ⟨⟨uid, held⟩, hhd, hdisj⟩ := h.narrows (narrows_to_atSpawn k ev) child.parentPid hpar
    obtain ⟨parent, hget, hpair⟩ := map_eq_some_iff.mp hhd
    obtain ⟨-, rfl⟩ := Prod.mk.inj hpair
    refine ⟨(child.uid, child.effectiveCapabilities), by simp [holder, hspace.2], ?_⟩
    rw [hspace.caps_of_parent hget]
    exact .mono (inter_subset_left _ _) hdisj

lemma Clear.run {k : KernelState} (h : Clear k caps family) (evs : List (CapabilityEvent M)) :
    Clear (run capabilityStep k evs) caps (familyAfter k family evs) := by
  induction evs generalizing k family with
  | nil => exact h
  | cons event _ ih => exact ih (h.step event)

lemma clear_dropCapabilities {k : KernelState}
    (hcur : k.currentPid = some pid) (hget : k.table.get pid = some process)
    (caps : Capabilities) : Clear (dropCapabilities k caps) caps {pid} := by
  rintro j rfl
  refine ⟨(process.uid, process.effectiveCapabilities.remove caps), ?_, remove_disjoint _ _⟩
  have hmod := get_modify k.table j (f := fun process =>
    { process with effectiveCapabilities := process.effectiveCapabilities.remove caps })
    (fun _ => rfl) j
  rw [if_pos rfl, hget] at hmod
  unfold dropCapabilities holder
  rw [hcur]
  exact congrArg (Option.map _) hmod

/-- At every moment of every run: a process has at most what its parent had
when it was spawned and what its user has by default; an exec adds nothing;
and what a process drops is gone for it and for all that comes from it. -/
theorem capabilities_only_narrow (k : KernelState) :
    (∀ (event : CapabilityEvent M) (later : List (CapabilityEvent M)) (pid : Pid)
        (child parent child' : Process), Spawns k event pid child →
      (atSpawn k event).table.get child.parentPid = some parent →
      (run capabilityStep (capabilityStep k event) later).table.get pid = some child' →
        child'.effectiveCapabilities ⊆ parent.effectiveCapabilities.inter
          (defaultForUid (atSpawn k event) child.uid)) ∧
    (∀ (fs : Fs.WarFS) (machine : Machine M) (memory : UserBytes) (loader : LoaderEnv)
        (kernelCr3 path argv : ℕ) (pid : Pid) (process process' : Process),
      k.table.get pid = some process →
      (capabilityStep k (.execve fs machine memory loader kernelCr3 path argv)).table.get pid =
        some process' →
        process'.effectiveCapabilities ⊆ process.effectiveCapabilities) ∧
    (∀ (caps : Capabilities) (later : List (CapabilityEvent M)) (pid : Pid) (process : Process),
      k.currentPid = some pid → k.table.get pid = some process →
      ∀ member ∈ familyAfter (dropCapabilities k caps) {pid} later, ∀ process',
        (run capabilityStep (dropCapabilities k caps) later).table.get member = some process' →
          process'.effectiveCapabilities.Disjoint caps) := by
  refine ⟨?_, ?_, ?_⟩
  · intro event later pid child parent child' hspace hpar hch'
    obtain ⟨held, hhd, hsub⟩ := narrows_run (capabilityStep k event) later pid child.uid
      child.effectiveCapabilities (by simp [holder, hspace.2])
    simp only [holder, hch', map_some, some.injEq, Prod.mk.injEq] at hhd
    rw [← hspace.caps_of_parent hpar, hhd.2]
    exact hsub
  · intro fs machine memory loader kernelCr3 path argv pid process process' hproc hproc'
    obtain ⟨held, hhd, hsub⟩ := narrows_step k
      (.execve fs machine memory loader kernelCr3 path argv) pid process.uid
      process.effectiveCapabilities (by simp [holder, hproc])
    simp only [holder, hproc', map_some, some.injEq, Prod.mk.injEq] at hhd
    rw [hhd.2]
    exact hsub
  · intro caps later pid process hcur hget member hmem process' hproc'
    obtain ⟨owner, hhd, hdisj⟩ := (clear_dropCapabilities hcur hget caps).run later member hmem
    simp only [holder, hproc', map_some, some.injEq] at hhd
    rw [← hhd] at hdisj
    exact hdisj

/-- Root's shell, process 1, with a command that it has started, process 2. -/
def rootShell : KernelState :=
  run capabilityStep (init rootAndBob)
    ([.environment rootAndBob (some (.start rootAccount 0))
        (init rootAndBob).scheduler.disable,
      .ensureShell 0, .spawnCommand "top".toList .normal (some 1) 0] :
      List (CapabilityEvent fourLevel))

def startPs : CapabilityEvent fourLevel := .spawnCommand "ps".toList .normal (some 2) 0

def programFile : Fs.WarFS :=
  ⟨[Fs.WarFS.newEntry "/prog".toList (elfFile 0x400000 1) .system false 0], Fs.maxFiles⟩

/-- A program calls `sys_execve` with a null path. -/
def failingExec : CapabilityEvent fourLevel :=
  .execve programFile smallMachine (fun _ => none) .fixed 0 0 0

/-- The shell survives a failing exec, drops a capability and starts another
command, process 3. -/
theorem capabilities_only_narrow_rootShell :
    ∃ shell shell' ps, rootShell.table.get 1 = some shell ∧
      (capabilityStep rootShell failingExec).table.get 1 = some shell' ∧
      shell'.effectiveCapabilities ⊆ shell.effectiveCapabilities ∧
      Spawns rootShell startPs 3 ps ∧
      ps.effectiveCapabilities ⊆ shell.effectiveCapabilities.inter
        (defaultForUid (atSpawn rootShell startPs) ps.uid) ∧
      ∃ ps', Spawns (dropCapabilities rootShell userAdmin) startPs 3 ps' ∧
        ps'.effectiveCapabilities.Disjoint userAdmin := by
  obtain ⟨shell, hshell⟩ := isSome_iff_exists.mp
    (show (rootShell.table.get 1).isSome by decide)
  obtain ⟨shell', hshell'⟩ := isSome_iff_exists.mp
    (show ((capabilityStep rootShell failingExec).table.get 1).isSome by decide)
  obtain ⟨ps, hps, hpar⟩ := map_eq_some_iff.mp
    (show ((capabilityStep rootShell startPs).table.get 3).map Process.parentPid = some 1 by
      decide)
  obtain ⟨ps', hps', hpar'⟩ := map_eq_some_iff.mp
    (show ((capabilityStep (dropCapabilities rootShell userAdmin) startPs).table.get
      3).map Process.parentPid = some 1 by decide)
  have hspace : Spawns rootShell startPs 3 ps := ⟨by decide, hps⟩
  have hspace' : Spawns (dropCapabilities rootShell userAdmin) startPs 3 ps' := ⟨by decide, hps'⟩
  have hshe₁ : (atSpawn rootShell startPs).table.get ps.parentPid = some shell := by
    rw [hpar, ← hshell]
    decide
  have hnar := capabilities_only_narrow (M := fourLevel) rootShell
  exact ⟨shell, shell', ps, hshell, hshell',
    hnar.2.1 programFile smallMachine (fun _ => none) .fixed 0 0 0 1 shell shell' hshell hshell',
    hspace, hnar.1 startPs [] 3 ps shell ps hspace hshe₁ hps, ps', hspace',
    hnar.2.2 userAdmin [startPs] 1 shell (by decide) hshell 3
      (.inr ⟨ps', hspace', hpar'⟩) ps' hps'⟩

/-- The shell drops a capability. Its command, which was spawned before and is
a descendant of the shell, spawns a process that has it. -/
theorem earlier_child_passes_on :
    let dropped := dropCapabilities rootShell userAdmin
    let event : CapabilityEvent fourLevel := .spawnProcess programFile smallMachine .fixed
      "/prog".toList [] [] 0 2 .normal 0
    rootShell.currentPid = some 1 ∧
      (dropped.table.get 2).map Process.parentPid = some 1 ∧
      (dropped.table.get 3).isNone ∧
      ((capabilityStep dropped event).table.get 3).map
        (fun process => (process.parentPid,
          process.effectiveCapabilities.contains userAdmin)) = some (2, true) := by
  decide +kernel

/-!
## Role lookups

The three role lookups: of the loader, of `sys_execve`, and of the capability
code. The first two hand their result to the permission check of the file that
is read; they take a uid without an account for an administrator.
-/

open Fs FilePermissions WarFS UserAccount

variable {M : Mapper}

/-- The role recorded for a uid; without an account it is that of a plain
user. -/
def recordedRole (users : UserDB) (uid : Uid) : UserRole :=
  match users.findByUid uid with
  | some account => account.role
  | none => .user

/-- The permissions of the file let the uid read it, with the role recorded for
it. -/
def mayRead (users : UserDB) (uid : Uid) (entry : FileEntry) : Bool :=
  entry.permissions.canRead uid (recordedRole users uid)

/-- The file a path leads to is one that the uid may not read. -/
def Barred (users : UserDB) (fs : WarFS) (path : Str) (uid : Uid) : Prop :=
  ∃ canonical entry, canonicalPath path = .ok canonical ∧ fs.find canonical = some entry ∧
    mayRead users uid entry = false

/-- On behalf of the uid no file is read that it may not read: each of the three
functions returns its error for an unreadable file and leaves everything as it
was, whatever the file contains. -/
structure ReadsAsRecorded (M : Mapper) (users : UserDB) (uid : Uid) : Prop where
  spawnProcess : ∀ (s : SyscallState M) (loader : LoaderEnv) (path : Str) (args : List Str)
    (env : List (Str × Str)) (parentPid : Pid) (priority : Priority) (now : ℕ),
    s.kernel.users = users → Barred users s.fs path uid →
    s.spawnProcess loader path args env uid parentPid priority now =
      (.returned (.error .permissionDenied), s)
  loadElfMetadata : ∀ (fs : WarFS) (path : Str), Barred users fs path uid →
    loadElfMetadata users fs path uid = .error .permissionDenied
  sysExecve : ∀ (s : SyscallState M) (memory : UserBytes) (loader : LoaderEnv)
    (kernelCr3 path argv : ℕ) (pathStr : Str) (args : List Str) (process : Process),
    s.kernel.users = users →
    s.execveArguments memory path argv = .returned (.ok (pathStr, args)) →
    s.currentProcess = some process → process.uid = uid → Barred users s.fs pathStr uid →
    s.sysExecve memory loader kernelCr3 path argv = (.returned enoent, s)

variable (k : KernelState)

/-- The three lookups give the same role. -/
def LookupsAgree (uid : Uid) : Prop :=
  Loader.roleForUid k.users uid = SyscallState.roleForUid k.users uid ∧
    SyscallState.roleForUid k.users uid = roleForUid k uid

/-- If the session belongs to the uid, it was opened with the role that is
recorded now; for a missing root account that is `admin`. -/
def SessionCurrent (uid : Uid) : Prop :=
  ∀ session ∈ k.session, session.user.uid = uid →
    session.user.role = ((k.users.findByUid uid).map role).getD .admin

variable {users : UserDB} {uid : Uid}

lemma roleForUid_of_account (h : (users.findByUid uid).isSome) :
    Loader.roleForUid users uid = recordedRole users uid := by
  obtain ⟨acc, hacct⟩ := Option.isSome_iff_exists.1 h
  simp [Loader.roleForUid, recordedRole, hacct]

lemma readAs_barred {fs : WarFS} {path : Str} (h : Barred users fs path uid) :
    fs.readAs path uid (recordedRole users uid) = .error .permissionDenied := by
  obtain ⟨can, entry, hcan, hf, hrd⟩ := h
  rw [mayRead] at hrd
  simp [readAs, hcan, hf, hrd]

lemma readsAsRecorded_of_account (h : (users.findByUid uid).isSome) :
    ReadsAsRecorded M users uid := by
  have hro := roleForUid_of_account h
  refine ⟨?_, ?_, ?_⟩
  · intro s loader path args env par prio now hus hbar
    rw [spawnProcess, hus, hro, readAs_barred hbar]
    rfl
  · intro fs path hbar
    rw [loadElfMetadata, hro, readAs_barred hbar]
    rfl
  · rintro s mem loader kernelCr3 path argv pathStr args p hus hargs hproc rfl
      hbar
    have hrd : s.fs.readAs pathStr p.uid
        (SyscallState.roleForUid s.kernel.users p.uid) = .error .permissionDenied := by
      rw [hus]
      exact (congrArg _ hro).trans (readAs_barred hbar)
    obtain ⟨pid, hpid, hget⟩ := Option.bind_eq_some_iff.1 hproc
    simp only [sysExecve, hargs, hpid, hget, execImage, hrd]

/-- An empty file that only root may read. -/
def rootOnly : WarFS := ⟨[newEntry "/a".toList [] (defaultFor 0) false 0], maxFiles⟩

/-- Without an account the loader reads the file of root. -/
lemma account_of_readsAsRecorded (hrt : uid ≠ 0) (h : ReadsAsRecorded M users uid) :
    (users.findByUid uid).isSome := by
  by_contra hn
  rw [Bool.not_eq_true, Option.isSome_eq_false_iff, Option.isNone_iff_eq_none] at hn
  have hbar : Barred users rootOnly "/a".toList uid := by
    refine ⟨"/a".toList, _, by decide, rfl, ?_⟩
    simp [mayRead, recordedRole, hn, newEntry, canRead, defaultFor, hrt]
  have hld := h.loadElfMetadata rootOnly "/a".toList hbar
  have hrd : rootOnly.readAs "/a".toList uid .admin = .ok [] := by rfl
  have hro : Loader.roleForUid users uid = .admin := by simp [Loader.roleForUid, hn]
  rw [loadElfMetadata, hro] at hld
  cases hld

lemma lookupsAgree_iff (uid : Uid) (hacct : uid ≠ 0 → (k.users.findByUid uid).isSome) :
    LookupsAgree k uid ↔ SessionCurrent k uid := by
  have hstd : storedRole k.users uid = ((k.users.findByUid uid).map role).getD .admin := by
    rw [storedRole]
    cases hf : k.users.findByUid uid with
    | some => rfl
    | none =>
      have hrt : uid = 0 := by
        by_contra hrt
        simpa [hf] using hacct hrt
      simp [hrt]
  have hagr : LookupsAgree k uid ↔
      ((k.users.findByUid uid).map role).getD .admin = roleForUid k uid :=
    and_iff_right rfl
  rw [hagr, SessionCurrent, roleForUid]
  cases k.session with
  | none => simp [hstd]
  | some ses =>
    by_cases hsess : ses.user.uid = uid
    · simp [hsess, eq_comm]
    · simp [hsess, hstd]

/-- Files are read with the recorded role, and the three lookups agree, exactly
for a uid that has an account (or is root) and whose session, if it is logged
in, was opened with the role recorded now. -/
theorem roleLookups_iff (M : Mapper) (k : KernelState) (uid : Uid) :
    ((uid ≠ 0 → ReadsAsRecorded M k.users uid) ∧ LookupsAgree k uid) ↔
      (uid ≠ 0 → (k.users.findByUid uid).isSome = true) ∧ SessionCurrent k uid := by
  constructor
  · rintro ⟨hrds, hagr⟩
    have hacct := fun hrt => account_of_readsAsRecorded hrt (hrds hrt)
    exact ⟨hacct, (lookupsAgree_iff k uid hacct).1 hagr⟩
  · rintro ⟨hacct, hsess⟩
    exact ⟨fun hrt => readsAsRecorded_of_account (hacct hrt),
      (lookupsAgree_iff k uid hacct).2 hsess⟩

/-- Carol keeps a program to themselves; bob's account is deleted, and a
process that still runs for bob loads it. -/
theorem deletedUser_reads_private_program :
    let fs : WarFS := ⟨[newEntry "/prog".toList (elfFile 0x400000 1)
      (privateFor 1001) false 0], Fs.maxFiles⟩
    let k := KernelState.init ⟨[rootAccount], 1001⟩
    rootAndBob.deleteUser bobAccount.uid = .ok k.users ∧
      loadElfMetadata k.users fs "/prog".toList bobAccount.uid =
        .ok (elfFileInfo 0x400000 1, 120) ∧
      (privateFor 1001).canRead bobAccount.uid .user = false ∧
      Loader.roleForUid k.users bobAccount.uid = .admin ∧
      roleForUid k bobAccount.uid = .user := by
  decide +kernel

end Waros.Kernel.Security
