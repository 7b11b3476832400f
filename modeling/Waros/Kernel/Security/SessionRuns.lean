import Waros.Kernel.Exec.Shell

/-!
Which user and which capabilities stand behind a pid, and what the operations
on processes do to that.
-/

namespace Waros.Kernel.Security

open Lib Exec ProcessTable Scheduler Option

/-- The uid and the capabilities of a process. -/
def holder (t : ProcessTable) (pid : Pid) : Option (Uid × Capabilities) :=
  (t.get pid).map fun process => (process.uid, process.effectiveCapabilities)

variable (k : KernelState) (t : ProcessTable) {process : Process} {pid : Pid}

lemma currentCapabilities_eq :
    currentCapabilities k = (k.currentPid.bind (holder k.table)).map Prod.snd := by
  unfold currentCapabilities processCapabilities holder
  cases k.currentPid with
  | none => rfl
  | some => simp [Function.comp_def]

/-- A change that keeps pid, uid and capabilities. -/
structure Neutral (f : Process → Process) : Prop where
  pid : ∀ p, (f p).pid = p.pid
  uid : ∀ p, (f p).uid = p.uid
  caps : ∀ p, (f p).effectiveCapabilities = p.effectiveCapabilities

lemma holder_modify (pid : Pid) {f : Process → Process} (hf : Neutral f) (j : Pid) :
    holder (t.modify pid f) j = holder t j := by
  unfold holder
  rw [get_modify t pid hf.pid]
  split_ifs
  · simp [Function.comp_def, hf.uid, hf.caps]
  · rfl

lemma holder_remove (pid j : Pid) :
    holder (t.remove pid) j = if j = pid then none else holder t j := by
  have h := lookup_filter_key Process.pid (fun j => j ≠ pid) j t.processes
  unfold holder remove ProcessTable.get
  rw [h]
  by_cases hj : j = pid <;> simp [hj]

lemma holder_createProcess {t t' : ProcessTable} (h : t.createProcess process = .ok (pid, t'))
    (j : Pid) :
    holder t' j = (holder t j).or
      (if j = pid then some (process.uid, process.effectiveCapabilities) else none) := by
  obtain ⟨-, rfl, rfl⟩ := createProcess_eq_ok h
  unfold holder ProcessTable.get
  rw [lookup_append_singleton, map_or]
  by_cases hj : t.nextPid = j
  · simp [hj]
  · simp [hj, Ne.symm]

lemma neutral_running : Neutral fun process => { process with state := .running } :=
  ⟨fun _ => rfl, fun _ => rfl, fun _ => rfl⟩

lemma neutral_chargeProcess : Neutral chargeProcess := by
  constructor <;>
    · intro p
      unfold chargeProcess
      split_ifs <;> rfl

lemma holder_timerTick (s : Scheduler) (free : Bool) (t : ProcessTable) (j : Pid) :
    holder (s.timerTick free t).2 j = holder t j := by
  have hcha : holder (s.chargeCurrent free t).2 j = holder t j := by
    unfold chargeCurrent
    split
    · rfl
    · exact holder_modify t _ neutral_chargeProcess j
  have hsel : ∀ (s : Scheduler) t, holder (s.selectNext free t).2 j = holder t j := by
    intro s t
    unfold selectNext
    split
    · split_ifs
      · exact holder_modify t _ neutral_running j
      · rfl
    · split_ifs <;> rfl
  unfold timerTick
  split_ifs
  · exact (hsel _ _).trans hcha
  · rfl

@[simp] lemma holder_tick (sfree free : Bool) (j : Pid) :
    holder (k.tick sfree free).table j = holder k.table j := by
  unfold KernelState.tick
  split_ifs
  · exact holder_timerTick _ _ _ j
  · rfl

/-- How `ensure_shell_process` got its pid. -/
inductive ShellSource (k : KernelState) : Pid × KernelState → Prop
  | reused {pid : Pid} {caps : Capabilities} (h : holder k.table pid = some (k.sessionUid, caps)) :
      ShellSource k (pid, k.setCurrentPid (some pid))
  | created {t : ProcessTable} {process : Process} (hn : reusableShell k = none)
      (h : k.table.createProcess process = .ok (k.table.nextPid, t))
      (huid : process.uid = k.sessionUid)
      (hca : process.effectiveCapabilities = defaultForUid k k.sessionUid) :
      ShellSource k (k.table.nextPid,
        { k with table := { t with shellPid := some k.table.nextPid } }.setCurrentPid
          (some k.table.nextPid))
  | full (hn : reusableShell k = none) (h : 256 ≤ k.table.processes.length) :
      ShellSource k (1, { k with table := { k.table with shellPid := some 1 } }.setCurrentPid
        (some 1))

lemma reusableShell_holder {k : KernelState} (h : reusableShell k = some pid) :
    ∃ caps, holder k.table pid = some (k.sessionUid, caps) := by
  simp only [reusableShell, filter_eq_some_iff, any_eq_true_iff_get, beq_iff_eq] at h
  obtain ⟨-, hso, huid⟩ := h
  obtain ⟨process, hproc⟩ := isSome_iff_exists.mp hso
  simp only [hproc, get_some] at huid
  simp [holder, hproc, huid]

lemma ensureShellProcess_source (now : ℕ) : ShellSource k (ensureShellProcess k now) := by
  unfold ensureShellProcess
  split
  · next pid hreu =>
    obtain ⟨caps, hca⟩ := reusableShell_holder hreu
    exact .reused hca
  · next hn =>
    unfold addShell
    cases hcre : k.table.createProcess (shellProcess k now) with
    | ok r =>
      obtain ⟨pid, t⟩ := r
      obtain ⟨-, rfl, -⟩ := createProcess_eq_ok hcre
      exact .created hn hcre rfl rfl
    | error =>
      refine .full hn ?_
      unfold createProcess at hcre
      split_ifs at hcre with hfu
      · exact hfu

/-- What creating a process does to the rest of the state. -/
structure Spawned (k : KernelState) (process : Process) (k' : KernelState) : Prop where
  users : k'.users = k.users
  session : k'.session = k.session
  currentPid : k'.currentPid = k.currentPid
  holder : ∀ j, holder k'.table j = (holder k.table j).or
    (if j = k.table.nextPid then some (process.uid, process.effectiveCapabilities) else none)
  parentPid : ∀ j, k.table.get j = none → ∀ child ∈ k'.table.get j,
    child.parentPid = process.parentPid

lemma Spawned.of_createProcess {k : KernelState} {t : ProcessTable}
    (h : k.table.createProcess process = .ok (pid, t)) (prio : Priority) :
    Spawned k process
      { k with table := t, scheduler := k.scheduler.enqueue pid prio } := by
  have hhd := holder_createProcess h
  obtain ⟨-, rfl, rfl⟩ := createProcess_eq_ok h
  refine ⟨rfl, rfl, enqueue_currentPid _ _ _, hhd, ?_⟩
  intro j hn child hch
  rw [ProcessTable.get] at hn
  rw [ProcessTable.get, lookup_append_singleton, hn, none_or, mem_def] at hch
  split_ifs at hch
  cases hch
  rfl

lemma Spawned.attachTask {k k' : KernelState} (h : Spawned k process k') (pid : Pid)
    (taskId : ℕ) : Spawned k process { k' with table := attachTask k'.table pid taskId } := by
  refine { h with holder := ?_, parentPid := ?_ }
  · intro j
    rw [← h.holder]
    have hneut : Neutral fun process => { process with taskId := some taskId } :=
      ⟨fun _ => rfl, fun _ => rfl, fun _ => rfl⟩
    exact holder_modify k'.table pid hneut j
  · intro j hn child hch
    have hget := get_modify k'.table pid
      (f := fun process => { process with taskId := some taskId }) (fun _ => rfl) j
    rw [Exec.attachTask, hget] at hch
    split_ifs at hch
    · obtain ⟨child', hch', rfl⟩ := map_eq_some_iff.mp hch
      exact h.parentPid j hn child' hch'
    · exact h.parentPid j hn child hch

lemma addCommand_cases (p : Process) (prio : Priority) (task : Option ℕ) :
    (addCommand k p prio task).2 = k ∨ Spawned k p (addCommand k p prio task).2 := by
  unfold addCommand
  split
  · exact .inl rfl
  · next hcre =>
    have hspn := Spawned.of_createProcess hcre prio
    cases task with
    | none => exact .inr hspn
    | some taskId => exact .inr (hspn.attachTask _ taskId)

/-- A spawned command runs for the session's user, with what it inherits from
the shell. -/
lemma spawnShellCommand_cases (cmd : Str) (prio : Priority) (task : Option ℕ) (now : ℕ) :
    (spawnShellCommand k cmd prio task now).2 = (ensureShellProcess k now).2 ∨ ∃ process : Process,
        process.uid = (ensureShellProcess k now).2.sessionUid ∧
        process.parentPid = (ensureShellProcess k now).1 ∧
        process.effectiveCapabilities = spawnCapabilities (ensureShellProcess k now).2
          (ensureShellProcess k now).1 process.uid ∧
        Spawned (ensureShellProcess k now).2 process
          (spawnShellCommand k cmd prio task now).2 := by
  unfold spawnShellCommand
  split
  · exact .inl rfl
  · next name _ =>
    rcases addCommand_cases (ensureShellProcess k now).2
      (commandProcess (ensureShellProcess k now).2 (ensureShellProcess k now).1 cmd name
        prio now) prio task with hs | hspn
    · exact .inl hs
    · exact .inr ⟨_, rfl, rfl, rfl, hspn⟩

/-!
## Runs of sessions

Runs of logins, logouts, background commands and timer ticks, and what
`session_require` lets the foreground shell do in them.

`session_require` looks up the capabilities of the scheduler's current process,
which need not belong to the user who is logged in: a timer tick makes any queued
process current, and a login changes nothing. `StepOk` names the steps that keep
the two together.
-/

open Auth KernelState Capabilities

inductive SessionEvent
  | login (user : UserAccount) (now : ℕ)
  | logout
  | ensureShell (now : ℕ)
  | resetShell (schedulerFree tableFree : Bool)
  | spawnCommand (commandLine : Str) (priority : Priority) (task : Option ℕ) (now : ℕ)
  | tick (schedulerFree tableFree : Bool)

def sessionStep (k : KernelState) : SessionEvent → KernelState
  | .login user now => k.start user now
  | .logout => k.logout
  | .ensureShell now => (ensureShellProcess k now).2
  | .resetShell schedulerFree tableFree => resetShellProcess k schedulerFree tableFree
  | .spawnCommand commandLine priority task now =>
    (spawnShellCommand k commandLine priority task now).2
  | .tick schedulerFree tableFree => k.tick schedulerFree tableFree

/-- What `session_require` grants is in the default set of the user who is
logged in. -/
def SessionConfined (k : KernelState) : Prop :=
  ∀ cap, sessionRequire k cap = .ok () → cap ⊆ defaultForUid k k.sessionUid

/-- The default set that the user database gives a uid. -/
def storedDefault (users : UserDB) (uid : Uid) : Capabilities :=
  defaultForIdentity uid (storedRole users uid)

/-- The account has the default set that the database gives its uid. -/
def Recorded (users : UserDB) (user : UserAccount) : Prop :=
  defaultForIdentity user.uid user.role = storedDefault users user.uid
  deriving Decidable

/-- If there is a process `pid`, its user's default set is within that of
`uid`. -/
def Covered (k : KernelState) (uid : Uid) (pid : Pid) : Prop :=
  match holder k.table pid with
  | some owner => storedDefault k.users owner.1 ⊆ storedDefault k.users uid
  | none => True

/-- The pid a timer tick switches to, if it switches. -/
def upcoming (s : Scheduler) (tableFree : Bool) (t : ProcessTable) : Option Pid :=
  match (s.chargeCurrent tableFree t).1.popFront Priority.all with
  | some (pid, _) => some pid
  | none => if s.currentPid = none ∧ s.idlePid ≠ 0 then some s.idlePid else none

def nextShellPid (t : ProcessTable) : Pid :=
  if t.processes.length < 256 then t.nextPid else 1

/-- Which steps keep to the user who is logged in: a login finds no process of
a more privileged user current, a tick does not switch to one, and a new shell
does not get the pid of one. -/
def StepOk (k : KernelState) : SessionEvent → Prop
  | .login user _ => Recorded k.users user ∧ ∀ pid ∈ k.currentPid, Covered k user.uid pid
  | .ensureShell _ | .spawnCommand _ _ _ _ =>
    reusableShell k = none → Covered k k.sessionUid (nextShellPid k.table)
  | .tick schedulerFree tableFree =>
    schedulerFree = true → k.scheduler.enabled = true →
      ∀ pid ∈ upcoming k.scheduler tableFree k.table, Covered k k.sessionUid pid
  | .logout | .resetShell _ _ => True

/-- The session's account is recorded, processes have no capability beyond
their user's default set, and the current one belongs to no more privileged
user. -/
structure Kept (k : KernelState) : Prop where
  session : ∀ session ∈ k.session, Recorded k.users session.user
  holders : ∀ {pid uid caps}, holder k.table pid = some (uid, caps) →
    caps ⊆ storedDefault k.users uid
  current : ∀ pid ∈ k.currentPid, Covered k k.sessionUid pid

variable {k : KernelState} {pid : Pid} (users : UserDB) {now : ℕ}

lemma covered_iff {uid : Uid} :
    Covered k uid pid ↔ ∀ owner caps, holder k.table pid = some (owner, caps) →
      storedDefault k.users owner ⊆ storedDefault k.users uid := by
  unfold Covered
  cases h : holder k.table pid with
  | none => simp
  | some owner =>
    obtain ⟨uid', caps'⟩ := owner
    simp

lemma storedDefault_subset_zero (uid : Uid) : storedDefault users uid ⊆ storedDefault users 0 := by
  exact defaultForIdentity_subset_adminDefault _ _

lemma Kept.defaultForUid_eq (h : Kept k) (uid : Uid) :
    defaultForUid k uid = storedDefault k.users uid := by
  unfold defaultForUid roleForUid storedDefault
  cases hsess : k.session with
  | none => rfl
  | some ses =>
    by_cases huid : ses.user.uid = uid
    · subst huid
      simpa [Recorded, storedDefault] using h.session ses hsess
    · simp [huid]

lemma Kept.confined (h : Kept k) : SessionConfined k := by
  intro cap hcap
  rw [sessionRequire_eq_ok] at hcap
  refine Capabilities.Subset.trans hcap ?_
  unfold currentOrSessionCapabilities
  rw [currentCapabilities_eq]
  rcases hcur : k.currentPid.bind (holder k.table) with _ | owner
  · exact .refl _
  obtain ⟨pid, hpid, hhd⟩ := bind_eq_some_iff.mp hcur
  obtain ⟨uid, caps⟩ := owner
  rw [h.defaultForUid_eq]
  exact Capabilities.Subset.trans (h.holders hhd) (covered_iff.mp (h.current pid hpid) uid caps hhd)

/-! ### Each step -/

lemma Kept.login (h : Kept k) {user : UserAccount} (hok : StepOk k (.login user now)) :
    Kept (k.start user now) := by
  refine ⟨?_, h.holders, hok.2⟩
  intro ses hsess
  cases hsess
  exact hok.1

lemma Kept.logout (h : Kept k) : Kept k.logout := by
  refine ⟨by simp [KernelState.logout], h.holders, ?_⟩
  intro pid _
  rw [covered_iff]
  intro owner caps _
  exact storedDefault_subset_zero k.users owner

/-- A new process of the session's user within its default set. -/
lemma Kept.append {k k' : KernelState} (h : Kept k) {p : Process}
    (hus : k'.users = k.users) (hsess : k'.session = k.session)
    (hhd : ∀ j, holder k'.table j = (holder k.table j).or
      (if j = pid then some (p.uid, p.effectiveCapabilities) else none))
    (huid : p.uid = k.sessionUid) (hca : p.effectiveCapabilities ⊆ defaultForUid k k.sessionUid)
    (hcur : ∀ j ∈ k'.currentPid, Covered k k.sessionUid j) : Kept k' := by
  have hsm : k'.sessionUid = k.sessionUid := by simp only [sessionUid, hsess]
  rw [h.defaultForUid_eq] at hca
  constructor
  · rw [hus, hsess]
    exact h.session
  · intro j uid caps hj
    rw [hhd, or_eq_some_iff] at hj
    rw [hus]
    rcases hj with hj | ⟨-, hj⟩
    · exact h.holders hj
    · split_ifs at hj
      obtain ⟨rfl, rfl⟩ := Prod.mk.inj (some.inj hj)
      rw [huid]
      exact hca
  · intro j hj
    rw [covered_iff, hsm, hus]
    intro owner caps hj'
    rw [hhd, or_eq_some_iff] at hj'
    rcases hj' with hj' | ⟨-, hj'⟩
    · exact covered_iff.mp (hcur j hj) owner caps hj'
    · split_ifs at hj'
      obtain ⟨rfl, -⟩ := Prod.mk.inj (some.inj hj')
      rw [huid]
      exact .refl _

/-- Another current process of the session's user, or of a less privileged
one. -/
lemma Kept.setCurrentPid {k k' : KernelState} (h : Kept k) (hus : k'.users = k.users)
    (hsess : k'.session = k.session) (hhd : ∀ j, holder k'.table j = holder k.table j)
    (hcur : ∀ j ∈ k'.currentPid, Covered k k.sessionUid j) : Kept k' := by
  have huid : k'.sessionUid = k.sessionUid := by simp only [sessionUid, hsess]
  constructor
  · rw [hus, hsess]
    exact h.session
  · intro j uid caps hj
    rw [hus]
    exact h.holders ((hhd j).symm.trans hj)
  · intro j hj
    have hcove := covered_iff.mp (hcur j hj)
    rw [covered_iff, huid, hus]
    intro owner caps hj'
    exact hcove owner caps ((hhd j).symm.trans hj')

lemma Kept.ensureShell (h : Kept k) (hok : StepOk k (.ensureShell now)) :
    Kept (ensureShellProcess k now).2 := by
  generalize hr : ensureShellProcess k now = r
  have hsrc := ensureShellProcess_source k now
  rw [hr] at hsrc
  cases hsrc with
  | reused hreu =>
    refine h.setCurrentPid rfl rfl (fun _ => rfl) ?_
    intro j hj
    obtain rfl := some.inj ((KernelState.setCurrentPid_currentPid _ _).symm.trans hj)
    rw [covered_iff]
    intro owner caps hown
    obtain ⟨rfl, -⟩ := Prod.mk.inj (some.inj (hreu.symm.trans hown))
    exact .refl _
  | @created t p hn hcre huid hca =>
    have hrm := (ProcessTable.createProcess_eq_ok hcre).1
    have hcove := hok hn
    rw [nextShellPid, if_pos hrm] at hcove
    have hhd := holder_createProcess hcre
    refine h.append rfl rfl hhd huid ?_ ?_
    · rw [hca]
      exact .refl _
    · intro j hj
      obtain rfl := some.inj ((KernelState.setCurrentPid_currentPid _ _).symm.trans hj)
      exact hcove
  | full hn =>
    have hcove := hok hn
    rw [nextShellPid, if_neg (by omega)] at hcove
    refine h.setCurrentPid rfl rfl (fun _ => rfl) ?_
    intro j hj
    obtain rfl := some.inj ((KernelState.setCurrentPid_currentPid _ _).symm.trans hj)
    exact hcove

lemma Kept.spawnCommand (h : Kept k) {cmd : Str} {prio : Priority} {task : Option ℕ}
    (hok : StepOk k (.spawnCommand cmd prio task now)) :
    Kept (spawnShellCommand k cmd prio task now).2 := by
  have hshell : Kept (ensureShellProcess k now).2 := h.ensureShell hok
  rcases spawnShellCommand_cases k cmd prio task now with hsm | ⟨p, hspace⟩
  · rw [hsm]
    exact hshell
  · obtain ⟨huid, -, hca, hspn⟩ := hspace
    refine hshell.append hspn.users hspn.session hspn.holder huid ?_ ?_
    · rw [hca, huid]
      exact spawnCapabilities_subset_default _ _ _
    · rw [hspn.currentPid]
      exact hshell.current

lemma Kept.resetShell (h : Kept k) (sfree free : Bool) : Kept (resetShellProcess k sfree free) := by
  unfold resetShellProcess
  split
  · next pid _ =>
    have hrem : ∀ {j : Pid} {owner : Uid × Capabilities},
        holder ({ k.table with shellPid := none }.remove pid) j = some owner →
          j ≠ pid ∧ holder k.table j = some owner := by
      intro j owner hj
      rw [holder_remove] at hj
      split_ifs at hj with hne
      exact ⟨hne, hj⟩
    refine ⟨h.session, fun hj => h.holders (hrem hj).2, ?_⟩
    intro j hj
    rw [covered_iff]
    intro owner caps hown
    obtain ⟨hne, hown⟩ := hrem hown
    -- the scheduler may be busy, but then the removed pid has no holder
    have hcur : j ∈ k.currentPid := by
      change (if sfree then k.scheduler.dequeue pid else k.scheduler).currentPid = some j at hj
      split_ifs at hj
      · simp only [dequeue] at hj
        split_ifs at hj
        exact hj
      · exact hj
    exact covered_iff.mp (h.current j hcur) owner caps hown
  · exact h

lemma timerTick_currentPid {s : Scheduler} {free : Bool} {t : ProcessTable}
    (hen : s.enabled) (h : (s.timerTick free t).1.currentPid = some pid) :
    upcoming s free t = some pid ∨ s.currentPid = some pid := by
  have hcur : (s.chargeCurrent free t).1.currentPid = s.currentPid := by
    rw [chargeCurrent_fst]
    split <;> simp
  have hidle : (s.chargeCurrent free t).1.idlePid = s.idlePid := by
    rw [chargeCurrent_fst]
    split
    · unfold enqueue
      dsimp only
      split_ifs <;> rfl
    · rfl
  simp only [timerTick, hen, if_true, selectNext] at h
  unfold upcoming
  cases hpop : (s.chargeCurrent free t).1.popFront Priority.all with
  | some =>
    simp only [hpop, Scheduler.setCurrentPid_currentPid] at h
    exact .inl h
  | none =>
    simp only [hpop] at h
    rw [← hcur, ← hidle]
    split_ifs at h with hn
    · simpa [hn] using h
    · exact .inr h

lemma Kept.tick (h : Kept k) {sfree free : Bool}
    (hok : StepOk k (.tick sfree free)) : Kept (k.tick sfree free) := by
  refine h.setCurrentPid (tick_users _ _ _) (tick_session _ _ _) (holder_tick k sfree free) ?_
  intro pid hpid
  by_cases hfr : sfree ∧ k.scheduler.enabled
  · simp only [hfr.1] at hpid
    rcases timerTick_currentPid hfr.2 hpid with hnx | hcur
    · exact hok hfr.1 hfr.2 pid hnx
    · exact h.current pid hcur
  · refine h.current pid ?_
    cases sfree <;> simp_all [KernelState.tick, timerTick]

lemma Kept.step {ev : SessionEvent} (h : Kept k) (hok : StepOk k ev) : Kept (sessionStep k ev) := by
  cases ev with
  | login => exact h.login hok
  | logout => exact h.logout
  | ensureShell => exact h.ensureShell hok
  | resetShell schedulerFree tableFree => exact h.resetShell schedulerFree tableFree
  | spawnCommand => exact h.spawnCommand hok
  | tick => exact h.tick hok

/-- In every state of a run of such steps, `session_require` grants only what
is in the default set of the user who is logged in. -/
theorem sessionConfined_of_stepsOk (k : KernelState) (events : List SessionEvent) (hk : Kept k)
    (hok : StepsOk sessionStep StepOk k events) (n : ℕ) :
    SessionConfined (run sessionStep k (events.take n)) :=
  (run_invariant (fun _ _ hs ho => Kept.step hs ho) hk (hok.take n)).confined

lemma kept_init : Kept (init users) where
  session := by simp [init]
  holders := by simp [init, holder]
  current := by simp [init, KernelState.currentPid, Scheduler.new, enable]

def rootAccount : UserAccount where
  uid := 0
  username := "root".toList
  passwordHash := []
  salt := []
  role := .admin
  homeDir := "/root".toList
  active := true
  createdAt := 0
  lastLogin := 0

def bobAccount : UserAccount :=
  { rootAccount with
    uid := 1000
    username := "bob".toList
    role := .user
    homeDir := "/home/bob".toList }

def rootAndBob : UserDB := ⟨[rootAccount, bobAccount], 1001⟩

instance (k : KernelState) (uid : Uid) (pid : Pid) : Decidable (Covered k uid pid) := by
  unfold Covered
  split <;> infer_instance

instance (k : KernelState) (uid : Uid) (pid : Option Pid) :
    Decidable (∀ p ∈ pid, Covered k uid p) :=
  decidableForallMem pid

instance (k : KernelState) (event : SessionEvent) : Decidable (StepOk k event) := by
  cases event <;> unfold StepOk <;> infer_instance

/-- Bob logs in, starts a command and is interrupted by the timer. -/
def bobAlone : List SessionEvent :=
  [.login bobAccount 0, .ensureShell 0, .spawnCommand "top".toList .normal (some 1) 0,
    .tick true true]

theorem sessionConfined_bobAlone :
    SessionConfined (run sessionStep (KernelState.init rootAndBob) (bobAlone.take 4)) :=
  sessionConfined_of_stepsOk _ bobAlone (kept_init rootAndBob) (by decide) 4

/-- Root starts a command in the background and logs out; bob logs in, and the
timer makes root's command the current process. -/
def afterRoot : List SessionEvent :=
  [.login rootAccount 0, .ensureShell 0, .spawnCommand "top".toList .normal (some 1) 0,
    .logout, .resetShell true true, .login bobAccount 0, .ensureShell 0, .tick true true]

theorem bob_passes_as_root :
    let k := run sessionStep (init rootAndBob) afterRoot
    k.sessionUid = bobAccount.uid ∧ sessionRequire k userAdmin = .ok () ∧
      ¬ userAdmin ⊆ defaultForUid k k.sessionUid ∧ ¬ SessionConfined k := by
  have h : (run sessionStep (init rootAndBob) afterRoot).sessionUid = bobAccount.uid ∧
      sessionRequire (run sessionStep (init rootAndBob) afterRoot)
        userAdmin = .ok () ∧
      ¬ userAdmin ⊆
        defaultForUid (run sessionStep (init rootAndBob) afterRoot)
          (run sessionStep (init rootAndBob) afterRoot).sessionUid := by
    decide
  exact ⟨h.1, h.2.1, h.2.2, fun hconf => h.2.2 (hconf _ h.2.1)⟩

end Waros.Kernel.Security
