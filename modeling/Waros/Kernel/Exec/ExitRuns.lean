import Waros.Kernel.Exec.ReadHistory

/-!
Ending a process while timer ticks arrive (`mark_exit` and `kill_process` of
`kernel/src/exec/mod.rs`). The process becomes a zombie first and is taken off the
scheduler in a second critical section; a tick in between may make it ready or
running again. A tick that finds the scheduler locked does nothing and is left
out; one that finds the process table locked has `tableFree = false`.
-/

namespace Waros.Kernel.Exec

open Lib Scheduler Function Option
open Priority (all mem_all)

namespace Scheduler

/-! ### What a tick does to one process -/

variable (p : Process)

lemma chargeProcess_pid : (chargeProcess p).pid = p.pid := by
  unfold chargeProcess
  split <;> rfl

lemma chargeProcess_exitCode : (chargeProcess p).exitCode = p.exitCode := by
  unfold chargeProcess
  split <;> rfl

lemma chargeProcess_state :
    (chargeProcess p).state = if sliceExpires p then .ready else p.state := by
  unfold chargeProcess
  split <;> rfl

variable (s : Scheduler) (tableFree : Bool) (t : ProcessTable) (pid : Pid)

lemma chargeCurrent_get : (s.chargeCurrent tableFree t).2.get pid =
    if tableFree = true ∧ s.currentPid = some pid then (t.get pid).map chargeProcess
    else t.get pid := by
  unfold chargeCurrent charged
  rcases hcur : s.currentPid with _ | cur
  · simp
  rcases tableFree with _ | _
  · simp
  cases hget : t.get cur with
  | none =>
    by_cases hpid : cur = pid
    · subst hpid
      simp [hget]
    · simp [hpid, hget]
  | some =>
    have hmod := t.get_modify cur chargeProcess_pid pid
    by_cases hpid : pid = cur
    · subst hpid
      simpa [hget] using hmod
    · simpa [hget, hpid, Ne.symm] using hmod

/-- The process that the tick makes current, when it is taken from a queue. -/
def popped : Option Pid := ((s.chargeCurrent tableFree t).1.popFront all).map Prod.fst

lemma selectNext_get : (s.selectNext tableFree t).2.get pid =
    if tableFree = true ∧ (s.popFront all).map Prod.fst = some pid then
      (t.get pid).map fun process => { process with state := .running }
    else t.get pid := by
  unfold selectNext
  cases hpop : s.popFront all with
  | none => split_ifs <;> simp_all
  | some next =>
    cases tableFree with
    | false => simp
    | true =>
      have hget := t.get_modify next.1
        (f := fun process => { process with state := .running }) (fun _ => rfl) pid
      simp only [if_true, hget, true_and, map_some, some.injEq, eq_comm]

variable {next : Pid × Scheduler}

lemma selectNext_currentPid_of_pop (hpop : s.popFront all = some next) :
    (s.selectNext tableFree t).1.currentPid = some next.1 := by
  unfold selectNext
  rw [hpop]
  simp

lemma selectNext_runQueues_of_pop (hpop : s.popFront all = some next) :
    (s.selectNext tableFree t).1.runQueues = next.2.runQueues := by
  unfold selectNext
  rw [hpop]
  simp

lemma selectNext_of_empty (hpop : s.popFront all = none) :
    (s.selectNext tableFree t).1.runQueues = s.runQueues ∧ (s.selectNext tableFree t).1.currentPid =
        if s.currentPid = none ∧ s.idlePid ≠ 0 then some s.idlePid else s.currentPid := by
  unfold selectNext
  rw [hpop]
  split_ifs <;> simp

variable {s t pid}

section
variable (h : ¬ s.Queued pid)
include h

lemma not_queued_enqueue {current : Pid} (hne : current ≠ pid)
    (prio : Priority) : ¬ (s.enqueue current prio).Queued pid := by
  unfold enqueue
  dsimp only
  split_ifs
  · exact h
  · rintro ⟨q, hq⟩
    by_cases hqp : q = prio
    · subst hqp
      simp only [update_self, List.mem_append, List.mem_singleton] at hq
      rcases hq with hq | hq
      · exact h ⟨q, hq⟩
      · exact hne hq.symm
    · simp only [update_of_ne hqp] at hq
      exact h ⟨q, hq⟩
  · exact h

lemma not_queued_popFront {qs : List Priority} (hpop : s.popFront qs = some next) :
    next.1 ≠ pid ∧ ¬ next.2.Queued pid := by
  obtain ⟨next, s'⟩ := next
  obtain ⟨q, -, rest, hq, rfl⟩ := popFront_eq_some hpop
  constructor
  · rintro rfl
    exact h ⟨q, by rw [hq]; exact List.mem_cons_self⟩
  · rintro ⟨q', hq'⟩
    by_cases hqq : q' = q
    · subst hqq
      simp only [update_self] at hq'
      exact h ⟨q', by rw [hq]; exact List.mem_cons_of_mem _ hq'⟩
    · simp only [update_of_ne hqq] at hq'
      exact h ⟨q', hq'⟩

lemma not_queued_chargeCurrent (hcur : s.currentPid ≠ some pid) :
    ¬ (s.chargeCurrent tableFree t).1.Queued pid := by
  rw [chargeCurrent_fst]
  cases hexp : s.expiring tableFree t with
  | none => exact h
  | some e =>
    obtain ⟨cur, prio⟩ := e
    refine not_queued_enqueue h ?_ prio
    rintro rfl
    exact hcur (expiring_currentPid hexp)

end

lemma chargeCurrent_currentPid : (s.chargeCurrent tableFree t).1.currentPid = s.currentPid := by
  rw [chargeCurrent_fst]
  cases hexp : s.expiring tableFree t with
  | none => rfl
  | some => simp

lemma chargeCurrent_of_no_current (hcur : s.currentPid = none) :
    (s.chargeCurrent tableFree t).1 = s := by
  unfold chargeCurrent charged
  rw [hcur]

lemma chargeCurrent_idlePid : (s.chargeCurrent tableFree t).1.idlePid = s.idlePid := by
  rw [chargeCurrent_fst]
  cases hexp : s.expiring tableFree t with
  | none => rfl
  | some e =>
    unfold enqueue
    dsimp only
    split_ifs <;> rfl

end Scheduler

/-- The scheduler and the process table, on which ticks act. -/
abbrev TickState := Scheduler × ProcessTable

/-- `exec::tick`, when the scheduler is not locked. -/
def tick (s : TickState) (tableFree : Bool) : TickState := s.1.timerTick tableFree s.2

/-- The first critical section of both functions. -/
def markZombie (pid : Pid) (exitCode : Int32) (s : TickState) : TickState :=
  (s.1, s.2.modify pid fun process => { process with state := .zombie, exitCode := some exitCode })

/-- The second critical section of both functions. -/
def dequeuePid (pid : Pid) (s : TickState) : TickState := (s.1.dequeue pid, s.2)

/-- `mark_exit`, with the ticks that arrive between its critical sections. -/
def TickState.markExit (pid : Pid) (exitCode : Int32) (between : List Bool) (s : TickState) :
    TickState :=
  dequeuePid pid (run tick (markZombie pid exitCode s) between)

/-- `kill_process`, with the ticks that arrive before the process is marked,
while its task is killed and the table is locked, and after. -/
def killProcess (pid : Pid) (exitCode : Int32) (before between : List Bool) (s : TickState) :
    Except ExecError Unit × TickState :=
  let s := run tick s before
  match s.2.get pid with
  | none => (.error .processNotFound, s)
  | some _ => (.ok (), .markExit pid exitCode between s)

/-- The process has ended for good. -/
structure Exited (pid : Pid) (exitCode : Int32) (s : TickState) : Prop where
  zombie : ∃ process, s.2.get pid = some process ∧ process.state = .zombie ∧
    process.exitCode = some exitCode
  notQueued : ¬ s.1.Queued pid
  notCurrent : s.1.currentPid ≠ some pid

/-- A tick between the critical sections neither ends the time slice of the
process nor takes it from a run queue. -/
def Spares (pid : Pid) (s : TickState) (tableFree : Bool) : Prop :=
  s.1.enabled = true → tableFree = true →
    (s.1.expiring true s.2).map Prod.fst ≠ some pid ∧ s.1.popped true s.2 ≠ some pid
  deriving Decidable

/-- A tick after the call does not select the process as the idle process. -/
def NotIdle (pid : Pid) (s : TickState) (_tableFree : Bool) : Prop :=
  s.1.enabled = true → (∀ q, s.1.runQueues q = []) → s.1.currentPid = none →
    s.1.idlePid = pid → pid = 0
  deriving Decidable

/-! ### Ticks between the critical sections -/

/-- The process is a zombie with the exit code. -/
def ZombieWith (pid : Pid) (exitCode : Int32) (s : TickState) : Prop :=
  ∃ process, s.2.get pid = some process ∧ process.state = .zombie ∧
    process.exitCode = some exitCode

/-- The process is in the table and in another state. -/
def Alive (pid : Pid) (s : TickState) : Prop :=
  ∃ process, s.2.get pid = some process ∧ process.state ≠ .zombie

variable {pid : Pid} {exitCode : Int32} {s : TickState} {tableFree : Bool}

lemma tick_get_of_enabled (henabled : s.1.enabled) : (tick s tableFree).2.get pid =
    if tableFree = true ∧ s.1.popped tableFree s.2 = some pid then
      ((s.1.chargeCurrent tableFree s.2).2.get pid).map fun process =>
        { process with state := .running }
    else (s.1.chargeCurrent tableFree s.2).2.get pid := by
  rw [tick, timerTick, if_pos henabled]
  exact selectNext_get _ _ _ _

lemma tick_of_disabled (hdisa : s.1.enabled ≠ true) : tick s tableFree = s := by
  rw [tick, timerTick, if_neg hdisa]

variable {process : Process}

/-- The process that the tick charges has its time slice ended exactly when it is
the one that `expiring` names. -/
lemma expiring_eq_some_iff (hget : s.2.get pid = some process) :
    (s.1.expiring true s.2).map Prod.fst = some pid ↔
      s.1.currentPid = some pid ∧ sliceExpires process := by
  unfold expiring charged
  rcases hcur : s.1.currentPid with _ | cur
  · simp
  by_cases hpid : cur = pid
  · subst hpid
    by_cases hexp : sliceExpires process = true <;> simp [hget]
  · cases ho : s.2.get cur with
    | none => simp [ho, hpid]
    | some other => by_cases hexp : sliceExpires other = true <;> simp [ho, hpid]

/-- A tick keeps a zombie a zombie exactly when it spares it. -/
lemma tick_zombieWith_iff (h : ZombieWith pid exitCode s) :
    ZombieWith pid exitCode (tick s tableFree) ↔ Spares pid s tableFree := by
  obtain ⟨process, hget, hst, hcode⟩ := h
  by_cases henabled : s.1.enabled = true
  · unfold ZombieWith Spares
    rw [tick_get_of_enabled henabled, chargeCurrent_get, hget]
    rcases tableFree with _ | _
    · simp [hst, hcode]
    rw [Ne, expiring_eq_some_iff hget]
    by_cases hcur : s.1.currentPid = some pid <;>
      by_cases hpopp : s.1.popped true s.2 = some pid <;>
      by_cases hexp : sliceExpires process = true <;>
      simp [henabled, hcur, hpopp, hst, hcode, chargeProcess_state, chargeProcess_exitCode]
  · rw [tick_of_disabled henabled]
    exact ⟨fun _ hen => absurd hen henabled, fun _ => ⟨process, hget, hst, hcode⟩⟩

lemma tick_alive (h : Alive pid s) (free : Bool) : Alive pid (tick s free) := by
  obtain ⟨process, hget, hst⟩ := h
  by_cases henabled : s.1.enabled = true
  · unfold Alive
    rw [tick_get_of_enabled henabled, chargeCurrent_get, hget]
    split_ifs
    · exact ⟨_, rfl, by simp⟩
    · exact ⟨_, rfl, by simp⟩
    · refine ⟨_, rfl, ?_⟩
      rw [chargeProcess_state]
      split_ifs
      · simp
      · exact hst
    · exact ⟨process, rfl, hst⟩
  · rw [tick_of_disabled henabled]
    exact ⟨process, hget, hst⟩

lemma tick_alive_of_not_spares (h : ZombieWith pid exitCode s)
    (hsp : ¬ Spares pid s tableFree) : Alive pid (tick s tableFree) := by
  have hnot := mt (tick_zombieWith_iff h).1 hsp
  obtain ⟨process, hget, hst, hcode⟩ := h
  have hke : ∃ process', (tick s tableFree).2.get pid = some process' ∧
      process'.exitCode = some exitCode := by
    by_cases henabled : s.1.enabled = true
    · rw [tick_get_of_enabled henabled, chargeCurrent_get, hget]
      split_ifs
      · exact ⟨_, rfl, by rw [chargeProcess_exitCode, hcode]⟩
      · exact ⟨_, rfl, hcode⟩
      · exact ⟨_, rfl, by rw [chargeProcess_exitCode, hcode]⟩
      · exact ⟨_, rfl, hcode⟩
    · rw [tick_of_disabled henabled]
      exact ⟨process, hget, hcode⟩
  obtain ⟨process', hget', hcode'⟩ := hke
  exact ⟨process', hget', fun hzombie => hnot ⟨process', hget', hzombie, hcode'⟩⟩

/-- The process is still a zombie after the ticks exactly when each of them
spares it: no tick makes a zombie. -/
lemma run_tick_zombieWith_iff (h : ZombieWith pid exitCode s) (between : List Bool) :
    ZombieWith pid exitCode (run tick s between) ↔ StepsOk tick (Spares pid) s between := by
  induction between generalizing s with
  | nil => exact iff_of_true h trivial
  | cons tableFree between ih =>
    by_cases hsp : Spares pid s tableFree
    · rw [run_cons, ih ((tick_zombieWith_iff h).2 hsp)]
      exact (and_iff_right hsp).symm
    · have hali : Alive pid (run tick (tick s tableFree) between) :=
        @run_invariant_of_step _ _ tick (Alive pid) (fun s e hs => tick_alive hs e) _ between
          (tick_alive_of_not_spares h hsp)
      obtain ⟨process, hget, hst⟩ := hali
      constructor
      · rintro ⟨process', hget', hzombie, -⟩
        obtain rfl := some.inj (hget.symm.trans hget')
        exact absurd hzombie hst
      · exact fun hok => absurd hok.1 hsp

section
variable (h : Exited pid exitCode s)
include h

lemma popped_ne_of_exited (free : Bool) : s.1.popped free s.2 ≠ some pid := by
  intro hpopp
  obtain ⟨next, hpop, hnx⟩ := map_eq_some_iff.1 hpopp
  have hqd : ¬ (s.1.chargeCurrent free s.2).1.Queued pid :=
    not_queued_chargeCurrent free h.notQueued h.notCurrent
  exact (not_queued_popFront hqd hpop).1 hnx

lemma tick_get_of_exited (free : Bool) : (tick s free).2.get pid = s.2.get pid := by
  by_cases henabled : s.1.enabled = true
  · rw [tick_get_of_enabled henabled, if_neg fun hp => popped_ne_of_exited h free hp.2,
      chargeCurrent_get, if_neg fun hc => h.notCurrent hc.2]
  · rw [tick_of_disabled henabled]

/-- A tick keeps an ended process ended exactly when it does not select it as
the idle process. -/
lemma tick_exited_iff : Exited pid exitCode (tick s tableFree) ↔ NotIdle pid s tableFree := by
  by_cases henabled : s.1.enabled = true
  · have hzombie := h.zombie
    rw [← tick_get_of_exited h] at hzombie
    have hqd : ¬ (s.1.chargeCurrent tableFree s.2).1.Queued pid :=
      not_queued_chargeCurrent tableFree h.notQueued h.notCurrent
    have htick : tick s tableFree = (s.1.chargeCurrent tableFree s.2).1.selectNext tableFree
        (s.1.chargeCurrent tableFree s.2).2 := by
      rw [tick, timerTick, if_pos henabled]
    cases hpop : (s.1.chargeCurrent tableFree s.2).1.popFront all with
    | some =>
      obtain ⟨hne, hr⟩ := not_queued_popFront hqd hpop
      refine iff_of_true ⟨hzombie, ?_, ?_⟩ ?_
      · rw [htick, Scheduler.Queued, selectNext_runQueues_of_pop _ _ _ hpop]
        exact hr
      · rw [htick, selectNext_currentPid_of_pop _ _ _ hpop]
        simpa using hne
      · -- a process was popped, so the queues were not empty
        intro _ hemp hno
        rw [chargeCurrent_of_no_current tableFree hno] at hpop
        obtain ⟨q, -, rest, hq, -⟩ := popFront_eq_some hpop
        rw [hemp] at hq
        cases hq
    | none =>
      obtain ⟨hque, hcur⟩ := selectNext_of_empty
        (s.1.chargeCurrent tableFree s.2).1 tableFree (s.1.chargeCurrent tableFree s.2).2 hpop
      rw [← htick] at hque hcur
      rw [chargeCurrent_currentPid, chargeCurrent_idlePid] at hcur
      have hsm : Exited pid exitCode (tick s tableFree) ↔
          (tick s tableFree).1.currentPid ≠ some pid := by
        refine ⟨fun hexi => hexi.notCurrent, fun hne => ⟨hzombie, ?_, hne⟩⟩
        rw [Scheduler.Queued, hque]
        exact hqd
      rw [hsm, hcur]
      by_cases hno : s.1.currentPid = none
      · have hemp : ∀ q, s.1.runQueues q = [] := by
          rw [chargeCurrent_of_no_current tableFree hno] at hpop
          exact fun q => popFront_eq_none hpop q (mem_all q)
        by_cases hidle : s.1.idlePid = pid
        · subst hidle
          by_cases h0 : s.1.idlePid = 0 <;> simp [NotIdle, henabled, hemp, hno]
        · refine iff_of_true ?_ fun _ _ _ hp => absurd hp hidle
          by_cases h0 : s.1.idlePid = 0 <;> simp [hno, hidle]
      · rw [if_neg fun hc => hno hc.1]
        exact iff_of_true h.notCurrent fun _ _ hn => absurd hn hno
  · rw [tick_of_disabled henabled]
    exact ⟨fun _ hen => absurd hen henabled, fun _ => h⟩

end

lemma markZombie_zombieWith (hget : s.2.get pid = some process) :
    ZombieWith pid exitCode (markZombie pid exitCode s) := by
  refine ⟨{ process with state := .zombie, exitCode := some exitCode }, ?_, rfl, rfl⟩
  have hmod := s.2.get_modify pid
    (f := fun process => { process with state := .zombie, exitCode := some exitCode })
    (fun _ => rfl) pid
  rw [markZombie, hmod, if_pos rfl, hget]
  rfl

lemma dequeuePid_exited_iff :
    Exited pid exitCode (dequeuePid pid s) ↔ ZombieWith pid exitCode s := by
  refine ⟨fun h => h.zombie, fun h => ⟨h, ?_, ?_⟩⟩
  · rintro ⟨q, hq⟩
    simp [dequeuePid, dequeue] at hq
  · rw [dequeuePid, dequeue]
    split_ifs with hcur
    · simp
    · exact hcur

section
variable (hget : s.2.get pid = some process)
include hget

/-- What `mark_exit` promises: in every state from its return on, through the
ticks `after`, the process has ended. It holds exactly when the ticks between
the critical sections spare the process. -/
lemma markExit_exited_iff (between after : List Bool) :
    (∀ n, Exited pid exitCode
      (run tick (.markExit pid exitCode between s) (after.take n))) ↔
      StepsOk tick (Spares pid) (markZombie pid exitCode s) between ∧
        StepsOk tick (NotIdle pid) (.markExit pid exitCode between s) after := by
  rw [← run_tick_zombieWith_iff (markZombie_zombieWith hget), ← dequeuePid_exited_iff]
  have hrun := fun h : Exited pid exitCode (.markExit pid exitCode between s) =>
    @forall_run_take_iff _ _ tick (NotIdle pid) (Exited pid exitCode) (fun _ => True)
      (fun _ _ hs _ => tick_exited_iff hs) _ after h (fun _ _ => trivial)
  constructor
  · intro h
    have hfst : Exited pid exitCode (.markExit pid exitCode between s) := h 0
    exact ⟨hfst, (hrun hfst).1 h⟩
  · rintro ⟨hfst, haft⟩
    exact (hrun hfst).2 haft

lemma tick_present (free : Bool) : ∃ process', (tick s free).2.get pid = some process' := by
  by_cases henabled : s.1.enabled = true
  · rw [tick_get_of_enabled henabled, chargeCurrent_get, hget]
    split_ifs <;> exact ⟨_, rfl⟩
  · rw [tick_of_disabled henabled]
    exact ⟨process, hget⟩

lemma run_tick_present (ticks : List Bool) :
    ∃ process', (run tick s ticks).2.get pid = some process' :=
  @run_invariant_of_step _ _ tick (fun s => ∃ process, s.2.get pid = some process)
    (fun _ e hs => tick_present hs.choose_spec e) s ticks ⟨process, hget⟩

end

/-- A process that is in the table has ended in every state from the return of
`mark_exit` or `kill_process` on, through any ticks, exactly when every tick
between the two critical sections spares it and no later tick selects it as the
idle process. -/
theorem exit_lasts_iff {process : Process} (hget : s.2.get pid = some process)
    (exitCode : Int32) (before between after : List Bool) :
    ((∀ n, Exited pid exitCode
      (run tick (TickState.markExit pid exitCode between s) (after.take n))) ↔
      StepsOk tick (Spares pid) (markZombie pid exitCode s) between ∧
        StepsOk tick (NotIdle pid) (TickState.markExit pid exitCode between s) after) ∧
    (killProcess pid exitCode before between s).1 = .ok () ∧ ((∀ n, Exited pid exitCode
        (run tick (killProcess pid exitCode before between s).2 (after.take n))) ↔
      StepsOk tick (Spares pid) (markZombie pid exitCode (run tick s before)) between ∧
        StepsOk tick (NotIdle pid) (killProcess pid exitCode before between s).2 after) := by
  refine ⟨markExit_exited_iff hget between after, ?_⟩
  obtain ⟨process', hget'⟩ := run_tick_present hget before
  have hkill : killProcess pid exitCode before between s =
      (.ok (), .markExit pid exitCode between (run tick s before)) := by
    simp only [killProcess, hget']
  rw [hkill]
  exact ⟨rfl, markExit_exited_iff hget' between after⟩

/-- The shell is current with time left and the command waits in a queue. -/
def shellAndQueuedCommand : TickState :=
  (((new 512 (by decide)).enable.setCurrentPid (some 1)).enqueue 2 .normal,
    SchedulerSystem.shellAndCommand)

/-- Killing the shell, with a tick after it is marked: the command is selected
and the shell stays a zombie. -/
theorem exit_lasts_shell :
    Exited 1 7 (run tick (TickState.markExit 1 7 [true] shellAndQueuedCommand) [true, true]) := by
  obtain ⟨process, hget⟩ : ∃ process, shellAndQueuedCommand.2.get 1 = some process := ⟨_, rfl⟩
  exact (exit_lasts_iff hget 7 [] [true] [true, true]).1.2 ⟨by decide, by decide⟩ 2

/-- A tick between the critical sections selects the waiting command, which is
running from then on. -/
theorem markExit_revives :
    ((TickState.markExit 2 0 [true] shellAndQueuedCommand).2.get 2).map Process.state =
      some .running ∧
      ¬ Exited 2 0 (TickState.markExit 2 0 [true] shellAndQueuedCommand) := by
  have hst : ((TickState.markExit 2 0 [true] shellAndQueuedCommand).2.get 2).map Process.state =
      some .running := by
    decide
  refine ⟨hst, fun h => ?_⟩
  obtain ⟨process, hget, hzombie, -⟩ := h.zombie
  rw [hget, map_some, hzombie] at hst
  cases hst

/-!
## Exits and waits

Exits and `sys_wait4` (`kernel/src/exec/syscalls/process.rs`) over whole histories.
A call runs with the page tables of its caller, so every call brings its machine.
-/

open Memory List

inductive WaitEvent (M : Mapper)
  | exit (pid : Pid) (code : Int32)
  | wait (caller : Pid) (machine : Machine M) (target : Int32) (statusPtr : ℕ)

namespace SyscallState

variable {M : Mapper} (s : SyscallState M)

def waitStep : WaitEvent M → Outcome ℤ × SyscallState M
  | .exit pid code => sysExit { s with kernel := s.kernel.setCurrentPid (some pid) } code
  | .wait caller machine target statusPtr =>
    sysWait4 ⟨s.kernel.setCurrentPid (some caller), s.fs, machine⟩ target statusPtr 0

/-- The pids in the table, with those of the parents. -/
def family : List (Pid × Pid) :=
  s.kernel.table.processes.map fun process => (process.pid, process.parentPid)

/-- A successful call: the caller and the pid returned. -/
def observedBy : WaitEvent M → Outcome ℤ → List (Pid × ℤ)
  | .wait caller _ _ _, .returned value => if 0 ≤ value then [(caller, value)] else []
  | _, _ => []

def observed : SyscallState M → List (WaitEvent M) → List (Pid × ℤ)
  | _, [] => []
  | s, e :: es => observedBy e (s.waitStep e).1 ++ observed (s.waitStep e).2 es

section
variable {s : SyscallState M} {caller : Pid} {target : Int32}

variable (hnd : (s.kernel.table.processes.map Process.pid).Nodup)
  (hlt : ∀ p ∈ s.kernel.table.processes, p.pid.toNat < 2 ^ 31)
include hnd hlt

end

end SyscallState

end Waros.Kernel.Exec
