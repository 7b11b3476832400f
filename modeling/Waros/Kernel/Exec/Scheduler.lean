import Waros.Lib.Transition
import Waros.Kernel.Exec.Process
import Mathlib.Data.Fintype.Basic

/-!
The preemptive scheduler (`kernel/src/exec/scheduler.rs`).

The scheduler has one run queue per priority. A queue is a `VecDeque` that
never grows: `enqueue` gives up when the queue is at its capacity, of which
`with_capacity(256)` only promises a lower bound. `timer_tick` runs in
interrupt context and may find the process table locked by the code it
interrupted; `tableFree` says whether its `try_lock` succeeds.
-/

namespace Waros.Kernel.Exec

open Lib

namespace Priority

/-- The run queues in the order in which they are searched. -/
def all : List Priority := [realTime, system, quantum, interactive, normal, batch, idle]

@[simp] lemma mem_all (q : Priority) : q ∈ all := by cases q <;> decide

instance : Fintype Priority := ⟨all.toFinset, by simp⟩

end Priority

structure Scheduler where
  runQueues : Priority → List Pid
  capacity : ℕ
  currentPid : Option Pid
  idlePid : Pid
  contextSwitchCount : ℕ
  enabled : Bool
  capacity_ge : 256 ≤ capacity

namespace Scheduler

def new (capacity : ℕ) (h : 256 ≤ capacity) : Scheduler where
  runQueues := fun _ => []
  capacity := capacity
  currentPid := none
  idlePid := 0
  contextSwitchCount := 0
  enabled := false
  capacity_ge := h

def enable (s : Scheduler) : Scheduler := { s with enabled := true }

def disable (s : Scheduler) : Scheduler := { s with enabled := false }

def timeSliceFor : Priority → ℕ
  | .realTime => 100
  | .system => 50
  | .quantum => 50
  | .interactive => 20
  | .normal => defaultTimeSlice
  | .batch => 5
  | .idle => 1

def enqueue (s : Scheduler) (pid : Pid) (priority : Priority) : Scheduler :=
  let queue := s.runQueues priority
  if pid ∈ queue then s
  else if queue.length < s.capacity then
    { s with runQueues := Function.update s.runQueues priority (queue ++ [pid]) }
  else s

def dequeue (s : Scheduler) (pid : Pid) : Scheduler :=
  { s with
    runQueues := fun q => (s.runQueues q).filter fun candidate => candidate ≠ pid
    currentPid := if s.currentPid = some pid then none else s.currentPid }

def setCurrentPid (s : Scheduler) (pid : Option Pid) : Scheduler :=
  if s.currentPid ≠ pid then
    { s with
      contextSwitchCount := U64.saturatingAdd s.contextSwitchCount 1
      currentPid := pid }
  else s

/-- Pops the front of the first non-empty queue among the given ones. -/
def popFront (s : Scheduler) : List Priority → Option (Pid × Scheduler)
  | [] => none
  | q :: qs =>
    match s.runQueues q with
    | [] => s.popFront qs
    | pid :: rest => some (pid, { s with runQueues := Function.update s.runQueues q rest })

def selectNext (s : Scheduler) (tableFree : Bool) (t : ProcessTable) :
    Scheduler × ProcessTable :=
  match s.popFront Priority.all with
  | some (pid, s') =>
    (s'.setCurrentPid (some pid),
      if tableFree then t.modify pid fun process => { process with state := .running } else t)
  | none =>
    if s.currentPid = none ∧ s.idlePid ≠ 0 then (s.setCurrentPid (some s.idlePid), t)
    else (s, t)

/-- The tick that is charged now uses up the time slice. -/
def sliceExpires (process : Process) : Bool := process.timeSlice - 1 == 0

/-- The accounting of one tick in the process record. -/
def chargeProcess (process : Process) : Process :=
  let process' := { process with
    cpuTicks := U64.saturatingAdd process.cpuTicks 1
    timeSlice := process.timeSlice - 1 }
  if sliceExpires process then
    { process' with state := .ready, timeSlice := timeSliceFor process.priority }
  else process'

/-- The current process, when the tick finds it in the table. -/
def charged (s : Scheduler) (tableFree : Bool) (t : ProcessTable) : Option (Pid × Process) :=
  match s.currentPid with
  | none => none
  | some pid => if tableFree then (t.get pid).map fun process => (pid, process) else none

def chargeCurrent (s : Scheduler) (tableFree : Bool) (t : ProcessTable) :
    Scheduler × ProcessTable :=
  match s.charged tableFree t with
  | none => (s, t)
  | some (pid, process) =>
    (if sliceExpires process then s.enqueue pid process.priority else s, t.modify pid chargeProcess)

/-- The current process and its priority, when the tick ends its time slice. -/
def expiring (s : Scheduler) (tableFree : Bool) (t : ProcessTable) : Option (Pid × Priority) :=
  (s.charged tableFree t).bind fun (pid, process) =>
    if sliceExpires process then some (pid, process.priority) else none

def timerTick (s : Scheduler) (tableFree : Bool) (t : ProcessTable) :
    Scheduler × ProcessTable :=
  if s.enabled then
    let charged := s.chargeCurrent tableFree t
    charged.1.selectNext tableFree charged.2
  else (s, t)

variable (s : Scheduler) (pid : Option Pid) {qs : List Priority}

@[simp] lemma enqueue_currentPid (pid : Pid) (prio : Priority) :
    (s.enqueue pid prio).currentPid = s.currentPid := by
  unfold enqueue
  dsimp only
  split_ifs <;> rfl

@[simp] lemma setCurrentPid_currentPid : (s.setCurrentPid pid).currentPid = pid := by
  unfold setCurrentPid
  split_ifs with h
  · rfl
  · exact not_not.mp h

@[simp] lemma setCurrentPid_runQueues : (s.setCurrentPid pid).runQueues = s.runQueues := by
  unfold setCurrentPid
  split_ifs <;> rfl

lemma expiring_currentPid {s : Scheduler} {free : Bool} {t : ProcessTable} {pid : Pid}
    {prio : Priority} (h : s.expiring free t = some (pid, prio)) :
    s.currentPid = some pid := by
  simp only [expiring, charged, Option.bind_eq_some_iff] at h
  obtain ⟨⟨pid', p⟩, hchar, hexp⟩ := h
  split at hchar
  · simp at hchar
  · next hcur =>
    split_ifs at hchar hexp
    · simp only [Option.map_eq_some_iff, Option.some.injEq, Prod.mk.injEq] at hchar hexp
      obtain ⟨_, -, rfl, -⟩ := hchar
      rw [hcur, hexp.1]

lemma chargeCurrent_fst (free : Bool) (t : ProcessTable) :
    (s.chargeCurrent free t).1 = match s.expiring free t with
      | some (pid, priority) => s.enqueue pid priority
      | none => s := by
  unfold chargeCurrent expiring
  cases hchar : s.charged free t with
  | none => rfl
  | some charged => by_cases hexp : sliceExpires charged.2 <;> simp [hexp]

lemma popFront_eq_none {s : Scheduler} (h : s.popFront qs = none) :
    ∀ q ∈ qs, s.runQueues q = [] := by
  induction qs with
  | nil => simp
  | cons _ _ ih =>
    unfold popFront at h
    split at h
    · next hq => simpa [hq] using ih h
    · simp at h

lemma popFront_eq_some {s s' : Scheduler} {pid : Pid} (h : s.popFront qs = some (pid, s')) :
    ∃ q ∈ qs, ∃ rest, s.runQueues q = pid :: rest ∧
      s' = { s with runQueues := Function.update s.runQueues q rest } := by
  induction qs with
  | nil => simp [popFront] at h
  | cons q _ ih =>
    unfold popFront at h
    split at h
    · obtain ⟨q', hq', hr⟩ := ih h
      exact ⟨q', List.mem_cons_of_mem _ hq', hr⟩
    · next head rest hq =>
      obtain ⟨rfl, rfl⟩ := h
      exact ⟨q, List.mem_cons_self, rest, hq, rfl⟩

end Scheduler

/-!
## Runs

Runs of the scheduler over a changing process table.

A run is any interleaving of scheduler calls and of changes to the process
table. The history keeps the pids made runnable and since then neither dequeued,
blocked nor turned into a zombie. A runnable process should be the current one or
stand in exactly one run queue exactly once.

`timer_tick` loses processes: it replaces a current process that has time left
and does not queue it again. `StepOk` says which calls are harmless.
-/

open Finset Scheduler List Function

namespace Scheduler

/-- `pid` stands in some run queue. -/
def Queued (s : Scheduler) (pid : Pid) : Prop := ∃ q, pid ∈ s.runQueues q
  deriving Decidable

/-- `pid` is the current process or stands in some run queue. -/
def Held (s : Scheduler) (pid : Pid) : Prop := s.currentPid = some pid ∨ s.Queued pid

/-- `pid` is the current process or stands in exactly one run queue, exactly
once. -/
def Tracked (s : Scheduler) (pid : Pid) : Prop :=
  s.currentPid = some pid ∨
    ∃ q, (s.runQueues q).count pid = 1 ∧ ∀ q', q' ≠ q → pid ∉ s.runQueues q'
  deriving Decidable

/-- No pid stands twice in the run queues. -/
structure WellQueued (s : Scheduler) : Prop where
  nodup : ∀ q, (s.runQueues q).Nodup
  unique : ∀ {q q' : Priority} {pid : Pid},
    pid ∈ s.runQueues q → pid ∈ s.runQueues q' → q = q'

variable {s : Scheduler} {pid : Pid} {priority : Priority} {x : Pid} {qs : List Priority}
  (tableFree : Bool) (t : ProcessTable)

lemma WellQueued.tracked (h : s.WellQueued) (hheld : s.Held pid) : s.Tracked pid := by
  rcases hheld with hcur | ⟨q, hq⟩
  · exact .inl hcur
  · refine .inr ⟨q, count_eq_one_of_mem (h.nodup q) hq, ?_⟩
    intro q' hne hq'
    exact hne (h.unique hq' hq)

/-- Replacing one queue keeps the queues well formed when the new queue has no
duplicates and shares nothing with the others. -/
lemma WellQueued.update {s s' : Scheduler} (h : s.WellQueued) {q : Priority} {queue : List Pid}
    (hs' : s'.runQueues = update s.runQueues q queue) (hnd : queue.Nodup)
    (hfs : ∀ pid ∈ queue, ∀ q', q' ≠ q → pid ∉ s.runQueues q') : s'.WellQueued := by
  constructor
  · intro q'
    rw [hs']
    by_cases hq : q' = q
    · subst hq
      simpa using hnd
    · simpa [hq] using h.nodup q'
  · intro q₁ q₂ pid h₁ h₂
    rw [hs'] at h₁ h₂
    by_cases hq₁ : q₁ = q <;> by_cases hq₂ : q₂ = q
    · rw [hq₁, hq₂]
    · subst hq₁
      simp only [update_self, update_of_ne hq₂] at h₁ h₂
      exact absurd h₂ (hfs pid h₁ q₂ hq₂)
    · subst hq₂
      simp only [update_self, update_of_ne hq₁] at h₁ h₂
      exact absurd h₁ (hfs pid h₂ q₁ hq₁)
    · simp only [update_of_ne hq₁, update_of_ne hq₂] at h₁ h₂
      exact h.unique h₁ h₂

/-- The process is already in that queue, or it is in no queue and the queue
has room. -/
def EnqueueOk (s : Scheduler) (pid : Pid) (priority : Priority) : Prop :=
  pid ∈ s.runQueues priority ∨
    ¬ s.Queued pid ∧ (s.runQueues priority).length < s.capacity
  deriving Decidable

lemma WellQueued.enqueue (h : s.WellQueued) (hok : s.EnqueueOk pid priority) :
    (s.enqueue pid priority).WellQueued := by
  unfold Scheduler.enqueue
  dsimp only
  split_ifs with hmem hrm
  · exact h
  · rcases hok with hin | ⟨hfr, -⟩
    · exact absurd hin hmem
    refine h.update rfl ?_ ?_
    · exact nodup_append.mpr ⟨h.nodup _, by simp, by
        intro a ha b hb hab
        rw [List.mem_singleton] at hb
        exact hmem (hb ▸ hab ▸ ha)⟩
    · intro x hx q' hq' hxq'
      rcases mem_append.mp hx with hx | hx
      · exact hq' (h.unique hxq' hx)
      · rw [List.mem_singleton] at hx
        exact hfr ⟨q', hx ▸ hxq'⟩
  · exact h

lemma Queued.enqueue (hx : s.Queued x) (pid : Pid) (prio : Priority) :
    (s.enqueue pid prio).Queued x := by
  unfold Scheduler.enqueue
  dsimp only
  split_ifs
  · exact hx
  · obtain ⟨q, hq⟩ := hx
    refine ⟨q, ?_⟩
    by_cases hqp : q = prio
    · subst hqp
      simp [hq]
    · simpa [hqp] using hq
  · exact hx

lemma EnqueueOk.queued (hok : s.EnqueueOk pid priority) : (s.enqueue pid priority).Queued pid := by
  unfold enqueue
  dsimp only
  split_ifs with hmem hrm
  · exact ⟨priority, hmem⟩
  · exact ⟨priority, by simp⟩
  · rcases hok with hin | ⟨-, hlt⟩
    · exact absurd hin hmem
    · exact absurd hlt hrm

lemma WellQueued.dequeue (h : s.WellQueued) (pid : Pid) : (s.dequeue pid).WellQueued := by
  constructor
  · intro q
    exact (h.nodup q).filter _
  · intro q q' x hx hx'
    exact h.unique (mem_of_mem_filter hx) (mem_of_mem_filter hx')

lemma Held.dequeue {x pid : Pid} (hx : s.Held x) (hne : x ≠ pid) : (s.dequeue pid).Held x := by
  rcases hx with hcur | ⟨q, hq⟩
  · exact .inl (by simp [Scheduler.dequeue, hcur, hne])
  · exact .inr ⟨q, by simp [Scheduler.dequeue, hq, hne]⟩

lemma WellQueued.setCurrentPid (h : s.WellQueued) (pid : Option Pid) :
    (s.setCurrentPid pid).WellQueued := by
  constructor
  · intro q
    rw [setCurrentPid_runQueues]
    exact h.nodup q
  · rw [setCurrentPid_runQueues]
    exact h.unique

lemma Queued.setCurrentPid (hx : s.Queued x) (pid : Option Pid) :
    (s.setCurrentPid pid).Queued x := by
  unfold Queued
  rw [setCurrentPid_runQueues]
  exact hx

lemma WellQueued.popFront {s s' : Scheduler} (h : s.WellQueued)
    (hpop : s.popFront qs = some (pid, s')) : s'.WellQueued := by
  obtain ⟨q, -, rest, hq, rfl⟩ := popFront_eq_some hpop
  have hnd : (pid :: rest).Nodup := hq ▸ h.nodup q
  refine h.update rfl hnd.of_cons ?_
  intro x hx q' hq' hxq'
  exact hq' (h.unique hxq' (by rw [hq]; exact mem_cons_of_mem _ hx))

lemma Queued.popFront {s s' : Scheduler} {x pid : Pid} (hx : s.Queued x)
    (hpop : s.popFront qs = some (pid, s')) (hne : x ≠ pid) : s'.Queued x := by
  obtain ⟨q, -, rest, hq, rfl⟩ := popFront_eq_some hpop
  obtain ⟨q', hq'⟩ := hx
  refine ⟨q', ?_⟩
  by_cases hqq : q' = q
  · subst hqq
    rw [hq] at hq'
    simpa [hne] using hq'
  · simpa [hqq] using hq'

lemma WellQueued.selectNext (h : s.WellQueued) (free : Bool) (t : ProcessTable) :
    (s.selectNext free t).1.WellQueued := by
  unfold Scheduler.selectNext
  split
  · next hpop => exact (h.popFront hpop).setCurrentPid _
  · split_ifs
    · exact h.setCurrentPid _
    · exact h

/-- Selecting keeps what is queued, and keeps the current process when
nothing is queued. -/
lemma held_selectNext (hx : s.Queued x ∨ s.currentPid = some x ∧ ∀ q, s.runQueues q = []) :
    (s.selectNext tableFree t).1.Held x := by
  unfold selectNext
  split
  · next pid s' hpop =>
    rcases hx with hqd | ⟨-, hemp⟩
    · by_cases hxp : x = pid
      · exact .inl (by simp [hxp])
      · exact .inr ((hqd.popFront hpop hxp).setCurrentPid _)
    · obtain ⟨q, -, rest, hq, -⟩ := popFront_eq_some hpop
      simp [hemp] at hq
  · next hpop =>
    have hemp := popFront_eq_none hpop
    rcases hx with ⟨q, hq⟩ | ⟨hcur, -⟩
    · simp [hemp] at hq
    · simp [hcur, Held]

lemma held_selectNext_popped {s s' : Scheduler}
    (hpop : s.popFront Priority.all = some (pid, s')) : (s.selectNext tableFree t).1.Held pid := by
  unfold selectNext
  rw [hpop]
  exact .inl (by simp)

/-- The priorities whose queues are searched after that of `p`. -/
def later (p : Priority) : List Priority := (Priority.all.dropWhile (· ≠ p)).tail

/-- The process is in the queue `q`, and at most `n` others are taken before it. -/
def Waits (s : Scheduler) (q : Priority) (x : Pid) (n : ℕ) : Prop :=
  s.enabled ∧ x ∈ s.runQueues q ∧ (Priority.all.flatMap s.runQueues).idxOf x ≤ n

lemma flatMap_update {queues : Priority → List Pid} {p : Priority} {queue : List Pid}
    {qs : List Priority} (hp : p ∉ qs) : qs.flatMap (update queues p queue) = qs.flatMap queues :=
  flatMap_congr fun _ hq => update_of_ne (ne_of_mem_of_not_mem hq hp) _ _

lemma popFront_flatMap {s s' : Scheduler} {pid : Pid} {qs : List Priority} (hqs : qs.Nodup)
    (h : s.popFront qs = some (pid, s')) :
    qs.flatMap s.runQueues = pid :: qs.flatMap s'.runQueues := by
  induction qs with
  | nil => cases h
  | cons r rs ih =>
    obtain ⟨hr, hrs⟩ := nodup_cons.1 hqs
    rw [popFront] at h
    split at h
    · next hempty =>
      have hpop := ih hrs h
      obtain ⟨q, hq, rest, -, rfl⟩ := popFront_eq_some h
      rw [flatMap_cons, hempty, hpop]
      simp [hempty, (ne_of_mem_of_not_mem hq hr).symm]
    · next hfull =>
      cases h
      simp [hfull, flatMap_update hr]

section
variable {s : Scheduler} {x : Pid} {q : Priority} {n : ℕ} (h : s.Waits q x n)
include h

/-- A process is put before another one only in a queue that is searched earlier. -/
lemma Waits.enqueue (pid : Pid) (p : Priority) :
    (s.enqueue pid p).Waits q x (n + (decide (q ∈ later p)).toNat) := by
  obtain ⟨hon, hx, hn⟩ := h
  unfold Scheduler.enqueue
  dsimp only
  split_ifs
  · exact ⟨hon, hx, hn.trans (Nat.le_add_right ..)⟩
  · refine ⟨hon, by by_cases hqp : q = p <;> simp_all, ?_⟩
    obtain ⟨before, hall, hbefore, hafter⟩ : ∃ before, Priority.all = before ++ p :: later p ∧
        p ∉ before ∧ p ∉ later p := ⟨Priority.all.takeWhile (· ≠ p), by cases p <;> decide⟩
    rw [hall] at hn ⊢
    simp only [flatMap_append, flatMap_cons, flatMap_update hbefore, flatMap_update hafter,
      update_self, append_assoc, singleton_append] at hn ⊢
    rw [← append_assoc] at hn ⊢
    by_cases hmem : x ∈ before.flatMap s.runQueues ++ s.runQueues p
    · rw [idxOf_append_of_mem hmem] at hn ⊢
      exact hn.trans (Nat.le_add_right ..)
    · have hq : q ∈ later p := by
        have hq := hall ▸ Priority.mem_all q
        simp only [mem_append, mem_flatMap, List.mem_cons] at hq hmem
        grind
      rw [idxOf_append_of_notMem hmem] at hn ⊢
      rw [idxOf_cons, decide_eq_true hq]
      cases pid == x <;> simp only [cond_true, cond_false, Bool.toNat_true] <;> omega
  · exact ⟨hon, hx, hn.trans (Nat.le_add_right ..)⟩

/-- The next process is the one that waits, or one before it. -/
lemma Waits.selectNext (free : Bool) (t : ProcessTable) :
    (s.selectNext free t).1.currentPid = some x ∨
      ∃ m < n, (s.selectNext free t).1.Waits q x m := by
  obtain ⟨hon, hx, hn⟩ := h
  cases hpop : s.popFront Priority.all with
  | none => simp [popFront_eq_none hpop q (Priority.mem_all q)] at hx
  | some popped =>
    obtain ⟨pid, s'⟩ := popped
    have hline := popFront_flatMap (by decide) hpop
    have hnext : (s.selectNext free t).1 = s'.setCurrentPid (some pid) := by
      rw [Scheduler.selectNext, hpop]
    obtain ⟨r, -, rest, hr, rfl⟩ := popFront_eq_some hpop
    rw [hnext, setCurrentPid_currentPid]
    by_cases hxp : pid = x
    · exact .inl (congrArg some hxp)
    rw [hline, idxOf_cons_ne _ hxp] at hn
    refine .inr ⟨_, hn, ?_, ?_, by rw [setCurrentPid_runQueues]⟩
    · unfold setCurrentPid
      split_ifs <;> exact hon
    · by_cases hqr : q = r
      · subst hqr
        simpa [hr, Ne.symm hxp] using hx
      · simpa [hqr] using hx

end

/-- A tick; the flag says whether the process table is free. -/
def timerStep (st : Scheduler × ProcessTable) (tableFree : Bool) : Scheduler × ProcessTable :=
  st.1.timerTick tableFree st.2

/-- The ticks that queue a process before those in the queue `q`. -/
def overtakings (q : Priority) : Scheduler × ProcessTable → List Bool → ℕ
  | _, [] => 0
  | st, tableFree :: flags =>
    ((st.1.expiring tableFree st.2).any fun entry => q ∈ later entry.2).toNat +
      overtakings q (timerStep st tableFree) flags

/-- No process starves but by those of higher priority: a process in a queue runs
after as many ticks as there are processes before it, and one more for each tick that
puts a process before it. -/
theorem runs_within {st : Scheduler × ProcessTable} {q : Priority} {x : Pid} {n : ℕ}
    {flags : List Bool} (h : st.1.Waits q x n) (hlong : n + overtakings q st flags < flags.length) :
    ∃ k, (run timerStep st (flags.take (k + 1))).1.currentPid = some x := by
  induction flags generalizing st n with
  | nil => cases hlong
  | cons tableFree flags ih =>
    obtain ⟨s, t⟩ := st
    rw [overtakings, length_cons] at hlong
    have hcharge : (s.chargeCurrent tableFree t).1.Waits q x
        (n + ((s.expiring tableFree t).any fun entry => q ∈ later entry.2).toNat) := by
      rw [chargeCurrent_fst]
      rcases s.expiring tableFree t with - | ⟨pid, p⟩
      · exact h
      · exact h.enqueue pid p
    have htick : timerStep (s, t) tableFree = (s.chargeCurrent tableFree t).1.selectNext tableFree
        (s.chargeCurrent tableFree t).2 := if_pos h.1
    have hnext := hcharge.selectNext tableFree (s.chargeCurrent tableFree t).2
    rw [← htick] at hnext
    rcases hnext with hcur | ⟨m, hm, hwaits⟩
    · exact ⟨0, hcur⟩
    · obtain ⟨k, hk⟩ := ih hwaits (by dsimp only at hlong; omega)
      exact ⟨k + 1, hk⟩

theorem runs_within_second : ∃ k, (run timerStep
    (((new 256 le_rfl).enable.enqueue 1 .normal).enqueue 2 .normal, .new)
    ([true, false].take (k + 1))).1.currentPid = some 2 :=
  runs_within (q := .normal) (n := 1) ⟨rfl, by decide, by decide⟩ (by decide)

end Scheduler

/-! ### The system and its runs -/

/-- The scheduler, the process table, and the pids made runnable and not
taken back since. -/
structure SchedulerSystem where
  sched : Scheduler
  table : ProcessTable
  runnable : Finset Pid

/-- The calls of the scheduler, and a change of the process table by other
code. -/
inductive SchedulerCall
  | enqueue (pid : Pid) (priority : Priority)
  | dequeue (pid : Pid)
  | setCurrentPid (pid : Option Pid)
  | timerTick (tableFree : Bool)
  | enable
  | disable
  | changeTable (table : ProcessTable)

namespace SchedulerSystem

open Scheduler

def init (capacity : ℕ) (h : 256 ≤ capacity) (table : ProcessTable) : SchedulerSystem :=
  ⟨new capacity h, table, ∅⟩

/-- The pids one tick makes runnable: the current process when its slice ends
and `enqueue` is called for it, and the process made current. -/
def madeRunnable (s : SchedulerSystem) (tableFree : Bool) : List Pid :=
  ((s.sched.expiring tableFree s.table).map Prod.fst).toList ++
    (((s.sched.chargeCurrent tableFree s.table).1.popFront Priority.all).map Prod.fst).toList

/-- Not blocked and not a zombie, as far as the table knows the process. -/
def mayRun (table : ProcessTable) (pid : Pid) : Bool :=
  (table.get pid).all fun process => process.state ≠ .blocked && process.state ≠ .zombie

def step (s : SchedulerSystem) : SchedulerCall → SchedulerSystem
  | .enqueue pid priority =>
    { s with sched := s.sched.enqueue pid priority, runnable := insert pid s.runnable }
  | .dequeue pid => { s with sched := s.sched.dequeue pid, runnable := s.runnable.erase pid }
  | .setCurrentPid pid =>
    { s with
      sched := s.sched.setCurrentPid pid
      runnable := s.runnable ∪ pid.toList.toFinset }
  | .timerTick tableFree =>
    let after := s.sched.timerTick tableFree s.table
    { sched := after.1
      table := after.2
      runnable :=
        if s.sched.enabled then s.runnable ∪ (s.madeRunnable tableFree).toFinset
        else s.runnable }
  | .enable => { s with sched := s.sched.enable }
  | .disable => { s with sched := s.sched.disable }
  | .changeTable table =>
    { s with table := table, runnable := s.runnable.filter fun pid => mayRun table pid }

/-- Replacing the current process loses nothing: a runnable current process is
queued. -/
def ReplaceOk (s : SchedulerSystem) : Prop :=
  match s.sched.currentPid with
  | some pid => pid ∈ s.runnable → s.sched.Queued pid
  | none => True

instance (s : SchedulerSystem) : Decidable s.ReplaceOk := by
  unfold ReplaceOk
  split <;> infer_instance

variable {s : SchedulerSystem} {tableFree : Bool}

lemma ReplaceOk.queued (h : s.ReplaceOk) {pid : Pid} (hcur : s.sched.currentPid = some pid)
    (hpid : pid ∈ s.runnable) : s.sched.Queued pid := by
  rw [ReplaceOk, hcur] at h
  exact h hpid

/-- A tick loses nothing when it ends the slice of the current process and
there is room for it in its queue, when nothing is queued, or when the
current process may be replaced. -/
def TickOk (s : SchedulerSystem) (tableFree : Bool) : Prop :=
  match s.sched.expiring tableFree s.table with
  | some (pid, priority) => s.sched.EnqueueOk pid priority
  | none => (∀ q, s.sched.runQueues q = []) ∨ s.ReplaceOk

instance (s : SchedulerSystem) (tableFree : Bool) : Decidable (s.TickOk tableFree) := by
  unfold TickOk
  split <;> infer_instance

/-- The calls that lose no runnable process, judged in the state before the
call. -/
def StepOk (s : SchedulerSystem) : SchedulerCall → Prop
  | .enqueue pid priority => s.sched.EnqueueOk pid priority
  | .setCurrentPid pid => s.sched.currentPid = pid ∨ s.ReplaceOk
  | .timerTick tableFree => s.sched.enabled = true → s.TickOk tableFree
  | .dequeue _ | .enable | .disable | .changeTable _ => True

instance (s : SchedulerSystem) (call : SchedulerCall) : Decidable (s.StepOk call) := by
  cases call <;> unfold StepOk <;> infer_instance

/-- No runnable process is lost and none stands twice in the queues. -/
structure Consistent (s : SchedulerSystem) : Prop where
  wellQueued : s.sched.WellQueued
  held : ∀ pid ∈ s.runnable, s.sched.Held pid

lemma consistent_init (cap : ℕ) (h : 256 ≤ cap) (table : ProcessTable) :
    (init cap h table).Consistent := by
  refine ⟨⟨?_, ?_⟩, ?_⟩ <;> simp [init, new]

lemma Consistent.enqueue (h : s.Consistent) {pid : Pid} {prio : Priority}
    (hok : s.sched.EnqueueOk pid prio) : (s.step (.enqueue pid prio)).Consistent := by
  refine ⟨h.wellQueued.enqueue hok, ?_⟩
  intro x hx
  rcases mem_insert.mp hx with rfl | hx
  · exact .inr hok.queued
  · rcases h.held x hx with hcur | hqd
    · exact .inl (by simpa [step] using hcur)
    · exact .inr (hqd.enqueue pid prio)

lemma Consistent.setCurrentPid (h : s.Consistent) {pid : Option Pid}
    (hok : s.sched.currentPid = pid ∨ s.ReplaceOk) : (s.step (.setCurrentPid pid)).Consistent := by
  refine ⟨h.wellQueued.setCurrentPid pid, ?_⟩
  intro x hx
  simp only [step, mem_union, mem_toFinset, Option.mem_toList] at hx
  rcases hx with hx | rfl
  · rcases h.held x hx with hcur | hqd
    · rcases hok with rfl | hrepl
      · exact .inl (by simpa [step] using hcur)
      · exact .inr ((hrepl.queued hcur hx).setCurrentPid pid)
    · exact .inr (hqd.setCurrentPid pid)
  · exact .inl (by simp [step])

/-- What a harmless tick keeps queued, or current with empty queues, between
charging the current process and selecting the next one. -/
lemma Consistent.chargeCurrent (h : s.Consistent) (hok : s.TickOk tableFree) :
    (s.sched.chargeCurrent tableFree s.table).1.WellQueued ∧
      ∀ x, x ∈ s.runnable ∨ x ∈ (s.sched.expiring tableFree s.table).map Prod.fst →
        (s.sched.chargeCurrent tableFree s.table).1.Queued x ∨
          (s.sched.chargeCurrent tableFree s.table).1.currentPid = some x ∧
            ∀ q, (s.sched.chargeCurrent tableFree s.table).1.runQueues q = [] := by
  rw [chargeCurrent_fst]
  unfold TickOk at hok
  split at hok
  · next pid priority hexp =>
    have hcur := expiring_currentPid hexp
    rw [hexp]
    refine ⟨h.wellQueued.enqueue hok, ?_⟩
    intro x hx
    by_cases hxp : x = pid
    · exact .inl (hxp ▸ hok.queued)
    · have hxr : x ∈ s.runnable := by simpa [Ne.symm hxp] using hx
      rcases h.held x hxr with hxc | hqd
      · rw [hcur] at hxc
        exact absurd (Option.some.inj hxc).symm hxp
      · exact .inl (hqd.enqueue pid priority)
  · next hexp =>
    rw [hexp]
    refine ⟨h.wellQueued, ?_⟩
    intro x hx
    have hxr : x ∈ s.runnable := by simpa using hx
    rcases h.held x hxr with hcur | hqd
    · rcases hok with hemp | hrepl
      · exact .inr ⟨hcur, hemp⟩
      · exact .inl (hrepl.queued hcur hxr)
    · exact .inl hqd

lemma Consistent.timerTick (h : s.Consistent) (hok : s.sched.enabled → s.TickOk tableFree) :
    (s.step (.timerTick tableFree)).Consistent := by
  by_cases hen : s.sched.enabled
  · obtain ⟨hwell, hke⟩ := h.chargeCurrent (hok hen)
    simp only [step, Scheduler.timerTick, hen, if_true]
    refine ⟨hwell.selectNext _ _, ?_⟩
    intro x hx
    simp only [madeRunnable, mem_union, mem_toFinset, mem_append, Option.mem_toList] at hx
    rcases hx with hx | hx | hx
    · exact held_selectNext _ _ (hke x (.inl hx))
    · exact held_selectNext _ _ (hke x (.inr hx))
    · obtain ⟨⟨pid, s'⟩, hpop, rfl⟩ := Option.map_eq_some_iff.mp hx
      exact held_selectNext_popped _ _ hpop
  · simpa [step, Scheduler.timerTick, hen] using h

lemma Consistent.step {call : SchedulerCall} (h : s.Consistent) (hok : s.StepOk call) :
    (s.step call).Consistent := by
  cases call with
  | enqueue => exact h.enqueue hok
  | dequeue pid =>
    refine ⟨h.wellQueued.dequeue pid, ?_⟩
    intro x hx
    obtain ⟨hne, hx⟩ := mem_erase.mp hx
    exact (h.held x hx).dequeue hne
  | setCurrentPid => exact h.setCurrentPid hok
  | timerTick => exact h.timerTick hok
  | enable | disable => exact ⟨⟨h.wellQueued.nodup, h.wellQueued.unique⟩, h.held⟩
  | changeTable => exact ⟨h.wellQueued, fun x hx => h.held x (mem_of_mem_filter x hx)⟩

/-- In every state of a run of harmless calls, every runnable process is the
current one or stands in exactly one run queue exactly once. -/
theorem tracked_of_stepsOk (capacity : ℕ) (h : 256 ≤ capacity) (table : ProcessTable)
    (calls : List SchedulerCall)
    (hok : StepsOk SchedulerSystem.step StepOk (init capacity h table) calls) (n : ℕ) (pid : Pid)
    (hpid : pid ∈ (run SchedulerSystem.step (init capacity h table) (calls.take n)).runnable) :
    (run SchedulerSystem.step (init capacity h table) (calls.take n)).sched.Tracked pid := by
  have hco := run_invariant (fun _ _ hs ho => .step hs ho)
    (consistent_init capacity h table) (hok.take n)
  exact hco.wellQueued.tracked (hco.held pid hpid)

/-- A shell with its full slice, and a background command. -/
def shellAndCommand : ProcessTable where
  processes :=
    [{ Process.kernelTask 0 [] 0 .running [] .interactive 0 .kernelShell [] ⟨0⟩ with pid := 1 },
      { Process.kernelTask 1 [] 0 .ready [] .normal 0 .shellCommand [] ⟨0⟩ with pid := 2 }]
  nextPid := 3
  shellPid := some 1

/-- With its slice at one tick the shell goes back to its queue and the
command runs. -/
theorem tracked_of_stepsOk_expiring : (run SchedulerSystem.step (init 256 (by decide)
        (shellAndCommand.modify 1 fun process => { process with timeSlice := 1 }))
      ([.enable, .setCurrentPid (some 1), .enqueue 2 .normal, .timerTick true].take
        4)).sched.Tracked 1 :=
  tracked_of_stepsOk 256 (by decide) _ _ (by decide) 4 1 (by decide)

/-- One tick takes the current process, which has nine ticks left, off the
scheduler altogether. -/
theorem timerTick_loses_current :
    let s := run SchedulerSystem.step (init 256 (by decide) shellAndCommand)
      [.enable, .setCurrentPid (some 1), .enqueue 2 .normal, .timerTick true]
    1 ∈ s.runnable ∧ s.sched.currentPid = some 2 ∧ ¬ s.sched.Queued 1 ∧ ¬ s.sched.Tracked 1 := by
  decide

end SchedulerSystem

end Waros.Kernel.Exec
