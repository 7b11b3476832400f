import Waros.Kernel.Auth.Session
import Waros.Kernel.Exec.Scheduler

/-!
The global state that logins, processes and the timer share: the statics
`USER_DB`, `CURRENT_SESSION`, `PROCESS_TABLE` and `SCHEDULER`.
-/

namespace Waros.Kernel

open Auth Exec

structure KernelState where
  users : UserDB
  session : CurrentSession
  table : ProcessTable
  scheduler : Scheduler

namespace KernelState

/-- The state after `exec::init`: nobody is logged in and no process exists. -/
def init (users : UserDB) : KernelState where
  users := users
  session := none
  table := .new
  scheduler := (Scheduler.new 256 le_rfl).enable

def start (k : KernelState) (user : UserAccount) (now : ℕ) : KernelState :=
  { k with session := some (.start user now) }

def logout (k : KernelState) : KernelState := { k with session := none }

def sessionUid (k : KernelState) : Uid := k.session.currentUid

def currentPid (k : KernelState) : Option Pid := k.scheduler.currentPid

def setCurrentPid (k : KernelState) (pid : Option Pid) : KernelState :=
  { k with scheduler := k.scheduler.setCurrentPid pid }

/-- `exec::tick`: the timer interrupt does nothing while the scheduler is
locked. -/
def tick (k : KernelState) (schedulerFree tableFree : Bool) : KernelState :=
  if schedulerFree then
    let r := k.scheduler.timerTick tableFree k.table
    { k with scheduler := r.1, table := r.2 }
  else k

variable (k : KernelState) (schedulerFree tableFree : Bool)

@[simp] lemma setCurrentPid_currentPid (pid : Option Pid) :
    (k.setCurrentPid pid).currentPid = pid :=
  Scheduler.setCurrentPid_currentPid _ _

@[simp] lemma tick_users : (k.tick schedulerFree tableFree).users = k.users := by
  unfold tick
  split_ifs <;> rfl

@[simp] lemma tick_session : (k.tick schedulerFree tableFree).session = k.session := by
  unfold tick
  split_ifs <;> rfl

end KernelState

end Waros.Kernel
