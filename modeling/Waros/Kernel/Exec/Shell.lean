import Waros.Lib.Fallible
import Waros.Kernel.Security.Capabilities

/-!
The shell process and the commands it runs in the background
(`kernel/src/exec/mod.rs`).

The cooperative task scheduler that polls the background commands is not part
of the state: `spawnShellCommand` is given the task id it answers with, if it
accepts the task.
-/

namespace Waros.Kernel.Exec

open Lib Security
variable (k : KernelState) (t : ProcessTable) (process : Process) (commandLine : Str)
  (priority : Priority) (task : Option ℕ)

def reusableShell : Option Pid :=
  k.table.shellPid.filter fun pid =>
    (k.table.get pid).any fun process => process.uid == k.sessionUid

variable (now : ℕ) (pid : Pid)

def shellProcess : Process :=
  .kernelTask 0 "waros-shell".toList k.sessionUid .running (k.session.resolvePath ['.'])
    .interactive now .kernelShell "shell".toList (shellCapabilitiesForUid k k.sessionUid)

/-- The table with the new shell process. When the table is full the shell is
taken to be process 1. -/
def addShell : Pid × ProcessTable :=
  match t.createProcess process with
  | .ok (pid, t') => (pid, { t' with shellPid := some pid })
  | .error _ => (1, { t with shellPid := some 1 })

def ensureShellProcess : Pid × KernelState :=
  match reusableShell k with
  | some pid => (pid, k.setCurrentPid (some pid))
  | none =>
    let r := addShell k.table (shellProcess k now)
    (r.1, { k with table := r.2 }.setCurrentPid (some r.1))

/-- The flags say which of the two locks `try_lock` gets. -/
def resetShellProcess (schedulerFree tableFree : Bool) : KernelState :=
  match tableFree, k.table.shellPid with
  | true, some pid =>
    { k with
      table := { k.table with shellPid := none }.remove pid
      scheduler := if schedulerFree then k.scheduler.dequeue pid else k.scheduler }
  | _, _ => k

def markExit (exitCode : Int32) : KernelState :=
  { k with
    table := k.table.modify pid fun process =>
      { process with state := .zombie, exitCode := some exitCode }
    scheduler := k.scheduler.dequeue pid }

def attachTask (taskId : ℕ) : ProcessTable :=
  t.modify pid fun process => { process with taskId := some taskId }

/-- The first 32 bytes of a longer command line; slicing inside a character
panics. -/
def commandName : Option Str :=
  if Str.byteLen commandLine > 32 then Str.sliceTo 32 commandLine else some commandLine

def commandProcess (parentPid : Pid) (commandLine name : Str) (priority : Priority) (now : ℕ) :
    Process :=
  .kernelTask parentPid (.trim name) k.sessionUid .ready
    (k.session.resolvePath ['.']) priority now .shellCommand (.trim commandLine)
    (spawnCapabilities k parentPid k.sessionUid)

/-- The part of `spawn_shell_command` after the shell process is there. -/
def addCommand : Except ExecError Pid × KernelState :=
  match k.table.createProcess process with
  | .error error => (.error error, k)
  | .ok (pid, table) =>
    let k' := { k with table, scheduler := k.scheduler.enqueue pid priority }
    match task with
    | none => (.error .loadFailed, k')
    | some taskId => (.ok pid, { k' with table := attachTask table pid taskId })

def spawnShellCommand : Outcome (Except ExecError Pid) × KernelState :=
  let r := ensureShellProcess k now
  match commandName commandLine with
  | none => (.panicked, r.2)
  | some name =>
    let r' := addCommand r.2 (commandProcess r.2 r.1 commandLine name priority now) priority task
    (.returned r'.1, r'.2)

end Waros.Kernel.Exec
