import Waros.Kernel.Exec.Syscalls.UserAccess

/-!
Starting programs: `spawn_process` (`kernel/src/exec/loader.rs`) and
`sys_execve` (`kernel/src/exec/syscalls/process.rs`).

Both switch to the new page table while they build the image and back
afterwards; `sys_execve` then takes the old image down and returns to the
process in the new one.
-/

namespace Waros.Kernel.Exec

open Lib Memory Security

namespace Loader

variable (users : Auth.UserDB)

/-- The role a file is read with on behalf of a process. -/
def roleForUid (uid : Uid) : Auth.UserRole :=
  ((users.findByUid uid).map fun user => user.role).getD .admin

def fileName (path : Str) : Str := .afterLast '/' path

def execErrorOf : Fs.FsError → ExecError
  | .fileNotFound => .fileNotFound
  | .permissionDenied => .permissionDenied
  | _ => .loadFailed

/-- The headers of a program and its size, without starting it. -/
def loadElfMetadata (fs : Fs.WarFS) (path : Str) (uid : Uid) : Except ExecError (ElfInfo × ℕ) :=
  match fs.readAs path uid (roleForUid users uid) with
  | .error error => .error (execErrorOf error)
  | .ok data =>
    match parseElf data with
    | .error error => .error error
    | .ok elf => .ok (elf, data.length)

/-- The record that `build_process` fills in around an image. -/
def processOf (k : KernelState) (path : Str) (env : List (Str × Str)) (uid : Uid)
    (parentPid : Pid) (priority : Priority) (now pageTablePhys : ℕ)
    (image : AddressSpace × CpuContext × ℕ) : Process :=
  { Process.kernelTask parentPid (fileName path) uid .ready (k.session.resolvePath ['.'])
      priority now .elf path (spawnCapabilities k parentPid uid) with
    context := image.2.1
    pageTablePhys := pageTablePhys
    addressSpace := image.1
    env := env
    memoryPages := image.2.2 }

end Loader

namespace SyscallState

open Loader
variable {M : Mapper} (s : SyscallState M) (loader : LoaderEnv) (kernelCr3 : ℕ) (memory : UserBytes)

/-- Back to the page table that was active before. -/
def restore (m : Machine M) : SyscallState M :=
  { s with machine := { m with tables := s.machine.tables } }

/-- The end of `spawn_process`: the process enters the table and its queue. -/
def addProcess (process : Process) (priority : Priority) : Except ExecError Pid × SyscallState M :=
  match s.kernel.table.createProcess process with
  | .error error => (.error error, s)
  | .ok (pid, table) =>
    (.ok pid, { s with kernel := { s.kernel with
      table := table, scheduler := s.kernel.scheduler.enqueue pid priority } })

variable (path : Str) (pid : Pid) (old : Process)

def spawnProcess (args : List Str) (env : List (Str × Str)) (uid : Uid) (parentPid : Pid)
    (priority : Priority) (now : ℕ) : Outcome (Except ExecError Pid) × SyscallState M :=
  match s.fs.readAs path uid (roleForUid s.kernel.users uid) with
  | .error error => (.returned (.error (execErrorOf error)), s)
  | .ok data =>
    match parseElf data with
    | .error error => (.returned (.error error), s)
    | .ok elf =>
      match createUserPageTable s.machine with
      | .error error => (.returned (.error error), s)
      | .ok (pageTablePhys, m) =>
        match mapProcessImage loader pageTablePhys elf data (args.map Str.toUtf8) m with
        | (.panicked, m') => (.panicked, { s with machine := m' })
        | (.returned (.error error), m') => (.returned (.error error), s.restore m')
        | (.returned (.ok image), m') =>
          let process := processOf s.kernel path env uid parentPid priority now
            pageTablePhys image
          let r := (s.restore m').addProcess process priority
          (.returned r.1, r.2)

/-- The role lookup of `process.rs`. -/
def roleForUid (users : Auth.UserDB) (uid : Uid) : Auth.UserRole :=
  ((users.findByUid uid).map fun user => user.role).getD .admin

/-- The fields that `sys_execve` replaces. -/
def replaceImage (pageTablePhys : ℕ) (image : AddressSpace × CpuContext × ℕ) (caps : Capabilities)
    (process : Process) : Process :=
  { process with
    context := image.2.1
    pageTablePhys := pageTablePhys
    addressSpace := image.1
    memoryPages := image.2.2
    name := fileName path
    imagePath := path
    imageKind := .elf
    effectiveCapabilities := caps
    env := []
    exitCode := none
    state := .running }

/-- Enters the new image in the process record and takes the old one down. The
process goes on with the tables of the new image. -/
def commitExec (path : Str) (pageTablePhys : ℕ) (image : AddressSpace × CpuContext × ℕ)
    (tables : M.Tables) : Outcome ℤ × SyscallState M :=
  let caps := execCapabilities s.kernel old.effectiveCapabilities old.uid
  let kernel := { s.kernel with
    table := s.kernel.table.modify pid (replaceImage path pageTablePhys image caps) }
  match teardownProcessImage kernelCr3 old.pageTablePhys old.addressSpace s.machine with
  | (.panicked, machine) => (.panicked, { s with kernel, machine })
  | (.returned _, machine) => (.returned 0, { s with kernel, machine := { machine with tables } })

/-- `sys_execve` after the path and the arguments have been read. -/
def execImage (path : Str) (args : List Str) : Outcome ℤ × SyscallState M :=
  match s.fs.readAs path old.uid (roleForUid s.kernel.users old.uid) with
  | .error _ => (.returned enoent, s)
  | .ok data =>
    match parseElf data with
    | .error _ => (.returned enoexec, s)
    | .ok elf =>
      match createUserPageTable s.machine with
      | .error _ => (.returned enomem, s)
      | .ok (pageTablePhys, m) =>
        match mapProcessImage loader pageTablePhys elf data (args.map Str.toUtf8) m with
        | (.panicked, m') => (.panicked, { s with machine := m' })
        | (.returned (.error _), m') => (.returned enoexec, s.restore m')
        | (.returned (.ok image), m') =>
          (s.restore m').commitExec kernelCr3 pid old path pageTablePhys image m'.tables

def execveArguments (path argv : ℕ) : ReadOutcome (Str × List Str) :=
  match s.readWarexecPathChecked memory path .fileLike with
  | .panicked => .panicked
  | .returned (.error error) => .returned (.error error)
  | .returned (.ok pathStr) =>
    match s.readUserPointerArrayChecked memory argv 64 with
    | .panicked => .panicked
    | .returned (.error error) => .returned (.error error)
    | .returned (.ok pointers) =>
      match s.readStrings memory pointers with
      | .panicked => .panicked
      | .returned (.error error) => .returned (.error error)
      | .returned (.ok args) => .returned (.ok (pathStr, args))

def sysExecve (loader : LoaderEnv) (kernelCr3 : ℕ) (path argv : ℕ) : Outcome ℤ × SyscallState M :=
  match s.execveArguments memory path argv with
  | .panicked => (.panicked, s)
  | .returned (.error error) => (.returned error, s)
  | .returned (.ok (pathStr, args)) =>
    match s.kernel.currentPid with
    | none => (.returned eperm, s)
    | some pid =>
      match s.kernel.table.get pid with
      | none => (.returned eperm, s)
      | some old => s.execImage loader kernelCr3 pid old pathStr args

end SyscallState

end Waros.Kernel.Exec
