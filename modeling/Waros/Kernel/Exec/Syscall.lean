import Waros.Kernel.Exec.Spawn

/-!
The system-call dispatcher (`kernel/src/exec/syscall.rs`) and the calls about
processes, time, hashing and quantum registers
(`kernel/src/exec/syscalls/{process,time,crypto,quantum}.rs`).

The functions in `network.rs`, `ai.rs` and `io.rs`, `sys_seek`, and the rest of
`crypto.rs` and `quantum.rs` return `ENOSYS`, like every number without an
entry.
-/

namespace Waros.Kernel.Exec

open Lib Memory

/-- The system calls that do something. -/
inductive Syscall
  | read
  | write
  | open
  | close
  | stat
  | fstat
  | mmap
  | munmap
  | brk
  | getpid
  | getppid
  | execve
  | exit
  | wait4
  | readdir
  | getcwd
  | chdir
  | getuid
  | clockGettime
  | nanosleep
  | qalloc
  | qfree
  | qgate
  | qmeasure
  | qstate
  | sha3
  | randomBytes

namespace Syscall

def ofNumber (number : ℕ) : Option Syscall :=
  ([(0, read), (1, write), (2, .open), (3, close), (4, stat), (5, fstat), (9, mmap), (11, munmap),
    (12, brk), (20, getpid), (39, getppid), (59, execve), (60, exit), (61, wait4), (78, readdir),
    (79, getcwd), (80, chdir), (102, getuid), (228, clockGettime), (230, nanosleep),
    (300, qalloc), (301, qfree), (302, qgate), (303, qmeasure), (304, qstate), (420, sha3),
    (421, randomBytes)] : List (ℕ × Syscall)).lookup number

end Syscall

namespace SyscallState

variable {M : Mapper} (s : SyscallState M)

/-- A memory call on the address space of the current process. -/
def onMemory (call : UserMemory M → Outcome ℤ × UserMemory M) : Outcome ℤ × SyscallState M :=
  let r := call ⟨s.currentProcess.map Process.addressSpace, s.machine⟩
  match r.2.space with
  | none => (r.1, { s with machine := r.2.machine })
  | some space =>
    (r.1, { s.modifyCurrent fun process => { process with addressSpace := space } with
      machine := r.2.machine })

/-! ### Processes -/

def sysGetpid : ℤ :=
  match s.kernel.currentPid with
  | some pid => pid.toNat
  | none => -1

def sysGetppid : ℤ :=
  match s.currentProcess with
  | some process => process.parentPid.toNat
  | none => -1

def sysGetuid : ℤ :=
  match s.currentProcess with
  | some process => process.uid.toNat
  | none => -1

def sysExit (code : Int32) : Outcome ℤ × SyscallState M :=
  match s.kernel.currentPid with
  | some pid => (.returned 0, { s with kernel := markExit s.kernel pid code })
  | none => (.returned (-1), s)

/-- `find_zombie_child`; a target of `-1` stands for any child. -/
def findZombieChild (t : ProcessTable) (parentPid : Pid) (target : Int32) :
    Option (Pid × Int32) :=
  (t.processes.find? fun process =>
    process.parentPid == parentPid && process.state == .zombie &&
      (target == -1 || process.pid.toInt32 == target)).map fun process =>
    (process.pid, process.exitCode.getD 0)

def encodeWaitExitStatus (exitCode : Int32) : List UInt8 :=
  (U64.toBytes ((exitCode &&& 0xFF) <<< 8).toUInt32.toNat).take 4

variable (target : Int32) (env : SyscallEnv)

/-- The child that `sys_wait4` reaps, with its exit code. -/
def wait4Plan (options : UInt32) : Except ℤ (Pid × Int32) :=
  if options ≠ 0 then .error enosys
  else if target = 0 ∨ target < -1 then .error enosys
  else
    match s.kernel.currentPid with
    | none => .error eperm
    | some parentPid =>
      match findZombieChild s.kernel.table parentPid target with
      | none => .error echild
      | some child => .ok child

/-- The end of `sys_wait4`. -/
def reap (pid : Pid) : Outcome ℤ × SyscallState M :=
  (.returned pid.toNat, { s with kernel := { s.kernel with table := s.kernel.table.remove pid } })

def sysWait4 (statusPtr : ℕ) (options : UInt32) : Outcome ℤ × SyscallState M :=
  match s.wait4Plan target options with
  | .error error => (.returned error, s)
  | .ok (pid, exitCode) =>
    if statusPtr = 0 then s.reap pid
    else
      match s.writeStructToUserChecked statusPtr (encodeWaitExitStatus exitCode) with
      | (.panicked, s') => (.panicked, s')
      | (.returned (.error error), s') => (.returned error, s')
      | (.returned (.ok ()), s') => s'.reap pid

/-- `CLOCK_MONOTONIC`, `_RAW`, `_COARSE` and `CLOCK_BOOTTIME`. -/
def knownClocks : List UInt32 := [1, 4, 6, 7]

def timespecBytes (millis : ℕ) : List UInt8 :=
  U64.toBytes (millis / 1000) ++ U64.toBytes (millis % 1000 * 1000000)

def sysClockGettime (clockId : UInt32) (out : ℕ) : Outcome ℤ × SyscallState M :=
  if clockId ∉ knownClocks then (.returned einval, s)
  else
    match s.writeStructToUser out (timespecBytes env.millis) with
    | (.panicked, s') => (.panicked, s')
    | (.returned written, s') => (.returned (if written then 0 else -1), s')

/-- The request is read without a check, and a fault panics; the time that the
call waits is not modelled. -/
def sysNanosleep (request : ℕ) : Outcome ℤ :=
  if request = 0 then .returned (-1)
  else
    match loadBytes env.memory request 16 with
    | none => .panicked
    | some _ => .returned 0

def sysSha3 (buffer len output : ℕ) : Outcome ℤ × SyscallState M :=
  if buffer = 0 ∨ output = 0 then (.returned (-1), s)
  else
    match loadBytes env.memory buffer len with
    | none => (.panicked, s)
    | some bytes => s.copyToUserPtr output (env.sha3 bytes)

/-- One round of the generator: the new state. -/
def xorshift (state : UInt64) : UInt64 :=
  let a := state ^^^ (state <<< 13)
  let b := a ^^^ (a >>> 7)
  b ^^^ (b <<< 17)

def xorshiftBytes : ℕ → UInt64 → List UInt8
  | 0, _ => []
  | len + 1, state => (xorshift state).toUInt8 :: xorshiftBytes len (xorshift state)

def randomSeed (now : ℕ) : UInt64 := .ofNat now * 0x9E3779B97F4A7C15 + 0x5741524F53

def sysRandomBytes (output len : ℕ) : Outcome ℤ × SyscallState M :=
  if output = 0 then (.returned (-1), s)
  else if !env.heapRoom len then (.panicked, s)
  else s.copyToUserPtr output (xorshiftBytes len (randomSeed env.now))

def sysQalloc (numQubits : UInt32) : Outcome ℤ × SyscallState M :=
  if numQubits = 0 ∨ numQubits > 18 then (.returned einval, s)
  else
    match env.allocRegister numQubits.toNat with
    | none => (.returned enomem, s)
    | some handle =>
      (.returned handle.toNat, s.modifyCurrent fun process =>
        { process with quantumRegisters := process.quantumRegisters ++ [handle] })

def sysQfree (handle : UInt32) : Outcome ℤ × SyscallState M :=
  (.returned 0, s.modifyCurrent fun process =>
    { process with quantumRegisters := process.quantumRegisters.filter fun h => h ≠ handle })

def sysQgate (handle gate : UInt32) (target control param : UInt64) : ℤ :=
  if env.applyGate handle gate target.toNat control.toNat param then 0 else einval

def sysQmeasure (handle shots : UInt32) (resultBuf : ℕ) : Outcome ℤ × SyscallState M :=
  if resultBuf = 0 then (.returned einval, s)
  else
    match env.measureRegister handle (max shots.toNat 1) with
    | none => (.returned einval, s)
    | some text => s.copyToUserPtr resultBuf text

def sysQstate (handle : UInt32) (resultBuf len : ℕ) : Outcome ℤ × SyscallState M :=
  if resultBuf = 0 then (.returned einval, s)
  else
    match env.stateVectorText handle len with
    | none => (.returned einval, s)
    | some text => s.copyToUserPtr resultBuf (text.take (min text.length (len - 1)))

/-- Every call is counted in the record of the process that makes it. -/
def countSyscall : SyscallState M :=
  s.modifyCurrent fun process =>
    { process with syscallCount := U64.saturatingAdd process.syscallCount 1 }

/-- The six argument registers. -/
structure Args where
  arg1 : UInt64
  arg2 : UInt64
  arg3 : UInt64
  arg4 : UInt64
  arg5 : UInt64
  arg6 : UInt64

def perform (a : Args) : Syscall → Outcome ℤ × SyscallState M
  | .read => s.sysRead a.arg1.toUInt32 a.arg2.toNat a.arg3.toNat
  | .write => s.sysWrite env a.arg1.toUInt32 a.arg2.toNat a.arg3.toNat
  | .open => s.sysOpen env a.arg1.toNat a.arg2.toUInt32 a.arg3.toUInt32
  | .close => s.sysClose env a.arg1.toUInt32
  | .stat => s.sysStat env a.arg1.toNat a.arg2.toNat
  | .fstat => s.sysFstat a.arg1.toUInt32 a.arg2.toNat
  | .mmap => s.onMemory fun u => u.sysMmap a.arg2 a.arg3.toUInt32 a.arg4.toUInt32
  | .munmap => s.onMemory fun u => u.sysMunmap a.arg1 a.arg2
  | .brk => s.onMemory fun u => u.sysBrk a.arg1
  | .getpid => (.returned s.sysGetpid, s)
  | .getppid => (.returned s.sysGetppid, s)
  | .execve => s.sysExecve env.memory env.loader env.kernelCr3 a.arg1.toNat a.arg2.toNat
  | .exit => s.sysExit a.arg1.toUInt32.toInt32
  | .wait4 => s.sysWait4 a.arg1.toUInt32.toInt32 a.arg2.toNat a.arg3.toUInt32
  | .readdir => s.sysReaddir a.arg1.toUInt32 a.arg2.toNat
  | .getcwd => s.sysGetcwd a.arg1.toNat a.arg2.toNat
  | .chdir => s.sysChdir env a.arg1.toNat
  | .getuid => (.returned s.sysGetuid, s)
  | .clockGettime => s.sysClockGettime env a.arg1.toUInt32 a.arg2.toNat
  | .nanosleep => (sysNanosleep env a.arg1.toNat, s)
  | .qalloc => s.sysQalloc env a.arg1.toUInt32
  | .qfree => s.sysQfree a.arg1.toUInt32
  | .qgate => (.returned (sysQgate env a.arg1.toUInt32 a.arg2.toUInt32 a.arg3 a.arg4 a.arg5), s)
  | .qmeasure => s.sysQmeasure env a.arg1.toUInt32 a.arg2.toUInt32 a.arg3.toNat
  | .qstate => s.sysQstate env a.arg1.toUInt32 a.arg2.toNat a.arg3.toNat
  | .sha3 => s.sysSha3 env a.arg1.toNat a.arg2.toNat a.arg3.toNat
  | .randomBytes => s.sysRandomBytes env a.arg1.toNat a.arg2.toNat

def syscallDispatch (syscallNum : UInt64) (a : Args) : Outcome ℤ × SyscallState M :=
  match Syscall.ofNumber syscallNum.toNat with
  | none => (.returned enosys, s.countSyscall)
  | some call => s.countSyscall.perform env a call

end SyscallState

end Waros.Kernel.Exec
