import Waros.Lib.U64
import Waros.Lib.Text
import Waros.Lib.Lookup
import Waros.Kernel.Security.CapabilitySet

/-!
The address-space record WarExec keeps for a process
(`kernel/src/exec/address_space.rs`). Addresses are 64-bit words; the kernel
image is a release build, so `+` wraps.
-/

namespace Waros.Kernel.Exec

open Lib

/-- The bit flags `READ`, `WRITE` and `EXECUTE` of a segment. -/
structure SegmentFlags where
  read : Bool
  write : Bool
  execute : Bool
  deriving DecidableEq

structure MemorySegment where
  vaddr : ℕ
  size : ℕ
  flags : SegmentFlags
  deriving DecidableEq

/-- Virtual address space layout tracked by WarExec. -/
structure AddressSpace where
  segments : List MemorySegment
  brk : ℕ
  initialBrk : ℕ
  heapLimit : ℕ
  stackTop : ℕ
  stackBottom : ℕ
  mmapTop : ℕ
  pageTablePhys : ℕ
  deriving DecidableEq

namespace AddressSpace

def userHeapBase : ℕ := 0x10000000
def userStackTop : ℕ := 0x7FFFF000
def userStackSize : ℕ := 0x200000
def userMmapTop : ℕ := 0x60000000

def new (pageTablePhys : ℕ) : AddressSpace where
  segments := []
  brk := userHeapBase
  initialBrk := userHeapBase
  heapLimit := userMmapTop
  stackTop := userStackTop
  stackBottom := userStackTop - userStackSize
  mmapTop := userMmapTop
  pageTablePhys := pageTablePhys

def registerSegment (a : AddressSpace) (vaddr size : ℕ) (flags : SegmentFlags) :
    AddressSpace :=
  { a with segments := a.segments ++ [⟨vaddr, size, flags⟩] }

def finalizeHeapLayout (a : AddressSpace) : AddressSpace :=
  let heapBase := (a.segments.map fun segment =>
    U64.wrappingAdd segment.vaddr segment.size).max?.getD userHeapBase
  let aligned := U64.alignDown (U64.wrappingAdd heapBase 0xFFF)
  let initialBrk := max aligned userHeapBase
  { a with
    initialBrk := initialBrk
    brk := initialBrk
    heapLimit := min a.mmapTop a.stackBottom }

def rangeWithinRegion (start finish regionStart regionEnd : ℕ) : Bool :=
  decide (regionStart < regionEnd) && decide (regionStart ≤ start) && decide (finish ≤ regionEnd)

def containsUserRange (a : AddressSpace) (start len : ℕ) : Bool :=
  if len = 0 then true
  else
    match U64.checkedAdd start len with
    | none => false
    | some finish =>
      if start = 0 ∨ finish ≤ start then false
      else
        rangeWithinRegion start finish a.stackBottom a.stackTop ||
          rangeWithinRegion start finish a.initialBrk a.brk ||
          a.segments.any fun segment =>
            match U64.checkedAdd segment.vaddr segment.size with
            | none => false
            | some segmentEnd => rangeWithinRegion start finish segment.vaddr segmentEnd

end AddressSpace

/-!
## File descriptors

File descriptors of a process (`kernel/src/exec/fd_table.rs`).
-/

inductive FileHandleAccess
  | readOnly
  | createWrite
  deriving DecidableEq

structure FileHandle where
  path : Str
  offset : ℕ
  access : FileHandleAccess
  stagedData : List UInt8
  deriving DecidableEq

structure DirectoryEntryHandle where
  name : Str
  isDir : Bool
  deriving DecidableEq

structure DirectoryHandle where
  path : Str
  entries : List DirectoryEntryHandle
  cursor : ℕ
  deriving DecidableEq

inductive DescriptorTarget
  | stdin
  | stdout
  | stderr
  | file (handle : FileHandle)
  | directory (handle : DirectoryHandle)
  | socket (id : UInt32)
  | pipe (id : UInt32)
  deriving DecidableEq

structure FileDescriptor where
  fd : UInt32
  target : DescriptorTarget
  deriving DecidableEq

structure FileDescriptorTable where
  entries : List (Option FileDescriptor)
  deriving DecidableEq

namespace FileDescriptorTable

def newWithStdio : FileDescriptorTable := ⟨[some ⟨0, .stdin⟩, some ⟨1, .stdout⟩, some ⟨2, .stderr⟩]⟩

variable (t : FileDescriptorTable) (fd : UInt32) (target : DescriptorTarget)

/-- The first free slot is reused; otherwise the table grows by one. -/
def insert : UInt32 × FileDescriptorTable :=
  match t.entries.findIdx? Option.isNone with
  | some index =>
    let fd := .ofNat index
    (fd, ⟨t.entries.set index (some ⟨fd, target⟩)⟩)
  | none =>
    let fd := .ofNat t.entries.length
    (fd, ⟨t.entries ++ [some ⟨fd, target⟩]⟩)

def get : Option FileDescriptor := (t.entries[fd.toNat]?).join

/-- Storing a new target through `get_mut`. -/
def setTarget : FileDescriptorTable :=
  match t.get fd with
  | some descriptor => ⟨t.entries.set fd.toNat (some { descriptor with target })⟩
  | none => t

def close : Bool × FileDescriptorTable :=
  match t.get fd with
  | some _ => (true, ⟨t.entries.set fd.toNat none⟩)
  | none => (false, t)

end FileDescriptorTable

/-!
## Processes

Processes and the process table (`kernel/src/exec/process.rs` and the
`ProcessTable` of `kernel/src/exec/mod.rs`).

A process keeps the fields the modelled functions read or write. The contents
of the kernel stack, the page-fault counter and the general-purpose registers
of a context are left out: no modelled function reads them.
-/

open Security

abbrev Pid := UInt32
abbrev Uid := UInt16

inductive ProcessImageKind
  | kernelShell
  | shellCommand
  | shellScript
  | elf
  deriving DecidableEq

inductive ProcessState
  | ready
  | running
  | blocked
  | stopped
  | zombie
  deriving DecidableEq

inductive BlockReason
  | ioWait (fd : UInt32)
  | sleep (until_ : ℕ)
  | waitChild (pid : UInt32)
  | quantumJob (name : Str)
  | networkRecv
  | pipeRead
  | inputWait
  deriving DecidableEq

inductive Priority
  | realTime
  | system
  | quantum
  | interactive
  | normal
  | batch
  | idle
  deriving DecidableEq

structure CpuContext where
  rsp : ℕ
  rip : ℕ
  rflags : ℕ
  cs : ℕ
  ss : ℕ
  cr3 : ℕ
  deriving DecidableEq

namespace CpuContext

def new : CpuContext where
  rsp := 0
  rip := 0
  rflags := 0x202
  cs := 0x23
  ss := 0x1B
  cr3 := 0

def forUser (entryPoint stackTop pageTable : ℕ) : CpuContext :=
  { new with rip := entryPoint, rsp := stackTop, cr3 := pageTable }

end CpuContext

structure Process where
  pid : Pid
  parentPid : Pid
  name : Str
  uid : Uid
  state : ProcessState
  context : CpuContext
  exitCode : Option Int32
  pageTablePhys : ℕ
  addressSpace : AddressSpace
  fdTable : FileDescriptorTable
  cwd : Str
  env : List (Str × Str)
  quantumRegisters : List UInt32
  cryptoKeys : List UInt32
  priority : Priority
  cpuTicks : ℕ
  timeSlice : ℕ
  createdAt : ℕ
  blockedOn : Option BlockReason
  syscallCount : ℕ
  memoryPages : ℕ
  taskId : Option ℕ
  imageKind : ProcessImageKind
  imagePath : Str
  effectiveCapabilities : Capabilities
  deriving DecidableEq

def defaultTimeSlice : ℕ := 10

/-- A process without a user image, as the shell and the commands it runs in
the background are created. The pid is filled in by the process table. -/
def Process.kernelTask (parentPid : Pid) (name : Str) (uid : Uid) (state : ProcessState)
    (cwd : Str) (priority : Priority) (now : ℕ) (imageKind : ProcessImageKind)
    (imagePath : Str) (effectiveCapabilities : Capabilities) : Process where
  pid := 0
  parentPid := parentPid
  name := name
  uid := uid
  state := state
  context := .new
  exitCode := none
  pageTablePhys := 0
  addressSpace := .new 0
  fdTable := .newWithStdio
  cwd := cwd
  env := []
  quantumRegisters := []
  cryptoKeys := []
  priority := priority
  cpuTicks := 0
  timeSlice := defaultTimeSlice
  createdAt := now
  blockedOn := none
  syscallCount := 0
  memoryPages := 0
  taskId := none
  imageKind := imageKind
  imagePath := imagePath
  effectiveCapabilities := effectiveCapabilities

inductive ExecError
  | tooSmall
  | notElf
  | not64Bit
  | notLittleEndian
  | wrongArchitecture
  | notExecutable
  | invalidProgramHeader
  | segmentOverflow
  | noLoadableSegments
  | memoryAllocationFailed
  | pageTableError
  | fileNotFound
  | permissionDenied
  | processTableFull
  | invalidSyscall
  | processNotFound
  | loadFailed
  deriving DecidableEq

structure ProcessTable where
  processes : List Process
  nextPid : Pid
  shellPid : Option Pid

namespace ProcessTable

def new : ProcessTable := ⟨[], 1, none⟩

/-- `u32::saturating_add(1)`. -/
def succPid (pid : Pid) : Pid := if pid = 0xFFFFFFFF then pid else pid + 1

/-- The new process gets the next pid; a table of 256 processes refuses it. -/
def createProcess (t : ProcessTable) (process : Process) :
    Except ExecError (Pid × ProcessTable) :=
  if t.processes.length ≥ 256 then .error .processTableFull
  else .ok (t.nextPid, { t with
      nextPid := succPid t.nextPid
      processes := t.processes ++ [{ process with pid := t.nextPid }] })

def get (t : ProcessTable) (pid : Pid) : Option Process := lookup Process.pid pid t.processes

/-- Changing the process that `get_mut` finds. -/
def modify (t : ProcessTable) (pid : Pid) (f : Process → Process) : ProcessTable :=
  { t with processes := modifyFirst Process.pid pid f t.processes }

def remove (t : ProcessTable) (pid : Pid) : ProcessTable :=
  { t with processes := t.processes.filter fun process => process.pid ≠ pid }

@[simp] lemma new_get (pid : Pid) : new.get pid = none := rfl

variable (t : ProcessTable)

lemma get_modify (pid : Pid) {f : Process → Process} (hf : ∀ p, (f p).pid = p.pid) (j : Pid) :
    (t.modify pid f).get j = if j = pid then (t.get j).map f else t.get j :=
  lookup_modifyFirst Process.pid pid hf j t.processes

lemma createProcess_eq_ok {t t' : ProcessTable} {p : Process} {pid : Pid}
    (h : t.createProcess p = .ok (pid, t')) :
    t.processes.length < 256 ∧ pid = t.nextPid ∧ t' = { t with
        nextPid := succPid t.nextPid
        processes := t.processes ++ [{ p with pid := t.nextPid }] } := by
  unfold createProcess at h
  split_ifs at h
  · simp only [Except.ok.injEq, Prod.mk.injEq] at h
    exact ⟨by omega, h.1.symm, h.2.symm⟩

end ProcessTable

end Waros.Kernel.Exec
