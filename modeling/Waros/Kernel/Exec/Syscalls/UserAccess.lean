import Waros.Kernel.Exec.Loader
import Waros.Kernel.Exec.Shell
import Waros.Kernel.Fs.Current

/-!
The state that system calls work on, and their access to user memory
(`kernel/src/exec/syscalls/mod.rs`). The active page table, `machine.tables`, is
the one of the calling process.

Reads go through a function that gives the contents of user memory, writes
through the machine, which records them. The functions with `Checked` in their
name look the range up in the address-space record of the process first.
-/

namespace Waros.Kernel.Exec

open Lib Memory

def enoent : ℤ := -2
def enoexec : ℤ := -8
def ebadf : ℤ := -9
def echild : ℤ := -10
def efault : ℤ := -14
def eexist : ℤ := -17
def enospc : ℤ := -28
def enametoolong : ℤ := -36

def maxUserStringLen : ℕ := 256

inductive WarExecPathKind
  | fileLike
  | directory
  deriving DecidableEq

/-- A read returns a value, returns an error number, or panics. -/
abbrev ReadOutcome (α : Type) := Outcome (Except ℤ α)

structure SyscallState (M : Mapper) where
  kernel : KernelState
  fs : Fs.WarFS
  machine : Machine M

/-- What a load from a user address yields; `none` is a page fault. -/
abbrev UserBytes := ℕ → Option UInt8

/-- What system calls take from outside the modelled state: the contents of
user memory, whether the kernel heap has room for a buffer of some length, the
tick counter and the clock, the loader's surroundings, the hash function, and
the quantum registers. -/
structure SyscallEnv where
  memory : UserBytes
  heapRoom : ℕ → Bool
  now : ℕ
  millis : ℕ
  loader : LoaderEnv
  kernelCr3 : ℕ
  sha3 : List UInt8 → List UInt8
  allocRegister : ℕ → Option UInt32
  applyGate : UInt32 → UInt32 → ℕ → ℕ → UInt64 → Bool
  measureRegister : UInt32 → ℕ → Option (List UInt8)
  stateVectorText : UInt32 → ℕ → Option (List UInt8)

namespace SyscallState

variable {M : Mapper} (s : SyscallState M) (memory : UserBytes) (destination : ℕ)
  (bytes : List UInt8)

def currentProcess : Option Process := s.kernel.currentPid.bind s.kernel.table.get

/-- Changing the process that `current_pid` names. -/
def modifyCurrent (f : Process → Process) : SyscallState M :=
  match s.kernel.currentPid with
  | none => s
  | some pid => { s with kernel := { s.kernel with table := s.kernel.table.modify pid f } }

def validateUserRange (address len : ℕ) : Except ℤ Unit :=
  if len = 0 then .ok ()
  else
    match s.currentProcess with
    | none => .error eperm
    | some process =>
      if process.addressSpace.containsUserRange address len then .ok () else .error efault

/-- The bytes from an address on; `none` when a page faults. -/
def loadBytes (address len : ℕ) : Option (List UInt8) :=
  (List.range len).mapM fun i => memory (U64.wrappingAdd address i)

/-- A kernel buffer of that length is filled from user memory; the allocation
panics when the heap has no room. -/
def copyFromUserPtrChecked (env : SyscallEnv) (source len : ℕ) : ReadOutcome (List UInt8) :=
  if len = 0 then .returned (.ok [])
  else
    match s.validateUserRange source len with
    | .error error => .returned (.error error)
    | .ok () =>
      if !env.heapRoom len then .panicked
      else
        match loadBytes env.memory source len with
        | none => .panicked
        | some bytes => .returned (.ok bytes)

/-- The loop of `read_user_string_checked`: `left` bytes may still be read,
`bytes` have been. -/
def readString (memory : UserBytes) (space : AddressSpace) (pointer : ℕ) :
    ℕ → List UInt8 → ReadOutcome Str
  | 0, _ => .returned (.error efault)
  | left + 1, bytes =>
    match U64.checkedAdd pointer bytes.length with
    | none => .returned (.error efault)
    | some address =>
      if !space.containsUserRange address 1 then .returned (.error efault)
      else
        match memory address with
        | none => .panicked
        | some byte =>
          if byte = 0 then
            match Str.ofUtf8 bytes with
            | some text => .returned (.ok text)
            | none => .returned (.error einval)
          else readString memory space pointer left (bytes ++ [byte])

def readUserStringChecked (pointer maxLen : ℕ) : ReadOutcome Str :=
  if pointer = 0 ∨ maxLen = 0 then .returned (.error efault)
  else
    match s.currentProcess with
    | none => .returned (.error eperm)
    | some process => readString memory process.addressSpace pointer maxLen []

def readWarexecPathChecked (pointer : ℕ) (pathKind : WarExecPathKind) : ReadOutcome Str :=
  match s.readUserStringChecked memory pointer maxUserStringLen with
  | .panicked => .panicked
  | .returned (.error error) => .returned (.error error)
  | .returned (.ok path) =>
    match Fs.canonicalizeWarexecPath path (decide (pathKind = .directory)) with
    | .error _ => .returned (.error einval)
    | .ok canonical => .returned (.ok canonical)

/-- The loop of `read_user_pointer_array_checked`, at the slot `index` with
`left` slots to go. -/
def readPointers (s : SyscallState M) (memory : UserBytes) (pointer : ℕ) :
    ℕ → ℕ → ReadOutcome (List ℕ)
  | 0, _ => .returned (.ok [])
  | left + 1, index =>
    let slot := U64.wrappingAdd pointer (8 * index)
    match s.validateUserRange slot 8 with
    | .error error => .returned (.error error)
    | .ok () =>
      match loadBytes memory slot 8 with
      | none => .panicked
      | some bytes =>
        if U64.ofBytes bytes = 0 then .returned (.ok [])
        else
          match readPointers s memory pointer left (index + 1) with
          | .returned (.ok rest) => .returned (.ok (U64.ofBytes bytes :: rest))
          | r => r

def readUserPointerArrayChecked (pointer maxEntries : ℕ) : ReadOutcome (List ℕ) :=
  if pointer = 0 then .returned (.ok []) else readPointers s memory pointer maxEntries 0

def readStrings (s : SyscallState M) (memory : UserBytes) : List ℕ → ReadOutcome (List Str)
  | [] => .returned (.ok [])
  | pointer :: pointers =>
    match s.readUserStringChecked memory pointer maxUserStringLen with
    | .panicked => .panicked
    | .returned (.error error) => .returned (.error error)
    | .returned (.ok text) =>
      match readStrings s memory pointers with
      | .returned (.ok rest) => .returned (.ok (text :: rest))
      | r => r

/-- A store to user memory; a page fault panics. -/
def storeUser : Outcome Unit × SyscallState M :=
  match s.machine.store destination bytes.length fun i => bytes.getD i 0 with
  | (true, machine) => (.panicked, { s with machine })
  | (false, machine) => (.returned (), { s with machine })

def copyToUserPtrChecked : Outcome (Except ℤ ℕ) × SyscallState M :=
  if bytes = [] then (.returned (.ok 0), s)
  else
    match s.validateUserRange destination bytes.length with
    | .error error => (.returned (.error error), s)
    | .ok () =>
      match s.storeUser destination bytes with
      | (.panicked, s') => (.panicked, s')
      | (.returned (), s') => (.returned (.ok bytes.length), s')

/-- `write_struct_to_user_checked`, given the bytes of the value. -/
def writeStructToUserChecked : Outcome (Except ℤ Unit) × SyscallState M :=
  match s.validateUserRange destination bytes.length with
  | .error error => (.returned (.error error), s)
  | .ok () =>
    match s.storeUser destination bytes with
    | (.panicked, s') => (.panicked, s')
    | (.returned (), s') => (.returned (.ok ()), s')

def copyToUserPtr : Outcome ℤ × SyscallState M :=
  if destination = 0 then (.returned 0, s)
  else
    match s.storeUser destination bytes with
    | (.panicked, s') => (.panicked, s')
    | (.returned (), s') => (.returned bytes.length, s')

/-- `write_struct_to_user` says whether it has written. -/
def writeStructToUser : Outcome Bool × SyscallState M :=
  if destination = 0 then (.returned false, s)
  else
    match s.storeUser destination bytes with
    | (.panicked, s') => (.panicked, s')
    | (.returned (), s') => (.returned true, s')

end SyscallState

/-!
## File calls

The file system calls (`kernel/src/exec/syscalls/file.rs`). Where a call first
works out what it will copy to the user, that part is a function of its own: it
gives the bytes, or the number that the call returns without copying.
-/

open Fs U64

def mapFsError : FsError → ℤ
  | .fileNotFound => enoent
  | .alreadyExists => eexist
  | .permissionDenied | .readOnly => eperm
  | .invalidFilename => einval
  | .filenameTooLong => enametoolong
  | .fileTooLarge => enospc
  | .filesystemFull => enospc

def warexecFileTypeRegular : UInt8 := 1
def warexecFileTypeDirectory : UInt8 := 2
def warexecDirentNameCapacity : ℕ := 32
def warexecOpenCreateWrite : UInt32 := 0x3
def warexecOpenDirectory : UInt32 := 0x10000

def statBytes (size : ℕ) (fileType readonly : UInt8) : List UInt8 :=
  toBytes size ++ [fileType, readonly] ++ .replicate 6 0

def warexecStatFromEntry (entry : FileEntry) : List UInt8 :=
  statBytes entry.data.length warexecFileTypeRegular (if entry.readonly then 1 else 0)

def dirEntryBytes (name : List UInt8) (isDir : Bool) : List UInt8 :=
  [if isDir then warexecFileTypeDirectory else warexecFileTypeRegular, .ofNat name.length] ++
    List.replicate 6 0 ++ name ++ List.replicate (warexecDirentNameCapacity - name.length) 0

namespace SyscallState

variable {M : Mapper} (s : SyscallState M) (fd : UInt32) (buffer len : ℕ) (env : SyscallEnv)
  (path : ℕ)

/-- What the descriptor of the current process stands for. -/
def descriptorTarget : Except ℤ DescriptorTarget :=
  match s.currentProcess with
  | none => .error eperm
  | some process =>
    match process.fdTable.get fd with
    | none => .error ebadf
    | some descriptor => .ok descriptor.target

def setTarget (target : DescriptorTarget) : SyscallState M :=
  s.modifyCurrent fun process => { process with fdTable := process.fdTable.setTarget fd target }

/-- Where `sys_read` starts and what it copies. -/
def readPlan (len : ℕ) : Except ℤ (ℕ × List UInt8) :=
  match s.descriptorTarget fd with
  | .error error => .error error
  | .ok (.file handle) =>
    if handle.access ≠ .readOnly then .error enosys
    else if len = 0 then .error 0
    else
      match readCurrent s.kernel.users s.kernel.session s.fs handle.path with
      | .error _ => .error enoent
      | .ok (_, data) =>
        let start := min handle.offset data.length
        let finish := min (saturatingAdd start len) data.length
        if start ≥ finish then .error 0
        else .ok (start, (data.drop start).take (finish - start))
  | .ok _ => .error enosys

/-- The end of `sys_read`: the offset moves on. -/
def finishRead (start copied : ℕ) : Outcome ℤ × SyscallState M :=
  match s.descriptorTarget fd with
  | .error error => (.returned error, s)
  | .ok (.file handle) =>
    if handle.access ≠ .readOnly then (.returned enosys, s)
    else
      (.returned copied,
        s.setTarget fd (.file { handle with offset := saturatingAdd start copied }))
  | .ok _ => (.returned enosys, s)

def sysRead : Outcome ℤ × SyscallState M :=
  match s.readPlan fd len with
  | .error result => (.returned result, s)
  | .ok (start, bytes) =>
    match s.copyToUserPtrChecked buffer bytes with
    | (.panicked, s') => (.panicked, s')
    | (.returned (.error error), s') => (.returned error, s')
    | (.returned (.ok copied), s') => s'.finishRead fd start copied

/-- Data with `bytes` put in at the offset; a gap is filled with zeros. -/
def putBytes (data : List UInt8) (offset : ℕ) (bytes : List UInt8) : List UInt8 :=
  (data ++ .replicate (offset - data.length) 0).take offset ++ bytes ++
    data.drop (offset + bytes.length)

/-- `sys_write` to a file that is being created. -/
def stageBytes (handle : FileHandle) (bytes : List UInt8) : Outcome ℤ × SyscallState M :=
  match checkedAdd handle.offset bytes.length with
  | none => (.returned einval, s)
  | some endOffset =>
    if endOffset > maxFileSize then (.returned einval, s)
    else
      (.returned bytes.length, s.setTarget fd (.file { handle with
          offset := endOffset
          stagedData := putBytes handle.stagedData handle.offset bytes }))

def sysWrite (fd : UInt32) (buffer len : ℕ) : Outcome ℤ × SyscallState M :=
  if len = 0 then (.returned 0, s)
  else
    match s.copyFromUserPtrChecked env buffer len with
    | .panicked => (.panicked, s)
    | .returned (.error error) => (.returned error, s)
    | .returned (.ok bytes) =>
      match s.descriptorTarget fd with
      | .error error => (.returned error, s)
      | .ok .stdout | .ok .stderr => (.returned len, s)
      | .ok (.file handle) =>
        if handle.access = .createWrite then s.stageBytes fd handle bytes
        else (.returned enosys, s)
      | .ok _ => (.returned enosys, s)

def openTarget (path : Str) (flags : UInt32) : Except ℤ DescriptorTarget :=
  if flags = warexecOpenDirectory then
    match listEntriesCurrent s.kernel.users s.kernel.session s.fs path with
    | .error error => .error (mapFsError error)
    | .ok (resolved, entries) =>
      .ok (.directory ⟨resolved, entries.map fun entry => ⟨entry.1, entry.2⟩, 0⟩)
  else if flags = warexecOpenCreateWrite then
    match validateCreateNewCurrent s.kernel.users s.kernel.session s.fs path with
    | .error error => .error (mapFsError error)
    | .ok _ => .ok (.file ⟨path, 0, .createWrite, []⟩)
  else
    match readCurrent s.kernel.users s.kernel.session s.fs path with
    | .error error => .error (mapFsError error)
    | .ok _ => .ok (.file ⟨path, 0, .readOnly, []⟩)

def sysOpen (flags mode : UInt32) : Outcome ℤ × SyscallState M :=
  if mode ≠ 0 then (.returned enosys, s)
  else if flags ≠ 0 ∧ flags ≠ warexecOpenDirectory ∧ flags ≠ warexecOpenCreateWrite then
    (.returned enosys, s)
  else
    match s.readWarexecPathChecked env.memory path
        (if flags = warexecOpenDirectory then .directory else .fileLike) with
    | .panicked => (.panicked, s)
    | .returned (.error error) => (.returned error, s)
    | .returned (.ok resolved) =>
      match s.openTarget resolved flags with
      | .error error => (.returned error, s)
      | .ok target =>
        match s.currentProcess with
        | none => (.returned eperm, s)
        | some process =>
          (.returned (process.fdTable.insert target).1.toNat, s.modifyCurrent fun process =>
              { process with fdTable := (process.fdTable.insert target).2 })

def closeDescriptor : Outcome ℤ × SyscallState M :=
  match s.currentProcess with
  | none => (.returned eperm, s)
  | some process =>
    (.returned (if (process.fdTable.close fd).1 then 0 else ebadf),
      s.modifyCurrent fun process => { process with fdTable := (process.fdTable.close fd).2 })

/-- A file that was being created is written out when it is closed. -/
def sysClose (fd : UInt32) : Outcome ℤ × SyscallState M :=
  match s.descriptorTarget fd with
  | .error error => (.returned error, s)
  | .ok (.file handle) =>
    if handle.access = .createWrite then
      match createNewCurrent s.kernel.users s.kernel.session s.fs handle.path handle.stagedData
          env.now with
      | (.error error, fs) => (.returned (mapFsError error), { s with fs })
      | (.ok _, fs) => { s with fs }.closeDescriptor fd
    else s.closeDescriptor fd
  | .ok _ => s.closeDescriptor fd

/-- The end of the calls that copy one structure: `result` is what they return
on success. -/
def replyStruct (destination : ℕ) (bytes : List UInt8) (result : ℤ) :
    Outcome ℤ × SyscallState M :=
  match s.writeStructToUserChecked destination bytes with
  | (.panicked, s') => (.panicked, s')
  | (.returned (.error error), s') => (.returned error, s')
  | (.returned (.ok ()), s') => (.returned result, s')

def statPlan : ReadOutcome (List UInt8) :=
  match s.readWarexecPathChecked env.memory path .fileLike with
  | .panicked => .panicked
  | .returned (.error error) => .returned (.error error)
  | .returned (.ok resolved) =>
    match statCurrent s.kernel.users s.kernel.session s.fs resolved with
    | .error error => .returned (.error (mapFsError error))
    | .ok entry => .returned (.ok (warexecStatFromEntry entry))

def sysStat (path statOut : ℕ) : Outcome ℤ × SyscallState M :=
  match s.statPlan env path with
  | .panicked => (.panicked, s)
  | .returned (.error error) => (.returned error, s)
  | .returned (.ok bytes) => s.replyStruct statOut bytes 0

def fstatPlan : Except ℤ (List UInt8) :=
  match s.descriptorTarget fd with
  | .error error => .error error
  | .ok (.file handle) =>
    if handle.access = .createWrite then
      .ok (statBytes handle.stagedData.length warexecFileTypeRegular 0)
    else
      match statCurrent s.kernel.users s.kernel.session s.fs handle.path with
      | .error error => .error (mapFsError error)
      | .ok entry => .ok (warexecStatFromEntry entry)
  | .ok _ => .error enosys

def sysFstat (statOut : ℕ) : Outcome ℤ × SyscallState M :=
  match s.fstatPlan fd with
  | .error error => (.returned error, s)
  | .ok bytes => s.replyStruct statOut bytes 0

/-- The next entry of a directory, and the handle moved past it. -/
def readdirPlan : Except ℤ (DirectoryEntryHandle × DirectoryHandle) :=
  match s.descriptorTarget fd with
  | .error error => .error error
  | .ok (.directory handle) =>
    match handle.entries[handle.cursor]? with
    | none => .error 0
    | some entry => .ok (entry, { handle with cursor := saturatingAdd handle.cursor 1 })
  | .ok _ => .error enosys

/-- The cursor moves on also when the entry cannot be copied. -/
def sysReaddir (entryOut : ℕ) : Outcome ℤ × SyscallState M :=
  match s.readdirPlan fd with
  | .error result => (.returned result, s)
  | .ok (entry, handle) =>
    let s' := s.setTarget fd (.directory handle)
    let name := Str.toUtf8 entry.name
    if name.length > warexecDirentNameCapacity then (.returned einval, s')
    else s'.replyStruct entryOut (dirEntryBytes name entry.isDir) 1

/-- The part of the working directory that fits in the buffer. -/
def cwdBytes (len : ℕ) : List UInt8 :=
  let bytes := Str.toUtf8 (s.kernel.session.resolvePath ['.'])
  bytes.take (min bytes.length (len - 1))

/-- The text, then a null byte in a copy of its own. -/
def sysGetcwd : Outcome ℤ × SyscallState M :=
  if len = 0 then (.returned einval, s)
  else
    match s.copyToUserPtrChecked buffer (s.cwdBytes len) with
    | (.panicked, s') => (.panicked, s')
    | (.returned (.error error), s') => (.returned error, s')
    | (.returned (.ok copied), s') =>
      match s'.copyToUserPtrChecked (wrappingAdd buffer copied) [0] with
      | (.panicked, s'') => (.panicked, s'')
      | (.returned (.error error), s'') => (.returned error, s'')
      | (.returned (.ok _), s'') => (.returned copied, s'')

def sysChdir : Outcome ℤ × SyscallState M :=
  match s.readUserStringChecked env.memory path maxUserStringLen with
  | .panicked => (.panicked, s)
  | .returned (.error error) => (.returned error, s)
  | .returned (.ok text) =>
    match s.currentProcess with
    | none => (.returned eperm, s)
    | some _ =>
      (.returned 0, s.modifyCurrent fun process =>
        { process with cwd := s.kernel.session.resolvePath text })

end SyscallState

end Waros.Kernel.Exec
