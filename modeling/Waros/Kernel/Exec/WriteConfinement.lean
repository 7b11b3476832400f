import Waros.Kernel.Exec.CopyOut
import Waros.Kernel.Exec.LoaderStores

/-!
Which memory the kernel writes on behalf of a system call, for every call and
every argument.

`sys_brk` and the loader write pages that they have just mapped for the user to
write. `sys_mmap` clears its pages after mapping them, also those that it maps
read-only. The other calls copy results out.
-/

namespace Waros.Kernel.Exec

open Lib Memory Str List U64 UserMemory Syscall Option
variable {M : Mapper}

lemma alignUp_aligned (v : ℕ) : alignUp v % 4096 = 0 := by
  rw [alignUp, wrappingMul]
  omega

namespace UserMemory

open Machine

/-- The first page and the number of pages that `sys_mmap` maps, if it gets
that far. -/
def mmapPlan (u : UserMemory M) (len : UInt64) (flags : UInt32) : Option (ℕ × ℕ) :=
  if flags &&& mapAnonymous = 0 ∨ len = 0 ∨ u.machine.ready = false then none
  else
    match u.space with
    | none => none
    | some space =>
      match checkedSub space.mmapTop (alignUp len.toNat) with
      | none => none
      | some base =>
        if base < space.brk then none
        else some (base, stepCount base (wrappingAdd base (alignUp len.toNat)))

/-- Pages are asked for writing, or the kernel cannot write them either, or
there are none. -/
def MmapOk (u : UserMemory M) (len : UInt64) (prot flags : UInt32) : Prop :=
  prot &&& protWrite ≠ 0 ∨ u.machine.writeProtect = true ∨
    ∀ base pages, u.mmapPlan len flags = some (base, pages) →
      pages = 0 ∨ u.machine.canMap (dataFlags false) base = false

variable (u : UserMemory M)

lemma mmapResult_stores (base : ℕ) (r : Option MapStop × ℕ × Machine M) :
    (u.mmapResult base r).2.machine.stores = r.2.2.stores := by
  obtain ⟨stop, finish, m⟩ := r
  match stop with
  | none | some .panicked | some .noFrame | some (.mapError _ _) => rfl

lemma confined_mmapPages_iff {base : ℕ} (hal : base % 4096 = 0) (al : ℕ) (prot : UInt32) :
    Confined u.machine (u.mmapPages base al prot).2.machine ↔
      prot &&& protWrite ≠ 0 ∨ u.machine.writeProtect ∨ u.machine.ready = false ∨
        stepCount base (wrappingAdd base al) = 0 ∨
        u.machine.canMap (dataFlags false) base = false := by
  rw [mmapPages]
  rcases hrdy : u.machine.ready with _ | _
  · simpa using .of_stores_eq rfl
  have hres : ∀ r, Confined u.machine (u.mmapResult base r).2.machine ↔
      Confined u.machine r.2.2 := fun r => by
    rw [Confined, Confined, mmapResult_stores]
  simp only [Bool.not_true, Bool.false_eq_true, if_false, hres]
  by_cases hprot : prot &&& protWrite ≠ 0
  · rw [decide_eq_true hprot]
    exact iff_of_true (confined_mapRange rfl rfl _ hal _) (.inl hprot)
  · rw [decide_eq_false hprot, confined_mapRange_readOnly_iff rfl _ hal]
    simp [hprot]

lemma confined_sysMmap_iff (hal : ∀ space ∈ u.space, space.mmapTop % 4096 = 0)
    (len : UInt64) (prot flags : UInt32) :
    Confined u.machine (u.sysMmap len prot flags).2.machine ↔ u.MmapOk len prot flags := by
  rw [sysMmap, MmapOk, mmapPlan]
  by_cases hfl : flags &&& mapAnonymous = 0
  · simpa [hfl] using .of_stores_eq rfl
  by_cases hlen : len = 0
  · simpa [hfl, hlen] using .of_stores_eq rfl
  simp only [hfl, hlen, if_false]
  rcases hspc : u.space with _ | space
  · simpa using .of_stores_eq rfl
  have hmmapTop := hal space hspc
  have hlength := alignUp_aligned len.toNat
  dsimp only
  generalize alignUp len.toNat = alignedLen at hlength ⊢
  rcases hba : checkedSub space.mmapTop alignedLen with _ | base
  · simpa using .of_stores_eq rfl
  have hbaseAligned : base % 4096 = 0 := by
    rw [checkedSub] at hba
    split_ifs at hba
    cases hba
    omega
  dsimp only
  by_cases hbrk : base < space.brk
  · simpa [hbrk] using .of_stores_eq rfl
  · rw [if_neg hbrk, if_neg hbrk]
    refine (confined_mmapPages_iff ⟨_, u.machine⟩ hbaseAligned alignedLen prot).trans ?_
    cases u.machine.ready <;> simp

lemma sysMunmap_stores (addr len : UInt64) :
    (u.sysMunmap addr len).2.machine.stores = u.machine.stores := by
  rw [sysMunmap]
  split_ifs
  · rfl
  · rfl
  · have hunm := unmapRange_stores
      (stepCount addr.toNat (wrappingAdd addr.toNat (alignUp len.toNat))) addr.toNat u.machine
    dsimp only
    generalize u.machine.unmapRange _ addr.toNat = r at hunm ⊢
    obtain ⟨fault, m⟩ := r
    cases fault <;> exact hunm

lemma rollbackHeapGrowth_stores (oldBrk lo fin : ℕ) :
    (u.rollbackHeapGrowth oldBrk lo fin).2.machine.stores = u.machine.stores := by
  have hunm := unmapRange_stores (stepCount lo fin) lo u.machine
  rw [rollbackHeapGrowth]
  generalize u.machine.unmapRange _ lo = r at hunm ⊢
  obtain ⟨fault, m⟩ := r
  cases fault <;> exact hunm

lemma growResult_stores (sp : AddressSpace) (a lo : ℕ) (r : Option MapStop × ℕ × Machine M) :
    (u.growResult sp a lo r).2.machine.stores = r.2.2.stores := by
  obtain ⟨stop, finish, m⟩ := r
  match stop with
  | none | some .panicked => rfl
  | some .noFrame | some (.mapError _ _) => exact rollbackHeapGrowth_stores _ _ _ _

lemma confined_sysBrk (a : UInt64) : Confined u.machine (u.sysBrk a).2.machine := by
  have hgrow : ∀ sp : AddressSpace, Confined u.machine (u.growHeap sp a.toNat).2.machine := by
    intro sp
    rw [growHeap]
    split_ifs
    · exact .of_stores_eq rfl
    · rw [Confined, growResult_stores]
      exact confined_mapRange rfl rfl _ (alignUp_aligned _) _
  rw [sysBrk]
  split
  · exact .of_stores_eq rfl
  · dsimp only
    split_ifs
    · exact .of_stores_eq rfl
    · exact .of_stores_eq rfl
    · exact .of_stores_eq rfl
    · exact hgrow _

end UserMemory

namespace SyscallState

open Loader
variable (s : SyscallState M) (env : SyscallEnv) (fd : UInt32)

lemma onMemory_machine (call : UserMemory M → Outcome ℤ × UserMemory M) :
    (s.onMemory call).2.machine =
      (call ⟨s.currentProcess.map Process.addressSpace, s.machine⟩).2.machine := by
  rw [onMemory]
  split <;> rfl

lemma readString_length {memory : UserBytes} {sp : AddressSpace} {pointer left : ℕ}
    {bs : List UInt8} {text : Str}
    (h : readString memory sp pointer left bs = .returned (.ok text)) :
    (toUtf8 text).length < left + bs.length := by
  induction left generalizing bs with
  | zero => simp [readString] at h
  | succ _ ih =>
    simp only [readString] at h
    split at h
    · simp at h
    · split at h
      · simp at h
      · split at h
        · simp at h
        · split at h
          · split at h
            · next text' htx =>
              obtain rfl : text' = text := by simpa using h
              rw [toUtf8_of_ofUtf8 htx]
              omega
            · simp at h
          · have := ih h
            rw [length_append, length_singleton] at this
            omega

lemma readPointers_length {s : SyscallState M} {memory : UserBytes} {pointer left i : ℕ}
    {pointers : List ℕ}
    (h : s.readPointers memory pointer left i = .returned (.ok pointers)) :
    pointers.length ≤ left := by
  induction left generalizing i pointers with
  | zero =>
    obtain rfl : [] = pointers := by simpa [readPointers] using h
    exact le_rfl
  | succ _ ih =>
    simp only [readPointers] at h
    split at h
    · simp at h
    · split at h
      · simp at h
      · split at h
        · obtain rfl : [] = pointers := by simpa using h
          exact Nat.zero_le _
        · split at h
          · next rest hr =>
            obtain rfl : _ = pointers := by simpa using h
            exact Nat.succ_le_succ (ih hr)
          · next hnot => exact absurd h (hnot pointers)

lemma readStrings_length {s : SyscallState M} {memory : UserBytes} {pointers : List ℕ}
    {texts : List Str}
    (h : s.readStrings memory pointers = .returned (.ok texts)) :
    texts.length = pointers.length ∧ ∀ text ∈ texts, (toUtf8 text).length < maxUserStringLen := by
  induction pointers generalizing texts with
  | nil =>
    obtain rfl : [] = texts := by simpa [readStrings] using h
    simp
  | cons _ _ ih =>
    simp only [readStrings] at h
    split at h
    · simp at h
    · simp at h
    · next text htx =>
      split at h
      · next rest hr =>
        obtain rfl : text :: rest = texts := by simpa using h
        obtain ⟨hlength, htexts⟩ := ih hr
        refine ⟨by rw [length_cons, hlength, length_cons], ?_⟩
        have hfst : (toUtf8 text).length < maxUserStringLen := by
          rw [readUserStringChecked] at htx
          split at htx
          · simp at htx
          · split at htx
            · simp at htx
            · simpa using readString_length htx
        simpa using ⟨hfst, htexts⟩
      · next hnot => exact absurd h (hnot texts)

/-- At most 64 strings of less than 256 bytes: they fit in the stack. -/
lemma argumentsFit_of_execveArguments {s : SyscallState M} {memory : UserBytes} {path argv : ℕ}
    {pathStr : Str} {args : List Str}
    (h : s.execveArguments memory path argv = .returned (.ok (pathStr, args))) :
    ArgumentsFit (args.map toUtf8) := by
  rw [execveArguments] at h
  split at h
  · simp at h
  · simp at h
  · split at h
    · simp at h
    · simp at h
    · next pointers hpointers =>
      split at h
      · simp at h
      · simp at h
      · next texts htexts =>
        obtain ⟨-, rfl⟩ : _ = pathStr ∧ texts = args := by simpa using h
        obtain ⟨hlength, hshort⟩ := readStrings_length htexts
        have hpointers' : pointers.length ≤ 64 := by
          rw [readUserPointerArrayChecked] at hpointers
          split at hpointers
          · obtain rfl : [] = pointers := by simpa using hpointers
            exact Nat.zero_le _
          · exact readPointers_length hpointers
        have hbs : argumentBytes (texts.map toUtf8) ≤ (texts.map toUtf8).length * 256 :=
          argumentBytes_le (by simpa [maxUserStringLen] using hshort)
        rw [length_map] at hbs
        rw [ArgumentsFit, AddressSpace.userStackSize, length_map]
        omega

/-- The contents and the segments of the file that `sys_execve` loads, if it gets
that far. -/
def execFile (path argv : ℕ) : Option (List UInt8 × List ElfSegment) :=
  match s.execveArguments env.memory path argv, s.currentProcess with
  | .returned (.ok (pathStr, _)), some old =>
    match s.fs.readAs pathStr old.uid (roleForUid s.kernel.users old.uid) with
    | .error _ => none
    | .ok data =>
      match parseElf data with
      | .ok elf => some (data, elf.segments)
      | .error _ => none
  | _, _ => none

/-- Filling the new image stays in pages that the user may write. -/
def ExecveOk {M : TableMapper} (s : SyscallState M.toMapper) (env : SyscallEnv)
    (path argv : ℕ) : Prop :=
  ∀ data segments, s.execFile env path argv = some (data, segments) →
    FillsUserPages data segments s.machine

lemma unmapRanges_stores (rs : List (ℕ × ℕ)) (m : Machine M) :
    (unmapRanges rs m).2.stores = m.stores := by
  induction rs generalizing m with
  | nil => rfl
  | cons range _ ih =>
    have hfst : (unmapRange range.1 range.2 m).2.stores = m.stores :=
      Machine.unmapRange_stores _ _ _
    simp only [unmapRanges]
    generalize unmapRange range.1 range.2 m = r at hfst ⊢
    obtain ⟨fault, m'⟩ := r
    cases fault with
    | true => exact hfst
    | false => exact (ih m').trans hfst

lemma teardownProcessImage_stores (cr3 pt : ℕ) (sp : AddressSpace) (m : Machine M) :
    (teardownProcessImage cr3 pt sp m).2.stores = m.stores := by
  have hunm := unmapRanges_stores (teardownRanges sp) m
  rw [teardownProcessImage]
  split
  · rfl
  · generalize unmapRanges (teardownRanges sp) m = r at hunm ⊢
    obtain ⟨fault, m'⟩ := r
    cases fault with
    | true => exact hunm
    | false =>
      dsimp only
      split <;> exact hunm

lemma commitExec_stores (cr3 : ℕ) (pid : Pid) (old : Process) (path : Str)
    (pt : ℕ) (image : AddressSpace × CpuContext × ℕ) (ts : M.Tables) :
    (s.commitExec cr3 pid old path pt image ts).2.machine.stores = s.machine.stores := by
  have htear := teardownProcessImage_stores cr3 old.pageTablePhys old.addressSpace
    s.machine
  rw [commitExec]
  generalize teardownProcessImage cr3 old.pageTablePhys old.addressSpace s.machine = r
    at htear ⊢
  obtain ⟨o, m⟩ := r
  cases o <;> exact htear

/-- The machine after `sys_execve` has the stores of the loader. -/
lemma execImage_stores {s : SyscallState M} {ld : LoaderEnv} {cr3 : ℕ} {pid : Pid}
    {old : Process} {path : Str} {args : List Str} {data : List UInt8} {elf : ElfInfo} {pt : ℕ}
    {m : Machine M}
    (hd : s.fs.readAs path old.uid (roleForUid s.kernel.users old.uid) = .ok data)
    (helf : parseElf data = .ok elf) (htab : createUserPageTable s.machine = .ok (pt, m)) :
    (s.execImage ld cr3 pid old path args).2.machine.stores =
      (mapProcessImage ld pt elf data (args.map toUtf8) m).2.stores := by
  simp only [execImage, hd, helf, htab]
  generalize mapProcessImage ld pt elf data (args.map toUtf8) m = r
  obtain ⟨o, m'⟩ := r
  match o with
  | .panicked | .returned (.error _) => rfl
  | .returned (.ok image) => exact commitExec_stores _ _ _ _ _ _ _ _

theorem confined_sysExecve_iff {M : TableMapper} (s : SyscallState M.toMapper) (env : SyscallEnv)
    (path argv : ℕ) :
    Confined s (s.sysExecve env.memory env.loader env.kernelCr3 path argv).2 ↔
      s.ExecveOk env path argv := by
  rw [sysExecve, ExecveOk, execFile]
  match hargs : s.execveArguments env.memory path argv with
  | .panicked | .returned (.error _) => simpa using .of_machine_eq rfl
  | .returned (.ok (pathStr, args)) =>
    -- every failure before the page table leaves the machine alone
    have hfit := argumentsFit_of_execveArguments hargs
    rw [currentProcess]
    rcases s.kernel.currentPid with _ | pid
    · simpa using .of_machine_eq rfl
    simp only [bind_some]
    rcases s.kernel.table.get pid with _ | old
    · simpa using .of_machine_eq rfl
    dsimp only
    rcases hd : s.fs.readAs pathStr old.uid (roleForUid s.kernel.users old.uid) with _ | data
    · simpa [execImage, hd] using .of_machine_eq rfl
    dsimp only
    rcases helf : parseElf data with _ | elf
    · simpa [execImage, hd, helf] using .of_machine_eq rfl
    have hsegments : (∀ data' segments, some (data, elf.segments) = some (data', segments) →
        FillsUserPages data' segments s.machine) ↔ FillsUserPages data elf.segments s.machine := by
      simp
    refine Iff.trans ?_ hsegments.symm
    cases htab : createUserPageTable s.machine with
    | error =>
      refine iff_of_true ?_ (fillsUserPages_of_error htab data elf.segments)
      simpa [execImage, hd, helf, htab] using .of_machine_eq rfl
    | ok table =>
      obtain ⟨-, hsts⟩ := createUserPageTable_stores htab
      rw [Confined, Machine.Confined, execImage_stores hd helf htab, ← hsts]
      exact confined_mapProcessImage_iff hfit (fun segment => parseElf_parsed helf) htab

/-! ### Every call -/

lemma sysWrite_machine (buf len : ℕ) : (s.sysWrite env fd buf len).2.machine = s.machine := by
  rw [sysWrite]
  split_ifs
  · rfl
  · split
    · rfl
    · rfl
    · split
      · rfl
      · rfl
      · rfl
      · split
        · rw [stageBytes]
          split
          · rfl
          · split
            · rfl
            · exact modifyCurrent_machine _ _
        · rfl
      · rfl

lemma sysOpen_machine (path : ℕ) (fl mode : UInt32) :
    (s.sysOpen env path fl mode).2.machine = s.machine := by
  rw [sysOpen]
  split
  · rfl
  · split
    · rfl
    · split
      · rfl
      · rfl
      · split
        · rfl
        · split
          · rfl
          · exact modifyCurrent_machine _ _

lemma closeDescriptor_machine : (s.closeDescriptor fd).2.machine = s.machine := by
  rw [closeDescriptor]
  split
  · rfl
  · exact modifyCurrent_machine _ _

lemma sysClose_machine : (s.sysClose env fd).2.machine = s.machine := by
  rw [sysClose]
  split
  · rfl
  · split
    · split
      · rfl
      · exact closeDescriptor_machine _ _
    · exact closeDescriptor_machine _ _
  · exact closeDescriptor_machine _ _

lemma sysExit_machine (code : Int32) : (s.sysExit code).2.machine = s.machine := by
  rw [sysExit]
  split <;> rfl

lemma sysChdir_machine (path : ℕ) : (s.sysChdir env path).2.machine = s.machine := by
  rw [sysChdir]
  split
  · rfl
  · rfl
  · split
    · rfl
    · exact modifyCurrent_machine _ _

lemma sysQalloc_machine (numQubits : UInt32) :
    (s.sysQalloc env numQubits).2.machine = s.machine := by
  rw [sysQalloc]
  split
  · rfl
  · split
    · rfl
    · exact modifyCurrent_machine _ _

/-- What a call must meet so that the kernel writes only where the user may:
`sys_mmap` and `sys_execve` for the pages they fill, the others for the ranges
they copy to. -/
def CallOk {M : TableMapper} (s : SyscallState M.toMapper) (env : SyscallEnv) (a : Args) :
    Syscall → Prop
  | .mmap =>
    UserMemory.MmapOk ⟨s.currentProcess.map Process.addressSpace, s.machine⟩ a.arg2
      a.arg3.toUInt32 a.arg4.toUInt32
  | .execve => s.ExecveOk env a.arg1.toNat a.arg2.toNat
  | call => ∀ range ∈ s.destinations env a call, s.RangeOk range

/-- The mmap area of the current process begins at a page. -/
def MmapAligned : Prop := ∀ process ∈ s.currentProcess, process.addressSpace.mmapTop % 4096 = 0

lemma confined_perform_iff {M : TableMapper} {s : SyscallState M.toMapper} (hal : s.MmapAligned)
    (env : SyscallEnv) (a : Args) (call : Syscall) :
    Confined s (s.perform env a call).2 ↔ s.CallOk env a call := by
  cases call with
  | read => exact s.confined_sysRead_iff env a
  | write => exact confined_nothing_iff (s.sysWrite_machine env _ _ _)
  | «open» => exact confined_nothing_iff (s.sysOpen_machine env _ _ _)
  | close => exact confined_nothing_iff (s.sysClose_machine env _)
  | stat => exact s.confined_sysStat_iff env a
  | fstat => exact s.confined_sysFstat_iff env a
  | mmap =>
    rw [perform, Confined, onMemory_machine]
    refine confined_sysMmap_iff ⟨_, s.machine⟩ ?_ _ _ _
    intro sp hspc
    obtain ⟨p, hproc, rfl⟩ := map_eq_some_iff.1 hspc
    exact hal p hproc
  | munmap =>
    refine iff_of_true ?_ (by simp [CallOk, destinations])
    rw [perform, Confined, onMemory_machine]
    exact .of_stores_eq (sysMunmap_stores _ _ _)
  | brk =>
    refine iff_of_true ?_ (by simp [CallOk, destinations])
    rw [perform, Confined, onMemory_machine]
    exact confined_sysBrk ⟨_, s.machine⟩ _
  | getpid | getppid | getuid | nanosleep | qgate => exact confined_nothing_iff rfl
  | execve => exact s.confined_sysExecve_iff env _ _
  | exit => exact confined_nothing_iff (s.sysExit_machine _)
  | wait4 => exact s.confined_sysWait4_iff env a
  | readdir => exact s.confined_sysReaddir_iff env a
  | getcwd => exact s.confined_sysGetcwd_iff env a
  | chdir => exact confined_nothing_iff (s.sysChdir_machine env _)
  | clockGettime => exact s.confined_sysClockGettime_iff env a
  | qalloc => exact confined_nothing_iff (s.sysQalloc_machine env _)
  | qfree => exact confined_nothing_iff (modifyCurrent_machine _ _)
  | qmeasure => exact s.confined_sysQmeasure_iff env a
  | qstate => exact s.confined_sysQstate_iff env a
  | sha3 => exact s.confined_sysSha3_iff env a
  | randomBytes => exact s.confined_sysRandomBytes_iff env a

lemma currentProcess_modifyCurrent {f : Process → Process}
    (hf : ∀ process, (f process).pid = process.pid) :
    (s.modifyCurrent f).currentProcess = s.currentProcess.map f := by
  rw [modifyCurrent]
  split
  · next hpid => simp [currentProcess, hpid]
  · next pid hpid =>
    rw [currentProcess, currentProcess]
    change (s.kernel.currentPid.bind _) = _
    rw [hpid, bind_some, bind_some, ProcessTable.get_modify _ _ hf, if_pos rfl]

lemma MmapAligned.countSyscall {s : SyscallState M} (h : s.MmapAligned) :
    s.countSyscall.MmapAligned := by
  intro p hproc
  rw [SyscallState.countSyscall, currentProcess_modifyCurrent] at hproc
  · obtain ⟨old, hold, rfl⟩ := map_eq_some_iff.1 hproc
    exact h old hold
  · exact fun _ => rfl

lemma confined_dispatch_iff {M : TableMapper} {s : SyscallState M.toMapper} (hal : s.MmapAligned)
    (env : SyscallEnv) {syscallNum : UInt64} {call : Syscall}
    (hc : ofNumber syscallNum.toNat = some call) (a : Args) :
    Confined s (s.syscallDispatch env syscallNum a).2 ↔ s.countSyscall.CallOk env a call := by
  have hcnt : s.countSyscall.machine = s.machine := modifyCurrent_machine _ _
  have hperf := confined_perform_iff hal.countSyscall env a call
  rw [confined_congr hcnt rfl] at hperf
  rw [syscallDispatch, hc]
  exact hperf

/-- Every byte that the kernel writes on behalf of a system call lies in a page
that the user may write, exactly when the call meets its condition. -/
theorem syscallDispatch_confined_iff {M : TableMapper} (s : SyscallState M.toMapper)
    (haligned : s.MmapAligned) (env : SyscallEnv) (syscallNum : UInt64) (a : Args) :
    Confined s (s.syscallDispatch env syscallNum a).2 ↔
      ∀ call, ofNumber syscallNum.toNat = some call → s.countSyscall.CallOk env a call := by
  cases hc : ofNumber syscallNum.toNat with
  | none =>
    rw [syscallDispatch, hc]
    exact iff_of_true (.of_machine_eq (modifyCurrent_machine _ _)) (by simp)
  | some => simpa using confined_dispatch_iff haligned env hc a

/-- A process runs with one page mapped, with the given flags. -/
def onePage (page : ℕ) (flags : PageFlags) : SyscallState fourLevel where
  kernel :=
    { (KernelState.init ⟨[], 1000⟩).setCurrentPid (some 1) with
      table := ⟨[{ Process.kernelTask 0 [] 1000 .running [] .normal 0 .elf [] ⟨0⟩ with pid := 1 }],
        2, none⟩ }
  fs := ⟨[], 0⟩
  machine := (smallMachine.mapPage page 1 flags).2

/-- Nothing can be read, and nothing is measured. -/
def quietEnv : SyscallEnv where
  memory := fun _ => none
  heapRoom := fun _ => true
  now := 0
  millis := 0
  loader := .fixed
  kernelCr3 := 0
  sha3 := fun _ => []
  allocRegister := fun _ => none
  applyGate := fun _ _ _ _ _ => false
  measureRegister := fun _ _ => none
  stateVectorText := fun _ _ => none

lemma onePage_mmapAligned (page : ℕ) (fl : PageFlags) : (onePage page fl).MmapAligned := by
  rintro _ ⟨⟩
  rfl

/-- Eight random bytes for a page that the process may write. -/
theorem syscallDispatch_confined_userPage :
    (onePage 0x10000 (dataFlags true)).MmapAligned ∧
      Confined (onePage 0x10000 (dataFlags true))
        ((onePage 0x10000 (dataFlags true)).syscallDispatch quietEnv 421
          ⟨0x10000000, 8, 0, 0, 0, 0⟩).2 := by
  refine ⟨onePage_mmapAligned _ _, (syscallDispatch_confined_iff (M := fourLevelTables) _
    (onePage_mmapAligned _ _) quietEnv 421 ⟨0x10000000, 8, 0, 0, 0, 0⟩).2 ?_⟩
  intro call hc
  obtain rfl : randomBytes = call := some.inj hc
  change ∀ range ∈ _, _
  decide

theorem randomBytes_writes_kernelPage :
    let s := onePage 0xFFFF800000000 ⟨true, false, true⟩
    let a : Args := ⟨0xFFFF800000000000, 8, 0, 0, 0, 0⟩
    (s.syscallDispatch quietEnv 421 a).1 = .returned 8 ∧
      ¬ Confined s (s.syscallDispatch quietEnv 421 a).2 := by
  refine ⟨by decide, ?_⟩
  have hdest : ¬ CallOk (M := fourLevelTables)
      (countSyscall (onePage 0xFFFF800000000 ⟨true, false, true⟩)) quietEnv
      ⟨0xFFFF800000000000, 8, 0, 0, 0, 0⟩ .randomBytes := by
    change ¬ ∀ range ∈ _, _
    decide
  exact fun h => hdest ((confined_dispatch_iff (onePage_mmapAligned _ _) quietEnv rfl _).1 h)

end SyscallState

end Waros.Kernel.Exec
