import Waros.Kernel.Exec.LoaderStores
import Waros.Kernel.Exec.Spawn

/-!
What a program start leaves behind when it fails. From the moment the page
table of the new image exists, neither `spawn_process` nor `sys_execve` has a
path that gives frames back, so a start is neutral exactly when it fails before
that moment.
-/

namespace Waros.Kernel.Memory

namespace BitmapAllocator

/-- The frames that are not in use. -/
def freeSet (a : BitmapAllocator) : Set ℕ :=
  { frame | frame ≠ 0 ∧ frame < a.maxFrameIndex ∧ a.isAllocated frame = false }

end BitmapAllocator

namespace Machine

variable {M : Mapper}

/-- No frame in use in `m` is free in `m'`. -/
def Retains (m m' : Machine M) : Prop :=
  ∀ frame, m.frames.isAllocated frame = true → m'.frames.isAllocated frame = true

lemma Retains.of_frames_eq {m m' : Machine M} (h : m'.frames = m.frames) : Retains m m' :=
  fun frame hfr => by rw [h, hfr]

lemma Retains.trans {m m₁ m₂ : Machine M} (h : Retains m m₁) (h' : Retains m₁ m₂) : Retains m m₂ :=
  fun frame hfr => h' frame (h frame hfr)

lemma Retains.of_takes {m m' : Machine M} {fs : List ℕ} (h : Takes m.frames fs m'.frames) :
    Retains m m' :=
  fun frame hfr => (h.isAllocated_iff frame).2 (.inr hfr)

variable (m : Machine M) (flags : PageFlags)

lemma retains_mapPage (page f : ℕ) (fl : PageFlags) : Retains m (m.mapPage page f fl).2 := by
  have htaken := M.mapTo_takes m.tables page f fl m.frames
  simp only [mapPage]
  split
  · exact .of_takes htaken
  · exact .of_takes htaken

lemma retains_mapZeroed (a : ℕ) : Retains m (m.mapZeroed flags a).2 := by
  generalize hrd : m.mapZeroed flags a = r
  obtain ⟨stop, m'⟩ := r
  rcases mapZeroed_cases hrd with ⟨-, rfl⟩ | ⟨f, frames, hfr, -, hmapped⟩
  · exact .of_frames_eq rfl
  · have htake : Retains m { m with frames } := .of_takes (takes_singleton hfr)
    have hpg := retains_mapPage { m with frames } (containingPage a) f flags
    rcases hmapped with ⟨error, -, herr⟩ | ⟨m₁, hok, hfill⟩
    · rw [herr] at hpg
      exact htake.trans hpg
    · obtain ⟨-, stores, rfl⟩ := zeroFill_eq hfill
      rw [hok] at hpg
      exact (htake.trans hpg).trans (.of_frames_eq rfl)

lemma retains_mapRange (ps a : ℕ) (m : Machine M) : Retains m (m.mapRange flags ps a).2.2 := by
  induction ps generalizing a m with
  | zero => exact .of_frames_eq rfl
  | succ _ ih =>
    have hrd := retains_mapZeroed m flags a
    simp only [mapRange]
    split
    · next heq =>
      rw [heq] at hrd
      exact hrd
    · next m₁ heq =>
      rw [heq] at hrd
      exact hrd.trans (ih (a + 4096) m₁)

end Machine

end Waros.Kernel.Memory

namespace Waros.Kernel.Exec

open Lib Memory Memory.Machine
variable {M : Mapper}

namespace Loader

/-! ### The loader gives nothing back -/

lemma forSegments_retains {f : ElfSegment → Machine M → LoadOutcome Unit × Machine M} :
    (∀ segment m, Retains m (f segment m).2) →
      ∀ segments m, Retains m (forSegments f segments m).2 :=
  forSegments_keeps (fun _ => .of_frames_eq rfl) .trans

lemma applySegmentPermissions_retains (seg : ElfSegment) (m : Machine M) :
    Retains m (applySegmentPermissions seg m).2 := by
  obtain ⟨ts, h⟩ := applySegmentPermissions_eq seg m
  rw [h]
  exact .of_frames_eq rfl

variable (data : List UInt8) (env : LoaderEnv) (pageTablePhys : ℕ) (elf : ElfInfo)

lemma populateSegment_retains (seg : ElfSegment) (m : Machine M) :
    Retains m (populateSegment data seg m).2 := by
  generalize hpopu : populateSegment data seg m = r
  obtain ⟨o, m₁⟩ := r
  obtain ⟨ss, rfl⟩ := populateSegment_eq hpopu
  exact .of_frames_eq rfl

lemma loadSegments_retains (segs : List ElfSegment) (m : Machine M) :
    Retains m (loadSegments data segs m).2 := by
  refine andThen_keeps .trans (forSegments_retains (fun seg m => ?_) segs m) fun m₁ => ?_
  · exact retains_mapRange _ _ _ m
  refine andThen_keeps .trans (forSegments_retains (populateSegment_retains data) segs m₁) ?_
  exact forSegments_retains applySegmentPermissions_retains segs

lemma finishImage_retains (args : List (List UInt8)) (m : Machine M) :
    Retains m (finishImage env pageTablePhys elf args m).2 := by
  simp only [finishImage, setupUserStack]
  rw [show (imageSpace env pageTablePhys elf.segments).stackTop = stackTopOf env from rfl]
  generalize hsts : storeAll (stackWrites (stackTopOf env) args).1 m = r
  obtain ⟨fault, m₁⟩ := r
  obtain ⟨ss, rfl⟩ := storeAll_eq hsts
  cases fault with
  | true => exact .of_frames_eq rfl
  | false => exact .of_frames_eq rfl

lemma mapStack_retains (m : Machine M) : Retains m (mapStack env m).2 := by
  rw [mapStack_snd rfl]
  exact retains_mapRange _ _ _ m

lemma mapProcessImage_retains (data : List UInt8) (args : List (List UInt8)) (m : Machine M) :
    Retains m (mapProcessImage env pageTablePhys elf data args m).2 := by
  rw [mapProcessImage]
  split
  · exact .of_frames_eq rfl
  refine andThen_keeps .trans (loadSegments_retains data elf.segments m) fun m₁ => ?_
  split
  · refine andThen_keeps .trans (mapStack_retains env m₁) fun m₂ => ?_
    exact finishImage_retains env pageTablePhys elf args m₂
  · exact .of_frames_eq rfl

end Loader

namespace SyscallState

open Loader

/-- The file can be read and is a program, and there is a frame for a page
table: the start gets as far as creating one. -/
def ReachesPageTable (s : SyscallState M) (path : Str) (uid : Uid) : Prop :=
  ∃ data elf, s.fs.readAs path uid (Loader.roleForUid s.kernel.users uid) = .ok data ∧
    parseElf data = .ok elf ∧ s.machine.ready = true ∧
    s.machine.frames.allocateFrame.isSome = true

/-- A frame that is free before is in use afterwards. -/
def Consumed (s s' : SyscallState M) : Prop :=
  ∃ frame ∈ s.machine.frames.freeSet, s'.machine.frames.isAllocated frame = true

variable {s s' : SyscallState M} {pageTablePhys : ℕ} {path : Str} {priority : Priority}
  {error : ExecError} {old : Process} {memory : UserBytes} {kernelCr3 : ℕ} {code : ℤ}

lemma Consumed.freeSet_ne (h : Consumed s s') :
    s'.machine.frames.freeSet ≠ s.machine.frames.freeSet := by
  obtain ⟨f, hfree, hused⟩ := h
  intro heq
  rw [← heq] at hfree
  obtain ⟨-, -, hunu⟩ := hfree
  rw [hused] at hunu
  cases hunu

/-- Building an image consumes a frame, whatever becomes of it. -/
lemma consumed_mapProcessImage {s : SyscallState M} {m : Machine M}
    (hcre : createUserPageTable s.machine = .ok (pageTablePhys, m)) (env : LoaderEnv)
    (elf : ElfInfo) (data : List UInt8) (args : List (List UInt8)) {s' : SyscallState M}
    (hs' : s'.machine.frames =
      (mapProcessImage env pageTablePhys elf data args m).2.frames) : Consumed s s' := by
  obtain ⟨f, frames, hfr, rfl, rfl⟩ := createUserPageTable_ok hcre
  obtain ⟨hne, hlt, hfree, -, hst⟩ := BitmapAllocator.allocateFrame_eq_some hfr
  refine ⟨f, ⟨hne, hlt, hfree⟩, ?_⟩
  rw [hs']
  exact mapProcessImage_retains _ _ _ _ _ _ f ((hst f).trans (if_pos rfl))

lemma createUserPageTable_isOk_iff (m : Machine M) :
    (∃ r, createUserPageTable m = .ok r) ↔ m.ready ∧ m.frames.allocateFrame.isSome := by
  rw [createUserPageTable, allocateFrame]
  cases m.ready <;> cases m.frames.allocateFrame <;> simp

/-! ### Failed calls -/

variable {uid : Uid} {args : List Str} {loader : LoaderEnv} {argv : ℕ} {pid : Pid}

lemma spawnProcess_of_not_reaches {s : SyscallState M}
    (h : ¬ s.ReachesPageTable path uid) (ld : LoaderEnv) (args : List Str)
    (env : List (Str × Str)) (par : Pid) (prio : Priority) (now : ℕ) :
    (s.spawnProcess ld path args env uid par prio now).2 = s := by
  rw [spawnProcess]
  split
  · rfl
  next data hread =>
    split
    · rfl
    next elf hpa =>
      split
      · rfl
      next hcre =>
        have hfr := (createUserPageTable_isOk_iff s.machine).1 ⟨_, hcre⟩
        exact absurd ⟨data, elf, hread, hpa, hfr⟩ h

lemma addProcess_error {p : Process}
    (h : s.addProcess p priority = (.error error, s')) : s' = s := by
  rw [addProcess] at h
  split at h
  · exact (Prod.ext_iff.1 h).2.symm
  · cases h

lemma spawnProcess_consumed (hrch : s.ReachesPageTable path uid) {env : List (Str × Str)}
    {par : Pid} {now : ℕ} (h : s.spawnProcess loader path args env uid par priority now =
      (.returned (.error error), s')) : Consumed s s' := by
  obtain ⟨data, elf, hread, hpa, hfr⟩ := hrch
  obtain ⟨⟨pageTablePhys, m⟩, hcre⟩ := (createUserPageTable_isOk_iff s.machine).2 hfr
  rw [spawnProcess, hread] at h
  dsimp only at h
  rw [hpa] at h
  rw [hcre] at h
  dsimp only at h
  refine consumed_mapProcessImage hcre loader elf data (args.map Str.toUtf8) ?_
  generalize mapProcessImage loader pageTablePhys elf data (args.map Str.toUtf8) m = r at h ⊢
  obtain ⟨o, m'⟩ := r
  rcases o with (_ | image) | _
  · cases h
    rfl
  · obtain ⟨hres, hst⟩ := Prod.ext_iff.1 h
    have := addProcess_error (Prod.ext (Outcome.returned.inj hres) hst)
    rw [this]
    rfl
  · cases h

/-- `sys_execve` gets as far as creating a page table: its arguments can be
read, a process is running, and the file is a program it may read. -/
def ExecReachesPageTable (s : SyscallState M) (memory : UserBytes) (path argv : ℕ) : Prop :=
  ∃ pathStr args pid old, s.execveArguments memory path argv = .returned (.ok (pathStr, args)) ∧
    s.kernel.currentPid = some pid ∧ s.kernel.table.get pid = some old ∧
    s.ReachesPageTable pathStr old.uid

lemma execImage_of_not_reaches {s : SyscallState M} (h : ¬ s.ReachesPageTable path old.uid)
    (ld : LoaderEnv) (cr3 : ℕ) (pid : Pid) (args : List Str) :
    (s.execImage ld cr3 pid old path args).2 = s := by
  rw [execImage]
  split
  · rfl
  next data hread =>
    split
    · rfl
    next elf hpa =>
      split
      · rfl
      next hcre =>
        have hfr := (createUserPageTable_isOk_iff s.machine).1 ⟨_, hcre⟩
        exact absurd ⟨data, elf, hread, hpa, hfr⟩ h

lemma sysExecve_of_not_reaches {s : SyscallState M} {path : ℕ}
    (h : ¬ s.ExecReachesPageTable memory path argv) (ld : LoaderEnv) (cr3 : ℕ) :
    (s.sysExecve memory ld cr3 path argv).2 = s := by
  rw [sysExecve]
  split
  · rfl
  · rfl
  next pathStr args harguments =>
    split
    · rfl
    next pid hpid =>
      split
      · rfl
      next old hold =>
        refine execImage_of_not_reaches (fun hrch => h ?_) ..
        exact ⟨pathStr, args, pid, old, harguments, hpid, hold, hrch⟩

lemma commitExec_nonneg {s : SyscallState M} {image : AddressSpace × CpuContext × ℕ}
    {ts : M.Tables} (h : (s.commitExec kernelCr3 pid old path pageTablePhys image ts).1 =
      .returned code) : 0 ≤ code := by
  rw [commitExec] at h
  split at h
  · cases h
  · exact (Outcome.returned.inj h).le

lemma execImage_consumed (hrch : s.ReachesPageTable path old.uid) (hcode : code < 0)
    (h : s.execImage loader kernelCr3 pid old path args = (.returned code, s')) :
    Consumed s s' := by
  obtain ⟨data, elf, hread, hpa, hfr⟩ := hrch
  obtain ⟨⟨pageTablePhys, m⟩, hcre⟩ := (createUserPageTable_isOk_iff s.machine).2 hfr
  rw [execImage, show s.fs.readAs path old.uid (roleForUid s.kernel.users old.uid) = .ok data
    from hread] at h
  dsimp only at h
  rw [hpa] at h
  rw [hcre] at h
  dsimp only at h
  refine consumed_mapProcessImage hcre loader elf data (args.map Str.toUtf8) ?_
  generalize mapProcessImage loader pageTablePhys elf data (args.map Str.toUtf8) m = r at h ⊢
  obtain ⟨o, m'⟩ := r
  rcases o with (_ | image) | _
  · cases h
    rfl
  · have := commitExec_nonneg (Prod.ext_iff.1 h).1
    omega
  · cases h

lemma sysExecve_consumed {path : ℕ} (hrch : s.ExecReachesPageTable memory path argv)
    (hcode : code < 0)
    (h : s.sysExecve memory loader kernelCr3 path argv = (.returned code, s')) : Consumed s s' := by
  obtain ⟨pathStr, args, pid, old, harguments, hpid, hold, hrch⟩ := hrch
  rw [sysExecve, harguments] at h
  rw [hpid] at h
  dsimp only at h
  rw [hold] at h
  exact execImage_consumed hrch hcode h

/-- A call that fails leaves the free frames and the process table as they were,
and `sys_execve` the whole kernel state and the page table of its caller,
exactly when it fails before it has created a page table. -/
theorem failed_start_neutral_iff (s : SyscallState M) :
    (∀ loader path args env uid parentPid priority now error s',
      s.spawnProcess loader path args env uid parentPid priority now =
          (.returned (.error error), s') →
        ((s'.machine.frames.freeSet = s.machine.frames.freeSet ∧
            s'.kernel.table = s.kernel.table) ↔ ¬ s.ReachesPageTable path uid)) ∧
      ∀ memory loader kernelCr3 path argv code s',
        s.sysExecve memory loader kernelCr3 path argv = (.returned code, s') → code < 0 →
        ((s'.machine.frames.freeSet = s.machine.frames.freeSet ∧
            s'.machine.tables = s.machine.tables ∧ s'.kernel = s.kernel) ↔
          ¬ s.ExecReachesPageTable memory path argv) := by
  constructor
  · intro loader path args env uid parentPid priority now error s' h
    refine ⟨fun hsm hrch => ?_, fun hear => ?_⟩
    · exact (spawnProcess_consumed hrch h).freeSet_ne hsm.1
    · have hs := spawnProcess_of_not_reaches hear loader args env parentPid priority now
      rw [h] at hs
      obtain rfl : s' = s := hs
      exact ⟨rfl, rfl⟩
  · intro memory loader kernelCr3 path argv code s' h hcode
    refine ⟨fun hsm hrch => ?_, fun hear => ?_⟩
    · exact (sysExecve_consumed hrch hcode h).freeSet_ne hsm.1
    · have hs := sysExecve_of_not_reaches hear loader kernelCr3
      rw [h] at hs
      obtain rfl : s' = s := hs
      exact ⟨rfl, rfl, rfl⟩

/-- The kernel after boot, with one program and one free frame. -/
def oneFrame : SyscallState fourLevel where
  kernel := .init ⟨[], 1000⟩
  fs := ⟨[Fs.WarFS.newEntry "/prog".toList (elfFile 0x400000 1) .system
    false 0],
    Fs.maxFiles⟩
  machine := { smallMachine with frames := ⟨1, 2, 1, 1, 2⟩ }

/-- A file that is not there and a null path: nothing is consumed. -/
theorem failed_start_neutral_missing :
    (∃ error s', oneFrame.spawnProcess .fixed "/none".toList [] [] 0 0 .normal 0 =
        (.returned (.error error), s') ∧
      s'.machine.frames.freeSet = oneFrame.machine.frames.freeSet) ∧
    ∃ code s', oneFrame.sysExecve (fun _ => none) .fixed 0 0 0 = (.returned code, s') ∧
      code < 0 ∧ s'.kernel = oneFrame.kernel := by
  have hread : oneFrame.fs.readAs "/none".toList 0 (Loader.roleForUid oneFrame.kernel.users 0) =
      .error .fileNotFound := by decide
  have hspace : oneFrame.spawnProcess .fixed "/none".toList [] [] 0 0 .normal 0 =
      (.returned (.error .fileNotFound), oneFrame) := by
    rw [spawnProcess, hread]
    rfl
  have hrch : ¬ oneFrame.ReachesPageTable "/none".toList 0 := by
    rintro ⟨data, elf, hd, -⟩
    rw [hread] at hd
    cases hd
  have hargs : oneFrame.execveArguments (fun _ => none) 0 0 = .returned (.error efault) := by decide
  have hex : oneFrame.sysExecve (fun _ => none) .fixed 0 0 0 =
      (.returned efault, oneFrame) := by
    rw [sysExecve, hargs]
  have hexecReaches : ¬ oneFrame.ExecReachesPageTable (fun _ => none) 0 0 := by
    rintro ⟨pathStr, args, pid, old, harguments, -⟩
    rw [hargs] at harguments
    cases harguments
  refine ⟨⟨_, _, hspace, ?_⟩, _, _, hex, by decide, ?_⟩
  · exact (((failed_start_neutral_iff oneFrame).1 _ _ _ _ _ _ _ _ _ _ hspace).2 hrch).1
  · exact (((failed_start_neutral_iff oneFrame).2 _ _ _ _ _ _ _ hex (by decide)).2 hexecReaches).2.2

/-- The only free frame becomes the page table of an image whose first page
finds no frame. The start fails, and the frame is not given back. -/
theorem failed_start_leaks :
    ∃ s', oneFrame.spawnProcess .fixed "/prog".toList [] [] 0 0 .normal 0 =
        (.returned (.error .memoryAllocationFailed), s') ∧
      1 ∈ oneFrame.machine.frames.freeSet ∧ 1 ∉ s'.machine.frames.freeSet := by
  have hres : (oneFrame.spawnProcess .fixed "/prog".toList [] [] 0 0 .normal 0).1 =
        .returned (.error .memoryAllocationFailed) ∧
      (oneFrame.spawnProcess .fixed "/prog".toList [] [] 0 0
        .normal 0).2.machine.frames.isAllocated 1 := by
    decide +kernel
  generalize oneFrame.spawnProcess .fixed "/prog".toList [] [] 0 0 .normal 0 = r at hres ⊢
  obtain ⟨o, s'⟩ := r
  obtain ⟨rfl, hused⟩ : o = .returned (.error .memoryAllocationFailed) ∧
      s'.machine.frames.isAllocated 1 := hres
  refine ⟨s', rfl, ⟨by decide, by decide, by decide⟩, fun hfree => ?_⟩
  cases hused.symm.trans hfree.2.2

end SyscallState

end Waros.Kernel.Exec
