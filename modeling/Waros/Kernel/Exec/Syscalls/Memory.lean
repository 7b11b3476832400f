import Waros.Lib.Fallible
import Waros.Kernel.Exec.Process
import Waros.Kernel.Memory.Ranges
import Waros.Kernel.Memory.FourLevel

/-!
The memory system calls (`kernel/src/exec/syscalls/memory.rs`). They work on
the address-space record of the current process, if there is one, and on the
active page table, which is that process's own.
-/

namespace Waros.Kernel.Exec

open Lib Memory

def eperm : ℤ := -1
def enomem : ℤ := -12
def einval : ℤ := -22
def enosys : ℤ := -38

def protWrite : UInt32 := 0x2
def mapAnonymous : UInt32 := 0x20

structure UserMemory (M : Mapper) where
  space : Option AddressSpace
  machine : Machine M

/-- The length or address rounded up to whole pages; the product wraps. -/
def alignUp (value : ℕ) : ℕ := U64.wrappingMul ((value + 4095) / 4096) 4096

/-- `PRESENT`, `USER_ACCESSIBLE`, `NO_EXECUTE`, and `WRITABLE` when asked for. -/
def dataFlags (writable : Bool) : PageFlags := ⟨writable, true, true⟩

namespace UserMemory

variable {M : Mapper} (s : UserMemory M) (space : AddressSpace)

/-- What `sys_mmap` returns after its loop; the frame of a page that could not
be mapped is freed. -/
def mmapResult (base : ℕ) :
    Option Machine.MapStop × ℕ × Machine M → Outcome ℤ × UserMemory M
  | (none, _, m) => (.returned base, { s with machine := m })
  | (some .panicked, _, m) => (.panicked, { s with machine := m })
  | (some .noFrame, _, m) => (.returned enomem, { s with machine := m })
  | (some (.mapError _ frame), _, m) => (.returned eperm, { s with machine := m.freeFrame frame })

/-- The part of `sys_mmap` after the reservation of the range. -/
def mmapPages (base alignedLen : ℕ) (prot : UInt32) : Outcome ℤ × UserMemory M :=
  if !s.machine.ready then (.returned eperm, s)
  else
    mmapResult s base
      (s.machine.mapRange (dataFlags (decide (prot &&& protWrite ≠ 0)))
        (stepCount base (U64.wrappingAdd base alignedLen)) base)

def sysMmap (len : UInt64) (prot flags : UInt32) : Outcome ℤ × UserMemory M :=
  if flags &&& mapAnonymous = 0 then (.returned enosys, s)
  else if len = 0 then (.returned einval, s)
  else
    match s.space with
    | none => (.returned eperm, s)
    | some space =>
      match U64.checkedSub space.mmapTop (alignUp len.toNat) with
      | none => (.returned enomem, s)
      | some base =>
        if base < space.brk then (.returned enomem, s)
        else
          mmapPages { s with space := some { space with mmapTop := base, heapLimit := base } }
            base (alignUp len.toNat) prot

def sysMunmap (addr len : UInt64) : Outcome ℤ × UserMemory M :=
  if addr = 0 ∨ len = 0 then (.returned einval, s)
  else if !s.machine.ready then (.returned eperm, s)
  else
    let finish := U64.wrappingAdd addr.toNat (alignUp len.toNat)
    match s.machine.unmapRange (stepCount addr.toNat finish) addr.toNat with
    | (false, m) => (.returned 0, { s with machine := m })
    | (true, m) => (.panicked, { s with machine := m })

/-- `rollback_heap_growth`, followed by the return of the old break. -/
def rollbackHeapGrowth (oldBrk start finish : ℕ) : Outcome ℤ × UserMemory M :=
  match s.machine.unmapRange (stepCount start finish) start with
  | (false, m) => (.returned oldBrk, { s with machine := m })
  | (true, m) => (.panicked, { s with machine := m })

/-- What `sys_brk` does after its loop: the heap has grown, or all of the
growth is taken back. -/
def growResult (address start : ℕ) :
    Option Machine.MapStop × ℕ × Machine M → Outcome ℤ × UserMemory M
  | (none, _, m) => (.returned address, ⟨some { space with brk := address }, m⟩)
  | (some .panicked, _, m) => (.panicked, { s with machine := m })
  | (some .noFrame, mappedEnd, m) =>
    rollbackHeapGrowth { s with machine := m } space.brk start mappedEnd
  | (some (.mapError _ frame), mappedEnd, m) =>
    rollbackHeapGrowth { s with machine := m.freeFrame frame } space.brk start mappedEnd

def growHeap (address : ℕ) : Outcome ℤ × UserMemory M :=
  if !s.machine.ready then (.returned eperm, s)
  else
    growResult s space address (alignUp space.brk)
      (s.machine.mapRange (dataFlags true) (stepCount (alignUp space.brk) (alignUp address))
        (alignUp space.brk))

def sysBrk (address : UInt64) : Outcome ℤ × UserMemory M :=
  match s.space with
  | none => (.returned eperm, s)
  | some space =>
    let heapLimit := min space.heapLimit space.stackBottom
    if address = 0 then (.returned space.brk, s)
    else if address.toNat < space.brk ∨ address.toNat < space.initialBrk ∨
        address.toNat > heapLimit then (.returned space.brk, s)
    else if address.toNat = space.brk then (.returned space.brk, s)
    else growHeap s space address.toNat

end UserMemory

/-!
## Runs of memory calls

Which pages `sys_munmap` takes away. A run is a list of memory system calls of
one process; beside the state it keeps the ranges that earlier successful
`sys_mmap` calls returned.
-/

open Machine

inductive MemoryCall
  | mmap (len : UInt64) (prot flags : UInt32)
  | munmap (addr len : UInt64)
  | brk (address : UInt64)

namespace UserMemory

variable {M : Mapper}

def call (s : UserMemory M) : MemoryCall → Outcome ℤ × UserMemory M
  | .mmap len prot flags => s.sysMmap len prot flags
  | .munmap addr len => s.sysMunmap addr len
  | .brk address => s.sysBrk address

end UserMemory

/-- `obtained` are base and rounded length of each successful `sys_mmap`. -/
structure MappingRun (M : Mapper) where
  memory : UserMemory M
  obtained : List (ℕ × ℕ)

namespace MappingRun

variable {M : Mapper}

/-- The range a call obtained for the process. -/
def obtainedBy : MemoryCall → Outcome ℤ → List (ℕ × ℕ)
  | .mmap len _ _, .returned base => if 0 ≤ base then [(base.toNat, alignUp len.toNat)] else []
  | _, _ => []

variable (s : MappingRun M) (addr len : UInt64)

def step (c : MemoryCall) : MappingRun M :=
  let r := s.memory.call c
  ⟨r.2, s.obtained ++ obtainedBy c r.1⟩

/-- The process before its first memory call. -/
def start (memory : UserMemory M) : MappingRun M := ⟨memory, []⟩

def Obtained (page : ℕ) : Prop :=
  ∃ range ∈ s.obtained, range.1 / 4096 ≤ page ∧ page < range.1 / 4096 + range.2 / 4096

/-- The page meets `[addr, addr + len)`, without wrap-around. -/
def InRange (page : ℕ) : Prop := addr.toNat / 4096 ≤ page ∧ page * 4096 < addr.toNat + len.toNat

/-- `sys_munmap` changes the entries only of pages in the range that `sys_mmap`
gave to the process, and the state only of frames behind such pages. -/
def MunmapConfined : Prop :=
  let before := s.memory.machine
  let after := (s.memory.sysMunmap addr len).2.machine
  (∀ page, M.lookup after.tables page ≠ M.lookup before.tables page →
    InRange addr len page ∧ s.Obtained page) ∧
  ∀ frame, after.frames.isAllocated frame ≠ before.frames.isAllocated frame →
    ∃ page flags, M.lookup before.tables page = some (frame, flags) ∧
      InRange addr len page ∧ s.Obtained page

def munmapPages (m : Machine M) (addr len : UInt64) : List ℕ :=
  if addr = 0 ∨ len = 0 ∨ m.ready = false then []
  else
    reached (stepCount addr.toNat (U64.wrappingAdd addr.toNat (alignUp len.toNat))) addr.toNat

lemma sysMunmap_machine (s : UserMemory M) (addr len : UInt64) :
    (s.sysMunmap addr len).2.machine = run release s.machine (munmapPages s.machine addr len) := by
  rw [UserMemory.sysMunmap, munmapPages]
  by_cases h0 : addr = 0 ∨ len = 0
  · rw [if_pos h0, if_pos (by tauto)]
    rfl
  · rw [if_neg h0]
    cases hrdy : s.machine.ready with
    | false => simp
    | true =>
      rw [if_neg (show ¬ (addr = 0 ∨ len = 0 ∨ true = false) by simpa using h0),
        ← unmapRange_eq_run]
      simp only [Bool.not_true, Bool.false_eq_true, if_false]
      split <;> simp_all

lemma stepCount_wrappingAdd_le (addr : ℕ) (len : UInt64) :
    stepCount addr (U64.wrappingAdd addr (alignUp len.toNat)) ≤ (len.toNat + 4095) / 4096 := by
  simp only [stepCount, U64.wrappingAdd, alignUp, U64.wrappingMul]
  omega

lemma inRange_of_mem_munmapPages {m : Machine M} {addr len : UInt64} {page : ℕ}
    (h : page ∈ munmapPages m addr len) : InRange addr len page := by
  rw [munmapPages] at h
  split_ifs at h
  · simp at h
  · have hcnt := stepCount_wrappingAdd_le addr.toNat len
    have hpg := mem_reached h
    rw [containingPage] at hpg
    refine ⟨hpg.1, ?_⟩
    omega

/-- In every run, `sys_munmap` stays within the mappings of the process exactly
when every mapped page it goes through was obtained from `sys_mmap`. -/
theorem munmapConfined_iff (memory : UserMemory M) (calls : List MemoryCall)
    (addr len : UInt64) :
    MunmapConfined (run step (start memory) calls) addr len ↔
      let s := run step (start memory) calls
      ∀ page ∈ munmapPages s.memory.machine addr len,
        M.lookup s.memory.machine.tables page ≠ none → s.Obtained page := by
  simp only [MunmapConfined, sysMunmap_machine]
  constructor
  · rintro ⟨hpgs, -⟩ page hpg hmapped
    refine (hpgs page ?_).2
    rw [run_release_lookup, if_pos hpg]
    exact hmapped.symm
  · intro h
    refine ⟨fun page hchg => ?_, fun f hchg => ?_⟩
    · rw [run_release_lookup] at hchg
      split_ifs at hchg with hpg
      · exact ⟨inRange_of_mem_munmapPages hpg, h page hpg hchg.symm⟩
      · exact absurd rfl hchg
    · by_contra hn
      refine hchg (run_release_isAllocated fun page hpg flags hl => hn ?_)
      exact ⟨page, flags, hl, inRange_of_mem_munmapPages hpg, h page hpg (by simp [hl])⟩

/-- A machine on which one kernel page is mapped, at the start of the upper
half, to frame 5. -/
def kernelPageMachine : Machine fourLevel where
  tables := ⟨Radix.empty.modify (.cons (0xFFFF800000000, 5, ⟨true, false, false⟩)) 9 0, [], []⟩
  frames := ⟨0x3F, 64, 58, 6, 64⟩
  ready := true
  writeProtect := true
  stores := []
  history := .empty

/-- A process that never mapped anything unmaps a kernel page and frees its
frame. -/
theorem munmap_kernel_page :
    ¬ MunmapConfined (run step (start ⟨some (.new 0x2000), kernelPageMachine⟩) [])
      0xFFFF800000000000 4096 := by
  intro h
  have hobta := (h.1 0xFFFF800000000 (by decide)).2
  simp [Obtained, start] at hobta

end MappingRun

end Waros.Kernel.Exec
