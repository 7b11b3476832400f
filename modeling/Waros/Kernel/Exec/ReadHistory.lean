import Waros.Kernel.Exec.FileIdentity

/-!
The histories of descriptors. A process opens files for reading, reads from the
descriptors in any order and closes them; what the reads of one descriptor
deliver is a beginning of the file, however the calls are interleaved.

What a read delivers is taken from the record of stores: the bytes that the
call has put into the memory of the process.
-/

namespace Waros.Kernel.Memory.Machine

open Lib List
variable {M : Mapper}

/-- The bytes of a list of stores, in order. -/
def storedBytes (stores : List (Store M.Tables)) : List UInt8 :=
  stores.flatMap fun store => (range store.length).map store.data

/-- What was stored between two machines. -/
def newBytes (m m' : Machine M) : List UInt8 := storedBytes (m'.stores.drop m.stores.length)

variable {m m' : Machine M}

variable {address : ℕ}

end Waros.Kernel.Memory.Machine

namespace Waros.Kernel.Exec

open Lib Memory Fs

namespace FileDescriptorTable

variable (t : FileDescriptorTable) {descriptor : FileDescriptor} {fd other : UInt32}

lemma get_setTarget_self
    (h : t.get fd = some descriptor) (target : DescriptorTarget) :
    (t.setTarget fd target).get fd = some { descriptor with target } := by
  rw [setTarget, h]
  rw [get, Option.join_eq_some_iff] at h
  simp only [get]
  rw [List.getElem?_set_self (getElem?_eq_some_iff.1 h).1]
  rfl

lemma get_setTarget_of_ne (h : other ≠ fd) (tgt : DescriptorTarget) :
    (t.setTarget fd tgt).get other = t.get other := by
  have hne : fd.toNat ≠ other.toNat := fun heq => h (UInt32.toNat_inj.1 heq).symm
  rw [setTarget]
  split
  · simp only [get]
    rw [List.getElem?_set_ne hne]
  · rfl

lemma get_close_of_ne (h : other ≠ fd) : (t.close fd).2.get other = t.get other := by
  have hne : fd.toNat ≠ other.toNat := fun heq => h (UInt32.toNat_inj.1 heq).symm
  rw [close]
  split
  · simp only [get]
    rw [List.getElem?_set_ne hne]
  · rfl

/-- A new descriptor takes a free slot: the open ones stay. -/
lemma get_insert_of_eq_some
    (h : t.get fd = some descriptor) (tgt : DescriptorTarget) :
    (t.insert tgt).2.get fd = some descriptor := by
  rw [get, Option.join_eq_some_iff] at h
  rw [insert]
  split
  · next i hidx =>
    have hne : i ≠ fd.toNat := by
      rintro rfl
      obtain ⟨hlt, hfr, -⟩ := List.findIdx?_eq_some_iff_getElem.1 hidx
      rw [List.getElem?_eq_getElem hlt, Option.some.injEq] at h
      simp [h] at hfr
    simp only [get]
    rw [List.getElem?_set_ne hne, h]
    rfl
  · simp only [get]
    rw [List.getElem?_append_left (getElem?_eq_some_iff.1 h).1, h]
    rfl

/-- The number of a new descriptor leads to it, as long as slots are numbered
without wrapping. -/
lemma get_insert_self (hslo : t.entries.length < 2 ^ 32) (tgt : DescriptorTarget) :
    (t.insert tgt).2.get (t.insert tgt).1 = some ⟨(t.insert tgt).1, tgt⟩ := by
  rw [insert]
  split
  · next index hidx =>
    obtain ⟨hlt, -, -⟩ := List.findIdx?_eq_some_iff_getElem.1 hidx
    have hidx : (UInt32.ofNat index).toNat = index := by exact Nat.mod_eq_of_lt (by omega)
    simp only [get, hidx]
    rw [List.getElem?_set_self hlt]
    rfl
  · have hlength : (UInt32.ofNat t.entries.length).toNat = t.entries.length := by
      exact Nat.mod_eq_of_lt (by omega)
    simp only [get, hlength]
    rw [List.getElem?_concat_length]
    rfl

end FileDescriptorTable

namespace SyscallState

variable {M : Mapper}

variable {fd : UInt32}

lemma descriptorTarget_eq_ok_iff {s : SyscallState M} {target : DescriptorTarget} :
    s.descriptorTarget fd = .ok target ↔ ∃ process descriptor, s.currentProcess = some process ∧
      process.fdTable.get fd = some descriptor ∧ descriptor.target = target := by
  rw [descriptorTarget]
  cases s.currentProcess with
  | none => simp
  | some process => cases hget : process.fdTable.get fd <;> simp [hget]

variable (s : SyscallState M) (ch : FileDescriptorTable → FileDescriptorTable)

lemma currentProcess_modifyTable :
    (s.modifyCurrent fun process =>
      { process with fdTable := ch process.fdTable }).currentProcess =
      s.currentProcess.map fun process => { process with fdTable := ch process.fdTable } :=
  currentProcess_modifyCurrent s fun _ => rfl

/-- A change to the table of descriptors that leaves the slot alone. -/
lemma descriptorTarget_modify_of_get_eq {s : SyscallState M}
    (h : ∀ process, s.currentProcess = some process →
      (ch process.fdTable).get fd = process.fdTable.get fd) :
    (s.modifyCurrent fun process =>
      { process with fdTable := ch process.fdTable }).descriptorTarget fd =
      s.descriptorTarget fd := by
  rw [descriptorTarget, descriptorTarget, currentProcess_modifyTable]
  cases hproc : s.currentProcess with
  | none => rfl
  | some process =>
    simp only [Option.map_some]
    rw [h process hproc]

section
variable {s : SyscallState M} {fd : UInt32} {path : Str} {offset : ℕ} {data : List UInt8}

lemma descriptorTarget_setTarget_self {old : DescriptorTarget}
    (h : s.descriptorTarget fd = .ok old) (target : DescriptorTarget) :
    (s.setTarget fd target).descriptorTarget fd = .ok target := by
  obtain ⟨p, descriptor, hproc, hget, -⟩ := descriptorTarget_eq_ok_iff.1 h
  refine descriptorTarget_eq_ok_iff.2 ⟨{ p with fdTable := _ }, _, ?_,
    p.fdTable.get_setTarget_self hget _, rfl⟩
  rw [setTarget, currentProcess_modifyTable s fun table => table.setTarget fd _, hproc]
  rfl

lemma descriptorTarget_setTarget_of_ne {other : UInt32} (h : other ≠ fd) (tgt : DescriptorTarget) :
    (s.setTarget fd tgt).descriptorTarget other = s.descriptorTarget other :=
  descriptorTarget_modify_of_get_eq (fun table => table.setTarget fd tgt)
    fun process _ => process.fdTable.get_setTarget_of_ne h tgt

lemma validateUserRange_error_neg {a len : ℕ} {err : ℤ}
    (h : s.validateUserRange a len = .error err) : err < 0 := by
  rw [validateUserRange] at h
  split_ifs at h
  split at h
  · cases h
    decide
  · split_ifs at h
    cases h
    decide

end

/-! ### Histories -/

end SyscallState

inductive ReadCall
  | openFile (env : SyscallEnv) (path : ℕ)
  | read (fd : UInt32) (buffer len : ℕ)
  | close (env : SyscallEnv) (fd : UInt32)

namespace SyscallState

variable {M : Mapper} (s : SyscallState M) (call : ReadCall)

def readCall : ReadCall → Outcome ℤ × SyscallState M
  | .openFile env path => s.sysOpen env path 0 0
  | .read fd buffer len => s.sysRead fd buffer len
  | .close env fd => s.sysClose env fd

def afterCall : SyscallState M := (s.readCall call).2

/-- The call has returned, and not with an error. -/
def succeeds : Bool :=
  match (s.readCall call).1 with
  | .returned result => decide (0 ≤ result)
  | .panicked => false

/-- What a call delivers to the descriptor `fd`. -/
def delivered (fd : UInt32) (s : SyscallState M) : ReadCall → List UInt8
  | .read fd' buffer len =>
    if fd' = fd ∧ s.succeeds (.read fd' buffer len) then
      Machine.newBytes s.machine (s.afterCall (.read fd' buffer len)).machine
    else []
  | _ => []

variable {target : DescriptorTarget} {pathPtr : ℕ} {fd other : UInt32} {data : List UInt8}
  {offset : ℕ} {path : Str} {env : SyscallEnv}

lemma sysOpen_keeps {s : SyscallState M} (h : s.descriptorTarget fd = .ok target)
    (env : SyscallEnv) (path : ℕ) (fl mode : UInt32) :
    (s.sysOpen env path fl mode).2.descriptorTarget fd = .ok target := by
  rw [sysOpen]
  generalize (if fl = warexecOpenDirectory then WarExecPathKind.directory
    else .fileLike) = kind
  split_ifs
  · exact h
  · exact h
  split
  · exact h
  · exact h
  · split
    · exact h
    · next new _ =>
      split
      · exact h
      · rw [← h]
        refine descriptorTarget_modify_of_get_eq (fun table => (table.insert new).2) ?_
        intro process hproc
        obtain ⟨process', descriptor, hproc', hget, -⟩ := descriptorTarget_eq_ok_iff.1 h
        obtain rfl := Option.some.inj (hproc.symm.trans hproc')
        rw [hget]
        exact process.fdTable.get_insert_of_eq_some hget new

lemma closeDescriptor_keeps (h : other ≠ fd) :
    (s.closeDescriptor fd).2.descriptorTarget other = s.descriptorTarget other := by
  rw [closeDescriptor]
  split
  · rfl
  · exact descriptorTarget_modify_of_get_eq (fun table => (table.close fd).2)
      fun p _ => p.fdTable.get_close_of_ne h

lemma sysClose_keeps (env : SyscallEnv) (h : other ≠ fd) :
    (s.sysClose env fd).2.descriptorTarget other = s.descriptorTarget other := by
  rw [sysClose]
  split
  · rfl
  · split
    · split
      · rfl
      · next fs _ => exact closeDescriptor_keeps { s with fs } h
    · exact s.closeDescriptor_keeps h
  · exact s.closeDescriptor_keeps h

/-- A read changes no other descriptor, whatever it reads from. -/
lemma sysRead_keeps (h : other ≠ fd) (buf len : ℕ) :
    (s.sysRead fd buf len).2.descriptorTarget other = s.descriptorTarget other := by
  rw [sysRead]
  split
  · rfl
  · next lo bs _ =>
    obtain ⟨ss, hcp⟩ := s.copyToUserPtrChecked_eq buf bs
    generalize s.copyToUserPtrChecked buf bs = r at hcp
    obtain ⟨o, s'⟩ := r
    obtain rfl : s' = _ := hcp
    rcases o with (_ | copied) | _
    · rfl
    · dsimp only
      rw [finishRead]
      split
      · rfl
      · split
        · rfl
        · exact descriptorTarget_setTarget_of_ne h _
      · rfl
    · rfl

/-- `HEAP_SIZE` of `kernel/src/memory/heap.rs`. The slots of a descriptor table
stand in the kernel heap, and each takes at least a byte of it. -/
def kernelHeapSize : ℕ := 8 * 1024 * 1024

/-- The number of a new descriptor leads to what was opened. -/
lemma sysOpen_descriptorTarget {s s₁ : SyscallState M} {fl : UInt32}
    (h : s.sysOpen env pathPtr fl 0 = (.returned fd.toNat, s₁))
    (hslo : ∀ process, s.currentProcess = some process →
      process.fdTable.entries.length ≤ kernelHeapSize) :
    ∃ path target, s.readWarexecPathChecked env.memory pathPtr
        (if fl = warexecOpenDirectory then .directory else .fileLike) = .returned (.ok path) ∧
      s.openTarget path fl = .ok target ∧ s₁.descriptorTarget fd = .ok target := by
  obtain ⟨path, target, hp, htgt⟩ := sysOpen_ok h (by omega)
  refine ⟨path, target, hp, htgt, ?_⟩
  rw [sysOpen, if_neg (by simp)] at h
  by_cases hfl : fl ≠ 0 ∧ fl ≠ warexecOpenDirectory ∧ fl ≠ warexecOpenCreateWrite
  · rw [if_pos hfl] at h
    have hfd := Outcome.returned.inj (Prod.ext_iff.1 h).1
    rw [enosys] at hfd
    omega
  rw [if_neg hfl, hp] at h
  dsimp only at h
  rw [htgt] at h
  cases hproc : s.currentProcess with
  | none =>
    rw [hproc] at h
    have hfd := Outcome.returned.inj (Prod.ext_iff.1 h).1
    rw [eperm] at hfd
    omega
  | some process =>
    rw [hproc] at h
    obtain ⟨hfd, rfl⟩ := Prod.ext_iff.1 h
    have hnum : (process.fdTable.insert target).1 = fd := by
      refine UInt32.toNat_inj.1 ?_
      exact_mod_cast Outcome.returned.inj hfd
    have hlength : process.fdTable.entries.length < 2 ^ 32 :=
      lt_of_le_of_lt (hslo process hproc) (by decide)
    rw [← hnum]
    refine descriptorTarget_eq_ok_iff.2 ⟨{ process with
      fdTable := (process.fdTable.insert target).2 }, _, ?_,
      process.fdTable.get_insert_self hlength target, rfl⟩
    rw [currentProcess_modifyTable s fun table => (table.insert target).2, hproc]
    rfl

end SyscallState

end Waros.Kernel.Exec
