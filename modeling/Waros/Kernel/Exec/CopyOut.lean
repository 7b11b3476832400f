import Waros.Kernel.Exec.Syscall
import Waros.Kernel.Memory.Ranges

/-!
Which user memory the system calls write to when they copy a result out.

`destinations` lists the ranges a call stores to, from the state before it. A
checked copy only stores inside the recorded regions of the process;
`sys_clock_gettime`, `sys_qmeasure`, `sys_qstate`, `sys_sha3_256` and
`sys_random_bytes` store to whatever address they are given. Neither looks at the
page tables.
-/

namespace Waros.Kernel.Exec

open Lib Memory Machine

namespace SyscallState

variable {M : Mapper}

/-- The user may write every page that a store to the range gets to. -/
def RangeOk (s : SyscallState M) (range : ℕ × ℕ) : Prop :=
  ∀ a ∈ s.machine.touched range.1 range.2, userWritable s.machine.tables a = true
  deriving Decidable

/-- From `s` to `s'` the kernel stored only to pages that the user may write. -/
def Confined (s s' : SyscallState M) : Prop := Machine.Confined s.machine s'.machine

lemma Confined.of_machine_eq {s s' : SyscallState M} (h : s'.machine = s.machine) : Confined s s' :=
  .of_stores_eq (by rw [h])

/-- A call that copies nothing out. -/
lemma confined_nothing_iff {s s' : SyscallState M} (h : s'.machine = s.machine) :
    Confined s s' ↔ ∀ range ∈ ([] : List (ℕ × ℕ)), s.RangeOk range :=
  iff_of_true (.of_machine_eq h) (by simp)

lemma confined_congr {s s₁ s' s₁' : SyscallState M} (h : s₁.machine = s.machine)
    (h' : s₁'.machine = s'.machine) : Confined s₁ s₁' ↔ Confined s s' := by
  rw [Confined, Confined, h, h']

variable (s : SyscallState M) (destination : ℕ) (bytes : List UInt8) (env : SyscallEnv) (a : Args)

@[simp] lemma modifyCurrent_machine (f : Process → Process) :
    (s.modifyCurrent f).machine = s.machine := by
  unfold modifyCurrent
  split <;> rfl

lemma confined_storeUser_iff :
    Confined s (s.storeUser destination bytes).2 ↔ s.RangeOk (destination, bytes.length) := by
  have hsto := confined_store_iff s.machine destination bytes.length
    fun i => bytes.getD i 0
  unfold storeUser
  generalize s.machine.store destination bytes.length (fun i => bytes.getD i 0) = r at hsto ⊢
  obtain ⟨fault, m⟩ := r
  cases fault <;> exact hsto

/-- The range of a checked copy, when the check lets it through. -/
def checkedRange (destination len : ℕ) : List (ℕ × ℕ) :=
  match s.validateUserRange destination len with
  | .ok () => [(destination, len)]
  | .error _ => []

/-- A checked copy is let through and does not fault. -/
def copies (destination len : ℕ) : Bool :=
  match s.validateUserRange destination len with
  | .ok () => !s.machine.faults destination len
  | .error _ => false

/-- The range of an unchecked copy; a null destination is refused. -/
def uncheckedRange (destination len : ℕ) : List (ℕ × ℕ) :=
  if destination = 0 then [] else [(destination, len)]

lemma rangeOk_empty : s.RangeOk (destination, 0) := by simp [RangeOk, touched]

lemma confined_copyToUserPtrChecked_iff :
    Confined s (s.copyToUserPtrChecked destination bytes).2 ↔
      ∀ range ∈ s.checkedRange destination bytes.length, s.RangeOk range := by
  unfold copyToUserPtrChecked checkedRange
  split_ifs with hnil
  · subst hnil
    simp only [List.length_nil, validateUserRange, if_true, List.mem_singleton, forall_eq]
    exact iff_of_true (.of_machine_eq rfl) (s.rangeOk_empty destination)
  · rcases s.validateUserRange destination bytes.length with _ | _
    · exact confined_nothing_iff rfl
    have hsto := s.confined_storeUser_iff destination bytes
    generalize s.storeUser destination bytes = r at hsto ⊢
    obtain ⟨o, s'⟩ := r
    cases o <;> simpa using hsto

lemma confined_writeStructToUserChecked_iff :
    Confined s (s.writeStructToUserChecked destination bytes).2 ↔
      ∀ range ∈ s.checkedRange destination bytes.length, s.RangeOk range := by
  unfold writeStructToUserChecked checkedRange
  rcases s.validateUserRange destination bytes.length with _ | _
  · exact confined_nothing_iff rfl
  have hsto := s.confined_storeUser_iff destination bytes
  generalize s.storeUser destination bytes = r at hsto ⊢
  obtain ⟨o, s'⟩ := r
  cases o <;> simpa using hsto

lemma confined_copyToUserPtr_iff :
    Confined s (s.copyToUserPtr destination bytes).2 ↔
      ∀ range ∈ uncheckedRange destination bytes.length, s.RangeOk range := by
  unfold copyToUserPtr uncheckedRange
  split_ifs
  · exact confined_nothing_iff rfl
  · have hsto := s.confined_storeUser_iff destination bytes
    generalize s.storeUser destination bytes = r at hsto ⊢
    obtain ⟨o, s'⟩ := r
    cases o <;> simpa using hsto

lemma confined_writeStructToUser_iff :
    Confined s (s.writeStructToUser destination bytes).2 ↔
      ∀ range ∈ uncheckedRange destination bytes.length, s.RangeOk range := by
  unfold writeStructToUser uncheckedRange
  split_ifs
  · exact confined_nothing_iff rfl
  · have hsto := s.confined_storeUser_iff destination bytes
    generalize s.storeUser destination bytes = r at hsto ⊢
    obtain ⟨o, s'⟩ := r
    cases o <;> simpa using hsto

/-! ### The calls -/

/-- The ranges a call copies to, from the state before it. -/
def destinations (s : SyscallState M) (env : SyscallEnv) (a : Args) : Syscall → List (ℕ × ℕ)
  | .read =>
    match s.readPlan a.arg1.toUInt32 a.arg3.toNat with
    | .ok (_, bytes) => s.checkedRange a.arg2.toNat bytes.length
    | .error _ => []
  | .stat =>
    match s.statPlan env a.arg1.toNat with
    | .returned (.ok bytes) => s.checkedRange a.arg2.toNat bytes.length
    | _ => []
  | .fstat =>
    match s.fstatPlan a.arg1.toUInt32 with
    | .ok bytes => s.checkedRange a.arg2.toNat bytes.length
    | .error _ => []
  | .readdir =>
    match s.readdirPlan a.arg1.toUInt32 with
    | .ok (entry, handle) =>
      let name := Str.toUtf8 entry.name
      if name.length > warexecDirentNameCapacity then []
      else
        (s.setTarget a.arg1.toUInt32 (.directory handle)).checkedRange a.arg2.toNat
          (dirEntryBytes name entry.isDir).length
    | .error _ => []
  | .getcwd =>
    let len := (s.cwdBytes a.arg2.toNat).length
    if a.arg2.toNat = 0 then []
    else
      s.checkedRange a.arg1.toNat len ++
        if s.copies a.arg1.toNat len then s.checkedRange (U64.wrappingAdd a.arg1.toNat len) 1
        else []
  | .wait4 =>
    match s.wait4Plan a.arg1.toUInt32.toInt32 a.arg3.toUInt32 with
    | .ok (_, exitCode) =>
      if a.arg2.toNat = 0 then []
      else s.checkedRange a.arg2.toNat (encodeWaitExitStatus exitCode).length
    | .error _ => []
  | .clockGettime =>
    if a.arg1.toUInt32 ∈ knownClocks then
      uncheckedRange a.arg2.toNat (timespecBytes env.millis).length
    else []
  | .qmeasure =>
    match env.measureRegister a.arg1.toUInt32 (max a.arg2.toUInt32.toNat 1) with
    | some text => uncheckedRange a.arg3.toNat text.length
    | none => []
  | .qstate =>
    match env.stateVectorText a.arg1.toUInt32 a.arg3.toNat with
    | some text =>
      uncheckedRange a.arg2.toNat (text.take (min text.length (a.arg3.toNat - 1))).length
    | none => []
  | .sha3 =>
    if a.arg1.toNat = 0 then []
    else
      match loadBytes env.memory a.arg1.toNat a.arg2.toNat with
      | some bytes => uncheckedRange a.arg3.toNat (env.sha3 bytes).length
      | none => []
  | .randomBytes =>
    if env.heapRoom a.arg2.toNat then uncheckedRange a.arg1.toNat a.arg2.toNat else []
  | _ => []

/-- A call stores only to pages that the user may write exactly when each of its
destinations is writable. -/
def ConfinedIff (call : Syscall) : Prop :=
  Confined s (s.perform env a call).2 ↔ ∀ range ∈ s.destinations env a call, s.RangeOk range

lemma confined_sysRead_iff : s.ConfinedIff env a .read := by
  unfold ConfinedIff perform sysRead destinations
  rcases s.readPlan a.arg1.toUInt32 a.arg3.toNat with _ | plan
  · exact confined_nothing_iff rfl
  obtain ⟨lo, bytes⟩ := plan
  have hcp := s.confined_copyToUserPtrChecked_iff a.arg2.toNat bytes
  dsimp only
  rw [← hcp]
  generalize s.copyToUserPtrChecked a.arg2.toNat bytes = r
  obtain ⟨o, s'⟩ := r
  match o with
  | .panicked => exact .rfl
  | .returned (.error error) => exact .rfl
  | .returned (.ok copied) =>
    refine confined_congr rfl ?_
    simp only [finishRead]
    split
    · rfl
    · split_ifs
      · rfl
      · exact modifyCurrent_machine _ _
    · rfl

lemma confined_replyStruct_iff (res : ℤ) :
    Confined s (s.replyStruct destination bytes res).2 ↔
      ∀ range ∈ s.checkedRange destination bytes.length, s.RangeOk range := by
  rw [← confined_writeStructToUserChecked_iff, replyStruct]
  generalize s.writeStructToUserChecked destination bytes = r
  obtain ⟨o, s'⟩ := r
  match o with
  | .panicked => exact .rfl
  | .returned (.error error) => exact .rfl
  | .returned (.ok ()) => exact .rfl

lemma confined_sysStat_iff : s.ConfinedIff env a .stat := by
  unfold ConfinedIff perform sysStat destinations
  match s.statPlan env a.arg1.toNat with
  | .panicked => exact confined_nothing_iff rfl
  | .returned (.error error) => exact confined_nothing_iff rfl
  | .returned (.ok bytes) => exact s.confined_replyStruct_iff a.arg2.toNat bytes 0

lemma confined_sysFstat_iff : s.ConfinedIff env a .fstat := by
  unfold ConfinedIff perform sysFstat destinations
  cases s.fstatPlan a.arg1.toUInt32 with
  | error => exact confined_nothing_iff rfl
  | ok bytes => exact s.confined_replyStruct_iff a.arg2.toNat bytes 0

lemma confined_sysReaddir_iff : s.ConfinedIff env a .readdir := by
  unfold ConfinedIff perform sysReaddir destinations
  rcases s.readdirPlan a.arg1.toUInt32 with _ | plan
  · exact confined_nothing_iff rfl
  obtain ⟨e, handle⟩ := plan
  have hmach : (s.setTarget a.arg1.toUInt32 (.directory handle)).machine = s.machine :=
    modifyCurrent_machine _ _
  dsimp only
  split_ifs
  · exact confined_nothing_iff hmach
  · have hrep := (s.setTarget a.arg1.toUInt32 (.directory handle)).confined_replyStruct_iff
      a.arg2.toNat (dirEntryBytes (Str.toUtf8 e.name) e.isDir) 1
    rw [confined_congr hmach rfl] at hrep
    rw [hrep]
    simp only [RangeOk, hmach]

lemma copyToUserPtrChecked_extends :
    Machine.Extends s.machine (s.copyToUserPtrChecked destination bytes).2.machine := by
  have hsto := store_extends s.machine destination bytes.length fun i => bytes.getD i 0
  unfold copyToUserPtrChecked storeUser
  split_ifs
  · exact .of_stores_eq rfl
  · split
    · exact .of_stores_eq rfl
    · generalize s.machine.store destination bytes.length (fun i => bytes.getD i 0) = r at hsto ⊢
      obtain ⟨fault, machine⟩ := r
      cases fault <;> exact hsto

/-- A copy changes nothing but the record of stores. -/
lemma copyToUserPtrChecked_eq :
    ∃ stores, (s.copyToUserPtrChecked destination bytes).2 =
      { s with machine := { s.machine with stores } } := by
  obtain ⟨stores, hsto⟩ := store_eq s.machine destination bytes.length
    fun i => bytes.getD i 0
  unfold copyToUserPtrChecked storeUser
  split_ifs
  · exact ⟨s.machine.stores, rfl⟩
  · split
    · exact ⟨s.machine.stores, rfl⟩
    · generalize s.machine.store destination bytes.length (fun i => bytes.getD i 0) = r at hsto ⊢
      obtain ⟨fault, machine⟩ := r
      cases fault <;> exact ⟨stores, by rw [← hsto]⟩

lemma copyToUserPtrChecked_ok_iff (copied : ℕ) :
    (s.copyToUserPtrChecked destination bytes).1 = .returned (.ok copied) ↔
      s.copies destination bytes.length ∧ copied = bytes.length := by
  have hfau := store_fst_eq_faults s.machine s.machine.stores destination bytes.length
    fun i => bytes.getD i 0
  unfold copyToUserPtrChecked storeUser copies
  split_ifs with hnil
  · subst hnil
    simp [validateUserRange, faults, store, eq_comm]
  · rcases s.validateUserRange destination bytes.length with _ | _
    · simp
    generalize s.machine.store destination bytes.length _ = r at hfau ⊢
    obtain ⟨fault, m⟩ := r
    obtain rfl : fault = s.machine.faults destination bytes.length := hfau
    cases s.machine.faults destination bytes.length <;> simp [eq_comm]

lemma confined_sysGetcwd_iff : s.ConfinedIff env a .getcwd := by
  unfold ConfinedIff perform sysGetcwd destinations
  by_cases h0 : a.arg2.toNat = 0
  · rw [if_pos h0, if_pos h0]
    exact confined_nothing_iff rfl
  · rw [if_neg h0, if_neg h0]
    have hfst := s.confined_copyToUserPtrChecked_iff a.arg1.toNat (s.cwdBytes a.arg2.toNat)
    have hext := s.copyToUserPtrChecked_extends a.arg1.toNat (s.cwdBytes a.arg2.toNat)
    obtain ⟨stores, heq⟩ := s.copyToUserPtrChecked_eq a.arg1.toNat (s.cwdBytes a.arg2.toNat)
    have hcop := s.copyToUserPtrChecked_ok_iff a.arg1.toNat (s.cwdBytes a.arg2.toNat)
    simp only [List.mem_append, or_imp, forall_and]
    rw [← hfst]
    generalize s.copyToUserPtrChecked a.arg1.toNat (s.cwdBytes a.arg2.toNat) = r
      at hext heq hcop ⊢
    obtain ⟨outcome, s'⟩ := r
    match outcome with
    | .panicked | .returned (.error error) =>
      have hnot : s.copies a.arg1.toNat (s.cwdBytes a.arg2.toNat).length = false := by
        simpa using hcop (s.cwdBytes a.arg2.toNat).length
      simp [hnot]
    | .returned (.ok copied) =>
      obtain ⟨hcopi, rfl⟩ := (hcop copied).1 rfl
      rw [if_pos hcopi]
      generalize (s.cwdBytes a.arg2.toNat).length = copied
      obtain rfl : s' = { s with machine := { s.machine with stores } } := heq
      -- the second copy sees the same tables and regions as the first one
      have hsec : Confined { s with machine := { s.machine with stores } }
          (copyToUserPtrChecked { s with machine := { s.machine with stores } }
            (U64.wrappingAdd a.arg1.toNat copied) [0]).2 ↔
          ∀ range ∈ s.checkedRange (U64.wrappingAdd a.arg1.toNat copied) 1, s.RangeOk range := by
        rw [confined_copyToUserPtrChecked_iff]
        simp only [RangeOk, touched_stores]
        exact .rfl
      have hext' := copyToUserPtrChecked_extends
        { s with machine := { s.machine with stores } } (U64.wrappingAdd a.arg1.toNat copied) [0]
      dsimp only
      rw [← hsec, Confined, Confined, Confined, ← confined_trans_iff hext hext']
      generalize copyToUserPtrChecked { s with machine := { s.machine with stores } }
        (U64.wrappingAdd a.arg1.toNat copied) [0] = r'
      obtain ⟨outcome', s''⟩ := r'
      match outcome' with
      | .panicked => exact .rfl
      | .returned (.error error) => exact .rfl
      | .returned (.ok _) => exact .rfl

lemma confined_sysWait4_iff : s.ConfinedIff env a .wait4 := by
  unfold ConfinedIff perform sysWait4 destinations
  rcases s.wait4Plan a.arg1.toUInt32.toInt32 a.arg3.toUInt32 with _ | child
  · exact confined_nothing_iff rfl
  obtain ⟨pid, exitCode⟩ := child
  dsimp only
  split_ifs
  · exact confined_nothing_iff rfl
  · rw [← confined_writeStructToUserChecked_iff]
    generalize s.writeStructToUserChecked a.arg2.toNat (encodeWaitExitStatus exitCode) = r
    obtain ⟨o, s'⟩ := r
    match o with
    | .panicked => exact .rfl
    | .returned (.error error) => exact .rfl
    | .returned (.ok ()) => exact .rfl

lemma confined_sysClockGettime_iff : s.ConfinedIff env a .clockGettime := by
  unfold ConfinedIff perform sysClockGettime destinations
  simp only [ite_not]
  split_ifs
  · rw [← confined_writeStructToUser_iff]
    generalize s.writeStructToUser a.arg2.toNat (timespecBytes env.millis) = r
    obtain ⟨o, s'⟩ := r
    cases o <;> exact .rfl
  · exact confined_nothing_iff rfl

lemma confined_sysQmeasure_iff : s.ConfinedIff env a .qmeasure := by
  unfold ConfinedIff perform sysQmeasure destinations
  dsimp only
  split_ifs with hnull
  · cases env.measureRegister a.arg1.toUInt32 (max a.arg2.toUInt32.toNat 1) <;>
      simpa [uncheckedRange, hnull] using .of_machine_eq rfl
  · cases env.measureRegister a.arg1.toUInt32 (max a.arg2.toUInt32.toNat 1) with
    | none => exact confined_nothing_iff rfl
    | some text => exact s.confined_copyToUserPtr_iff a.arg3.toNat text

lemma confined_sysQstate_iff : s.ConfinedIff env a .qstate := by
  unfold ConfinedIff perform sysQstate destinations
  dsimp only
  split_ifs with hnull
  · cases env.stateVectorText a.arg1.toUInt32 a.arg3.toNat <;>
      simpa [uncheckedRange, hnull] using .of_machine_eq rfl
  · cases env.stateVectorText a.arg1.toUInt32 a.arg3.toNat with
    | none => exact confined_nothing_iff rfl
    | some => exact s.confined_copyToUserPtr_iff a.arg2.toNat _

lemma confined_sysSha3_iff : s.ConfinedIff env a .sha3 := by
  unfold ConfinedIff perform sysSha3 destinations
  by_cases hbuf : a.arg1.toNat = 0
  · simpa [hbuf] using .of_machine_eq rfl
  · cases loadBytes env.memory a.arg1.toNat a.arg2.toNat with
    | none =>
      simp only [hbuf]
      refine confined_nothing_iff ?_
      split_ifs <;> rfl
    | some bytes =>
      by_cases hout : a.arg3.toNat = 0
      · simpa [hout, uncheckedRange] using .of_machine_eq rfl
      · simp only [hbuf, hout]
        exact s.confined_copyToUserPtr_iff a.arg3.toNat (env.sha3 bytes)

lemma xorshiftBytes_length (len : ℕ) (st : UInt64) : (xorshiftBytes len st).length = len := by
  induction len generalizing st with
  | zero => rfl
  | succ _ ih => simp [xorshiftBytes, ih]

lemma confined_sysRandomBytes_iff : s.ConfinedIff env a .randomBytes := by
  unfold ConfinedIff perform sysRandomBytes destinations
  by_cases hrm : env.heapRoom a.arg2.toNat = true
  · by_cases hnull : a.arg1.toNat = 0
    · simpa [hnull, uncheckedRange] using .of_machine_eq rfl
    · have hcp := s.confined_copyToUserPtr_iff a.arg1.toNat
        (xorshiftBytes a.arg2.toNat (randomSeed env.now))
      rw [xorshiftBytes_length] at hcp
      simpa [hrm, hnull] using hcp
  · simp only [hrm]
    refine confined_nothing_iff ?_
    split_ifs
    · rfl
    · rfl
    · simp at *

end SyscallState

end Waros.Kernel.Exec
