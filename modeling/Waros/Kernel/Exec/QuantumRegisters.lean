import Waros.Lib.Transition
import Waros.Kernel.Exec.Process

/-!
The quantum registers of processes (`kernel/src/exec/syscalls/quantum.rs` and
`PROCESS_REGISTERS` of `kernel/src/quantum/mod.rs`) in runs of several processes.
The calls take any handle and do not ask whose register it is, and neither an
exit nor the removal from the process table frees a register. What the gates do to
amplitudes and how results are printed is a parameter.
-/

namespace Waros.Kernel.Exec

open Lib Function

structure RegisterOps (Q : Type) where
  new : ℕ → Q
  numQubits : Q → ℕ
  applyGate : Q → UInt32 → ℕ → ℕ → UInt64 → Q
  measureText : Q → ℕ → ℕ → List UInt8
  stateText : Q → ℕ → List UInt8

/-- The checks of `apply_gate_to_register` and of the functions it calls. -/
def RegisterOps.acceptsGate {Q : Type} (ops : RegisterOps Q) (q : Q) (gate : UInt32)
    (target control : ℕ) : Bool :=
  target < ops.numQubits q &&
    (gate ∈ [0, 1, 2, 3, 4, 5, 20, 21, 22] ||
      gate ∈ [10, 11] && control < ops.numQubits q && control ≠ target)

inductive QuantumCall
  | qalloc (numQubits : UInt32)
  | qfree (handle : UInt32)
  | qgate (handle gate : UInt32) (target control param : UInt64)
  | qmeasure (handle shots : UInt32) (resultBuf seed : ℕ)
  | qstate (handle : UInt32) (resultBuf len : ℕ)

/-- A value, or what `copy_to_user_ptr` returns for some bytes. -/
inductive QuantumReply
  | value (v : ℤ)
  | copied (bytes : List UInt8)

inductive QuantumEvent
  | call (pid : Pid) (call : QuantumCall)
  | exit (pid : Pid) (exitCode : Int32)
  | reap (pid : Pid)

/-- The registers and the processes, with the history of the calls. -/
structure QuantumRun (Q : Type) where
  registers : UInt32 → Option Q
  nextHandle : UInt32
  table : ProcessTable
  /-- The process that allocated the handle and has not freed it. -/
  owner : UInt32 → Option Pid
  /-- The registers that processes changed, freed or read and that were not theirs. -/
  intrusions : List (Pid × UInt32)

namespace QuantumRun

variable {Q : Type}

def start (table : ProcessTable) : QuantumRun Q := ⟨fun _ => none, 1, table, fun _ => none, []⟩

section
variable (ops : RegisterOps Q) (s : QuantumRun Q) (pid : Pid)

/-- The reply, the handle of the existing register that the call changed, freed or
read, and the state after. -/
abbrev Effect (Q : Type) := QuantumReply × Option UInt32 × QuantumRun Q

/-- The handles are counted modulo `2 ^ 32`, and an insertion replaces. -/
def sysQalloc (numQubits : UInt32) : Effect Q :=
  if numQubits = 0 ∨ 18 < numQubits then (.value (-22), none, s)
  else
    (.value s.nextHandle.toNat,
      if (s.registers s.nextHandle).isSome then some s.nextHandle else none,
      { s with
        registers := update s.registers s.nextHandle (some (ops.new numQubits.toNat))
        nextHandle := s.nextHandle + 1
        table := s.table.modify pid fun process =>
          { process with quantumRegisters := process.quantumRegisters ++ [s.nextHandle] }
        owner := update s.owner s.nextHandle (some pid) })

def sysQfree (handle : UInt32) : Effect Q :=
  (.value 0, if (s.registers handle).isSome then some handle else none, { s with
      registers := update s.registers handle none
      table := s.table.modify pid fun process =>
        { process with quantumRegisters := process.quantumRegisters.filter (· ≠ handle) }
      owner := if s.owner handle = some pid then update s.owner handle none else s.owner })

def sysQgate (handle gate : UInt32) (target control param : UInt64) : Effect Q :=
  match s.registers handle with
  | none => (.value (-22), none, s)
  | some q =>
    if ops.acceptsGate q gate target.toNat control.toNat then
      let after := ops.applyGate q gate target.toNat control.toNat param
      (.value 0, some handle, { s with registers := update s.registers handle (some after) })
    else (.value (-22), none, s)

/-- A text about a register is copied to the user. -/
def readOut (handle : UInt32) (resultBuf : ℕ) (text : Q → List UInt8) : Effect Q :=
  if resultBuf = 0 then (.value (-22), none, s)
  else
    match s.registers handle with
    | none => (.value (-22), none, s)
    | some q => (.copied (text q), some handle, s)

def sysQmeasure (handle shots : UInt32) (resultBuf seed : ℕ) : Effect Q :=
  s.readOut handle resultBuf fun q => ops.measureText q (max shots.toNat 1) seed

def sysQstate (handle : UInt32) (resultBuf len : ℕ) : Effect Q :=
  s.readOut handle resultBuf fun q => (ops.stateText q len).take (len - 1)

def syscall : QuantumCall → Effect Q
  | .qalloc numQubits => s.sysQalloc ops pid numQubits
  | .qfree handle => s.sysQfree pid handle
  | .qgate handle gate target control param => s.sysQgate ops handle gate target control param
  | .qmeasure handle shots resultBuf seed => s.sysQmeasure ops handle shots resultBuf seed
  | .qstate handle resultBuf len => s.sysQstate ops handle resultBuf len

/-- A process of the table makes calls until it exits; it is removed after that. -/
def step : QuantumEvent → QuantumRun Q
  | .call pid call =>
    if (s.table.get pid).any (·.state ≠ .zombie) then
      { (s.syscall ops pid call).2.2 with
        intrusions := s.intrusions ++ ((s.syscall ops pid call).2.1.toList.filter
          fun handle => s.owner handle ≠ some pid).map (pid, ·) }
    else s
  | .exit pid exitCode =>
    { s with table := s.table.modify pid fun process =>
        { process with state := .zombie, exitCode := some exitCode } }
  | .reap pid =>
    if (s.table.get pid).any (·.state = .zombie) then { s with table := s.table.remove pid } else s

/-- No process got to a register of another one, and no register outlives the
process that allocated it. -/
structure Respected : Prop where
  intrusions : s.intrusions = []
  freed : ∀ pid handle, s.owner handle = some pid → s.table.get pid = none →
    s.registers handle = none

/-- A call that gets to a register names one of the caller; no handle is issued
again while another process has its register. -/
def UsesOwn : QuantumCall → Prop
  | .qalloc numQubits => numQubits ≠ 0 → numQubits ≤ 18 →
      (s.registers s.nextHandle).isSome → s.owner s.nextHandle = some pid
  | .qfree handle => (s.registers handle).isSome → s.owner handle = some pid
  | .qgate handle gate target control _ => ∀ q, s.registers handle = some q →
      ops.acceptsGate q gate target.toNat control.toNat = true → s.owner handle = some pid
  | .qmeasure handle _ resultBuf _ | .qstate handle resultBuf _ =>
      resultBuf ≠ 0 → (s.registers handle).isSome → s.owner handle = some pid

/-- The process names only its own registers, and has freed them when it is removed. -/
def KeepsToOwn : QuantumEvent → Prop
  | .call pid call => (s.table.get pid).any (·.state ≠ .zombie) = true → s.UsesOwn ops pid call
  | .exit _ _ => True
  | .reap pid => (s.table.get pid).any (·.state = .zombie) = true →
      ∀ handle, s.owner handle ≠ some pid

end

variable {ops : RegisterOps Q} {s : QuantumRun Q} {pid : Pid} {call : QuantumCall} {handle : UInt32}
  {event : QuantumEvent} {resultBuf : ℕ} {text : Q → List UInt8}

lemma readOut_state : (s.readOut handle resultBuf text).2.2 = s := by
  rw [readOut]
  split_ifs
  · rfl
  · cases s.registers handle <;> rfl

lemma readOut_access {read : UInt32} :
    (s.readOut handle resultBuf text).2.1 = some read ↔
      resultBuf ≠ 0 ∧ (s.registers handle).isSome ∧ handle = read := by
  rw [readOut]
  split_ifs with hbuf
  · simp [hbuf]
  · cases s.registers handle <;> simp [hbuf]

lemma usesOwn_iff : s.UsesOwn ops pid call ↔
    ∀ handle, (s.syscall ops pid call).2.1 = some handle → s.owner handle = some pid := by
  cases call with
  | qalloc =>
    simp only [UsesOwn, syscall, sysQalloc]
    split_ifs with hbad hused
    · refine iff_of_true (fun hpos hle => ?_) (fun _ h => by cases h)
      exact absurd hbad (not_or.2 ⟨hpos, UInt32.not_lt.2 hle⟩)
    · obtain ⟨hpos, hle⟩ := not_or.1 hbad
      simp [hpos, UInt32.not_lt.1 hle, hused]
    · exact iff_of_true (fun _ _ hlv => absurd hlv hused) (fun _ h => by cases h)
  | qfree =>
    simp only [UsesOwn, syscall, sysQfree]
    split_ifs with hlv <;> simp [hlv]
  | qgate used gate t ctl param =>
    simp only [UsesOwn, syscall, sysQgate]
    cases s.registers used with
    | none => simp
    | some q => cases h : ops.acceptsGate q gate t.toNat ctl.toNat <;> simp [h]
  | qmeasure => simp [UsesOwn, syscall, sysQmeasure, readOut_access]
  | qstate => simp [UsesOwn, syscall, sysQstate, readOut_access]

/-- What the runs keep: an allocated handle has a register and a process. -/
structure Owned (s : QuantumRun Q) : Prop where
  intrusions : s.intrusions = []
  held : ∀ handle p, s.owner handle = some p → (s.registers handle).isSome ∧ s.table.get p ≠ none

lemma get_modify_ne_none {t : ProcessTable} {f : Process → Process}
    (hf : ∀ p, (f p).pid = p.pid) {j : Pid} (h : t.get j ≠ none) :
    (t.modify pid f).get j ≠ none := by
  rw [t.get_modify pid hf]
  split_ifs
  · simpa using h
  · exact h

lemma Owned.syscall (h : s.Owned) (hget : s.table.get pid ≠ none)
    (hown : s.UsesOwn ops pid call) : (s.syscall ops pid call).2.2.Owned := by
  cases call with
  | qalloc numQubits =>
    rw [syscall, sysQalloc]
    by_cases hbad : numQubits = 0 ∨ 18 < numQubits
    · rw [if_pos hbad]
      exact h
    rw [if_neg hbad]
    refine ⟨h.intrusions, fun handle p howner => ?_⟩
    by_cases hs : handle = s.nextHandle
    · subst hs
      obtain rfl : pid = p := by simpa using howner
      exact ⟨by simp, get_modify_ne_none (by exact fun _ => rfl) hget⟩
    · obtain ⟨hlv, hpres⟩ := h.held handle p (by simpa [hs] using howner)
      exact ⟨by simpa [hs] using hlv, get_modify_ne_none (by exact fun _ => rfl) hpres⟩
  | qfree freed =>
    refine ⟨h.intrusions, fun handle p howner => ?_⟩
    have ho : handle ≠ freed ∧ s.owner handle = some p := by
      by_cases hmine : s.owner freed = some pid
      · simp only [syscall, sysQfree, if_pos hmine] at howner
        by_cases hs : handle = freed
        · simp [hs] at howner
        · exact ⟨hs, by simpa [hs] using howner⟩
      · simp only [syscall, sysQfree, if_neg hmine] at howner
        refine ⟨?_, howner⟩
        rintro rfl
        -- a live register is freed by its owner only, by the guard
        exact hmine (hown (h.held handle p howner).1)
    obtain ⟨hlv, hpres⟩ := h.held handle p ho.2
    refine ⟨?_, get_modify_ne_none (by exact fun _ => rfl) hpres⟩
    exact (congrArg Option.isSome (update_of_ne ho.1 _ _)).trans hlv
  | qgate used gate t ctl param =>
    rw [syscall, sysQgate]
    split
    · exact h
    · split_ifs
      · refine ⟨h.intrusions, fun handle p howner => ⟨?_, (h.held handle p howner).2⟩⟩
        by_cases hs : handle = used
        · simp [hs]
        · simpa [hs] using (h.held handle p howner).1
      · exact h
  | qmeasure => rwa [syscall, sysQmeasure, readOut_state]
  | qstate => rwa [syscall, sysQstate, readOut_state]

lemma get_remove (t : ProcessTable) (j : Pid) :
    (t.remove pid).get j = if j ≠ pid then t.get j else none := by
  have h := lookup_filter_key Process.pid (fun k => decide (k ≠ pid)) j t.processes
  simpa [ProcessTable.get, ProcessTable.remove] using h

lemma Owned.step (h : s.Owned) (hok : s.KeepsToOwn ops event) : (s.step ops event).Owned := by
  cases event with
  | call =>
    rw [step]
    split_ifs with hact
    · have hown := hok hact
      refine ⟨?_, (h.syscall (fun hn => by simp [hn] at hact) hown).held⟩
      rw [h.intrusions, List.nil_append, List.map_eq_nil_iff, List.filter_eq_nil_iff]
      intro handle hhandle
      simpa using usesOwn_iff.1 hown handle (Option.mem_toList.1 hhandle)
    · exact h
  | exit =>
    refine ⟨h.intrusions, fun handle p howner => ⟨(h.held handle p howner).1, ?_⟩⟩
    exact get_modify_ne_none (by exact fun _ => rfl) (h.held handle p howner).2
  | reap pid =>
    rw [step]
    split_ifs with hzombie
    · refine ⟨h.intrusions, fun handle p howner => ⟨(h.held handle p howner).1, ?_⟩⟩
      have hne : p ≠ pid := fun heq => hok hzombie handle (heq ▸ howner)
      rw [get_remove, if_pos hne]
      exact (h.held handle p howner).2
    · exact h

lemma Owned.keepsToOwn (h : s.Owned) (hnx : (s.step ops event).Respected) :
    s.KeepsToOwn ops event := by
  cases event with
  | call =>
    intro hact
    rw [usesOwn_iff]
    intro handle hac
    by_contra hnot
    have hn := hnx.intrusions
    rw [QuantumRun.step, if_pos hact] at hn
    simp [hac, hnot] at hn
  | exit => trivial
  | reap pid =>
    intro hzombie handle howner
    have hfre := hnx.freed pid handle
    rw [QuantumRun.step, if_pos hzombie] at hfre
    have hlv := (h.held handle pid howner).1
    rw [hfre howner (by rw [get_remove, if_neg (not_not.2 rfl)])] at hlv
    cases hlv

/-- The registers are kept apart, and freed with their process, exactly when every
process names only its own registers and frees them before it is removed. -/
theorem respected_iff (ops : RegisterOps Q) (table : ProcessTable) (events : List QuantumEvent) :
    (∀ n, (run (step ops) (start table) (events.take n)).Respected) ↔
      StepsOk (step ops) (KeepsToOwn ops) (start table) events := by
  have hst : (start table : QuantumRun Q).Owned := ⟨rfl, fun _ _ h => by cases h⟩
  refine forall_run_take_iff_of_keeps (p := fun _ => True) ?_ ?_ ?_ hst (by simp)
  · exact fun s h => ⟨h.intrusions, fun pid handle howner hn =>
      absurd hn (h.held handle pid howner).2⟩
  · exact fun s e h _ hok => h.step hok
  · exact fun s e h _ hnx => h.keepsToOwn hnx

def twoProcesses : ProcessTable :=
  ⟨[{ Process.kernelTask 1 [] 1000 .running [] .normal 0 .elf [] ⟨0⟩ with pid := 2 },
    { Process.kernelTask 1 [] 1001 .ready [] .normal 0 .elf [] ⟨0⟩ with pid := 3 }], 4, some 1⟩

def blankOps : RegisterOps Unit :=
  ⟨fun _ => (), fun _ => 1, fun _ _ _ _ _ => (), fun _ _ _ => [], fun _ _ => []⟩

/-- A process frees the register of another one; a process exits with a register. -/
theorem not_respected :
    ¬(run (step blankOps) (start twoProcesses)
        [.call 2 (.qalloc 1), .call 3 (.qfree 1)]).Respected ∧
      ¬(run (step blankOps) (start twoProcesses)
        [.call 2 (.qalloc 1), .exit 2 0, .reap 2]).Respected := by
  refine ⟨fun h => absurd h.intrusions (by decide), fun h => ?_⟩
  cases h.freed 2 1 (by decide) (by decide)

end QuantumRun

end Waros.Kernel.Exec
