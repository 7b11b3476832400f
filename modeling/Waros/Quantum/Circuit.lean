import Waros.Lib.Fallible
import Waros.Lib.U64
import Waros.Quantum.Gate
import Mathlib.Data.List.Nodup

/-!
Circuits and their builder methods (`crates/waros-quantum/src/circuit.rs` and
`circuit/extensions.rs`). A method changes the circuit in place and ends with
an error, with a panic, or with a result; what it changed before an error
stays. Counters are machine words and wrap around.
-/

namespace Waros.Quantum

open Lib Fallible

/-- The errors of the crate that the modelled functions return. -/
inductive WarosError
  | zeroQubits
  | qubitOutOfRange (qubit numQubits : ℕ)
  | sameQubit (q₀ q₁ : ℕ)
  | tooManyQubits (requested maximum : ℕ)
  | circuitQubitMismatch (own other : ℕ)
  | invalidQubitMapping (length expected : ℕ)
  | insufficientMemory (numQubits bytes : ℕ)
  | invalidShots (shots : ℕ)
  | numericalInstability (activity : Str)
  | simulationError (message : Str)
  | parseError (message : Str)

/-- How a call ends without a result. -/
inductive Stop
  | error (error : WarosError)
  | panicked

/-- A value, or a panic. -/
def orPanic {σ α : Type} : Option α → Fallible σ Stop α
  | some a => pure a
  | none => fail .panicked

def orError {σ α : Type} : Except WarosError α → Fallible σ Stop α
  | .ok a => pure a
  | .error e => fail (.error e)

inductive Instruction (F : Type)
  | gateOp (gate : Gate F) (targets : List ℕ)
  | conditionalGate (classicalBits : List ℕ) (value : ℕ) (gate : Gate F) (targets : List ℕ)
  | measure (qubit classicalBit : ℕ)
  | barrier (qubits : List ℕ)

structure Circuit (F : Type) where
  numQubits : ℕ
  numClassicalBits : ℕ
  instructions : List (Instruction F)

def maxQubits : ℕ := 128

/-- A method on a circuit. -/
abbrev Builder (F α : Type) : Type := Fallible (Circuit F) Stop α

namespace Circuit

variable {F : Type}

def new (numQubits : ℕ) : Except WarosError (Circuit F) :=
  if numQubits = 0 then .error .zeroQubits
  else if maxQubits < numQubits then .error (.tooManyQubits numQubits maxQubits)
  else .ok ⟨numQubits, 0, []⟩

def withClassicalBits (numQubits numClassicalBits : ℕ) : Except WarosError (Circuit F) := do
  let circuit ← new numQubits
  return { circuit with numClassicalBits := numClassicalBits }

variable (circuit : Circuit F) (gate : Gate F) (targets : List ℕ) (qubitMapping : Option (List ℕ))
  (other : Circuit F)

variable (qubit : ℕ) (q₀ q₁ : ℕ) (qubits : List ℕ)

def validateQubit : Except WarosError Unit :=
  if circuit.numQubits ≤ qubit then .error (.qubitOutOfRange qubit circuit.numQubits) else .ok ()

def validatePair : Except WarosError Unit := do
  circuit.validateQubit q₀
  circuit.validateQubit q₁
  if q₀ = q₁ then .error (.sameQubit q₀ q₁) else .ok ()

def validateTriple (q₀ q₁ q₂ : ℕ) : Except WarosError Unit := do
  circuit.validateQubit q₀
  circuit.validateQubit q₁
  circuit.validateQubit q₂
  if q₀ = q₁ ∨ q₀ = q₂ then .error (.sameQubit q₀ (max q₁ q₂))
  else if q₁ = q₂ then .error (.sameQubit q₁ q₂)
  else .ok ()

def validateDistinctQubits (circuit : Circuit F) : List ℕ → Except WarosError Unit
  | [] => .ok ()
  | qubit :: qubits => do
    circuit.validateQubit qubit
    if qubits.contains qubit then .error (.sameQubit qubit qubit)
    else circuit.validateDistinctQubits qubits

def validateQubitList : Except WarosError Unit := circuit.validateDistinctQubits qubits

def validateClassicalBits (circuit : Circuit F) : List ℕ → Except WarosError Unit
  | [] => .ok ()
  | bit :: bits =>
    if circuit.numClassicalBits ≤ bit then
      .error (.simulationError ("classical bit ".toList ++ .ofNat bit ++
        " out of range (circuit has ".toList ++ .ofNat circuit.numClassicalBits ++
        " classical bits)".toList))
    else circuit.validateClassicalBits bits

/-- The check that a gate has as many targets as it acts on. -/
def validateWidth : Except WarosError Unit :=
  if gate.numQubits ≠ targets.length then
    .error (.simulationError ("gate '".toList ++ gate.name ++ "' expects ".toList ++
      .ofNat gate.numQubits ++ " targets, got ".toList ++ Str.ofNat targets.length))
  else .ok ()

/-! ### Instructions -/

def check (f : Circuit F → Except WarosError Unit) : Builder F Unit := fun circuit =>
  orError (f circuit) circuit

def push (instruction : Instruction F) : Builder F Unit := modify fun circuit =>
  { circuit with instructions := circuit.instructions ++ [instruction] }

def ensureClassicalBits (required : ℕ) : Builder F Unit := modify fun circuit =>
  { circuit with numClassicalBits := max circuit.numClassicalBits required }

def add1 : Builder F Unit := do
  check (·.validateQubit qubit)
  push (.gateOp gate [qubit])

def add2 : Builder F Unit := do
  check (·.validatePair q₀ q₁)
  push (.gateOp gate [q₀, q₁])

def customGate : Builder F Unit := do
  check fun _ => validateWidth gate targets
  check fun _ =>
    if gate.numQubits = 1 ∨ gate.numQubits = 2 then .ok ()
    else .error (.simulationError ("gate '".toList ++ gate.name ++
      "' uses unsupported width ".toList ++ .ofNat gate.numQubits))
  check (·.validateDistinctQubits targets)
  push (.gateOp gate targets)

def conditionalGate (classicalBits : List ℕ) (value : ℕ) (gate : Gate F) (targets : List ℕ) :
    Builder F Unit := do
  check fun _ =>
    if classicalBits.isEmpty then
      .error (.simulationError "conditional gates require at least one classical bit".toList)
    else .ok ()
  check (·.validateClassicalBits classicalBits)
  check fun _ => validateWidth gate targets
  check (·.validateDistinctQubits targets)
  push (.conditionalGate classicalBits value gate targets)

section
variable [FloatOps F] (text : FloatText F) (qubit q₀ q₁ : ℕ)

def h : Builder F Unit := add1 .h qubit

def x : Builder F Unit := add1 .x qubit

def y : Builder F Unit := add1 .y qubit

def z : Builder F Unit := add1 .z qubit

def s : Builder F Unit := add1 .s qubit

def sdg : Builder F Unit := add1 .sdg qubit

def t : Builder F Unit := add1 .t qubit

def tdg : Builder F Unit := add1 .tdg qubit

def rx (qubit : ℕ) (theta : F) : Builder F Unit := add1 (.rx text theta) qubit

def ry (qubit : ℕ) (theta : F) : Builder F Unit := add1 (.ry text theta) qubit

def rz (qubit : ℕ) (theta : F) : Builder F Unit := add1 (.rz text theta) qubit

def sx : Builder F Unit := add1 .sx qubit

def u3 (qubit : ℕ) (theta phi lambda : F) : Builder F Unit := add1 (.u3 text theta phi lambda) qubit

def cnot (control target : ℕ) : Builder F Unit := add2 .cnot control target

def cx (control target : ℕ) : Builder F Unit := cnot control target

def cz : Builder F Unit := add2 .cz q₀ q₁

def cy : Builder F Unit := add2 .cy q₀ q₁

def swap : Builder F Unit := add2 .swap q₀ q₁

def rzz (q₀ q₁ : ℕ) (theta : F) : Builder F Unit := add2 (.rzz text theta) q₀ q₁

def toffoli (control₀ control₁ target : ℕ) : Builder F Unit := do
  check (·.validateTriple control₀ control₁ target)
  each [h target, cnot control₁ target, tdg target, cnot control₀ target, t target,
    cnot control₁ target, tdg target, cnot control₀ target, t control₁, t target, h target,
    cnot control₀ control₁, t control₀, tdg control₁, cnot control₀ control₁]

end

/-- Returns the new classical bit. -/
def measure : Builder F ℕ := do
  check (·.validateQubit qubit)
  let classicalBit ← read fun circuit => .ok circuit.numClassicalBits
  modify fun circuit =>
    { circuit with numClassicalBits := U64.wrappingAdd circuit.numClassicalBits 1 }
  push (.measure qubit classicalBit)
  return classicalBit

def measureInto (qubit classicalBit : ℕ) : Builder F Unit := do
  check (·.validateQubit qubit)
  ensureClassicalBits (U64.wrappingAdd classicalBit 1)
  push (.measure qubit classicalBit)

def measureAll : Builder F Unit := fun circuit =>
  each ((List.range circuit.numQubits).map fun qubit => do
    let _ ← measure qubit) circuit

def barrier : Builder F Unit := do
  check (·.validateDistinctQubits qubits)
  push (.barrier qubits)

def barrierAll : Builder F Unit := fun circuit => push (.barrier (.range circuit.numQubits)) circuit

section
variable [FloatOps F]

def crk (control target k : ℕ) : Builder F Unit := add2 (.crk k) control target

variable (qubits : List ℕ)

/-- The swaps that reverse the order of the qubits. -/
def swaps : List (Builder F Unit) :=
  (List.range (qubits.length / 2)).map fun index => do
    swap (← orPanic qubits[index]?) (← orPanic qubits[qubits.length - index - 1]?)

def qft : Builder F Unit := do
  check (·.validateQubitList qubits)
  each (qubits.zipIdx.map fun (target, index) => do
    h target
    each ((qubits.zipIdx.drop (index + 1)).map fun (control, offset) =>
      crk control target (offset - index + 1)))
  each (swaps qubits)

def iqft : Builder F Unit := do
  check (·.validateQubitList qubits)
  each (swaps qubits)
  each (qubits.zipIdx.reverse.map fun (target, index) => do
    each ((qubits.zipIdx.drop (index + 1)).reverse.map fun (control, other) =>
      add2 (Gate.crk (other - index + 1)).dagger control target)
    h target)

end

/-- The qubit that a qubit of another circuit is mapped to; `none` where the
index panics. -/
def mapQubit : Option ℕ :=
  match qubitMapping with
  | none => some qubit
  | some mapping => mapping[qubit]?

def mapQubits : Option (List ℕ) := qubits.mapM (mapQubit qubitMapping)

/-- The number of classical bits that a condition needs. -/
def requiredBits (classicalBits : List ℕ) : ℕ :=
  match classicalBits.max? with
  | none => 0
  | some bit => U64.wrappingAdd bit 1

def appendInstruction : Instruction F → Builder F Unit
  | .gateOp gate targets => do
    push (.gateOp gate (← orPanic (mapQubits qubitMapping targets)))
  | .conditionalGate classicalBits value gate targets => do
    let mappedTargets ← orPanic (mapQubits qubitMapping targets)
    ensureClassicalBits (requiredBits classicalBits)
    push (.conditionalGate classicalBits value gate mappedTargets)
  | .measure qubit _ => do
    let _ ← measure (← orPanic (mapQubit qubitMapping qubit))
  | .barrier qubits => do
    push (.barrier (← orPanic (mapQubits qubitMapping qubits)))

def append : Builder F Unit := do
  check fun circuit =>
    if circuit.numQubits ≠ other.numQubits then
      .error (.circuitQubitMismatch circuit.numQubits other.numQubits)
    else .ok ()
  each (other.instructions.map (appendInstruction none))

def compose (qubitMapping : List ℕ) : Builder F Unit := do
  check fun _ =>
    if qubitMapping.length ≠ other.numQubits then
      .error (.invalidQubitMapping qubitMapping.length other.numQubits)
    else .ok ()
  check (·.validateQubitList qubitMapping)
  each (other.instructions.map (appendInstruction (some qubitMapping)))

end Circuit

/-!
## Well-formed circuits

Well-formed circuits: every gate has one or two distinct targets, as many as it
acts on, every qubit is below the width of the circuit and every classical bit
below the number of classical bits. For each builder method, this module says
when it leaves a well-formed circuit well formed.
-/

open List

variable {F : Type}

structure GateFits (numQubits : ℕ) (gate : Gate F) (targets : List ℕ) : Prop where
  width : gate.numQubits = targets.length
  supported : gate.numQubits = 1 ∨ gate.numQubits = 2
  nodup : targets.Nodup
  lt : ∀ q ∈ targets, q < numQubits
  size : gate.matrix.length = 4 ^ gate.numQubits

def Instruction.WellFormed (numQubits numClassicalBits : ℕ) : Instruction F → Prop
  | .gateOp gate targets => GateFits numQubits gate targets
  | .conditionalGate classicalBits _ gate targets =>
    GateFits numQubits gate targets ∧ ∀ b ∈ classicalBits, b < numClassicalBits
  | .measure qubit classicalBit => qubit < numQubits ∧ classicalBit < numClassicalBits
  | .barrier qubits => qubits.Nodup ∧ ∀ q ∈ qubits, q < numQubits

namespace Circuit

structure WellFormed (circuit : Circuit F) : Prop where
  word : circuit.numClassicalBits < 2 ^ 64
  instructions : ∀ i ∈ circuit.instructions,
    i.WellFormed circuit.numQubits circuit.numClassicalBits

/-- The circuit with one more instruction. -/
def pushed (circuit : Circuit F) (instruction : Instruction F) : Circuit F :=
  { circuit with instructions := circuit.instructions ++ [instruction] }

lemma pushed_wellFormed {c : Circuit F} (h : c.WellFormed)
    {ins : Instruction F} : (c.pushed ins).WellFormed ↔
      ins.WellFormed c.numQubits c.numClassicalBits := by
  constructor
  · intro hpus
    exact hpus.instructions ins (mem_append_right _ (mem_singleton_self _))
  · intro hi
    refine ⟨h.word, fun i hmem => ?_⟩
    rcases mem_append.1 hmem with hmem | hmem
    · exact h.instructions i hmem
    · rw [mem_singleton.1 hmem]
      exact hi

end Circuit

lemma Instruction.WellFormed.mono {n m m' : ℕ} (hm : m ≤ m') {i : Instruction F}
    (h : i.WellFormed n m) : i.WellFormed n m' := by
  cases i with
  | gateOp | barrier => exact h
  | conditionalGate => exact ⟨h.1, fun b hb => (h.2 b hb).trans_le hm⟩
  | measure => exact ⟨h.1, h.2.trans_le hm⟩

namespace Circuit

variable {circuit : Circuit F} {α : Type} {f : Circuit F → Except WarosError Unit} {gate : Gate F}

lemma check_bind_of_ok (h : f circuit = .ok ()) (g : Unit → Builder F α) :
    (check f >>= g) circuit = g () circuit :=
  Fallible.bind_of_ok (show check f circuit = (.ok (), circuit) by rw [check, h]; rfl)

lemma check_bind_of_error {e : WarosError} (h : f circuit = .error e) (g : Unit → Builder F α) :
    (check f >>= g) circuit = (.error (.error e), circuit) :=
  Fallible.bind_of_error (show check f circuit = _ by rw [check, h]; rfl)

/-- What holds before a check holds after the call exactly when it does so where
the check passes. -/
lemma after_check {P : Circuit F → Prop} {p : Prop} (hp : f circuit = .ok () ↔ p)
    (hc : P circuit) (g : Unit → Builder F α) :
    P ((check f >>= g) circuit).2 ↔ (p → P (g () circuit).2) := by
  rw [← hp]
  cases hf : f circuit with
  | error => simp [check_bind_of_error hf, hc]
  | ok => simp [check_bind_of_ok hf]

lemma validateQubit_ok {q : ℕ} : circuit.validateQubit q = .ok () ↔ q < circuit.numQubits := by
  rw [validateQubit]
  split_ifs with h <;> simp <;> omega

lemma validatePair_ok {q₀ q₁ : ℕ} : circuit.validatePair q₀ q₁ = .ok () ↔
    q₀ < circuit.numQubits ∧ q₁ < circuit.numQubits ∧ q₀ ≠ q₁ := by
  rw [validatePair, ← validateQubit_ok, ← validateQubit_ok]
  cases h₀ : circuit.validateQubit q₀ with
  | error => simp [bind, Except.bind]
  | ok u =>
    cases h₁ : circuit.validateQubit q₁ with
    | error | ok => simp [bind, Except.bind]

lemma validateDistinctQubits_ok {qs : List ℕ} :
    circuit.validateDistinctQubits qs = .ok () ↔ qs.Nodup ∧ ∀ q ∈ qs, q < circuit.numQubits := by
  induction qs with
  | nil => simp [validateDistinctQubits]
  | cons qubit _ ih =>
    rw [validateDistinctQubits, forall_mem_cons, ← validateQubit_ok]
    cases h : circuit.validateQubit qubit with
    | error => simp [bind, Except.bind]
    | ok =>
      simp only [bind, Except.bind, contains_iff_mem]
      split_ifs with hmem
      · simp [hmem]
      · simp [hmem, ih]

lemma validateClassicalBits_ok {bits : List ℕ} :
    circuit.validateClassicalBits bits = .ok () ↔ ∀ b ∈ bits, b < circuit.numClassicalBits := by
  induction bits with
  | nil => simp [validateClassicalBits]
  | cons _ _ ih =>
    rw [validateClassicalBits]
    split_ifs with h
    · simp [h]
    · rw [ih]
      simp [not_le.1 h]

lemma validateWidth_ok {ts : List ℕ} :
    validateWidth gate ts = .ok () ↔ gate.numQubits = ts.length := by
  rw [validateWidth, ite_not]
  split_ifs with h <;> simp [h]

/-! ### Methods that add gates -/

/-- The method leaves a well-formed circuit well formed. -/
def Preserves (method : Builder F α) : Prop :=
  Fallible.Keeps (fun circuit circuit' => circuit.WellFormed → circuit'.WellFormed) method

lemma Preserves.bind {α β : Type} {x : Builder F α} {f : α → Builder F β} (hx : Preserves x)
    (hf : ∀ a, Preserves (f a)) : Preserves (x >>= f) :=
  Fallible.Keeps.bind (fun _ _ _ h h' hc => h' (h hc)) hx hf

lemma Preserves.each {xs : List (Builder F Unit)} (h : ∀ x ∈ xs, Preserves x) :
    Preserves (.each xs) :=
  Fallible.Keeps.each (fun _ hc => hc) (fun _ _ _ h h' hc => h' (h hc)) h

lemma preserves_check (f : Circuit F → Except WarosError Unit) : Preserves (check f) := by
  intro circuit hc
  rw [check]
  cases f circuit <;> exact hc

lemma preserves_orPanic (a : Option α) : Preserves (orPanic a : Builder F α) := by
  intro circuit hc
  cases a <;> exact hc

lemma preserves_add1 (h : gate.OnQubits 1) (q : ℕ) : Preserves (add1 gate q) := by
  intro circuit hc
  refine (after_check validateQubit_ok hc _).2 fun hq => (pushed_wellFormed hc).2 ?_
  exact ⟨h.width, .inl h.width, nodup_singleton q, by simpa using hq, h.width ▸ h.size⟩

lemma preserves_add2 (h : gate.OnQubits 2) (q₀ q₁ : ℕ) : Preserves (add2 gate q₀ q₁) := by
  intro circuit hc
  refine (after_check validatePair_ok hc _).2 fun hq => (pushed_wellFormed hc).2 ?_
  exact ⟨h.width, .inr h.width, by simpa using hq.2.2, by simpa using ⟨hq.1, hq.2.1⟩,
    h.width ▸ h.size⟩

lemma preserves_customGate (hsz : gate.matrix.length = 4 ^ gate.numQubits) (ts : List ℕ) :
    Preserves (customGate gate ts) := by
  intro circuit hc
  refine (after_check validateWidth_ok hc _).2 fun hwid => ?_
  refine (after_check (p := gate.numQubits = 1 ∨ gate.numQubits = 2) ?_ hc _).2 fun hsupp => ?_
  · split_ifs with h <;> simp [h]
  refine (after_check validateDistinctQubits_ok hc _).2 fun hq => (pushed_wellFormed hc).2 ?_
  exact ⟨hwid, hsupp, hq.1, hq.2, hsz⟩

lemma preserves_barrier (qs : List ℕ) : Preserves (barrier qs : Builder F Unit) :=
  fun _ hc => (after_check validateDistinctQubits_ok hc _).2 (pushed_wellFormed hc).2

lemma preserves_barrierAll : Preserves (barrierAll : Builder F Unit) :=
  fun _ hc => (pushed_wellFormed hc).2 ⟨nodup_range, fun _ => mem_range.1⟩

section
variable [FloatOps F]

lemma preserves_toffoli (control₀ control₁ tgt : ℕ) :
    Preserves (toffoli control₀ control₁ tgt : Builder F Unit) := by
  refine (preserves_check _).bind fun _ => .each ?_
  have hh : ∀ q, Preserves (h q : Builder F Unit) := preserves_add1 ⟨rfl, rfl⟩
  have ht : ∀ q, Preserves (t q : Builder F Unit) := preserves_add1 ⟨rfl, rfl⟩
  have htdg : ∀ q, Preserves (tdg q : Builder F Unit) := preserves_add1 ⟨rfl, rfl⟩
  have hcnot : ∀ q₀ q₁, Preserves (cnot q₀ q₁ : Builder F Unit) := preserves_add2 ⟨rfl, rfl⟩
  simp [hh, ht, htdg, hcnot]

variable (qubits : List ℕ)

lemma preserves_swaps : ∀ x ∈ (swaps qubits : List (Builder F Unit)), Preserves x := by
  intro x hx
  obtain ⟨i, -, rfl⟩ := mem_map.1 hx
  exact (preserves_orPanic _).bind fun _ => (preserves_orPanic _).bind fun _ =>
    preserves_add2 ⟨rfl, rfl⟩ _ _

lemma preserves_qft : Preserves (qft qubits : Builder F Unit) := by
  refine (preserves_check _).bind fun _ => .bind (.each fun x hx => ?_) fun _ =>
    .each (preserves_swaps qubits)
  obtain ⟨⟨t, i⟩, -, rfl⟩ := mem_map.1 hx
  refine (preserves_add1 ⟨rfl, rfl⟩ t).bind fun _ => .each fun y hy => ?_
  obtain ⟨⟨ctl, off⟩, -, rfl⟩ := mem_map.1 hy
  exact preserves_add2 ⟨rfl, rfl⟩ ctl t

lemma preserves_iqft : Preserves (iqft qubits : Builder F Unit) := by
  refine (preserves_check _).bind fun _ => .bind (.each (preserves_swaps qubits)) fun _ =>
    .each fun x hx => ?_
  obtain ⟨⟨t, i⟩, -, rfl⟩ := mem_map.1 hx
  refine .bind (.each fun y hy => ?_) fun _ => preserves_add1 ⟨rfl, rfl⟩ t
  obtain ⟨⟨ctl, other⟩, -, rfl⟩ := mem_map.1 hy
  exact preserves_add2 (.dagger ⟨rfl, rfl⟩) ctl t

end

/-- A conditional gate that is accepted must be one that the simulators support;
its width is not checked. -/
lemma conditionalGate_wellFormed (hsz : gate.matrix.length = 4 ^ gate.numQubits)
    (hc : circuit.WellFormed) (bits : List ℕ) (v : ℕ) (ts : List ℕ) :
    (conditionalGate bits v gate ts circuit).2.WellFormed ↔
      (bits ≠ [] → (∀ b ∈ bits, b < circuit.numClassicalBits) →
        gate.numQubits = ts.length → (ts.Nodup ∧ ∀ q ∈ ts, q < circuit.numQubits) →
        gate.numQubits = 1 ∨ gate.numQubits = 2) := by
  have hnil : ∀ c : Circuit F, (if bits.isEmpty then
      Except.error (WarosError.simulationError
        "conditional gates require at least one classical bit".toList)
      else .ok ()) = .ok () ↔ bits ≠ [] := by
    cases bits <;> simp
  rw [conditionalGate, after_check (hnil circuit) hc]
  refine imp_congr_right fun _ => (after_check validateClassicalBits_ok hc _).trans ?_
  refine imp_congr_right fun hbt => (after_check validateWidth_ok hc _).trans ?_
  refine imp_congr_right fun hwid => (after_check validateDistinctQubits_ok hc _).trans ?_
  refine imp_congr_right fun hq => (pushed_wellFormed hc).trans ?_
  exact ⟨fun h => h.1.supported, fun h => ⟨⟨hwid, h, hq.1, hq.2, hsz⟩, hbt⟩⟩

end Circuit

end Waros.Quantum
