import Waros.Quantum.Simulator

/-!
The variational eigensolver (`crates/waros-quantum/src/algorithms/vqe.rs`):
Hamiltonians as weighted sums of Pauli strings, their expectation in a state
vector and from the counts of a run, and the optimizer. A panic is `none` or
`Stop.panicked`; `f64::INFINITY` is no energy at all.
-/

namespace Waros.Quantum

open Lib FloatOps Fallible

inductive Pauli
  | I
  | X
  | Y
  | Z
  deriving DecidableEq

structure PauliTerm (F : Type) where
  coefficient : F
  paulis : List (ℕ × Pauli)

structure Hamiltonian (F : Type) where
  terms : List (PauliTerm F)
  numQubits : ℕ

section
variable {F : Type} [Zero F] [One F] [Add F] [Neg F] [Sub F] [Mul F]

/-- One round of the inner loop of `pauli_expectation_from_state`, on the mapped
index and the factor. -/
def pauliStep (w basisIndex : ℕ) (acc : ℕ × Complex F) (entry : ℕ × Pauli) : ℕ × Complex F :=
  let bitIsOne := decide (shr w basisIndex entry.1 &&& 1 = 1)
  match entry.2 with
  | .I => acc
  | .X => (acc.1 ^^^ shl w 1 entry.1, acc.2)
  | .Y => (acc.1 ^^^ shl w 1 entry.1, acc.2 * if bitIsOne then ⟨0, -1⟩ else ⟨0, 1⟩)
  | .Z => if bitIsOne then (acc.1, acc.2 * ⟨-1, 0⟩) else acc

def pauliExpectationFromState (w : ℕ) (state : List (Complex F)) (term : PauliTerm F) :
    Option F :=
  if term.paulis.isEmpty then some 1
  else do
    let expectation ← state.zipIdx.foldlM (fun expectation amplitude => do
      let r := term.paulis.foldl (pauliStep w amplitude.2) (amplitude.2, 1)
      return expectation + amplitude.1.conj * r.2 * (← state[r.1]?)) (0 : Complex F)
    return expectation.re

/-- The branch of `evaluate_expectation` for an ideal noise model, from the state
vector on. -/
def Hamiltonian.expectationFromState (w : ℕ) (hamiltonian : Hamiltonian F)
    (state : List (Complex F)) : Option F := do
  let energies ← hamiltonian.terms.mapM fun term => do
    return term.coefficient * (← pauliExpectationFromState w state term)
  return energies.foldl (· + ·) 0

end

variable {F : Type} [FloatOps F]

/-- The eigenvalue that a bit string stands for. A bit that is missing counts as
`'0'`. -/
def eigenvalueOf (key : Str) (paulis : List (ℕ × Pauli)) : F :=
  paulis.foldl (fun value entry =>
    match entry.2 with
    | .I => value
    | .X | .Y | .Z => value * if (Str.toUtf8 key)[entry.1]?.getD 48 = 48 then 1 else -1) 1

def pauliExpectationFromCounts (result : QuantumResult) (paulis : List (ℕ × Pauli)) : F :=
  result.counts.foldl (fun expectation entry => expectation +
    eigenvalueOf entry.1 paulis * lit entry.2 / lit result.totalShots) 0

def rotateIntoMeasurementBasis (paulis : List (ℕ × Pauli)) : Builder F Unit :=
  each (paulis.map fun entry =>
    match entry.2 with
    | .I | .Z => pure ()
    | .X => Circuit.h entry.1
    | .Y => do
      Circuit.sdg entry.1
      Circuit.h entry.1)

inductive AnsatzType
  | ryLinear
  | hardwareEfficient (layers : ℕ)
  | uccsd

/-- The controlled negations along the chain of the first qubits. -/
def entangle (numQubits : ℕ) : Builder F Unit :=
  each ((List.range (numQubits - 1)).map fun qubit => Circuit.cnot qubit (qubit + 1))

/-- One layer of the hardware-efficient ansatz, with the cursor it starts at. -/
def hardwareLayer (text : FloatText F) (numQubits : ℕ) (params : List F) (cursor : ℕ) :
    Builder F Unit := do
  each ((List.range numQubits).map fun qubit => do
    Circuit.ry text qubit (← orPanic params[cursor + 2 * qubit]?)
    Circuit.rz text qubit (← orPanic params[cursor + 2 * qubit + 1]?))
  entangle numQubits

def applyAnsatz (text : FloatText F) (ansatz : AnsatzType) (params : List F) : Builder F Unit :=
  match ansatz with
  | .ryLinear => do
    each (params.zipIdx.map fun entry => Circuit.ry text entry.2 entry.1)
    entangle params.length
  | .hardwareEfficient layers => do
    let numQubits ← read fun circuit => .ok circuit.numQubits
    each ((List.range layers).map fun layer =>
      hardwareLayer text numQubits params (layer * (2 * numQubits)))
  | .uccsd => do
    let numQubits ← read fun circuit => .ok circuit.numQubits
    match numQubits, params with
    | 2, [theta₀, theta₁] =>
      each [Circuit.ry text 0 theta₀, Circuit.ry text 1 theta₁, Circuit.cnot 0 1,
        Circuit.rz text 1 (theta₀ - theta₁), Circuit.cnot 0 1]
    | _, _ => orError (.error (.simulationError
        "demo UCCSD ansatz currently expects 2 qubits and 2 parameters".toList))

def validateParamCount (w : ℕ) (ansatz : AnsatzType) (numQubits provided : ℕ) :
    Except WarosError Unit :=
  let expected := match ansatz with
    | .ryLinear => numQubits
    | .hardwareEfficient layers => 2 * numQubits * layers % 2 ^ w
    | .uccsd => 2
  if expected = provided then .ok ()
  else .error (.simulationError ("ansatz expects ".toList ++ .ofNat expected ++
    " parameters, got ".toList ++ .ofNat provided))

/-- What the optimizer uses of a simulator. The random choices of `run` are
part of it. -/
structure Simulator (F : Type) where
  noiseIsIdeal : Bool
  statevector : Circuit F → Except Stop (List (Complex F))
  run : Circuit F → ℕ → Except Stop QuantumResult

/-- A call on a circuit that the caller has no further use for. -/
def Builder.on (method : Builder F Unit) (circuit : Circuit F) : Except Stop (Circuit F) :=
  match method circuit with
  | (.ok (), circuit') => .ok circuit'
  | (.error stop, _) => .error stop

def idealEnergy (w : ℕ) (simulator : Simulator F) (hamiltonian : Hamiltonian F)
    (circuit : Circuit F) : Except Stop F :=
  match simulator.statevector circuit with
  | .error stop => .error stop
  | .ok state =>
    match hamiltonian.expectationFromState w state with
    | none => .error .panicked
    | some energy => .ok energy

/-- The energy from runs of the circuit, one for every term. -/
def sampledEnergy (simulator : Simulator F) (shots : ℕ) (circuit : Circuit F)
    (terms : List (PauliTerm F)) : Except Stop F :=
  terms.foldlM (fun total term =>
    if term.paulis.isEmpty then .ok (total + term.coefficient)
    else do
      let rotated ← (rotateIntoMeasurementBasis term.paulis).on circuit
      let measured ← Circuit.measureAll.on rotated
      let result ← simulator.run measured (max shots 1)
      return total + term.coefficient * pauliExpectationFromCounts result term.paulis) 0

def evaluateExpectation (w : ℕ) (text : FloatText F) (simulator : Simulator F)
    (hamiltonian : Hamiltonian F) (ansatz : AnsatzType) (shots : ℕ) (params : List F) :
    Except Stop F :=
  match Circuit.new hamiltonian.numQubits with
  | .error e => .error (.error e)
  | .ok empty =>
    match (applyAnsatz text ansatz params).on empty with
    | .error stop => .error stop
    | .ok circuit =>
      if simulator.noiseIsIdeal then idealEnergy w simulator hamiltonian circuit
      else sampledEnergy simulator shots circuit hamiltonian.terms

/-! ### The optimizer -/

section
variable (evaluate : List F → Except Stop F)

def numericalGradient (params : List F) (epsilon : F) : Except Stop (List F) :=
  (List.range params.length).mapM fun index => do
    let energyPlus ← evaluate (params.modify index (· + epsilon))
    let energyMinus ← evaluate (params.modify index (· - epsilon))
    return (energyPlus - energyMinus) / (lit 2 * epsilon)

def variance (values : List F) : F :=
  if values.isEmpty then 0
  else
    let mean := values.foldl (· + ·) 0 / lit values.length
    (values.map fun value => (value - mean) * (value - mean)).foldl (· + ·) 0 /
      lit values.length

/-- The first candidate along the gradient that improves on the energy. -/
def lineSearch (params gradient : List F) (energy : F) : List F → Except Stop (Option (List F))
  | [] => .ok none
  | scale :: scales => do
    let candidate := .zipWith (fun parameter derivative => parameter - scale * derivative)
      params gradient
    let candidateEnergy ← evaluate candidate
    if lt (candidateEnergy + lit (1 / 10000000000)) energy then
      return some candidate
    else lineSearch params gradient energy scales

structure VqeState (F : Type) where
  params : List F
  bestParams : List F
  energyHistory : List F
  bestEnergy : Option F
  converged : Bool

/-- Notes an energy that is lower than the best one. -/
def VqeState.note (s : VqeState F) (energy : F) : VqeState F :=
  if s.bestEnergy.all fun best => lt energy best then
    { s with bestEnergy := some energy, bestParams := s.params }
  else s

def scales : List F :=
  [lit (1 / 4), lit (1 / 4) * lit (1 / 2), lit (1 / 4) * lit (1 / 4), lit (1 / 4) * lit (1 / 8)]

/-- The loop, with the number of rounds left. -/
def vqeLoop : ℕ → VqeState F → Except Stop (VqeState F)
  | 0, s => .ok s
  | rounds + 1, s => do
    let energy ← evaluate s.params
    let s := { s with energyHistory := s.energyHistory ++ [energy] }.note energy
    let gradient ← numericalGradient evaluate s.params (lit (1 / 20))
    match ← lineSearch evaluate s.params gradient energy scales with
    | none => return { s with converged := true }
    | some params =>
      let recent := s.energyHistory.drop (s.energyHistory.length - 5)
      if decide (5 ≤ s.energyHistory.length) &&
          lt (variance recent) (lit (1 / 1000000000)) then
        return { s with params, converged := true }
      else vqeLoop rounds { s with params }

structure VQEResult (F : Type) where
  energy : Option F
  optimalParams : List F
  energyHistory : List F
  iterations : ℕ
  converged : Bool

/-- `vqe` after the check of the parameters. -/
def optimize (initialParams : List F) (maxIterations : ℕ) : Except Stop (VQEResult F) := do
  let s ← vqeLoop evaluate maxIterations ⟨initialParams, initialParams, [], none, false⟩
  let finalEnergy ← evaluate s.params
  let s := s.note finalEnergy
  return ⟨s.bestEnergy, s.bestParams, s.energyHistory, s.energyHistory.length, s.converged⟩

end

def vqe (w : ℕ) (text : FloatText F) (simulator : Simulator F) (hamiltonian : Hamiltonian F)
    (ansatz : AnsatzType) (initialParams : List F) (maxIterations shots : ℕ) :
    Except Stop (VQEResult F) :=
  match validateParamCount w ansatz hamiltonian.numQubits initialParams.length with
  | .error e => .error (.error e)
  | .ok () =>
    optimize (evaluateExpectation w text simulator hamiltonian ansatz shots) initialParams
      maxIterations

/-- A simulator with this backend and no noise, each of whose runs starts from the
same seed. -/
def StateVectorBackend.simulator (w : ℕ) (layout : StateVectorLayout) (reserve : ℕ → Bool)
    (draws : ℕ → F) : Simulator F where
  noiseIsIdeal := true
  statevector := StateVectorBackend.statevector w layout reserve
  run circuit shots := StateVectorBackend.run w layout reserve circuit shots ⟨draws, 0⟩

/-- The estimate of a Pauli string from the counts of a run: the circuit is
rotated into the basis of the string and measured. -/
def estimate (w : ℕ) (layout : StateVectorLayout) (reserve : ℕ → Bool) (circuit : Circuit F)
    (paulis : List (ℕ × Pauli)) (shots : ℕ) (draws : ℕ → F) : Except Stop F := do
  let rotated ← (rotateIntoMeasurementBasis paulis).on circuit
  let measured ← Circuit.measureAll.on rotated
  let result ← StateVectorBackend.run w layout reserve measured shots ⟨draws, 0⟩
  return pauliExpectationFromCounts result paulis

end Waros.Quantum
