import Waros.Lib.Rayleigh
import Waros.Quantum.Evolution

/-!
The optimizer over the real numbers. Its result is the energy of the best
parameters it has seen, and no energy lies below the least eigenvalue of the
Hamiltonian: the expectation that the code evaluates is that of the transposed
operator, which has the same eigenvalues.
-/

namespace Waros.Quantum

open Lib Matrix Circuit Quantum.Complex Finset StateVectorBackend

section
variable {evaluate : List ℝ → Except Stop ℝ}

/-- The best energy is that of the best parameters, and no noted energy is
lower. -/
structure VqeState.Best (evaluate : List ℝ → Except Stop ℝ) (s : VqeState ℝ) : Prop where
  energy : ∀ best ∈ s.bestEnergy, evaluate s.bestParams = .ok best
  least : ∀ e ∈ s.energyHistory, ∃ best ∈ s.bestEnergy, best ≤ e

variable {s : VqeState ℝ}

/-- Noting the energy of the current parameters, which may be in the history
already. -/
lemma VqeState.Best.note {en : ℝ} (heval : evaluate s.params = .ok en)
    (hbest : ∀ best ∈ s.bestEnergy, evaluate s.bestParams = .ok best)
    (hleast : ∀ e ∈ s.energyHistory, e = en ∨ ∃ best ∈ s.bestEnergy, best ≤ e) :
    (s.note en).Best evaluate ∧ (s.note en).bestEnergy.isSome := by
  rw [VqeState.note]
  split_ifs with hlt
  · refine ⟨⟨?_, fun e he => ⟨en, rfl, ?_⟩⟩, rfl⟩
    · rintro best ⟨⟩
      exact heval
    · rcases hleast e he with rfl | ⟨best, hmem, hle⟩
      · exact le_rfl
      · obtain hlt := (Option.all_eq_true _ _).1 hlt best hmem
        exact ((of_decide_eq_true hlt).trans_le hle).le
  · obtain ⟨best, hso, hnot⟩ : ∃ best, s.bestEnergy = some best ∧ ¬ en < best := by
      cases hbestEnergy : s.bestEnergy with
      | none => exact absurd (by rw [hbestEnergy]; rfl) hlt
      | some best =>
        rw [hbestEnergy] at hlt
        exact ⟨best, rfl, fun h => hlt (decide_eq_true h)⟩
    refine ⟨⟨hbest, fun e he => ?_⟩, by rw [hso]; rfl⟩
    rcases hleast e he with rfl | hexi
    · exact ⟨best, hso, not_lt.1 hnot⟩
    · exact hexi

lemma except_bind_ok {α β : Type} {x : Except Stop α} {f : α → Except Stop β} {b : β}
    (h : (x >>= f) = .ok b) : ∃ a, x = .ok a ∧ f a = .ok b := by
  cases x with
  | error => cases h
  | ok a => exact ⟨a, rfl, h⟩

lemma vqeLoop_best {rounds : ℕ} {s' : VqeState ℝ} (h : vqeLoop evaluate rounds s = .ok s')
    (hs : s.Best evaluate) : s'.Best evaluate := by
  induction rounds generalizing s with
  | zero =>
    cases h
    exact hs
  | succ _ ih =>
    obtain ⟨energy, heval, h⟩ := except_bind_ok h
    obtain ⟨gradient, -, h⟩ := except_bind_ok h
    obtain ⟨cand, -, h⟩ := except_bind_ok h
    have hnote := (VqeState.Best.note (s := { s with
      energyHistory := s.energyHistory ++ [energy] }) heval hs.energy fun e he => by
        rcases List.mem_append.1 he with he | he
        · exact .inr (hs.least e he)
        · exact .inl (mem_singleton.1 he)).1
    cases cand with
    | none =>
      cases h
      exact ⟨hnote.energy, hnote.least⟩
    | some =>
      dsimp only at h
      split at h
      · cases h
        exact ⟨hnote.energy, hnote.least⟩
      · exact ih h ⟨hnote.energy, hnote.least⟩

/-- The result is the energy of its parameters, and the least of the history. -/
lemma optimize_best {initialParams : List ℝ} {maxIterations : ℕ} {r : VQEResult ℝ}
    (h : optimize evaluate initialParams maxIterations = .ok r) :
    ∃ energy, r.energy = some energy ∧ evaluate r.optimalParams = .ok energy ∧
      ∀ e ∈ r.energyHistory, energy ≤ e := by
  obtain ⟨s, hlp, h⟩ := except_bind_ok h
  obtain ⟨finalEnergy, heval, h⟩ := except_bind_ok h
  have hs := vqeLoop_best hlp ⟨by simp, by simp⟩
  obtain ⟨hnote, hso⟩ := VqeState.Best.note heval hs.energy fun e he => .inr (hs.least e he)
  cases h
  obtain ⟨energy, hene⟩ := Option.isSome_iff_exists.1 hso
  refine ⟨energy, hene, hnote.energy energy hene, fun e he => ?_⟩
  obtain ⟨best, hbest, hle⟩ := hnote.least e he
  obtain rfl : energy = best := Option.some.inj (hene.symm.trans hbest)
  exact hle

end

section
variable {F : Type} [CommRing F]

lemma Pauli.conj_phase_eq_sign_mul (p : Pauli) (bit : Bool) :
    (p.phase bit : Complex F).conj = ofReal p.sign * p.phase bit := by
  cases p <;> cases bit <;> ext <;> simp [phase, entry, flips, sign]

lemma conj_phaseOf_eq_sign_mul (paulis : List (ℕ × Pauli)) (x : ℕ) :
    (phaseOf paulis x : Complex F).conj = ofReal (signOf paulis) * phaseOf paulis x := by
  induction paulis with
  | nil => ext <;> simp [phaseOf, signOf]
  | cons e paulis ih =>
    have hph : (phaseOf (e :: paulis) x : Complex F) =
      e.2.phase (x.testBit e.1) * phaseOf paulis x := rfl
    have hsign : (signOf (e :: paulis) : F) = e.2.sign * signOf paulis := rfl
    rw [hph, hsign, ← conjHom_apply, map_mul, conjHom_apply,
      conjHom_apply, ih, Pauli.conj_phase_eq_sign_mul, map_mul]
    ring

lemma expectation_conj_state {ps : List (ℕ × Pauli)} {n : ℕ}
    (hnd : (ps.map Prod.fst).Nodup) (hlt : ∀ entry ∈ ps, entry.1 < n) (ψ : ℕ → Complex F) :
    expectation n (pauliOperator n ps) (fun x => (ψ x).conj) =
      ofReal (signOf ps) * expectation n (pauliOperator n ps) ψ := by
  rw [← conj_expectation hnd hlt, expectation_pauliOperator hnd hlt,
    expectation_pauliOperator hnd hlt, ← conjHom_apply, map_sum, mul_sum]
  refine sum_congr rfl fun x _ => ?_
  simp only [map_mul, conjHom_apply, conj_conj, conj_phaseOf_eq_sign_mul]
  ring

lemma Pauli.conj_entry (p : Pauli) (row col : Bool) :
    (p.entry row col : Complex F).conj = p.entry col row := by
  cases p <;> cases row <;> cases col <;> ext <;> simp [entry]

lemma conj_operator (hamiltonian : Hamiltonian F) (n x y : ℕ) :
    (hamiltonian.operator n x y).conj = hamiltonian.operator n y x := by
  rw [Hamiltonian.operator, ← conjHom_apply, map_list_sum, List.map_map]
  congr 1
  refine List.map_congr_left fun term _ => ?_
  have hreal : (ofReal term.coefficient).conj = ofReal term.coefficient := by ext <;> simp
  rw [Function.comp_apply, map_mul, conjHom_apply, hreal, pauliOperator, pauliOperator]
  simp [Pauli.conj_entry]

end

variable {hamiltonian : Hamiltonian ℝ} {n w : ℕ}

lemma expectation_operator_conj_state
    (hterm : ∀ term ∈ hamiltonian.terms, term.Valid n) (ψ : ℕ → Complex ℝ) :
    expectation n (hamiltonian.operator n) (fun x => (ψ x).conj) =
      (hamiltonian.terms.map fun term => ofReal (signOf term.paulis) * term.energy n ψ).sum := by
  rw [expectation_operator]
  congr 1
  refine List.map_congr_left fun term ht => ?_
  rw [PauliTerm.energy, expectation_conj_state (hterm term ht).nodup (hterm term ht).lt,
    PauliTerm.energy]
  ring

/-! ### The operator as a matrix -/

/-- The complex numbers of the code as those of the library. -/
noncomputable def Complex.toC : Complex ℝ →+* ℂ where
  toFun z := ⟨z.re, z.im⟩
  map_one' := rfl
  map_zero' := rfl
  map_mul' a b := by refine RCLike.ext ?_ ?_ <;> simp
  map_add' a b := by refine RCLike.ext ?_ ?_ <;> simp

variable (z : Complex ℝ)

lemma Complex.toC_conj : toC z.conj = star (toC z) := rfl

lemma Complex.norm_toC_sq : ‖toC z‖ ^ 2 = z.normSq := by
  rw [Complex.sq_norm]
  rfl

namespace Hamiltonian

/-- The matrix of the operator on the qubits of the Hamiltonian. -/
noncomputable def matrix (hamiltonian : Hamiltonian ℝ) :
    Matrix (Fin (2 ^ hamiltonian.numQubits)) (Fin (2 ^ hamiltonian.numQubits)) ℂ :=
  fun x y => toC (hamiltonian.operator hamiltonian.numQubits x y)

def IsEigenvalue (hamiltonian : Hamiltonian ℝ) (μ : ℝ) : Prop :=
  Module.End.HasEigenvalue (toLin' hamiltonian.matrix) (μ : ℂ)

section
variable (hamiltonian : Hamiltonian ℝ)

lemma matrix_isHermitian : hamiltonian.matrix.IsHermitian := by
  ext x y
  rw [conjTranspose_apply, matrix, ← toC_conj, conj_operator]
  rfl

lemma quadraticForm_matrix (ψ : ℕ → Complex ℝ) :
    let x : Fin (2 ^ hamiltonian.numQubits) → ℂ := fun i => toC (ψ i)
    star x ⬝ᵥ hamiltonian.matrix *ᵥ x = toC
      (expectation hamiltonian.numQubits (hamiltonian.operator hamiltonian.numQubits) ψ) := by
  intro x
  rw [expectation, map_sum, sum_range]
  refine sum_congr rfl fun i _ => ?_
  rw [map_sum, sum_range, mulVec, dotProduct, mul_sum]
  refine sum_congr rfl fun j _ => ?_
  rw [map_mul, map_mul, mul_assoc]
  rfl

/-- There is a least eigenvalue, and it bounds the expectation in every unit
vector. -/
lemma exists_isLeast_eigenvalue :
    ∃ least, IsLeast {μ | hamiltonian.IsEigenvalue μ} least ∧ ∀ ψ : ℕ → Complex ℝ,
      ∑ x ∈ range (2 ^ hamiltonian.numQubits), (ψ x).normSq = 1 →
      least ≤ (expectation hamiltonian.numQubits
        (hamiltonian.operator hamiltonian.numQubits) ψ).re := by
  obtain ⟨least, v, hv, heig, hbd⟩ := exists_least_eigenvalue hamiltonian.matrix_isHermitian
  refine ⟨least, ⟨?_, fun μ hμ => ?_⟩, fun ψ hψ => ?_⟩
  · refine Module.End.hasEigenvalue_of_hasEigenvector (x := v) ⟨?_, hv⟩
    rwa [Module.End.mem_eigenspace_iff, toLin'_apply]
  · obtain ⟨u, hmem, hu⟩ := Module.End.HasEigenvalue.exists_hasEigenvector hμ
    rw [Module.End.mem_eigenspace_iff] at hmem
    exact le_of_mulVec_eq_smul hu hmem (hbd u)
  · have hform := hbd fun i => toC (ψ i)
    rw [quadraticForm_matrix] at hform
    simp only [norm_toC_sq] at hform
    rw [sum_range] at hψ
    rwa [hψ, mul_one] at hform

end

end Hamiltonian

section
variable (text : FloatText ℝ) (qubit : ℕ) (theta : ℝ) (numQubits : ℕ)

lemma keepsUnitary_ry : Circuit.KeepsUnitary (ry text qubit theta) :=
  keepsUnitary_add1 ⟨rfl, rfl⟩ (Gate.ry_isUnitary text theta) qubit

lemma keepsUnitary_rz : Circuit.KeepsUnitary (rz text qubit theta) :=
  keepsUnitary_add1 ⟨rfl, rfl⟩ (Gate.rz_isUnitary text theta) qubit

lemma keepsUnitary_cnot (control t : ℕ) : Circuit.KeepsUnitary (cnot control t : Builder ℝ Unit) :=
  keepsUnitary_add2 ⟨rfl, rfl⟩ Gate.cnot_isUnitary control t

lemma keepsUnitary_entangle : Circuit.KeepsUnitary (entangle numQubits : Builder ℝ Unit) := by
  refine .each fun method hmem => ?_
  obtain ⟨qubit, -, rfl⟩ := List.mem_map.1 hmem
  exact keepsUnitary_cnot qubit (qubit + 1)

lemma keepsUnitary_hardwareLayer (params : List ℝ) (cursor : ℕ) :
    Circuit.KeepsUnitary (hardwareLayer text numQubits params cursor) := by
  refine .bind (.each fun method hmem => ?_) fun _ => keepsUnitary_entangle numQubits
  obtain ⟨qubit, -, rfl⟩ := List.mem_map.1 hmem
  refine (keepsUnitary_orPanic _).bind fun theta => ?_
  refine (keepsUnitary_ry text qubit theta).bind fun _ => ?_
  exact (keepsUnitary_orPanic _).bind fun theta => keepsUnitary_rz text qubit theta

lemma keepsUnitary_applyAnsatz (ansatz : AnsatzType) (params : List ℝ) :
    Circuit.KeepsUnitary (applyAnsatz text ansatz params) := by
  cases ansatz with
  | ryLinear =>
    refine .bind (.each fun method hmem => ?_) fun _ => keepsUnitary_entangle params.length
    obtain ⟨e, -, rfl⟩ := List.mem_map.1 hmem
    exact keepsUnitary_ry text e.2 e.1
  | hardwareEfficient =>
    refine (keepsUnitary_read _).bind fun numQubits => .each fun method hmem => ?_
    obtain ⟨layer, -, rfl⟩ := List.mem_map.1 hmem
    exact keepsUnitary_hardwareLayer text numQubits params _
  | uccsd =>
    refine (keepsUnitary_read _).bind fun numQubits => ?_
    split
    · refine .each ?_
      simp [keepsUnitary_ry, keepsUnitary_rz, keepsUnitary_cnot]
    · exact keepsUnitary_orError _

end

/-- The simulator has no noise, and the state vectors of unitary circuits on `n`
qubits that it returns are unit vectors. -/
structure Simulator.IdealOn (w n : ℕ) (simulator : Simulator ℝ) : Prop where
  ideal : simulator.noiseIsIdeal = true
  width : ∀ circuit state, circuit.IsUnitary → circuit.numQubits = n →
    simulator.statevector circuit = .ok state → n < w
  length : ∀ circuit state, circuit.IsUnitary → circuit.numQubits = n →
    simulator.statevector circuit = .ok state → state.length = 2 ^ n
  normalised : ∀ circuit state, circuit.IsUnitary → circuit.numQubits = n →
    simulator.statevector circuit = .ok state → Normalised n state

lemma Instruction.IsUnitary.unconditional {i : Instruction ℝ} (h : i.IsUnitary) :
    i.Unconditional := by
  cases i with
  | conditionalGate => exact h
  | gateOp | measure | barrier => trivial

theorem Circuit.IsUnitary.norm_prepared {circuit : Circuit ℝ} (h : circuit.IsUnitary)
    (hwidth : circuit.numQubits = n) :
    ∑ x ∈ range (2 ^ n), (prepared n circuit.instructions basisZero x).normSq = 1 := by
  rw [sum_normSq_prepared (hwidth ▸ h.wellFormed.instructions) h.instructions,
    sum_eq_single_of_mem 0 (mem_range.2 (Nat.two_pow_pos n))]
  · simp [basisZero, normSq]
  · intro x _ hx
    simp [basisZero, hx, normSq]

/-- The state-vector backend is ideal, as long as the vector has a length. -/
lemma simulator_idealOn (hn : n < w) (lay : StateVectorLayout) (rsv : ℕ → Bool) (ds : ℕ → ℝ) :
    (simulator w lay rsv ds).IdealOn w n := by
  have hhs : ∀ c state, c.IsUnitary → c.numQubits = n → statevector w lay rsv c = .ok state →
      Holds n state (prepared n c.instructions basisZero) := by
    rintro c state hcirc rfl hst
    exact statevector_holds hn rfl hcirc.wellFormed.instructions
      (fun i hi => (hcirc.instructions i hi).unconditional) hst
  refine ⟨rfl, fun _ _ _ _ _ => hn, fun c state hcirc hwid hst =>
    (hhs c state hcirc hwid hst).length, ?_⟩
  intro c state hcirc hwid hst
  have hamp := (hhs c state hcirc hwid hst).amplitude
  rw [Normalised, ← hcirc.norm_prepared hwid]
  exact sum_congr rfl fun x hx => by rw [hamp x (mem_range.1 hx)]

lemma new_isUnitary {numQubits : ℕ} {c : Circuit ℝ} (h : new numQubits = .ok c) :
    c.IsUnitary ∧ c.numQubits = numQubits := by
  rw [new] at h
  split_ifs at h
  cases h
  exact ⟨⟨⟨Nat.two_pow_pos 64, by simp⟩, by simp⟩, rfl⟩

theorem applyAnsatz_isUnitary {n : ℕ} {text : FloatText ℝ} {ansatz : AnsatzType} {params : List ℝ}
    {empty circuit : Circuit ℝ} (hnew : Circuit.new n = .ok empty)
    (hansatz : (applyAnsatz text ansatz params).on empty = .ok circuit) :
    circuit.IsUnitary ∧ circuit.numQubits = n := by
  obtain ⟨hempty, hwidth⟩ := new_isUnitary hnew
  have hkeeps := keepsUnitary_applyAnsatz text ansatz params empty hempty
  rw [Builder.on] at hansatz
  split at hansatz
  next circuit' hrun =>
    cases hansatz
    rw [hrun] at hkeeps
    exact ⟨hkeeps.1, hkeeps.2.trans hwidth⟩
  next => cases hansatz

/-- An energy is the expectation in some unit vector. -/
lemma evaluateExpectation_eq {text : FloatText ℝ} {simulator : Simulator ℝ}
    {ansatz : AnsatzType} {shots : ℕ} {params : List ℝ} {energy : ℝ}
    (hsim : simulator.IdealOn w hamiltonian.numQubits)
    (hterm : ∀ term ∈ hamiltonian.terms, term.Valid hamiltonian.numQubits)
    (h : evaluateExpectation w text simulator hamiltonian ansatz shots params = .ok energy) :
    ∃ ψ : ℕ → Complex ℝ, ∑ x ∈ range (2 ^ hamiltonian.numQubits), (ψ x).normSq = 1 ∧
      ofReal energy = expectation hamiltonian.numQubits
        (hamiltonian.operator hamiltonian.numQubits) ψ := by
  rw [evaluateExpectation] at h
  split at h
  · cases h
  next empty hnew =>
  split at h
  · cases h
  next circuit hans =>
  rw [if_pos hsim.ideal, idealEnergy] at h
  split at h
  · cases h
  next state hst =>
  split at h
  · cases h
  next energy' hene =>
  obtain rfl := Except.ok.inj h
  obtain ⟨hcirc, hn⟩ := applyAnsatz_isUnitary hnew hans
  obtain ⟨v, hval, hsum⟩ := expectationFromState_eq
    (hsim.width circuit state hcirc hn hst)
    (hsim.length circuit state hcirc hn hst)
    (hsim.normalised circuit state hcirc hn hst) hterm
  obtain rfl : v = energy' := Option.some.inj (hval.symm.trans hene)
  refine ⟨fun x => (state.getD x 0).conj, ?_, ?_⟩
  · have hnr := hsim.normalised circuit state hcirc hn hst
    rw [← hnr]
    simp [normSq]
  · rw [hsum, expectation_operator_conj_state hterm]

/-- The result of `vqe` is the energy of its parameters and the least energy of
the history, and not below the least eigenvalue of the Hamiltonian. -/
theorem vqe_variational {w : ℕ} {text : FloatText ℝ} {simulator : Simulator ℝ}
    {hamiltonian : Hamiltonian ℝ} {ansatz : AnsatzType} {initialParams : List ℝ}
    {maxIterations shots : ℕ} {r : VQEResult ℝ} (hsim : simulator.IdealOn w hamiltonian.numQubits)
    (h : vqe w text simulator hamiltonian ansatz initialParams maxIterations shots = .ok r) :
    ∃ energy, r.energy = some energy ∧
      evaluateExpectation w text simulator hamiltonian ansatz shots r.optimalParams = .ok energy ∧
      (∀ e ∈ r.energyHistory, energy ≤ e) ∧
      ((∀ term ∈ hamiltonian.terms, term.Valid hamiltonian.numQubits) →
        ∃ least, IsLeast {μ | hamiltonian.IsEigenvalue μ} least ∧ least ≤ energy) := by
  rw [vqe] at h
  split at h
  · cases h
  obtain ⟨energy, hene, heval, hleast⟩ := optimize_best h
  refine ⟨energy, hene, heval, hleast, fun hterm => ?_⟩
  obtain ⟨least, hisLeast, hbd⟩ := hamiltonian.exists_isLeast_eigenvalue
  obtain ⟨ψ, hunit, hexpe⟩ := evaluateExpectation_eq hsim hterm heval
  refine ⟨least, hisLeast, ?_⟩
  have hre := hbd ψ hunit
  rwa [← hexpe, ofReal_re] at hre

section
open FloatOps

variable {evaluate : List ℝ → Except Stop ℝ} {n : ℕ}
  (heval : ∀ params : List ℝ, params.length = n → ∃ energy, evaluate params = .ok energy)
include heval

theorem numericalGradient_returns {params : List ℝ} (hlen : params.length = n) (epsilon : ℝ) :
    ∃ gradient, numericalGradient evaluate params epsilon = .ok gradient ∧
      gradient.length = n := by
  have hall : ∀ indices : List ℕ, ∃ gradient, (indices.mapM fun index => do
      let energyPlus ← evaluate (params.modify index (· + epsilon))
      let energyMinus ← evaluate (params.modify index (· - epsilon))
      return (energyPlus - energyMinus) / (lit 2 * epsilon)) = Except.ok gradient ∧
      gradient.length = indices.length := by
    intro indices
    induction indices with
    | nil => exact ⟨[], rfl, rfl⟩
    | cons index indices ih =>
      obtain ⟨gradient, hgradient, hlength⟩ := ih
      obtain ⟨plus, hplus⟩ := heval (params.modify index (· + epsilon)) (by simpa using hlen)
      obtain ⟨minus, hminus⟩ := heval (params.modify index (· - epsilon)) (by simpa using hlen)
      refine ⟨(plus - minus) / (lit 2 * epsilon) :: gradient, ?_, congrArg (· + 1) hlength⟩
      rw [List.mapM_cons, hgradient, hplus, hminus]
      rfl
  obtain ⟨gradient, hgradient, hlength⟩ := hall (List.range params.length)
  exact ⟨gradient, hgradient, by rw [hlength, List.length_range, hlen]⟩

theorem lineSearch_returns {params gradient : List ℝ} (hparams : params.length = n)
    (hgradient : gradient.length = n) (energy : ℝ) (scales : List ℝ) :
    ∃ found, lineSearch evaluate params gradient energy scales = .ok found ∧
      ∀ candidate ∈ found, candidate.length = n := by
  induction scales with
  | nil => exact ⟨none, rfl, by simp⟩
  | cons scale scales ih =>
    have hlen : (List.zipWith (fun parameter derivative => parameter - scale * derivative)
        params gradient).length = n := by simp [hparams, hgradient]
    obtain ⟨candidateEnergy, hcandidate⟩ := heval _ hlen
    rw [lineSearch, hcandidate]
    by_cases hbetter : lt (candidateEnergy + lit (1 / 10000000000)) energy = true
    · exact ⟨_, if_pos hbetter, by simp [hparams, hgradient]⟩
    · obtain ⟨found, hfound, hlength⟩ := ih
      exact ⟨found, (if_neg hbetter).trans hfound, hlength⟩

theorem vqeLoop_returns (rounds : ℕ) {s : VqeState ℝ} (hs : s.params.length = n) :
    ∃ s', vqeLoop evaluate rounds s = .ok s' ∧ s'.params.length = n := by
  induction rounds generalizing s with
  | zero => exact ⟨s, rfl, hs⟩
  | succ rounds ih =>
    obtain ⟨energy, henergy⟩ := heval s.params hs
    have hnote : ({ s with energyHistory := s.energyHistory ++ [energy] }.note energy).params =
        s.params := by
      rw [VqeState.note]
      split_ifs <;> rfl
    obtain ⟨gradient, hgradient, hlength⟩ := numericalGradient_returns heval hs (lit (1 / 20))
    obtain ⟨found, hfound, hfoundLength⟩ := lineSearch_returns heval hs hlength energy scales
    rw [vqeLoop, henergy]
    simp only [bind, Except.bind, hnote, hgradient, hfound]
    cases found with
    | none => exact ⟨_, rfl, hs⟩
    | some params =>
      dsimp only
      split_ifs
      · exact ⟨_, rfl, hfoundLength params rfl⟩
      · exact ih (hfoundLength params rfl)

theorem optimize_returns (initialParams : List ℝ) (hlen : initialParams.length = n)
    (maxIterations : ℕ) : ∃ r, optimize evaluate initialParams maxIterations = .ok r := by
  obtain ⟨s, hs, hlength⟩ := vqeLoop_returns heval maxIterations
    (s := ⟨initialParams, initialParams, [], none, false⟩) hlen
  obtain ⟨energy, henergy⟩ := heval s.params hlength
  rw [optimize, hs]
  simp only [bind, Except.bind, henergy]
  exact ⟨_, rfl⟩

end

theorem evaluateExpectation_returns {hamiltonian : Hamiltonian ℝ} {w shots : ℕ}
    {text : FloatText ℝ} {ansatz : AnsatzType} {params : List ℝ} {draws : ℕ → ℝ}
    (hn : hamiltonian.numQubits < w)
    (hvalid : ∀ term ∈ hamiltonian.terms, term.Valid hamiltonian.numQubits)
    {empty circuit : Circuit ℝ} (hnew : Circuit.new hamiltonian.numQubits = .ok empty)
    (hansatz : (applyAnsatz text ansatz params).on empty = .ok circuit)
    (hmeasure : hasMidCircuitMeasurement false circuit.instructions = false) :
    ∃ energy, evaluateExpectation w text (simulator w .aos (fun _ => true) draws) hamiltonian
      ansatz shots params = .ok energy := by
  have hsim := simulator_idealOn hn .aos (fun _ => true) draws
  obtain ⟨hunitary, hwidth⟩ := applyAnsatz_isUnitary hnew hansatz
  obtain ⟨state, hstate⟩ : ∃ state, statevector w .aos (fun _ => true) circuit = .ok state := by
    obtain ⟨state, -, haos, -⟩ := (holds_replicate (n := hamiltonian.numQubits)).applySequence hn
      (hwidth ▸ hunitary.wellFormed.instructions)
      fun i hi => (hunitary.instructions i hi).unconditional
    refine ⟨state, ?_⟩
    rw [statevector, hmeasure, if_neg Bool.false_ne_true, zeroState, hwidth, shl_one hn, if_pos rfl]
    dsimp only
    rw [haos]
  obtain ⟨energy, henergy, -⟩ := expectationFromState_eq hn
    (hsim.length circuit state hunitary hwidth hstate)
    (hsim.normalised circuit state hunitary hwidth hstate) hvalid
  refine ⟨energy, ?_⟩
  simp only [evaluateExpectation, hnew, hansatz, if_pos hsim.ideal, idealEnergy]
  rw [show (simulator w .aos (fun _ => true) draws).statevector circuit = .ok state from hstate]
  simp only [henergy]

/-- A spin in a field along the third axis. -/
def spinHamiltonian : Hamiltonian ℝ := ⟨[⟨1, [(0, .Z)]⟩], 1⟩

theorem vqe_variational_spin :
    let text : FloatText ℝ := ⟨fun _ => [], fun _ => [], fun _ => none⟩
    let simulator : Simulator ℝ := simulator 64 .aos (fun _ => true) fun _ => 1 / 2
    ∃ r, vqe 64 text simulator spinHamiltonian .ryLinear [1] 3 1 = .ok r ∧
      ∃ energy least, r.energy = some energy ∧ (∀ e ∈ r.energyHistory, energy ≤ e) ∧
        IsLeast {μ | spinHamiltonian.IsEigenvalue μ} least ∧ least ≤ energy := by
  intro text simulator
  have hvalid : ∀ term ∈ spinHamiltonian.terms, term.Valid spinHamiltonian.numQubits := by
    intro term hterm
    obtain rfl := List.mem_singleton.1 hterm
    exact ⟨by simp, by simp [spinHamiltonian]⟩
  have heval : ∀ params : List ℝ, params.length = 1 → ∃ energy,
      evaluateExpectation 64 text simulator spinHamiltonian .ryLinear 1 params = .ok energy := by
    intro params hlen
    obtain ⟨theta, rfl⟩ := List.length_eq_one_iff.1 hlen
    have hnew : Circuit.new 1 = .ok (⟨1, 0, []⟩ : Circuit ℝ) := rfl
    have hansatz : (applyAnsatz text .ryLinear [theta]).on ⟨1, 0, []⟩ =
        .ok ⟨1, 0, [.gateOp (Gate.ry text theta) [0]]⟩ := rfl
    exact evaluateExpectation_returns (by decide) hvalid hnew hansatz rfl
  obtain ⟨r, hr⟩ := optimize_returns heval [1] rfl 3
  obtain ⟨energy, henergy, -, hhistory, hbound⟩ := vqe_variational
    (simulator_idealOn (by decide) .aos (fun _ => true) fun _ => 1 / 2)
    (show vqe 64 text simulator spinHamiltonian .ryLinear [1] 3 1 = .ok r from hr)
  obtain ⟨least, hleast, hle⟩ := hbound hvalid
  exact ⟨r, hr, energy, least, henergy, hhistory, hleast, hle⟩

end Waros.Quantum
