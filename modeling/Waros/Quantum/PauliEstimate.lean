import Waros.Quantum.Variational

/-!
The estimate of a Pauli string from the counts of a run. Over independent
uniform draws its mean is the expectation of the string in the state that a
circuit of gates and barriers prepares.
-/

namespace Waros.Quantum

open Lib MeasureTheory Circuit Quantum.Complex Fallible Finset FloatOps Gate StateVectorBackend Str
open Nat
open Pauli

variable (g : Str → ℝ) (bits : List Bool) {c : Circuit ℝ}

/-- The sum of a value of the keys, each as often as it is counted. -/
def weighted (counts : List (Str × ℕ)) : ℝ := (counts.map fun entry => g entry.1 * entry.2).sum

lemma weighted_countKey (key : Str) (cs : List (Str × ℕ)) :
    weighted g (countKey key cs) = weighted g cs + g key := by
  induction cs with
  | nil => simp [countKey, weighted]
  | cons e cs ih =>
    rw [countKey]
    split_ifs with h
    · rw [← eq_of_beq h]
      simp only [weighted, List.map_cons, List.sum_cons]
      push_cast
      ring
    · simp only [weighted, List.map_cons, List.sum_cons] at ih ⊢
      rw [ih]
      ring

lemma pauliExpectationFromCounts_eq (cs : List (Str × ℕ)) (shots : ℕ) (ps : List (ℕ × Pauli)) :
    (pauliExpectationFromCounts ⟨cs, shots⟩ ps : ℝ) = weighted (eigenvalueOf · ps) cs / shots := by
  have hlit : ∀ k : ℕ, (lit k : ℝ) = k := fun k => by simp [lit]
  have hfold : ∀ cs total, cs.foldl (fun expectation e =>
      expectation + eigenvalueOf e.1 ps * lit e.2 / lit shots) total =
      total + weighted (eigenvalueOf · ps) cs / shots := by
    intro cs
    induction cs with
    | nil => simp [weighted]
    | cons e cs ih =>
      intro total
      rw [List.foldl_cons, ih, hlit, hlit]
      simp only [weighted, List.map_cons, List.sum_cons]
      ring
  rw [pauliExpectationFromCounts, hfold]
  exact zero_add _

lemma weighted_sampleShots (w : ℕ) (g : Str → ℝ) (numQubits : ℕ) (measured : List ℕ)
    (probabilities : List ℝ) (shots : ℕ) (rng : StdRng ℝ) (cs : List (Str × ℕ)) :
    weighted g (sampleShots w numQubits measured probabilities shots rng cs) =
      weighted g cs + ∑ i ∈ range shots,
        g (sampleKey w numQubits measured ((firstExceeding lt (rng.draws (rng.taken + i))
          0 0 probabilities).getD (probabilities.length - 1))) := by
  induction shots generalizing rng cs with
  | zero => simp [sampleShots]
  | succ shots ih =>
    rw [sampleShots, ih, weighted_countKey, sum_range_succ']
    simp only [sample, StdRng.gen, add_zero, add_assoc, add_comm 1]
    ring

lemma toUtf8_map_bitChar :
    toUtf8 (bits.map bitChar) = bits.map fun bit => if bit then 49 else 48 := by
  induction bits with
  | nil => rfl
  | cons bit bits ih =>
    have hco : toUtf8 ((bit :: bits).map bitChar) =
      String.utf8EncodeChar (bitChar bit) ++ toUtf8 (bits.map bitChar) := rfl
    rw [hco, ih]
    cases bit <;> rfl

lemma ofReal_foldl_mul {α : Type} {step : ℝ → α → ℝ} {p : α → Complex ℝ}
    (hstp : ∀ v a, ofReal (step v a) = ofReal v * p a) (as : List α) (v : ℝ) :
    ofReal (as.foldl step v) = ofReal v * (as.map p).prod := by
  induction as generalizing v with
  | nil => simp
  | cons a as ih => rw [List.foldl_cons, ih, hstp, List.map_cons, List.prod_cons, mul_assoc]

/-- The eigenvalue of a bit string is the phase of the measured string. -/
lemma ofReal_eigenvalueOf (ps : List (ℕ × Pauli)) :
    ofReal (eigenvalueOf (bits.map bitChar) ps : ℝ) = (ps.map fun entry =>
        (entry.2.measured.phase (bits[entry.1]?.getD false) : Complex ℝ)).prod := by
  have hbyte : ∀ q : ℕ, (toUtf8 (bits.map bitChar))[q]?.getD 48 = 48 ↔
      bits[q]?.getD false = false := by
    intro q
    rw [toUtf8_map_bitChar, List.getElem?_map]
    rcases bits[q]? with _ | _ | _ <;> decide
  have hsign : ∀ (q : ℕ) (v : ℝ), ofReal (v *
      if (toUtf8 (bits.map bitChar))[q]?.getD 48 = 48 then 1 else -1) =
      ofReal v * Pauli.Z.phase (bits[q]?.getD false) := by
    intro q v
    rw [if_congr (hbyte q) rfl rfl]
    cases bits[q]?.getD false <;> ext <;> simp [phase, Pauli.entry, flips]
  rw [eigenvalueOf, ofReal_foldl_mul, map_one, one_mul]
  rintro v ⟨q, pauli⟩
  cases pauli with
  | I => simp [Pauli.measured, phase, Pauli.entry, flips]
  | X | Y | Z => exact hsign q v

/-! ### The measured circuit -/

def Circuit.extended (circuit : Circuit ℝ) (more : List (Instruction ℝ)) : Circuit ℝ :=
  { circuit with instructions := circuit.instructions ++ more }

lemma add1_eq_ok (c : Circuit ℝ) {q : ℕ} (hq : q < c.numQubits) (gate : Gate ℝ) :
    add1 gate q c = (.ok (), c.extended [.gateOp gate [q]]) :=
  check_bind_of_ok (validateQubit_ok.2 hq) _

variable {paulis : List (ℕ × Pauli)} {instructions : List (Instruction ℝ)} {n : ℕ} {qubits : List ℕ}

lemma rotateIntoMeasurementBasis_eq (hlt : ∀ entry ∈ paulis, entry.1 < c.numQubits) :
    rotateIntoMeasurementBasis paulis c = (.ok (), c.extended (paulis.flatMap rotation)) := by
  induction paulis generalizing c with
  | nil => simp [rotateIntoMeasurementBasis, extended]
  | cons entry paulis ih =>
    obtain ⟨hq, hr⟩ := List.forall_mem_cons.1 hlt
    rw [rotateIntoMeasurementBasis, List.map_cons, each_cons_eq_ok]
    refine ⟨c.extended (rotation entry), ?_, ?_⟩
    · obtain ⟨q, pauli⟩ := entry
      cases pauli with
      | I | Z => simp [rotation, extended]
      | X => exact add1_eq_ok c hq h
      | Y =>
        refine (bind_of_ok (add1_eq_ok c hq sdg)).trans ?_
        refine (add1_eq_ok (c.extended _) hq h).trans ?_
        simp [rotation, extended]
    · have h := @ih (c.extended (rotation entry)) hr
      simp only [extended, List.append_assoc] at h ⊢
      exact h

/-- The measurements at the end: all qubits in order, each into a new classical
bit. -/
structure MeasuresInto (n m : ℕ) (qubits : List ℕ) (instructions : List (Instruction ℝ)) :
    Prop where
  qubits_eq : measuredQubits instructions = qubits
  isMeasure : ∀ i ∈ instructions, ∃ q b, i = .measure q b ∧ q < n ∧ b < 2 ^ 64 ∧
    (m + qubits.length < 2 ^ 64 → m ≤ b)

lemma MeasuresInto.measures {m : ℕ}
    (h : MeasuresInto n m qubits instructions) : ∀ i ∈ instructions, ∃ q b, i = .measure q b := by
  intro i hi
  obtain ⟨q, b, hi, -⟩ := h.isMeasure i hi
  exact ⟨q, b, hi⟩

lemma each_measure {c : Circuit ℝ}
    (hword : c.numClassicalBits < 2 ^ 64) (hlt : ∀ q ∈ qubits, q < c.numQubits) :
    ∃ bits more, each (qubits.map fun q => do
        let _ ← measure q) c =
        (.ok (), { c.extended more with numClassicalBits := bits }) ∧
      MeasuresInto c.numQubits c.numClassicalBits qubits more ∧
      (c.numClassicalBits + qubits.length < 2 ^ 64 →
        bits = c.numClassicalBits + qubits.length) := by
  induction qubits generalizing c with
  | nil =>
    refine ⟨c.numClassicalBits, [], ?_, ⟨rfl, by simp⟩, fun _ => rfl⟩
    simp [extended]
  | cons q qubits ih =>
    obtain ⟨hq, hr⟩ := List.forall_mem_cons.1 hlt
    let next : Circuit ℝ := { c.extended [.measure q c.numClassicalBits] with
      numClassicalBits := U64.wrappingAdd c.numClassicalBits 1 }
    obtain ⟨bits, more, heach, hmeas, hbt⟩ := @ih next (mod_lt _ (Nat.two_pow_pos 64)) hr
    have hstp : (do let _ ← measure q : Builder ℝ Unit) c = (.ok (), next) := by
      have hmea : measure q c = (.ok c.numClassicalBits, next) :=
        check_bind_of_ok (validateQubit_ok.2 hq) _
      exact bind_of_ok hmea
    have hnx : c.numClassicalBits + (q :: qubits).length < 2 ^ 64 →
        U64.wrappingAdd c.numClassicalBits 1 = c.numClassicalBits + 1 := by
      intro hfit
      rw [List.length_cons] at hfit
      exact U64.wrappingAdd_of_lt (by omega)
    refine ⟨bits, .measure q c.numClassicalBits :: more, ?_, ⟨?_, ?_⟩, fun hfit => ?_⟩
    · rw [List.map_cons, each_cons_eq_ok]
      refine ⟨next, hstp, heach.trans ?_⟩
      simp [next, extended]
    · exact congrArg (q :: ·) hmeas.qubits_eq
    · refine List.forall_mem_cons.2 ⟨⟨q, _, rfl, hq, hword, fun _ => le_rfl⟩, fun i hi => ?_⟩
      obtain ⟨q', b, rfl, hq', hb, hle⟩ := hmeas.isMeasure i hi
      refine ⟨q', b, rfl, hq', hb, fun hfit => ?_⟩
      have hn : next.numClassicalBits = c.numClassicalBits + 1 := hnx hfit
      rw [List.length_cons] at hfit
      omega
    · have hn : next.numClassicalBits = c.numClassicalBits + 1 := hnx hfit
      rw [List.length_cons] at hfit ⊢
      omega

lemma measured_eq (hword : c.numClassicalBits < 2 ^ 64)
    (hlt : ∀ entry ∈ paulis, entry.1 < c.numQubits) :
    ∃ bits more, (∀ {β : Type} (f : Circuit ℝ → Except Stop β), (do
        let rotated ← (rotateIntoMeasurementBasis paulis).on c
        let measured ← measureAll.on rotated
        f measured) = f { c.extended (paulis.flatMap rotation ++ more) with
          numClassicalBits := bits }) ∧
      MeasuresInto c.numQubits c.numClassicalBits (.range c.numQubits) more ∧
      (c.numClassicalBits + c.numQubits < 2 ^ 64 → bits = c.numClassicalBits + c.numQubits) := by
  obtain ⟨bits, more, heach, hmeas, hbt⟩ :=
    @each_measure (.range c.numQubits) (c.extended (paulis.flatMap rotation)) hword
      fun q => mem_range.1
  refine ⟨bits, more, fun f => ?_, hmeas, fun hfit => ?_⟩
  · have hrota : (rotateIntoMeasurementBasis paulis).on c =
        .ok (c.extended (paulis.flatMap rotation)) := by
      rw [Builder.on, rotateIntoMeasurementBasis_eq hlt]
    have hmsd : measureAll.on (c.extended (paulis.flatMap rotation)) =
        .ok { c.extended (paulis.flatMap rotation ++ more) with
          numClassicalBits := bits } := by
      rw [Builder.on, show measureAll (c.extended (paulis.flatMap rotation)) = _ from heach]
      simp [extended]
    rw [hrota]
    exact (congrArg (· >>= f) hmsd)
  · rw [List.length_range] at hbt
    exact hbt hfit

lemma rotation_fits {e : ℕ × Pauli} (hq : e.1 < n) :
    ∀ i ∈ rotation e, i.WellFormed n 0 ∧ i.IsUnitary ∧ i.Unconditional := by
  have hfit : ∀ gate : Gate ℝ, gate.OnQubits 1 → GateFits n gate [e.1] := fun gate h =>
    ⟨h.width, .inl h.width, List.nodup_singleton _, by simpa using hq, h.width ▸ h.size⟩
  obtain ⟨q, pauli⟩ := e
  have hh := hfit h ⟨rfl, rfl⟩
  cases pauli with
  | I | Z => exact List.forall_mem_nil _
  | X => exact List.forall_mem_singleton.2 ⟨hh, h_isUnitary, trivial⟩
  | Y =>
    refine List.forall_mem_cons.2 ⟨⟨hfit sdg ⟨rfl, rfl⟩, sdg_isUnitary, trivial⟩, ?_⟩
    exact List.forall_mem_singleton.2 ⟨hh, h_isUnitary, trivial⟩

lemma rotations_fit (hlt : ∀ entry ∈ paulis, entry.1 < n) :
    ∀ i ∈ paulis.flatMap rotation, i.WellFormed n 0 ∧ i.IsUnitary ∧ i.Unconditional := by
  intro i hi
  obtain ⟨entry, hent, hi⟩ := List.mem_flatMap.1 hi
  exact rotation_fits (hlt entry hent) i hi

def Instruction.Unmeasured {F : Type} : Instruction F → Prop
  | .measure _ _ => False
  | .gateOp _ _ | .conditionalGate _ _ _ _ | .barrier _ => True

lemma Instruction.IsUnitary.unmeasured {i : Instruction ℝ} (h : i.IsUnitary) : i.Unmeasured := by
  cases i with
  | measure => exact h
  | gateOp | conditionalGate | barrier => trivial

lemma measuredQubits_of_unmeasured
    (h : ∀ i ∈ instructions, i.Unmeasured) : measuredQubits instructions = [] := by
  refine List.filterMap_eq_nil_iff.2 fun i hi => ?_
  cases i with
  | measure => exact (h _ hi).elim
  | gateOp | conditionalGate | barrier => rfl

section
variable {instructions more : List (Instruction ℝ)}

lemma hasMidCircuitMeasurement_measures
    (h : ∀ i ∈ more, ∃ q b, i = .measure q b) (saw : Bool) :
    hasMidCircuitMeasurement saw more = false := by
  induction more generalizing saw with
  | nil => rfl
  | cons i more ih =>
    obtain ⟨⟨q, b, rfl⟩, hr⟩ := List.forall_mem_cons.1 h
    exact ih hr true

/-- Without measurements among them, instructions count only where a gate depends
on classical bits. -/
lemma hasMidCircuitMeasurement_append (h : ∀ i ∈ instructions, i.Unmeasured)
    (hmo : hasMidCircuitMeasurement false more = false) :
    hasMidCircuitMeasurement false (instructions ++ more) = false ↔
      ∀ i ∈ instructions, i.Unconditional := by
  induction instructions with
  | nil => simpa using hmo
  | cons i instructions ih =>
    obtain ⟨hi, hr⟩ := List.forall_mem_cons.1 h
    cases i with
    | measure => exact hi.elim
    | gateOp => simpa [hasMidCircuitMeasurement, Instruction.Unconditional] using ih hr
    | conditionalGate => simp [hasMidCircuitMeasurement, Instruction.Unconditional]
    | barrier => simpa [hasMidCircuitMeasurement, Instruction.Unconditional] using ih hr

lemma prepared_measures {n : ℕ} (h : ∀ i ∈ more, ∃ q b, i = .measure q b)
    (ψ : ℕ → Complex ℝ) : prepared n more ψ = ψ := by
  induction more with
  | nil => rfl
  | cons i more ih =>
    obtain ⟨⟨q, b, rfl⟩, hr⟩ := List.forall_mem_cons.1 h
    exact ih hr

end

/-! ### The mean of the estimate -/

section
variable {w shots : ℕ} {layout : StateVectorLayout} {reserve : ℕ → Bool} {circuit : Circuit ℝ}
  {paulis : List (ℕ × Pauli)}

def Circuit.preparedState (circuit : Circuit ℝ) : ℕ → Complex ℝ :=
  prepared circuit.numQubits circuit.instructions basisZero

noncomputable def Circuit.rotatedState (circuit : Circuit ℝ) (paulis : List (ℕ × Pauli)) :
    ℕ → Complex ℝ :=
  prepared circuit.numQubits (paulis.flatMap rotation) circuit.preparedState

/-- The probabilities of the basis states after the rotation. -/
noncomputable def Circuit.weights (circuit : Circuit ℝ) (paulis : List (ℕ × Pauli)) : List ℝ :=
  (List.range (2 ^ circuit.numQubits)).map fun x => (circuit.rotatedState paulis x).normSq

noncomputable def sampledValue (w n : ℕ) (paulis : List (ℕ × Pauli)) (index : ℕ) : ℝ :=
  eigenvalueOf (sampleKey w n (.range n) index) paulis

lemma estimate_eq_mean (hwf : circuit.WellFormed) (hn : circuit.numQubits < w)
    (hrsv : reserve (2 ^ circuit.numQubits)) (hmea : ∀ i ∈ circuit.instructions, i.Unmeasured)
    (hcond : ∀ i ∈ circuit.instructions, i.Unconditional)
    (hlt : ∀ entry ∈ paulis, entry.1 < circuit.numQubits) (hshort : shots ≠ 0) (ds : ℕ → ℝ) :
    estimate w layout reserve circuit paulis shots ds =
      .ok ((∑ i ∈ range shots, sampledValue w circuit.numQubits paulis
        ((firstExceeding lt (ds i) 0 0 (circuit.weights paulis)).getD
          ((circuit.weights paulis).length - 1))) / shots) := by
  obtain ⟨bits, more, hrun, hmeas, -⟩ := measured_eq hwf.word hlt
  have hrots := rotations_fit hlt
  have hmo := hmeas.measures
  have hunmeasured : ∀ i ∈ circuit.instructions ++ paulis.flatMap rotation, i.Unmeasured := by
    exact List.forall_mem_append.2 ⟨hmea, fun i hi => (hrots i hi).2.1.unmeasured⟩
  have hunc : ∀ i ∈ circuit.instructions ++ paulis.flatMap rotation, i.Unconditional := by
    exact List.forall_mem_append.2 ⟨hcond, fun i hi => (hrots i hi).2.2⟩
  let measured : Circuit ℝ := { circuit.extended (paulis.flatMap rotation ++ more) with
    numClassicalBits := bits }
  have hins : measured.instructions =
      (circuit.instructions ++ paulis.flatMap rotation) ++ more := (List.append_assoc _ _ _).symm
  -- all measurements are at the end, so the backend samples
  have hmid : hasMidCircuitMeasurement false measured.instructions = false := by
    rw [hins]
    exact (hasMidCircuitMeasurement_append hunmeasured
      (hasMidCircuitMeasurement_measures hmo false)).2 hunc
  have hqs : measuredQubits measured.instructions = .range circuit.numQubits := by
    rw [hins, measuredQubits, List.filterMap_append, ← measuredQubits,
      measuredQubits_of_unmeasured hunmeasured, ← measuredQubits, hmeas.qubits_eq, List.nil_append]
  have hfit : ∀ i ∈ measured.instructions, i.WellFormed circuit.numQubits (2 ^ 64) := by
    rw [hins, List.forall_mem_append, List.forall_mem_append]
    refine ⟨⟨fun i hi => (hwf.instructions i hi).mono hwf.word.le,
      fun i hi => (hrots i hi).1.mono (zero_le _)⟩, fun i hi => ?_⟩
    obtain ⟨q, b, rfl, hq, hb, -⟩ := hmeas.isMeasure i hi
    exact ⟨hq, hb⟩
  have hcond' : ∀ i ∈ measured.instructions, i.Unconditional := by
    rw [hins]
    refine List.forall_mem_append.2 ⟨hunc, fun i hi => ?_⟩
    obtain ⟨q, b, rfl⟩ := hmo i hi
    trivial
  have hpro : finalProbabilities w layout reserve measured = .ok (circuit.weights paulis) := by
    rw [finalProbabilities_eq hn hrsv (show measured.numQubits = circuit.numQubits from rfl)
      hfit hcond', hins, prepared_append, prepared_append, prepared_measures hmo]
    rfl
  have hres : run w layout reserve measured shots ⟨ds, 0⟩ =
      .ok ⟨sampleShots w circuit.numQubits (.range circuit.numQubits)
        (circuit.weights paulis) shots ⟨ds, 0⟩ [], shots⟩ := by
    rw [StateVectorBackend.run, if_neg hshort, if_neg (Bool.eq_false_iff.1 hmid), runSampleMode,
      hpro, hqs]
    rfl
  rw [estimate, hrun]
  rw [hres]
  refine congrArg Except.ok ?_
  rw [pauliExpectationFromCounts_eq, weighted_sampleShots]
  simp only [weighted, List.map_nil, List.sum_nil, zero_add]
  rfl

/-- The eigenvalue for an index is the phase of the measured string there. -/
lemma ofReal_sampledValue {n : ℕ} (hn : n < w) (hlt : ∀ entry ∈ paulis, entry.1 < n)
    (index : ℕ) : ofReal (sampledValue w n paulis index) =
      phaseOf (measuredString paulis) index := by
  have hkey : sampleKey w n (.range n) index =
      ((List.range n).map fun q => index.testBit q).map bitChar := by
    rw [sampleKey, ite_self, List.map_map]
    refine List.map_congr_left fun q hq => ?_
    rw [shr_and_one ((mem_range.1 hq).trans hn)]
    rfl
  rw [sampledValue, hkey, ofReal_eigenvalueOf, phaseOf, measuredString, List.map_map]
  congr 1
  refine List.map_congr_left fun entry hent => ?_
  have hq := hlt entry hent
  simp [hq]

lemma flipMask_measuredString (ps : List (ℕ × Pauli)) : flipMask (measuredString ps) = 0 := by
  induction ps with
  | nil => rfl
  | cons e ps ih =>
    have hco : flipMask (measuredString (e :: ps)) =
      (if e.2.measured.flips then 2 ^ e.1 else 0) ^^^ flipMask (measuredString ps) :=
      rfl
    rw [hco, ih]
    cases e.2 <;> simp [Pauli.measured, flips]

/-- The mean of the eigenvalue under the probabilities is the expectation. -/
lemma ofReal_sum_sampledValue (hn : circuit.numQubits < w) (hnd : (paulis.map Prod.fst).Nodup)
    (hlt : ∀ entry ∈ paulis, entry.1 < circuit.numQubits) :
    ofReal (∑ x ∈ range (circuit.weights paulis).length,
      (circuit.weights paulis).getD x 0 * sampledValue w circuit.numQubits paulis x) =
      expectation circuit.numQubits (pauliOperator circuit.numQubits paulis)
        circuit.preparedState := by
  have hlt' : ∀ entry ∈ measuredString paulis, entry.1 < circuit.numQubits := by
    intro entry hent
    obtain ⟨original, horig, rfl⟩ := List.mem_map.1 hent
    exact hlt original horig
  rw [← expectation_measuredString hnd hlt, expectation_pauliOperator
    (by rwa [map_fst_measuredString]) hlt', map_sum, weights, List.length_map,
    List.length_range]
  refine sum_congr rfl fun x hx => ?_
  rw [List.getD_eq_getElem _ _ (by simpa using hx), List.getElem_map, List.getElem_range, map_mul,
    ofReal_sampledValue hn hlt, flipMask_measuredString, xor_zero]
  have hnormSq : ofReal (circuit.rotatedState paulis x).normSq =
      (circuit.rotatedState paulis x).conj * circuit.rotatedState paulis x := by
    ext
    · simp [normSq]
    · simp
      ring
  rw [hnormSq, rotatedState]
  ring

/-- What is taken as the value of a run that does not return. -/
def valueOf : Except Stop ℝ → ℝ
  | .ok value => value
  | .error _ => 0

/-- Almost every run returns an estimate, and the mean of the estimates is the
expectation of the string in the state that the circuit prepares. -/
structure Unbiased (w : ℕ) (layout : StateVectorLayout) (reserve : ℕ → Bool)
    (circuit : Circuit ℝ) (paulis : List (ℕ × Pauli)) (shots : ℕ) : Prop where
  returns : ∀ᵐ draws ∂uniformDraws, ∃ value,
    estimate w layout reserve circuit paulis shots draws = .ok value
  mean : ofReal (∫ draws, valueOf (estimate w layout reserve circuit paulis shots draws)
      ∂uniformDraws) =
    expectation circuit.numQubits (pauliOperator circuit.numQubits paulis) circuit.preparedState

lemma sum_weights (hnr : ∑ x ∈ range (2 ^ circuit.numQubits), (circuit.preparedState x).normSq = 1)
    (hlt : ∀ entry ∈ paulis, entry.1 < circuit.numQubits) : (circuit.weights paulis).sum = 1 := by
  have hrots := rotations_fit hlt
  rw [← hnr]
  exact sum_normSq_prepared (fun i hi => (hrots i hi).1) (fun i hi => (hrots i hi).2.1) _

end

/-- For a circuit of gates and barriers that prepares a state of norm one, the mean
of the estimates is the expectation of the string in that state. -/
theorem estimate_unbiased {w shots : ℕ} {layout : StateVectorLayout} {reserve : ℕ → Bool}
    {circuit : Circuit ℝ} {paulis : List (ℕ × Pauli)} (hwf : circuit.WellFormed)
    (hgates : ∀ i ∈ circuit.instructions, i.Unmeasured ∧ i.Unconditional)
    (hnorm : ∑ x ∈ range (2 ^ circuit.numQubits), (circuit.preparedState x).normSq = 1)
    (hnodup : (paulis.map Prod.fst).Nodup) (hlt : ∀ entry ∈ paulis, entry.1 < circuit.numQubits)
    (hn : circuit.numQubits < w) (hreserve : reserve (2 ^ circuit.numQubits)) (hshots : shots ≠ 0) :
    Unbiased w layout reserve circuit paulis shots := by
  have hmean := @estimate_eq_mean w shots layout reserve circuit paulis hwf hn hreserve
    (fun i hi => (hgates i hi).1) (fun i hi => (hgates i hi).2) hlt hshots
  refine ⟨.of_forall fun draws => ⟨_, hmean draws⟩, ?_⟩
  have hless : ∀ a b : ℝ, lt a b ↔ a < b := fun a b => decide_eq_true_iff
  have hnonneg : ∀ p ∈ circuit.weights paulis, 0 ≤ p := by
    intro p hp
    obtain ⟨x, -, rfl⟩ := List.mem_map.1 hp
    exact add_nonneg (mul_self_nonneg _) (mul_self_nonneg _)
  simp only [hmean]
  rw [← ofReal_sum_sampledValue hn hnodup hlt]
  exact congrArg ofReal
    (integral_mean_firstExceeding hless hnonneg (sum_weights hnorm hlt) _ _ hshots)

noncomputable def bellCircuit : Circuit ℝ := ⟨2, 0, [.gateOp h [0], .gateOp cnot [0, 1]]⟩

theorem bellCircuit_isUnitary : bellCircuit.IsUnitary := by
  have hfirst : GateFits 2 (h : Gate ℝ) [0] := ⟨rfl, .inl rfl, by decide, by decide, rfl⟩
  have hsecond : GateFits 2 (cnot : Gate ℝ) [0, 1] := ⟨rfl, .inr rfl, by decide, by decide, rfl⟩
  refine ⟨⟨by decide, ?_⟩, ?_⟩
  · exact List.forall_mem_cons.2 ⟨hfirst, List.forall_mem_singleton.2 hsecond⟩
  · exact List.forall_mem_cons.2 ⟨h_isUnitary, List.forall_mem_singleton.2 cnot_isUnitary⟩

theorem estimate_unbiased_bell :
    Unbiased 64 .aos (fun _ => true) bellCircuit [(0, .X), (1, .Y)] 100 := by
  refine estimate_unbiased bellCircuit_isUnitary.wellFormed (fun i hi => ?_)
    (bellCircuit_isUnitary.norm_prepared rfl) (by decide) (by decide) (by decide) rfl (by decide)
  have hunitary := bellCircuit_isUnitary.instructions i hi
  exact ⟨hunitary.unmeasured, hunitary.unconditional⟩

end Waros.Quantum
