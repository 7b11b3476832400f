import Waros.Quantum.RealArithmetic
import Waros.Quantum.Simulator

/-!
The state that a circuit prepares, and that the simulator computes it. A gate
that depends on classical bits is applied where they are all zero and zero is
the value it asks for.
-/

namespace Waros.Quantum

open Finset StateVectorBackend StateVectorSoA

section
variable {F : Type} [CommRing F] {n : ℕ}

/-- The amplitudes after the instructions, with all classical bits zero. -/
def prepared (n : ℕ) : List (Instruction F) → (ℕ → Complex F) → ℕ → Complex F
  | [], ψ => ψ
  | .gateOp gate targets :: instructions, ψ => prepared n instructions (applied n targets gate ψ)
  | .conditionalGate _ value gate targets :: instructions, ψ =>
    prepared n instructions (if value = 0 then applied n targets gate ψ else ψ)
  | .measure _ _ :: instructions, ψ => prepared n instructions ψ
  | .barrier _ :: instructions, ψ => prepared n instructions ψ

lemma prepared_append (first second : List (Instruction F)) (ψ : ℕ → Complex F) :
    prepared n (first ++ second) ψ = prepared n second (prepared n first ψ) := by
  induction first generalizing ψ with
  | nil => rfl
  | cons i _ ih =>
    cases i with
    | gateOp | conditionalGate | measure | barrier => exact ih _

/-- The gate reads the amplitudes of the `n` qubits only. -/
lemma applied_congr {ts : List ℕ} {gate : Gate F} {φ ψ : ℕ → Complex F}
    (h : ∀ x < 2 ^ n, φ x = ψ x) : applied n ts gate φ = applied n ts gate ψ := by
  funext x
  refine sum_congr rfl fun y hy => ?_
  rw [h y (mem_range.1 (mem_filter.1 hy).1)]

/-- A unitary circuit keeps the norm. -/
lemma sum_normSq_prepared {m : ℕ} {ins : List (Instruction F)}
    (hfit : ∀ i ∈ ins, i.WellFormed n m) (hunit : ∀ i ∈ ins, i.IsUnitary) (ψ : ℕ → Complex F) :
    ∑ x ∈ range (2 ^ n), (prepared n ins ψ x).normSq = ∑ x ∈ range (2 ^ n), (ψ x).normSq := by
  induction ins generalizing ψ with
  | nil => rfl
  | cons i _ ih =>
    obtain ⟨hi, hr⟩ := List.forall_mem_cons.1 hfit
    obtain ⟨hu, hr'⟩ := List.forall_mem_cons.1 hunit
    cases i with
    | gateOp => exact (ih hr hr' _).trans (sum_normSq_applied hu hi.width hi.nodup hi.lt ψ)
    | conditionalGate | measure => exact hu.elim
    | barrier => exact ih hr hr' ψ

end

/-! ### The simulator computes it -/

/-- The list holds the amplitudes of `n` qubits. -/
structure Holds (n : ℕ) (state : List (Complex ℝ)) (ψ : ℕ → Complex ℝ) : Prop where
  length : state.length = 2 ^ n
  amplitude : ∀ x < 2 ^ n, state.getD x 0 = ψ x

section
variable {w n m : ℕ} {state : List (Complex ℝ)} {ψ : ℕ → Complex ℝ}

lemma holds_range (ψ : ℕ → Complex ℝ) : Holds n ((List.range (2 ^ n)).map ψ) ψ := by
  refine ⟨by simp, fun x hx => ?_⟩
  rw [List.getD_eq_getElem _ _ (by simpa using hx)]
  simp

/-- The amplitudes of the first basis state. -/
def basisZero (x : ℕ) : Complex ℝ := if x = 0 then 1 else 0

lemma holds_replicate : Holds n ((List.replicate (2 ^ n) (0 : Complex ℝ)).set 0 1) basisZero := by
  refine ⟨by simp, fun x hx => ?_⟩
  rw [List.getD_eq_getElem _ _ (by simpa using hx), List.getElem_set, basisZero]
  simp [eq_comm]

/-- A gate that fits turns the amplitudes into those after it, in both layouts. -/
lemma Holds.applyGate (hn : n < w) (h : Holds n state ψ) {gate : Gate ℝ} {ts : List ℕ}
    (hfit : GateFits n gate ts) :
    ∃ state', Holds n state' (applied n ts gate ψ) ∧ applyGate w state ts gate = some state' ∧
      applyGateSoa w (.ofAos state) ts gate = some (.ofAos state') := by
  refine ⟨(List.range (2 ^ n)).map (applied n ts gate ψ), holds_range _, ?_⟩
  rw [← applied_congr h.amplitude]
  rcases hfit.supported with hone | htwo
  · obtain ⟨q₀, rfl⟩ := List.length_eq_one_iff.1 (hfit.width.symm.trans hone)
    have hgiv := apply1qGives_applied hn (hfit.lt q₀ (by simp))
      ⟨hone, hone ▸ hfit.size⟩ h.length
    simp only [Quantum.applyGate, applyGateSoa, hone]
    exact ⟨hgiv.sequential, hgiv.soa⟩
  · obtain ⟨q₀, q₁, rfl⟩ := List.length_eq_two.1 (hfit.width.symm.trans htwo)
    have hne : q₀ ≠ q₁ := by simpa using hfit.nodup
    have hgiv := apply2qGives_applied hn (hfit.lt q₀ (by simp)) (hfit.lt q₁ (by simp)) hne
      ⟨htwo, htwo ▸ hfit.size⟩ h.length
    simp only [Quantum.applyGate, applyGateSoa, htwo]
    exact ⟨hgiv.sequential, hgiv.soa⟩

/-- The instruction is no gate that depends on classical bits. -/
def Instruction.Unconditional {F : Type} : Instruction F → Prop
  | .conditionalGate _ _ _ _ => False
  | .gateOp _ _ | .measure _ _ | .barrier _ => True

lemma Holds.applySequence (hn : n < w) (h : Holds n state ψ)
    {ins : List (Instruction ℝ)} (hfit : ∀ i ∈ ins, i.WellFormed n m)
    (hcond : ∀ i ∈ ins, i.Unconditional) :
    ∃ state', Holds n state' (prepared n ins ψ) ∧
      applySequence (Quantum.applyGate w) state ins = some state' ∧
      applySequence (applyGateSoa w) (.ofAos state) ins = some (.ofAos state') := by
  induction ins generalizing state ψ with
  | nil => exact ⟨state, h, rfl, rfl⟩
  | cons i _ ih =>
    obtain ⟨hi, hr⟩ := List.forall_mem_cons.1 hfit
    obtain ⟨hu, hr'⟩ := List.forall_mem_cons.1 hcond
    cases i with
    | gateOp =>
      obtain ⟨state₁, h₁, hg, hgateSoa⟩ := h.applyGate hn hi
      obtain ⟨state', h', haos, hsoa⟩ := ih h₁ hr hr'
      refine ⟨state', h', ?_, ?_⟩
      · rw [applySequence, hg]
        exact haos
      · rw [applySequence, hgateSoa]
        exact hsoa
    | conditionalGate => exact hu.elim
    | measure | barrier => exact ih h hr hr'

lemma probabilities_ofAos (st : List (Complex ℝ)) :
    (ofAos st).probabilities = st.map Complex.normSq := by
  induction st with
  | nil => rfl
  | cons a _ ih => exact congrArg (a.normSq :: ·) ih

lemma Holds.map_normSq (h : Holds n state ψ) :
    state.map Complex.normSq = (List.range (2 ^ n)).map fun x => (ψ x).normSq := by
  refine List.ext_getElem (by simp [h.length]) fun x hx hx' => ?_
  have hx : x < 2 ^ n := by simpa using hx'
  have hamp := h.amplitude x hx
  rw [List.getD_eq_getElem _ _ (h.length ▸ hx)] at hamp
  simp [hamp]

variable {reserve : ℕ → Bool} {circuit : Circuit ℝ}

/-- The probabilities that both layouts end with. -/
lemma finalProbabilities_eq (hn : n < w) (hrsv : reserve (2 ^ n))
    (hwid : circuit.numQubits = n) (hfit : ∀ i ∈ circuit.instructions, i.WellFormed n m)
    (hcond : ∀ i ∈ circuit.instructions, i.Unconditional) (lay : StateVectorLayout) :
    finalProbabilities w lay reserve circuit = .ok ((List.range (2 ^ n)).map fun x =>
        (prepared n circuit.instructions basisZero x).normSq) := by
  obtain ⟨state', h', haos, hsoa⟩ := holds_replicate.applySequence hn hfit hcond
  have hshl : shl w 1 circuit.numQubits = 2 ^ n := by rw [hwid, shl_one hn]
  cases lay with
  | aos =>
    have h0 : zeroState w reserve circuit.numQubits =
        .ok ((List.replicate (2 ^ n) (0 : Complex ℝ)).set 0 1) := by
      rw [zeroState, hshl, if_pos hrsv]
    rw [finalProbabilities, h0]
    dsimp only
    rw [haos, ← h'.map_normSq]
  | soa =>
    have h0 : zeroStateSoa w reserve circuit.numQubits =
        .ok (ofAos ((List.replicate (2 ^ n) (0 : Complex ℝ)).set 0 1)) := by
      rw [zeroStateSoa, hshl, if_pos hrsv, ofAos]
      simp
    rw [finalProbabilities, h0]
    dsimp only
    rw [hsoa, ← h'.map_normSq, ← probabilities_ofAos]

lemma intoAos_ofAos (state : List (Complex ℝ)) : (ofAos state).intoAos = state := by
  induction state with
  | nil => rfl
  | cons a _ ih => exact congrArg (a :: ·) ih

/-- A state vector that is returned for a circuit without conditions holds the
state that the circuit prepares. -/
lemma statevector_holds (hn : n < w) (hwid : circuit.numQubits = n)
    (hfit : ∀ i ∈ circuit.instructions, i.WellFormed n m)
    (hcond : ∀ i ∈ circuit.instructions, i.Unconditional) {lay : StateVectorLayout}
    (h : statevector w lay reserve circuit = .ok state) :
    Holds n state (prepared n circuit.instructions basisZero) := by
  obtain ⟨state', h', haos, hsoa⟩ := holds_replicate.applySequence hn hfit hcond
  have hshl : shl w 1 circuit.numQubits = 2 ^ n := by rw [hwid, shl_one hn]
  cases lay with
  | aos =>
    rw [statevector, zeroState, hshl] at h
    split_ifs at h
    dsimp only at h
    rw [haos] at h
    cases h
    exact h'
  | soa =>
    rw [statevector, zeroStateSoa, hshl] at h
    split_ifs at h
    have h0 : (⟨(List.replicate (2 ^ n) 0).set 0 1, .replicate (2 ^ n) 0⟩ :
        StateVectorSoA ℝ) = .ofAos ((List.replicate (2 ^ n) 0).set 0 1) := by
      simp [ofAos]
    dsimp only at h
    rw [h0, hsoa] at h
    cases h
    rwa [intoAos_ofAos]

end

/-!
## Rotation into the measurement basis

The rotation into the measurement basis: the expectation of a Pauli string
before it is the expectation of a string of `Z` after it.
-/

open Gate Function

section
variable {F : Type} [CommRing F] {n : ℕ}

/-- The tensor product of one matrix for each qubit. -/
def tensor (n : ℕ) (factor : ℕ → Bool → Bool → Complex F) (x y : ℕ) : Complex F :=
  ∏ q ∈ range n, factor q (x.testBit q) (y.testBit q)

/-- The matrix on one qubit that has, before the gate, the expectation that
`factor` has after it. -/
def conjugated (gate : Gate F) (factor : Bool → Bool → Complex F) (a b : Bool) : Complex F :=
  ∑ row ∈ range 2, ∑ col ∈ range 2,
    (gate.entry row a.toNat).conj * factor (decide (row = 1)) (decide (col = 1)) *
      gate.entry col b.toNat

lemma decide_toNat_eq_one (bit : Bool) : decide (bit.toNat = 1) = bit := by cases bit <;> rfl

/-- Only the indices that agree with `y` and `z` outside the target count. -/
lemma pulledBack_eq_sum_agreeing (ts : List ℕ) (gate : Gate F) (A : ℕ → ℕ → Complex F) (y z : ℕ) :
    pulledBack n ts gate A y z = ∑ x ∈ agreeing n ts y, ∑ x' ∈ agreeing n ts z,
        (gate.entry (rowIndex ts x) (rowIndex ts y)).conj * A x x' *
          gate.entry (rowIndex ts x') (rowIndex ts z) := by
  have h0 : (0 : Complex F).conj = 0 := map_zero Complex.conjHom
  have hcomm : ∀ x y, AgreeOutside n ts x y ↔ AgreeOutside n ts y x := fun x y => ⟨.symm, .symm⟩
  simp only [agreeing, sum_filter]
  refine sum_congr rfl fun x _ => ?_
  by_cases hx : AgreeOutside n ts y x
  · rw [if_pos hx]
    refine sum_congr rfl fun x' _ => ?_
    rw [lifted, if_pos ((hcomm _ _).1 hx), lifted, mul_ite, mul_zero]
    exact if_congr (hcomm _ _) rfl rfl
  · rw [if_neg hx]
    refine sum_eq_zero fun x' _ => ?_
    rw [lifted, if_neg fun h => hx ((hcomm _ _).1 h), h0, zero_mul, zero_mul]

variable {factor : ℕ → Bool → Bool → Complex F}

lemma tensor_update {q x y : ℕ} (hq : q < n) (e : Bool → Bool → Complex F) :
    tensor n (update factor q e) x y =
      (∏ j ∈ (range n).erase q, factor j (x.testBit j) (y.testBit j)) *
        e (x.testBit q) (y.testBit q) := by
  rw [tensor, ← prod_erase_mul _ _ (mem_range.2 hq), update_self]
  congr 1
  refine prod_congr rfl fun j hj => ?_
  rw [update_of_ne (ne_of_mem_erase hj)]

lemma pulledBack_tensor {q y z : ℕ} (hq : q < n) (hy : y < 2 ^ n) (hz : z < 2 ^ n) (gate : Gate F) :
    pulledBack n [q] gate (tensor n factor) y z =
      tensor n (update factor q (conjugated gate (factor q))) y z := by
  -- The other qubits have the bits of y and z.
  have hfac : ∀ x ∈ agreeing n [q] y, ∀ x' ∈ agreeing n [q] z, tensor n factor x x' =
      (∏ j ∈ (range n).erase q, factor j (y.testBit j) (z.testBit j)) *
        factor q (decide (rowIndex [q] x = 1)) (decide (rowIndex [q] x' = 1)) := by
    intro x hx x' hx'
    rw [tensor, ← prod_erase_mul _ _ (mem_range.2 hq), rowIndex_singleton,
      rowIndex_singleton, decide_toNat_eq_one, decide_toNat_eq_one]
    congr 1
    refine prod_congr rfl fun j hj => ?_
    obtain ⟨hne, hj⟩ := mem_erase.1 hj
    have hmem : j ∉ [q] := by simpa using hne
    rw [(mem_agreeing.1 hx).2 j (mem_range.1 hj) hmem,
      (mem_agreeing.1 hx').2 j (mem_range.1 hj) hmem]
  have hrows : ∀ y < 2 ^ n, ∀ g : ℕ → Complex F,
      ∑ x ∈ agreeing n [q] y, g (rowIndex [q] x) = ∑ row ∈ range 2, g row :=
    fun y hy g => sum_agreeing (List.nodup_singleton q) (by simpa using hq) hy g
  rw [pulledBack_eq_sum_agreeing, tensor_update hq, conjugated, mul_sum, ← hrows y hy]
  refine sum_congr rfl fun x hx => ?_
  rw [mul_sum, ← hrows z hz]
  refine sum_congr rfl fun x' hx' => ?_
  rw [hfac x hx x' hx', rowIndex_singleton q y, rowIndex_singleton q z]
  ring

lemma expectation_tensor_applied (k : ℕ → Bool → Bool → Complex F) {q : ℕ} (hq : q < n)
    (gate : Gate F) (ψ : ℕ → Complex F) :
    expectation n (tensor n k) (applied n [q] gate ψ) =
      expectation n (tensor n (update k q (conjugated gate (k q)))) ψ := by
  rw [expectation_applied]
  exact expectation_congr (fun y hy z hz => pulledBack_tensor hq hy hz gate) ψ

end

lemma conjugated_h : conjugated (h : Gate ℝ) Pauli.Z.entry = Pauli.X.entry := by
  have hhalf := fracOneSqrtTwo_mul_self
  funext a b
  cases a <;> cases b <;> ext <;>
    simp [conjugated, sum_range_succ, entry, Gate.get, h, single, Pauli.entry, hhalf] <;> norm_num

lemma conjugated_sdg : conjugated (sdg : Gate ℝ) Pauli.X.entry = Pauli.Y.entry := by
  funext a b
  cases a <;> cases b <;> ext <;>
    simp [conjugated, sum_range_succ, entry, Gate.get, sdg, single, Pauli.entry]

def Pauli.measured : Pauli → Pauli
  | .I => .I
  | .X | .Y | .Z => .Z

/-- The gates for one factor. -/
noncomputable def rotation (entry : ℕ × Pauli) : List (Instruction ℝ) :=
  match entry.2 with
  | .I | .Z => []
  | .X => [.gateOp h [entry.1]]
  | .Y => [.gateOp sdg [entry.1], .gateOp h [entry.1]]

variable {n : ℕ}

lemma expectation_rotation {k : ℕ → Bool → Bool → Complex ℝ} {e : ℕ × Pauli}
    (hq : e.1 < n) (hfac : k e.1 = e.2.measured.entry) (ψ : ℕ → Complex ℝ) :
    expectation n (tensor n k) (prepared n (rotation e) ψ) =
      expectation n (tensor n (update k e.1 e.2.entry)) ψ := by
  obtain ⟨q, pauli⟩ := e
  cases pauli with
  | I => rw [← (show k q = Pauli.I.entry from hfac), update_eq_self]; rfl
  | Z => rw [← (show k q = Pauli.Z.entry from hfac), update_eq_self]; rfl
  | X =>
    have h := expectation_tensor_applied k hq h ψ
    rwa [show k q = Pauli.Z.entry from hfac, conjugated_h] at h
  | Y =>
    have h := expectation_tensor_applied k hq h (applied n [q] sdg ψ)
    rw [show k q = Pauli.Z.entry from hfac, conjugated_h,
      expectation_tensor_applied (update k q Pauli.X.entry) hq,
      update_self, conjugated_sdg, update_idem] at h
    exact h

/-- The factors with those of the string in their places. -/
def overwrite (factor : ℕ → Bool → Bool → Complex ℝ) :
    List (ℕ × Pauli) → ℕ → Bool → Bool → Complex ℝ
  | [] => factor
  | entry :: paulis => update (overwrite factor paulis) entry.1 entry.2.entry

variable (factor : ℕ → Bool → Bool → Complex ℝ) (paulis : List (ℕ × Pauli))

lemma overwrite_apply (q : ℕ) : overwrite factor paulis q =
      if q ∈ paulis.map Prod.fst then (factorAt paulis q).entry else factor q := by
  induction paulis with
  | nil => simp [overwrite]
  | cons entry _ ih =>
    obtain ⟨q', pauli⟩ := entry
    by_cases hq : q = q'
    · subst hq
      simp [overwrite, factorAt_cons_self]
    · rw [overwrite, update_of_ne hq, ih, factorAt_cons_of_ne hq]
      refine if_congr ?_ rfl rfl
      rw [List.map_cons, List.mem_cons, or_iff_right hq]

lemma expectation_rotations {ps : List (ℕ × Pauli)} (hnd : (ps.map Prod.fst).Nodup)
    (hlt : ∀ entry ∈ ps, entry.1 < n)
    (hfac : ∀ entry ∈ ps, factor entry.1 = entry.2.measured.entry) (ψ : ℕ → Complex ℝ) :
    expectation n (tensor n factor) (prepared n (ps.flatMap rotation) ψ) =
      expectation n (tensor n (overwrite factor ps)) ψ := by
  induction ps generalizing ψ with
  | nil => rfl
  | cons _ _ ih =>
    rw [List.map_cons, List.nodup_cons] at hnd
    obtain ⟨hq, hlt⟩ := List.forall_mem_cons.1 hlt
    obtain ⟨hent, hfac⟩ := List.forall_mem_cons.1 hfac
    rw [List.flatMap_cons, prepared_append, ih hnd.2 hlt hfac, expectation_rotation hq]
    · rfl
    · rw [overwrite_apply, if_neg hnd.1, hent]

def measuredString : List (ℕ × Pauli) := paulis.map fun entry => (entry.1, entry.2.measured)

lemma map_fst_measuredString : (measuredString paulis).map Prod.fst = paulis.map Prod.fst := by
  simp [measuredString]

/-- The expectation of a string before the rotation is that of the measured
string after it. -/
lemma expectation_measuredString {paulis : List (ℕ × Pauli)}
    (hnd : (paulis.map Prod.fst).Nodup) (hlt : ∀ entry ∈ paulis, entry.1 < n) (ψ : ℕ → Complex ℝ) :
    expectation n (pauliOperator n (measuredString paulis))
        (prepared n (paulis.flatMap rotation) ψ) =
      expectation n (pauliOperator n paulis) ψ := by
  have hnd' : ((measuredString paulis).map Prod.fst).Nodup := by rwa [map_fst_measuredString]
  have hfac : ∀ entry ∈ paulis, ((factorAt (measuredString paulis) entry.1).entry :
      Bool → Bool → Complex ℝ) = entry.2.measured.entry := by
    intro entry hent
    have hmem : (entry.1, entry.2.measured) ∈ measuredString paulis := List.mem_map_of_mem hent
    rw [show factorAt (measuredString paulis) entry.1 = entry.2.measured from
      factorAt_of_mem hnd' hmem]
  have h := expectation_rotations (fun q => (factorAt (measuredString paulis) q).entry) hnd
    hlt hfac ψ
  refine h.trans (congrArg (fun A => expectation n A ψ) ?_)
  funext x y
  refine prod_congr rfl fun q _ => ?_
  rw [overwrite_apply]
  split_ifs with hmem
  · rfl
  · rw [factorAt_of_notMem hmem, factorAt_of_notMem (by rwa [map_fst_measuredString])]

end Waros.Quantum
