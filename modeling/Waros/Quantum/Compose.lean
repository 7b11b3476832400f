import Mathlib.Data.List.GetD
import Waros.Quantum.Circuit

/-!
Copying the instructions of one circuit into another, with `append` and
`compose`. A copied measurement gets a new classical bit, and the other
instructions keep their classical bits; `appended` says what one instruction
adds. Measuring all qubits adds instructions in the same way.
-/

namespace Waros.Quantum.Circuit

open Lib List
variable {F : Type}

/-- The `otherQubits` qubits of another circuit go to distinct qubits. -/
structure Placement (qubitMapping : Option (List ℕ)) (otherQubits numQubits : ℕ)
    (place : ℕ → ℕ) : Prop where
  map : ∀ q < otherQubits, mapQubit qubitMapping q = some (place q)
  lt : ∀ q < otherQubits, place q < numQubits
  inj : ∀ q < otherQubits, ∀ q' < otherQubits, place q = place q' → q = q'

lemma placement_none (numQubits : ℕ) : Placement none numQubits numQubits id :=
  ⟨fun _ _ => rfl, fun _ h => h, fun _ _ _ _ h => h⟩

variable {m numQubits : ℕ} {mp : Option (List ℕ)}

lemma placement_some {mp : List ℕ} (hlen : mp.length = m) (hnd : mp.Nodup)
    (hlt : ∀ q ∈ mp, q < numQubits) : Placement (some mp) m numQubits (mp.getD · 0) := by
  subst hlen
  refine ⟨fun q hq => ?_, fun q hq => ?_, fun q hq q' hq' heq => ?_⟩
  · rw [mapQubit, getElem?_eq_getElem hq, getD_eq_getElem]
  · rw [getD_eq_getElem mp 0 hq]
    exact hlt _ (getElem_mem hq)
  · rw [getD_eq_getElem mp 0 hq, getD_eq_getElem mp 0 hq'] at heq
    exact (hnd.getElem_inj_iff).1 heq

variable {qubits : List ℕ} {circuit : Circuit F} {qubit : ℕ} {instructions : List (Instruction F)}

lemma Placement.mapQubits {place : ℕ → ℕ} (h : Placement mp m numQubits place)
    (hlt : ∀ q ∈ qubits, q < m) : mapQubits mp qubits = some (qubits.map place) := by
  induction qubits with
  | nil => rfl
  | cons q qubits ih =>
    obtain ⟨hq, hlt⟩ := forall_mem_cons.1 hlt
    have hr : qubits.mapM (mapQubit mp) = some (qubits.map place) := ih hlt
    rw [Circuit.mapQubits, mapM_cons, h.map q hq, hr]
    rfl

lemma Placement.nodup {place : ℕ → ℕ} (h : Placement mp m numQubits place) (hnd : qubits.Nodup)
    (hlt : ∀ q ∈ qubits, q < m) : (qubits.map place).Nodup :=
  (nodup_map_iff_inj_on hnd).2 fun q hq q' hq' => h.inj q (hlt q hq) q' (hlt q' hq')

lemma Placement.map_lt {place : ℕ → ℕ} (h : Placement mp m numQubits place)
    (hlt : ∀ q ∈ qubits, q < m) : ∀ q ∈ qubits.map place, q < numQubits := by
  intro q hq
  obtain ⟨q', hq', rfl⟩ := mem_map.1 hq
  exact h.lt q' (hlt q' hq')

def measured (circuit : Circuit F) (qubit : ℕ) : Circuit F :=
  { circuit with
    numClassicalBits := U64.wrappingAdd circuit.numClassicalBits 1
    instructions := circuit.instructions ++ [.measure qubit circuit.numClassicalBits] }

lemma measure_eq (hq : qubit < circuit.numQubits) :
    measure qubit circuit = (.ok circuit.numClassicalBits, circuit.measured qubit) := by
  rw [measure, check_bind_of_ok (validateQubit_ok.2 hq)]
  rfl

/-- The circuit with at least `required` classical bits. -/
def raised (circuit : Circuit F) (required : ℕ) : Circuit F :=
  { circuit with numClassicalBits := max circuit.numClassicalBits required }

/-- The circuit after an instruction is copied into it. -/
def appended (place : ℕ → ℕ) (circuit : Circuit F) : Instruction F → Circuit F
  | .gateOp gate targets => circuit.pushed (.gateOp gate (targets.map place))
  | .conditionalGate classicalBits value gate targets =>
    (circuit.raised (requiredBits classicalBits)).pushed
      (.conditionalGate classicalBits value gate (targets.map place))
  | .measure qubit _ => circuit.measured (place qubit)
  | .barrier qubits => circuit.pushed (.barrier (qubits.map place))

@[simp] lemma appended_numQubits (place : ℕ → ℕ) (c : Circuit F) (i : Instruction F) :
    (c.appended place i).numQubits = c.numQubits := by
  cases i <;> rfl

variable {qubitMapping : Option (List ℕ)} {otherQubits otherBits : ℕ} {place : ℕ → ℕ}

section
variable (h : Placement qubitMapping otherQubits circuit.numQubits place)
include h

lemma appendInstruction_eq {i : Instruction F} (hi : i.WellFormed otherQubits otherBits) :
    appendInstruction qubitMapping i circuit = (.ok (), circuit.appended place i) := by
  cases i with
  | gateOp =>
    rw [appendInstruction, h.mapQubits hi.lt]
    rfl
  | conditionalGate =>
    rw [appendInstruction, h.mapQubits hi.1.lt]
    rfl
  | measure qubit =>
    rw [appendInstruction, h.map qubit hi.1]
    show (measure (place qubit) >>= fun _ => pure ()) circuit = _
    rw [Fallible.bind_of_ok (measure_eq (h.lt qubit hi.1))]
    rfl
  | barrier =>
    rw [appendInstruction, h.mapQubits hi.2]
    rfl

/-- Copying a list of instructions copies them one by one and does not fail. -/
lemma each_appendInstruction (hi : ∀ i ∈ instructions, i.WellFormed otherQubits otherBits) :
    Fallible.each (instructions.map (appendInstruction qubitMapping)) circuit =
      (.ok (), instructions.foldl (appended place) circuit) := by
  induction instructions generalizing circuit with
  | nil => rfl
  | cons _ _ ih =>
    obtain ⟨hi, hr⟩ := forall_mem_cons.1 hi
    refine Fallible.each_cons_eq_ok.2 ⟨_, appendInstruction_eq h hi, ?_⟩
    exact ih (by simpa using h) hr

end

/-! ### Classical bits -/

/-- The number of classical bits after an instruction is copied, counted without
a bound. -/
def bitsAfter (numClassicalBits : ℕ) : Instruction F → ℕ
  | .gateOp _ _ => numClassicalBits
  | .conditionalGate classicalBits _ _ _ => max numClassicalBits (requiredBits classicalBits)
  | .measure _ _ => numClassicalBits + 1
  | .barrier _ => numClassicalBits

lemma le_bitsAfter (m : ℕ) (i : Instruction F) : m ≤ bitsAfter m i := by
  cases i <;> simp [bitsAfter]

lemma le_foldl_bitsAfter (m : ℕ) (ins : List (Instruction F)) : m ≤ ins.foldl bitsAfter m := by
  induction ins generalizing m with
  | nil => exact le_rfl
  | cons i _ ih => exact (le_bitsAfter m i).trans (ih (bitsAfter m i))

lemma requiredBits_spec {bits : List ℕ} {m : ℕ} (hm : m < 2 ^ 64) (h : ∀ b ∈ bits, b < m) :
    requiredBits bits ≤ m ∧ ∀ b ∈ bits, b < requiredBits bits := by
  rw [requiredBits]
  cases hmax : bits.max? with
  | none =>
    rw [max?_eq_none_iff] at hmax
    simp [hmax]
  | some top =>
    obtain ⟨hmem, hle⟩ := max?_eq_some_iff.1 hmax
    have htop := h top hmem
    have hadd : U64.wrappingAdd top 1 = top + 1 := U64.wrappingAdd_of_lt (by omega)
    simp only [hadd]
    exact ⟨htop, fun b hb => Nat.lt_succ_of_le (hle b hb)⟩

/-- The circuit has an instruction that no number of classical bits makes well
formed. -/
def Spoiled (circuit : Circuit F) : Prop :=
  ∃ i ∈ circuit.instructions, ∀ m < 2 ^ 64, ¬ i.WellFormed circuit.numQubits m

section
variable (h : circuit.Spoiled)
include h

lemma Spoiled.not_wellFormed : ¬ circuit.WellFormed := by
  obtain ⟨i, hi, hbad⟩ := h
  exact fun hc => hbad _ hc.word (hc.instructions i hi)

lemma Spoiled.appended (i : Instruction F) : (circuit.appended place i).Spoiled := by
  obtain ⟨j, hj, hbad⟩ := h
  cases i <;> exact ⟨j, mem_append_left _ hj, hbad⟩

lemma Spoiled.foldl (ins : List (Instruction F)) :
    (ins.foldl (.appended place) circuit).Spoiled := by
  induction ins generalizing circuit with
  | nil => exact h
  | cons i _ ih => exact ih (h.appended i)

end

/-- The last word as the index of a classical bit leaves the circuit spoiled. -/
lemma measured_spoiled (q : ℕ) (h : 2 ^ 64 ≤ circuit.numClassicalBits + 1) :
    (circuit.measured q).Spoiled := by
  refine ⟨.measure q circuit.numClassicalBits, ?_, fun m hm hi => ?_⟩
  · exact mem_append_right _ (mem_singleton_self _)
  · have hlt : circuit.numClassicalBits < m := hi.2
    omega

lemma measured_wellFormed (hc : circuit.WellFormed) (hq : qubit < circuit.numQubits)
    (h : circuit.numClassicalBits + 1 < 2 ^ 64) : (circuit.measured qubit).WellFormed := by
  have hadd : (circuit.measured qubit).numClassicalBits = circuit.numClassicalBits + 1 :=
    U64.wrappingAdd_of_lt h
  refine ⟨hadd ▸ h, fun i hi => ?_⟩
  rw [hadd]
  rcases mem_append.1 hi with hi | hi
  · exact (hc.instructions i hi).mono (Nat.le_succ _)
  · rw [mem_singleton.1 hi]
    exact ⟨hq, Nat.lt_succ_self _⟩

lemma appended_numClassicalBits {i : Instruction F}
    (h : bitsAfter circuit.numClassicalBits i < 2 ^ 64) :
    (circuit.appended place i).numClassicalBits = bitsAfter circuit.numClassicalBits i := by
  cases i with
  | measure => exact U64.wrappingAdd_of_lt h
  | gateOp | conditionalGate | barrier => rfl

lemma appended_wellFormed (hc : circuit.WellFormed)
    (h : Placement qubitMapping otherQubits circuit.numQubits place) (hbt : otherBits < 2 ^ 64)
    {i : Instruction F} (hi : i.WellFormed otherQubits otherBits)
    (haft : bitsAfter circuit.numClassicalBits i < 2 ^ 64) :
    (circuit.appended place i).WellFormed := by
  have hfit : ∀ {gate : Gate F} {targets : List ℕ}, GateFits otherQubits gate targets →
      GateFits circuit.numQubits gate (targets.map place) := fun hg =>
    ⟨by rw [length_map]; exact hg.width, hg.supported, h.nodup hg.nodup hg.lt,
      h.map_lt hg.lt, hg.size⟩
  cases i with
  | gateOp => exact (pushed_wellFormed hc).2 (hfit hi)
  | conditionalGate bits =>
    obtain ⟨-, hlt⟩ := requiredBits_spec hbt hi.2
    have hrai : (circuit.raised (requiredBits bits)).WellFormed :=
      ⟨haft, fun j hj => (hc.instructions j hj).mono (le_max_left _ _)⟩
    exact (pushed_wellFormed hrai).2 ⟨hfit hi.1, fun b hb => (hlt b hb).trans_le (le_max_right _ _)⟩
  | measure qubit => exact measured_wellFormed hc (h.lt qubit hi.1) haft
  | barrier => exact (pushed_wellFormed hc).2 ⟨h.nodup hi.1 hi.2, h.map_lt hi.2⟩

/-- Copying well-formed instructions leaves a well-formed circuit exactly when
the classical bits can be counted in a word. -/
lemma foldl_appended_wellFormed (hc : circuit.WellFormed)
    (h : Placement qubitMapping otherQubits circuit.numQubits place) (hbt : otherBits < 2 ^ 64)
    (hi : ∀ i ∈ instructions, i.WellFormed otherQubits otherBits) :
    (instructions.foldl (appended place) circuit).WellFormed ↔
      instructions.foldl bitsAfter circuit.numClassicalBits < 2 ^ 64 := by
  induction instructions generalizing circuit with
  | nil => exact ⟨fun _ => hc.word, fun _ => hc⟩
  | cons i instructions ih =>
    obtain ⟨hi, hr⟩ := forall_mem_cons.1 hi
    rw [foldl_cons, foldl_cons]
    by_cases haft : bitsAfter circuit.numClassicalBits i < 2 ^ 64
    · rw [ih (appended_wellFormed hc h hbt hi haft) (by simpa using h) hr,
        appended_numClassicalBits haft]
    · -- only a measurement can leave the range
      have hspoiled : (circuit.appended place i).Spoiled := by
        cases i with
        | measure => exact measured_spoiled _ (not_lt.1 haft)
        | conditionalGate =>
          obtain ⟨hle, -⟩ := requiredBits_spec hbt hi.2
          exact absurd (max_lt hc.word (hle.trans_lt hbt)) haft
        | gateOp | barrier => exact absurd hc.word haft
      constructor
      · intro hwf
        exact absurd hwf (hspoiled.foldl instructions).not_wellFormed
      · intro hlt
        exact absurd ((le_foldl_bitsAfter _ instructions).trans_lt hlt) haft

end Waros.Quantum.Circuit
