import Waros.Quantum.RealArithmetic
import Waros.Quantum.Simulator

/-!
Conditions of the exporters (`crates/waros-quantum/src/qasm/serializer.rs` and
`backends/ibm/transpiler.rs`). Both write a conditional gate with a comparison of
the whole classical register `c` with the value, whichever bits the gate reads;
the simulator compares the bits that the gate names. This module says for which
gates the two agree.
-/

namespace Waros.Quantum.Qasm

open Lib List Nat

/-- The condition that both exporters write for an instruction. -/
structure Condition where
  register : Str
  value : ℕ

def exportedCondition {F : Type} : Instruction F → Option Condition
  | .conditionalGate _ value _ _ => some ⟨['c'], value⟩
  | .gateOp _ _ | .measure _ _ | .barrier _ => none

variable (condition : Condition)

/-- The classical register as an integer: bit `i` has the weight `2 ^ i`. -/
def registerValue : List Bool → ℕ
  | [] => 0
  | bit :: bits => .bit bit (registerValue bits)

def Condition.holds (classicalBits : List Bool) : Bool :=
  decide (registerValue classicalBits = condition.value)

lemma testBit_registerValue (classicalBits : List Bool) (i : ℕ) :
    (registerValue classicalBits).testBit i = classicalBits.getD i false := by
  induction classicalBits generalizing i with
  | nil => simp [registerValue]
  | cons _ _ ih =>
    cases i with
    | zero => simp [registerValue]
    | succ => rw [registerValue, testBit_bit_succ, ih, getD_cons_succ]

variable {classicalBits : List Bool}

lemma registerValue_eq_iff {v : ℕ} :
    registerValue classicalBits = v ↔ ∀ i, classicalBits.getD i false = v.testBit i := by
  constructor
  · rintro rfl i
    exact (testBit_registerValue classicalBits i).symm
  · intro h
    refine eq_of_testBit_eq fun i => ?_
    rw [testBit_registerValue, h]

lemma testBit_shl (w : ℕ) (bit : Bool) (k t : ℕ) :
    (shl w bit.toNat k).testBit t = (decide (t < w) && (bit && decide (t = k % w))) := by
  rw [shl]
  cases bit with
  | false => simp
  | true => simp [testBit_two_pow, eq_comm]

/-- The classical bits that the word at position `t` is read from. -/
def readsAt (w : ℕ) (register : List ℕ) (t : ℕ) : List ℕ :=
  (register.zipIdx.filter fun entry => decide (entry.2 % w = t)).map Prod.fst

variable {w : ℕ} {register : List ℕ}

lemma foldlM_read {es : List (ℕ × ℕ)} (h : ∀ entry ∈ es, entry.1 < classicalBits.length) (lo : ℕ) :
    ∃ value, es.foldlM (fun (value : ℕ) entry => do
        return value ||| shl w (← classicalBits[entry.1]?).toNat entry.2) lo = some value ∧
      ∀ t, value.testBit t = (lo.testBit t || (decide (t < w) &&
        (es.filter fun entry => decide (entry.2 % w = t)).any fun entry =>
          classicalBits.getD entry.1 false)) := by
  induction es generalizing lo with
  | nil => exact ⟨lo, rfl, fun t => by simp⟩
  | cons entry _ ih =>
    obtain ⟨hent, hr⟩ := forall_mem_cons.1 h
    have hbit : classicalBits[entry.1]? = some (classicalBits.getD entry.1 false) := by
      rw [getElem?_eq_getElem hent, getD_eq_getElem]
    obtain ⟨value, hval, htest⟩ :=
      ih hr (lo ||| shl w (classicalBits.getD entry.1 false).toNat entry.2)
    refine ⟨value, ?_, fun t => ?_⟩
    · rw [foldlM_cons, hbit]
      exact hval
    · rw [htest, testBit_or, testBit_shl, filter_cons]
      by_cases ht : entry.2 % w = t
      · simp only [ht, Bool.or_assoc]
        cases decide (t < w) <;> simp
      · rw [if_neg (by simpa using ht)]
        have hne : ¬ t = entry.2 % w := fun h => ht h.symm
        simp [hne]

/-- What a register reads: a bit of the value is set when one of the classical
bits at its position is. -/
lemma readClassicalRegister_eq_iff
    (h : ∀ b ∈ register, b < classicalBits.length) (v : ℕ) :
    readClassicalRegister w register classicalBits = some v ↔ ∀ t, v.testBit t ↔ t < w ∧
        ∃ b ∈ readsAt w register t, classicalBits.getD b false := by
  have hents : ∀ e ∈ register.zipIdx, e.1 < classicalBits.length :=
    fun e hent => h _ (fst_mem_of_mem_zipIdx hent)
  obtain ⟨read, hrd, htest⟩ := foldlM_read (w := w) hents 0
  have hbt : ∀ t, read.testBit t ↔ t < w ∧
      ∃ b ∈ readsAt w register t, classicalBits.getD b false := by
    intro t
    rw [htest, zero_testBit, Bool.false_or, Bool.and_eq_true, decide_eq_true_iff, any_eq_true]
    refine and_congr_right fun _ => ⟨?_, ?_⟩
    · rintro ⟨e, hent, hbit⟩
      exact ⟨e.1, mem_map_of_mem hent, hbit⟩
    · rintro ⟨b, hb, hbit⟩
      obtain ⟨e, hent, rfl⟩ := mem_map.1 hb
      exact ⟨e, hent, hbit⟩
  rw [readClassicalRegister, hrd, Option.some.injEq]
  constructor
  · rintro rfl
    exact hbt
  · intro hval
    refine eq_of_testBit_eq fun t => ?_
    rw [Bool.eq_iff_iff, hbt, hval]

/-! ### When the conditions agree -/

section
variable (w : ℕ) (register : List ℕ) (value : ℕ)

/-- A classical bit that must be zero for the register to read the value. -/
def ForcedOff (b : ℕ) : Prop := ∃ t < w, value.testBit t = false ∧ b ∈ readsAt w register t

/-- Some classical bits make the register read the value. -/
def Readable : Prop :=
  value < 2 ^ w ∧ ∀ t < w, value.testBit t = true →
    ∃ b ∈ readsAt w register t, ¬ ForcedOff w register value b

/-- The condition of the exporters agrees with the register: for a value of the
whole register, every bit of it is determined by what the register reads, and is
the same bit of the value; a value beyond it cannot be read. -/
def Agrees (numClassicalBits : ℕ) : Prop :=
  if value < 2 ^ numClassicalBits then
    Readable w register value ∧
      (∀ b < numClassicalBits, value.testBit b = true ↔ ¬ ForcedOff w register value b) ∧
      ∀ b < numClassicalBits, value.testBit b = true →
        ∃ t < w, value.testBit t = true ∧ b ∈ readsAt w register t ∧
          ∀ b' ∈ readsAt w register t, b' = b ∨ ForcedOff w register value b'
  else ¬ Readable w register value

end

section
variable {w : ℕ} {register : List ℕ} {value : ℕ}

/-- The register reads the value from classical bits that are given one by
one. -/
def Reads (w : ℕ) (register : List ℕ) (value : ℕ) (bit : ℕ → Bool) : Prop :=
  ∀ t, value.testBit t = true ↔ t < w ∧ ∃ b ∈ readsAt w register t, bit b = true

variable {bit : ℕ → Bool} {m : ℕ}

section
variable (h : Reads w register value bit)
include h

lemma Reads.eq_false {b : ℕ} (hfor : ForcedOff w register value b) : bit b = false := by
  obtain ⟨t, ht, hval, hb⟩ := hfor
  by_contra hbit
  have hset := (h t).2 ⟨ht, b, hb, by simpa using hbit⟩
  rw [hval] at hset
  cases hset

lemma Reads.lt_two_pow : value < 2 ^ w := by
  refine lt_pow_two_of_testBit _ fun t ht => ?_
  by_contra hset
  have := ((h t).1 (by simpa using hset)).1
  omega

lemma Reads.readable : Readable w register value := by
  refine ⟨h.lt_two_pow, fun t _ hset => ?_⟩
  obtain ⟨-, b, hb, hbit⟩ := (h t).1 hset
  refine ⟨b, hb, fun hfor => ?_⟩
  rw [h.eq_false hfor] at hbit
  cases hbit

end

/-- Of all classical bits that a value can be read from, those that are not
forced off are the most. -/
lemma Readable.reads (h : Readable w register value) (hbit : ∀ t, ∀ b ∈ readsAt w register t,
      (bit b ↔ ¬ ForcedOff w register value b)) : Reads w register value bit := by
  intro t
  constructor
  · intro hset
    have ht : t < w := by
      by_contra hge
      have hclr := testBit_lt_two_pow
        (h.1.trans_le (Nat.pow_le_pow_right two_pos (not_lt.1 hge)))
      rw [hset] at hclr
      cases hclr
    obtain ⟨b, hb, hfr⟩ := h.2 t ht hset
    exact ⟨ht, b, hb, (hbit t b hb).2 hfr⟩
  · rintro ⟨ht, b, hb, hset⟩
    by_contra hclr
    exact (hbit t b hb).1 hset ⟨t, ht, by simpa using hclr, hb⟩

/-- For a value of the whole register, the bits of the value are the only ones that
it is read from; a value beyond the register must not be read. -/
lemma agrees_of_forall (hreg : ∀ t, ∀ b ∈ readsAt w register t, b < m)
    (h : ∀ bit : ℕ → Bool, (∀ b, m ≤ b → bit b = false) →
      ((∀ b, bit b = value.testBit b) ↔ Reads w register value bit)) :
    Agrees w register value m := by
  classical
  -- the bits that are not forced off are the most that a reading can have
  have htop : Readable w register value →
      ∀ b, decide (b < m ∧ ¬ ForcedOff w register value b) = value.testBit b := fun hrea =>
    (h _ fun b hb => by simp [not_lt.2 hb]).2
      (hrea.reads fun t b hb => by simp [hreg t b hb])
  by_cases hval : value < 2 ^ m
  swap
  · rw [Agrees, if_neg hval]
    refine fun hrea => hval (lt_pow_two_of_testBit _ fun b hb => ?_)
    rw [← htop hrea, decide_eq_false fun hlt => not_lt.2 hb hlt.1]
  have hbey : ∀ b, m ≤ b → value.testBit b = false := fun b hb =>
    testBit_lt_two_pow (hval.trans_le (Nat.pow_le_pow_right two_pos hb))
  have hrds : Reads w register value value.testBit := (h _ hbey).1 fun _ => rfl
  have hfr : ∀ b < m, value.testBit b ↔ ¬ ForcedOff w register value b := by
    intro b hb
    rw [← htop hrds.readable]
    simp [hb]
  rw [Agrees, if_pos hval]
  refine ⟨hrds.readable, hfr, fun b hb hset => ?_⟩
  -- without the bit the value is not read, so a position is read from this bit alone
  have hless : ¬ Reads w register value fun b' => value.testBit b' && decide (b' ≠ b) := by
    intro hrd
    have heq := (h _ fun b' hb' => by simp [hbey b' hb']).2 hrd b
    rw [hset] at heq
    simp at heq
  obtain ⟨t, ht⟩ := not_forall.1 hless
  have hclr : ¬ ∃ b' ∈ readsAt w register t, (value.testBit b' && decide (b' ≠ b)) := by
    rintro ⟨b', hb', hbit⟩
    refine ht ⟨fun hval => ⟨((hrds t).1 hval).1, b', hb', hbit⟩, fun hrd => ?_⟩
    exact (hrds t).2 ⟨hrd.1, b', hb', (Bool.and_eq_true_iff.1 hbit).1⟩
  have hsetAt : value.testBit t := by
    by_contra hnot
    exact ht ⟨fun hval => absurd hval hnot, fun hrd => absurd hrd.2 hclr⟩
  obtain ⟨hlt, b₀, hb₀, hbit₀⟩ := (hrds t).1 hsetAt
  have hb₀b : b₀ = b := by
    by_contra hne
    exact hclr ⟨b₀, hb₀, by simp [hbit₀, hne]⟩
  refine ⟨t, hlt, hsetAt, hb₀b ▸ hb₀, fun b' hb' => or_iff_not_imp_left.2 fun hne => ?_⟩
  by_contra hnot
  exact hclr ⟨b', hb', by simp [(hfr b' (hreg t b' hb')).2 hnot, hne]⟩

lemma Agrees.iff_reads (h : Agrees w register value m)
    (hreg : ∀ t, ∀ b ∈ readsAt w register t, b < m) (hbit : ∀ b, m ≤ b → bit b = false) :
    (∀ b, bit b = value.testBit b) ↔ Reads w register value bit := by
  rw [Agrees] at h
  split_ifs at h with hval
  · obtain ⟨hrea, hfr, halo⟩ := h
    constructor
    · intro heq
      refine hrea.reads fun t b hb => ?_
      rw [heq, hfr b (hreg t b hb)]
    · intro hrds b
      rcases lt_or_ge b m with hb | hb
      · by_cases hset : value.testBit b
        · obtain ⟨t, -, hsetAt, -, hots⟩ := halo b hb hset
          obtain ⟨-, b', hb', hbit'⟩ := (hrds t).1 hsetAt
          rcases hots b' hb' with rfl | hfor
          · rw [hbit', hset]
          · rw [hrds.eq_false hfor] at hbit'
            cases hbit'
        · have hfor : ForcedOff w register value b := not_not.1 fun hnot => hset ((hfr b hb).2 hnot)
          rw [hrds.eq_false hfor]
          simpa using hset
      · rw [hbit b hb, testBit_lt_two_pow (hval.trans_le (Nat.pow_le_pow_right two_pos hb))]
  · constructor
    · intro heq
      refine absurd (lt_pow_two_of_testBit _ fun b hb => ?_) hval
      rw [← heq, hbit b hb]
    · exact fun hrds => absurd hrds.readable h

end

lemma mem_of_mem_readsAt {t b : ℕ} (h : b ∈ readsAt w register t) : b ∈ register := by
  obtain ⟨e, hent, rfl⟩ := mem_map.1 h
  exact fst_mem_of_mem_zipIdx (mem_filter.1 hent).1

/-- For every assignment of the classical bits the exported condition says what
the simulator tests, exactly for registers and values that agree. -/
theorem exportedCondition_iff {F : Type} {circuit : Circuit F} (hc : circuit.WellFormed)
    {register : List ℕ} {value : ℕ} {gate : Gate F} {targets : List ℕ}
    (hmem : .conditionalGate register value gate targets ∈ circuit.instructions) :
    (∀ classicalBits : List Bool, classicalBits.length = circuit.numClassicalBits →
      ∀ condition, exportedCondition
    (.conditionalGate register value gate targets : Instruction F) =
        some condition → (condition.holds classicalBits = true ↔
          readClassicalRegister 64 register classicalBits = some value)) ↔
      Agrees 64 register value circuit.numClassicalBits := by
  have hlt : ∀ b ∈ register, b < circuit.numClassicalBits := (hc.instructions _ hmem).2
  have hreg : ∀ t, ∀ b ∈ readsAt 64 register t, b < circuit.numClassicalBits :=
    fun t b hb => hlt b (mem_of_mem_readsAt hb)
  constructor
  · intro h
    have hbt : ∀ bit : ℕ → Bool, (∀ b, circuit.numClassicalBits ≤ b → bit b = false) →
        ((∀ b, bit b = value.testBit b) ↔ Reads 64 register value bit) := by
      intro bit h0
      have hget : ∀ b, ((List.range circuit.numClassicalBits).map bit).getD b false = bit b := by
        intro b
        rcases lt_or_ge b circuit.numClassicalBits with hb | hb
        · rw [getD_eq_getElem _ _ (by simpa using hb)]
          simp
        · rw [getD_eq_default _ _ (by simpa using hb), h0 b hb]
      have hiff := h ((List.range circuit.numClassicalBits).map bit) (by simp) _ rfl
      rw [Condition.holds, decide_eq_true_iff, registerValue_eq_iff,
        readClassicalRegister_eq_iff (by simpa using hlt)] at hiff
      simp only [hget] at hiff
      exact hiff
    exact agrees_of_forall hreg hbt
  · rintro h classicalBits hlen condition ⟨⟩
    rw [Condition.holds, decide_eq_true_iff, registerValue_eq_iff,
      readClassicalRegister_eq_iff (by rwa [hlen])]
    exact h.iff_reads hreg fun b hb => getD_eq_default _ _ (by omega)

/-- Two classical bits, of which the gate reads the second. -/
noncomputable def secondBitCircuit : Circuit ℝ := ⟨1, 2, [.conditionalGate [1] 1 .x [0]]⟩

lemma secondBitCircuit_wellFormed : secondBitCircuit.WellFormed := by
  refine ⟨show 2 < 2 ^ 64 by decide, fun i hi => ?_⟩
  obtain rfl := mem_singleton.1 hi
  exact ⟨⟨rfl, .inl rfl, by decide, by decide, rfl⟩, by decide⟩

/-- Two classical bits, both read in their order. -/
noncomputable def wholeRegisterCircuit : Circuit ℝ := ⟨1, 2, [.conditionalGate [0, 1] 1 .x [0]]⟩

lemma wholeRegisterCircuit_wellFormed : wholeRegisterCircuit.WellFormed := by
  refine ⟨show 2 < 2 ^ 64 by decide, fun i hi => ?_⟩
  obtain rfl := mem_singleton.1 hi
  exact ⟨⟨rfl, .inl rfl, by decide, by decide, rfl⟩, by decide⟩

theorem exportedCondition_wholeRegister :
    (∀ classicalBits : List Bool, classicalBits.length = 2 →
      ∀ condition, exportedCondition (.conditionalGate [0, 1] 1 Gate.x [0] : Instruction ℝ) =
        some condition → (condition.holds classicalBits = true ↔
          readClassicalRegister 64 [0, 1] classicalBits = some 1)) ∧ Agrees 64 [0, 1] 1 2 := by
  refine (and_iff_left_of_imp
    (exportedCondition_iff wholeRegisterCircuit_wellFormed mem_cons_self).1).2 ?_
  rintro classicalBits hlength condition ⟨⟩
  obtain ⟨first, second, rfl⟩ := length_eq_two.1 hlength
  cases first <;> cases second <;> decide

/-- The second bit is set: the simulator applies the gate, the exported program
compares two with one. -/
theorem exportedCondition_misses :
    .conditionalGate [1] 1 Gate.x [0] ∈ secondBitCircuit.instructions ∧
      readClassicalRegister 64 [1] [false, true] = some 1 ∧
      (exportedCondition (.conditionalGate [1] 1 Gate.x [0] : Instruction ℝ)).map
        (·.holds [false, true]) = some false :=
  ⟨mem_cons_self, rfl, rfl⟩

end Waros.Quantum.Qasm
