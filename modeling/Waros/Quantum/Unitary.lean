import Mathlib.Algebra.BigOperators.Group.Finset.Sigma
import Waros.Quantum.PauliOperator

/-!
Gates as operators on the whole state: what a gate does to the expectation of an
operator, and that a gate with orthonormal columns keeps the norm.
-/

namespace Waros.Quantum

open Lib Quantum.Complex Finset Nat

/-! ### The indices that agree outside the targets -/

section
variable {n x y z : ℕ} {targets : List ℕ}

lemma AgreeOutside.refl (n : ℕ) (ts : List ℕ) (x : ℕ) : AgreeOutside n ts x x := fun _ _ _ => rfl

lemma AgreeOutside.symm (h : AgreeOutside n targets x y) : AgreeOutside n targets y x :=
  fun j hj hmem => (h j hj hmem).symm

lemma AgreeOutside.trans (h : AgreeOutside n targets x y) (h' : AgreeOutside n targets y z) :
    AgreeOutside n targets x z :=
  fun j hj hmem => (h' j hj hmem).trans (h j hj hmem)

variable (ts : List ℕ)

lemma foldl_rowIndex (x row : ℕ) :
    ts.foldl (fun row q => 2 * row + (x.testBit q).toNat) row =
      row * 2 ^ ts.length + rowIndex ts x := by
  induction ts generalizing row with
  | nil => simp [rowIndex]
  | cons _ _ ih =>
    rw [rowIndex, List.foldl_cons, List.foldl_cons, ih, ih, List.length_cons]
    ring

lemma rowIndex_cons (q : ℕ) (ts : List ℕ) (x : ℕ) : rowIndex (q :: ts) x =
    (x.testBit q).toNat * 2 ^ ts.length + rowIndex ts x := by
  rw [rowIndex, List.foldl_cons, foldl_rowIndex, Nat.zero_add]

lemma rowIndex_lt (x : ℕ) : rowIndex ts x < 2 ^ ts.length := by
  induction ts with
  | nil => exact one_pos
  | cons q =>
    rw [rowIndex_cons, List.length_cons]
    cases x.testBit q <;> simp only [Bool.toNat_false, Bool.toNat_true] <;> omega

lemma testBit_eq_of_rowIndex_eq (h : rowIndex targets x = rowIndex targets y) :
    ∀ q ∈ targets, x.testBit q = y.testBit q := by
  induction targets with
  | nil => simp
  | cons q targets ih =>
    rw [rowIndex_cons, rowIndex_cons] at h
    have hx := rowIndex_lt targets x
    have hy := rowIndex_lt targets y
    have hbit : x.testBit q = y.testBit q := by
      cases hxq : x.testBit q <;> cases hyq : y.testBit q <;> simp [hxq, hyq] at h ⊢ <;> omega
    rw [hbit] at h
    refine List.forall_mem_cons.2 ⟨hbit, ih (by omega)⟩

lemma AgreeOutside.eq_of_rowIndex_eq (hx : x < 2 ^ n) (hy : y < 2 ^ n)
    (h : AgreeOutside n targets x y) (hrow : rowIndex targets x = rowIndex targets y) : x = y := by
  apply eq_of_testBit_eq
  intro j
  by_cases hmem : j ∈ targets
  · exact testBit_eq_of_rowIndex_eq hrow j hmem
  · by_cases hj : j < n
    · exact (h j hj hmem).symm
    · have hpow : 2 ^ n ≤ 2 ^ j := Nat.pow_le_pow_right two_pos (not_lt.1 hj)
      rw [testBit_lt_two_pow (hx.trans_le hpow), testBit_lt_two_pow (hy.trans_le hpow)]

lemma length_masksOf : (masksOf ts).length = 2 ^ ts.length := by
  induction ts with
  | nil => rfl
  | cons _ _ ih =>
    rw [masksOf, List.length_append, List.length_map, List.length_cons]
    omega

/-- The indices that agree with `y` outside the targets. -/
def agreeing (n : ℕ) (targets : List ℕ) (y : ℕ) : Finset ℕ :=
  (range (2 ^ n)).filter (AgreeOutside n targets y)

lemma mem_agreeing : x ∈ agreeing n targets y ↔ x < 2 ^ n ∧ AgreeOutside n targets y x := by
  rw [agreeing, mem_filter, mem_range]

lemma card_agreeing (hnd : targets.Nodup) (hlt : ∀ q ∈ targets, q < n) (hy : y < 2 ^ n) :
    (agreeing n targets y).card = 2 ^ targets.length := by
  have hmask := masks_masksOf hnd
  have hclr : ∀ q ∈ targets, (clearBits targets y).testBit q = false := by
    intro q hq
    simp [testBit_clearBits, hq]
  have hfam := hmask.family hlt (clearBits_lt hy) hclr
  have hagr : AgreeOutside n targets (clearBits targets y) y := by
    intro j _ hmem
    simp [testBit_clearBits, hmem]
  have heq : agreeing n targets y =
      ((masksOf targets).map (clearBits targets y ||| ·)).toFinset := by
    ext x
    rw [mem_agreeing, List.mem_toFinset]
    constructor
    · rintro ⟨hx, hyx⟩
      exact (hfam.agree _ hmask.self_mem x hx).1 (hagr.trans hyx)
    · intro hx
      have hx' := hfam.lt x hx
      exact ⟨hx', hagr.symm.trans ((hfam.agree _ hmask.self_mem x hx').2 hx)⟩
  rw [heq, List.toFinset_card_of_nodup hfam.nodup, List.length_map, length_masksOf]

/-- The indices that agree with `y` outside the targets are the rows of the
matrix. -/
lemma sum_agreeing {M : Type*} [AddCommMonoid M] (hnd : targets.Nodup)
    (hlt : ∀ q ∈ targets, q < n) (hy : y < 2 ^ n) (g : ℕ → M) :
    ∑ x ∈ agreeing n targets y, g (rowIndex targets x) =
      ∑ row ∈ range (2 ^ targets.length), g row := by
  have hinj : Set.InjOn (rowIndex targets) (agreeing n targets y) := by
    intro x hx x' hx' hrow
    obtain ⟨hlt, hagr⟩ := mem_agreeing.1 hx
    obtain ⟨hlt', hagr'⟩ := mem_agreeing.1 hx'
    exact (hagr.symm.trans hagr').eq_of_rowIndex_eq hlt hlt' hrow
  have himg : (agreeing n targets y).image (rowIndex targets) = range (2 ^ targets.length) := by
    refine eq_of_subset_of_card_le ?_ ?_
    · intro row hrow
      obtain ⟨x, -, rfl⟩ := mem_image.1 hrow
      exact mem_range.2 (rowIndex_lt targets x)
    · rw [Finset.card_image_of_injOn hinj, card_agreeing hnd hlt hy, card_range]
  rw [← himg, sum_image hinj]

end

section
variable {F : Type} [CommRing F] {n : ℕ} {targets : List ℕ} {gate : Gate F}

/-- The matrix of the gate on all qubits. -/
def lifted (n : ℕ) (targets : List ℕ) (gate : Gate F) (x y : ℕ) : Complex F :=
  if AgreeOutside n targets x y then gate.entry (rowIndex targets x) (rowIndex targets y) else 0

variable (ψ : ℕ → Complex F)

lemma applied_eq_sum_lifted (x : ℕ) :
    applied n targets gate ψ x = ∑ y ∈ range (2 ^ n), lifted n targets gate x y * ψ y := by
  rw [applied, sum_filter]
  refine sum_congr rfl fun y _ => ?_
  rw [lifted, ite_mul, zero_mul]

lemma sum_comm_four {M : Type*} [AddCommMonoid M] (s : Finset ℕ) (t : ℕ → ℕ → ℕ → ℕ → M) :
    ∑ x ∈ s, ∑ x' ∈ s, ∑ z ∈ s, ∑ y ∈ s, t x x' z y =
      ∑ y ∈ s, ∑ z ∈ s, ∑ x ∈ s, ∑ x' ∈ s, t x x' z y :=
  calc ∑ x ∈ s, ∑ x' ∈ s, ∑ z ∈ s, ∑ y ∈ s, t x x' z y
      = ∑ x ∈ s, ∑ z ∈ s, ∑ x' ∈ s, ∑ y ∈ s, t x x' z y := sum_congr rfl fun _ _ => sum_comm
    _ = ∑ z ∈ s, ∑ x ∈ s, ∑ x' ∈ s, ∑ y ∈ s, t x x' z y := sum_comm
    _ = ∑ z ∈ s, ∑ x ∈ s, ∑ y ∈ s, ∑ x' ∈ s, t x x' z y :=
        sum_congr rfl fun _ _ => sum_congr rfl fun _ _ => sum_comm
    _ = ∑ z ∈ s, ∑ y ∈ s, ∑ x ∈ s, ∑ x' ∈ s, t x x' z y := sum_congr rfl fun _ _ => sum_comm
    _ = ∑ y ∈ s, ∑ z ∈ s, ∑ x ∈ s, ∑ x' ∈ s, t x x' z y := sum_comm

/-- The operator that has, before the gate, the expectation that `A` has after
it. -/
def pulledBack (n : ℕ) (targets : List ℕ) (gate : Gate F) (A : ℕ → ℕ → Complex F) (y z : ℕ) :
    Complex F :=
  ∑ x ∈ range (2 ^ n), ∑ x' ∈ range (2 ^ n),
    (lifted n targets gate x y).conj * A x x' * lifted n targets gate x' z

lemma expectation_applied (A : ℕ → ℕ → Complex F) (ψ : ℕ → Complex F) :
    expectation n A (applied n targets gate ψ) = expectation n (pulledBack n targets gate A) ψ := by
  have hconj : ∀ x, (applied n targets gate ψ x).conj =
      ∑ y ∈ range (2 ^ n), (lifted n targets gate x y).conj * (ψ y).conj := by
    intro x
    rw [applied_eq_sum_lifted, ← conjHom_apply]
    simp [map_mul]
  simp only [expectation, hconj]
  simp only [pulledBack, applied_eq_sum_lifted, sum_mul, mul_sum]
  rw [sum_comm_four]
  refine sum_congr rfl fun y _ => sum_congr rfl fun z _ =>
    sum_congr rfl fun x _ => sum_congr rfl fun x' _ => ?_
  ring

/-- The expectation depends on the operator on `n` qubits only. -/
lemma expectation_congr {A B : ℕ → ℕ → Complex F}
    (h : ∀ x < 2 ^ n, ∀ y < 2 ^ n, A x y = B x y) (ψ : ℕ → Complex F) :
    expectation n A ψ = expectation n B ψ := by
  refine sum_congr rfl fun x hx => sum_congr rfl fun y hy => ?_
  rw [h x (mem_range.1 hx) y (mem_range.1 hy)]

/-- The columns of the matrix are orthonormal. -/
def Gate.IsUnitary (gate : Gate F) : Prop :=
  ∀ i < 2 ^ gate.numQubits, ∀ j < 2 ^ gate.numQubits,
    ∑ row ∈ range (2 ^ gate.numQubits), (gate.entry row i).conj * gate.entry row j =
      if i = j then 1 else 0

def identity (x y : ℕ) : Complex F := if x = y then 1 else 0

lemma expectation_identity : expectation n identity ψ =
    ofReal (∑ x ∈ range (2 ^ n), (ψ x).normSq) := by
  rw [map_sum]
  refine sum_congr rfl fun x hx => ?_
  rw [sum_eq_single_of_mem x hx]
  · ext
    · simp [identity, normSq]
    · simp [identity]
      ring
  · intro y _ hne
    rw [identity, if_neg hne.symm, mul_zero, zero_mul]

section
variable (hg : gate.IsUnitary) (hwid : gate.numQubits = targets.length) (hnd : targets.Nodup)
  (hlt : ∀ q ∈ targets, q < n)
include hg hwid hnd hlt

/-- The columns of the matrix on all qubits are orthonormal. -/
lemma sum_conj_lifted {y z : ℕ} (hy : y < 2 ^ n) (hz : z < 2 ^ n) : ∑ x ∈ range (2 ^ n),
      (lifted n targets gate x y).conj * lifted n targets gate x z = identity y z := by
  by_cases hagr : AgreeOutside n targets y z
  · -- The rows that agree with y agree with z, and only they contribute.
    have hrows : ∑ x ∈ range (2 ^ n), (lifted n targets gate x y).conj * lifted n targets gate x z =
        ∑ x ∈ agreeing n targets y, (gate.entry (rowIndex targets x) (rowIndex targets y)).conj *
          gate.entry (rowIndex targets x) (rowIndex targets z) := by
      rw [agreeing, sum_filter]
      refine sum_congr rfl fun x _ => ?_
      by_cases hx : AgreeOutside n targets y x
      · rw [if_pos hx, lifted, if_pos hx.symm, lifted, if_pos (hx.symm.trans hagr)]
      · have hx' : ¬ AgreeOutside n targets x z := fun h => hx (hagr.trans h.symm)
        rw [if_neg hx, lifted, lifted, if_neg hx', mul_zero]
    rw [hrows, sum_agreeing hnd hlt hy fun row =>
      (gate.entry row (rowIndex targets y)).conj * gate.entry row (rowIndex targets z), ← hwid,
      hg _ (hwid ▸ rowIndex_lt targets y) _ (hwid ▸ rowIndex_lt targets z)]
    refine if_congr ⟨hagr.eq_of_rowIndex_eq hy hz, fun h => by rw [h]⟩ rfl rfl
  · have hne : y ≠ z := fun h => hagr (h ▸ .refl n targets y)
    rw [identity, if_neg hne]
    refine sum_eq_zero fun x _ => ?_
    by_cases hx : AgreeOutside n targets x y
    · have hx' : ¬ AgreeOutside n targets x z := fun h => hagr (hx.symm.trans h)
      rw [lifted, lifted, if_neg hx', mul_zero]
    · rw [lifted, if_neg hx, ← conjHom_apply, map_zero, zero_mul]

lemma pulledBack_identity {y z : ℕ} (hy : y < 2 ^ n) (hz : z < 2 ^ n) :
    pulledBack n targets gate identity y z = identity y z := by
  rw [← sum_conj_lifted hg hwid hnd hlt hy hz]
  refine sum_congr rfl fun x hx => ?_
  rw [sum_eq_single_of_mem x hx]
  · rw [identity, if_pos rfl, mul_one]
  · intro x' _ hne
    rw [identity, if_neg hne.symm, mul_zero, zero_mul]

/-- A unitary gate keeps the norm of the state. -/
lemma sum_normSq_applied (ψ : ℕ → Complex F) :
    ∑ x ∈ range (2 ^ n), (applied n targets gate ψ x).normSq =
      ∑ x ∈ range (2 ^ n), (ψ x).normSq := by
  have h : expectation n identity (applied n targets gate ψ) = _ := expectation_applied identity ψ
  rw [expectation_congr (fun y hy z hz => pulledBack_identity hg hwid hnd hlt hy hz),
    expectation_identity, expectation_identity] at h
  exact congrArg re h

end

def Instruction.IsUnitary : Instruction F → Prop
  | .gateOp gate _ => gate.IsUnitary
  | .barrier _ => True
  | .conditionalGate _ _ _ _ | .measure _ _ => False

namespace Circuit

structure IsUnitary (circuit : Circuit F) : Prop where
  wellFormed : circuit.WellFormed
  instructions : ∀ i ∈ circuit.instructions, i.IsUnitary

lemma IsUnitary.pushed {c : Circuit F} (h : c.IsUnitary) {ins : Instruction F} (hi : ins.IsUnitary)
    (hfit : ins.WellFormed c.numQubits c.numClassicalBits) :
    (c.pushed ins).IsUnitary := by
  refine ⟨(pushed_wellFormed h.wellFormed).2 hfit, fun i hmem => ?_⟩
  rcases List.mem_append.1 hmem with hmem | hmem
  · exact h.instructions i hmem
  · exact mem_singleton.1 hmem ▸ hi

def KeepsUnitary {α : Type} (method : Builder F α) : Prop :=
  Fallible.Keeps (fun circuit circuit' =>
    circuit.IsUnitary → circuit'.IsUnitary ∧ circuit'.numQubits = circuit.numQubits) method

section
variable {α β : Type}

lemma KeepsUnitary.bind {x : Builder F α} {f : α → Builder F β} (hx : KeepsUnitary x)
    (hf : ∀ a, KeepsUnitary (f a)) : KeepsUnitary (x >>= f) :=
  Fallible.Keeps.bind (fun _ _ _ h h' hc => ⟨(h' (h hc).1).1, (h' (h hc).1).2.trans (h hc).2⟩) hx hf

lemma KeepsUnitary.each {xs : List (Builder F Unit)} (h : ∀ x ∈ xs, KeepsUnitary x) :
    KeepsUnitary (.each xs) :=
  Fallible.Keeps.each (fun _ hc => ⟨hc, rfl⟩) (fun _ _ _ h h' hc =>
    ⟨(h' (h hc).1).1, (h' (h hc).1).2.trans (h hc).2⟩) h

lemma keepsUnitary_read (f : Circuit F → Except Stop α) : KeepsUnitary (.read f) :=
  Fallible.keeps_read (fun _ hc => ⟨hc, rfl⟩) f

lemma keepsUnitary_orPanic (a : Option α) : KeepsUnitary (orPanic a : Builder F α) := by
  intro c hc
  cases a <;> exact ⟨hc, rfl⟩

lemma keepsUnitary_orError (r : Except WarosError α) : KeepsUnitary (orError r : Builder F α) := by
  intro c hc
  cases r <;> exact ⟨hc, rfl⟩

end

lemma keepsUnitary_add1 (h : gate.OnQubits 1) (hunit : gate.IsUnitary) (q : ℕ) :
    KeepsUnitary (add1 gate q) := by
  intro circuit hc
  refine (after_check (P := fun circuit' =>
    circuit'.IsUnitary ∧ circuit'.numQubits = circuit.numQubits) validateQubit_ok
    ⟨hc, rfl⟩ _).2 fun hq => ⟨hc.pushed hunit ?_, rfl⟩
  exact ⟨h.width, .inl h.width, List.nodup_singleton q, by simpa using hq, h.width ▸ h.size⟩

lemma keepsUnitary_add2 (h : gate.OnQubits 2) (hunit : gate.IsUnitary) (q₀ q₁ : ℕ) :
    KeepsUnitary (add2 gate q₀ q₁) := by
  intro circuit hc
  refine (after_check (P := fun circuit' =>
    circuit'.IsUnitary ∧ circuit'.numQubits = circuit.numQubits) validatePair_ok
    ⟨hc, rfl⟩ _).2 fun hq => ⟨hc.pushed hunit ?_, rfl⟩
  exact ⟨h.width, .inr h.width, by simpa using hq.2.2, by simpa using ⟨hq.1, hq.2.1⟩,
    h.width ▸ h.size⟩

end Circuit

end

end Waros.Quantum
