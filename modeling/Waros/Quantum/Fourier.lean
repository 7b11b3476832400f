import Waros.Quantum.SpecialGates

/-!
The quantum Fourier transform of `circuit/extensions.rs`. The Hadamard gates and
the controlled rotations compute the transform with the bits of the result in
reversed order; the swaps put them right. The inverse takes the steps back.
-/

namespace Waros.Quantum

open Lib Finset Gate Fallible Complex AgreeOutside FloatOps Equiv
open List (length_cons getD_eq_getElem zipIdx_cons)

section
variable {n c t k z : ℕ}

lemma crk_onQubits : (crk k : Gate ℝ).OnQubits 2 := ⟨rfl, rfl⟩

section
variable (hk : k ≤ Gate.maxExponent)
include hk

lemma crk_entry {i j : ℕ} (hi : i < 4) (hj : j < 4) :
    (crk k : Gate ℝ).entry i j =
      if i = j then if i = 3 then cis (2 * Real.pi / 2 ^ k) else 1 else 0 := by
  have hang : (fromPolar 1 (lit 2 * FloatOps.pi /
      powi (lit 2) (min k maxExponent))) =
      cis (2 * .pi / 2 ^ k) := by
    rw [fromPolar_one, min_eq_left hk]
    rfl
  obtain rfl | rfl | rfl | rfl : i = 0 ∨ i = 1 ∨ i = 2 ∨ i = 3 := by omega
  all_goals
    obtain rfl | rfl | rfl | rfl : j = 0 ∨ j = 1 ∨ j = 2 ∨ j = 3 := by omega
    all_goals simp [entry, Gate.get, Gate.crk, twoQubit, hang]

/-- The factor of a rotation at a basis state. -/
lemma crk_entry_rowIndex :
    (crk k : Gate ℝ).entry (rowIndex [c, t] z) (rowIndex [c, t] z) =
      cis (2 * .pi * ((z.testBit t).toNat * (z.testBit c).toNat) / 2 ^ k) := by
  rw [crk_entry hk (rowIndex_lt [c, t] z) (rowIndex_lt [c, t] z), rowIndex_pair]
  cases z.testBit c <;> cases z.testBit t <;> simp

lemma applied_crk (hz : z < 2 ^ n) (ψ : ℕ → Complex ℝ) :
    applied n [c, t] (crk k) ψ z =
      cis (2 * .pi * ((z.testBit t).toNat * (z.testBit c).toNat) / 2 ^ k) * ψ z := by
  rw [applied_of_row hz (refl n _ z), crk_entry_rowIndex hk]
  intro j hj hne
  rw [crk_entry hk (rowIndex_lt [c, t] z) hj, if_neg hne.symm]

lemma applied_crk_dagger (hz : z < 2 ^ n) (ψ : ℕ → Complex ℝ) :
    applied n [c, t] (Gate.crk k).dagger ψ z =
      (cis (2 * .pi * ((z.testBit t).toNat * (z.testBit c).toNat) / 2 ^ k)).conj * ψ z := by
  have hrow := rowIndex_lt [c, t] z
  rw [applied_of_row hz (refl n _ z), crk_onQubits.entry_dagger hrow hrow, crk_entry_rowIndex hk]
  intro j hj hne
  rw [crk_onQubits.entry_dagger hrow hj, crk_entry hk hj hrow, if_neg hne,
    ← conjHom_apply, map_zero]

end

end

/-! ### The blocks of the transform -/

/-- The rotations of a target by the qubits after it, from `R_(k+1)` on. -/
noncomputable def rotations (target : ℕ) : List ℕ → ℕ → List (Instruction ℝ)
  | [], _ => []
  | control :: controls, k =>
    .gateOp (crk (k + 1)) [control, target] :: rotations target controls (k + 1)

noncomputable def rotationsBack (target : ℕ) : List ℕ → ℕ → List (Instruction ℝ)
  | [], _ => []
  | control :: controls, k =>
    rotationsBack target controls (k + 1) ++
      [.gateOp (Gate.crk (k + 1)).dagger [control, target]]

noncomputable def fourierBlocks : List ℕ → List (Instruction ℝ)
  | [] => []
  | q :: qubits => .gateOp h [q] :: (rotations q qubits 1 ++ fourierBlocks qubits)

noncomputable def fourierBlocksBack : List ℕ → List (Instruction ℝ)
  | [] => []
  | q :: qubits => fourierBlocksBack qubits ++ (rotationsBack q qubits 1 ++ [.gateOp h [q]])

variable {controls : List ℕ} {k n t : ℕ}

section
variable (hk : k + controls.length ≤ Gate.maxExponent)
include hk

lemma prepared_rotations {z : ℕ} (hz : z < 2 ^ n) (ψ : ℕ → Complex ℝ) :
    prepared n (rotations t controls k) ψ z =
      cis (2 * .pi * ((z.testBit t).toNat * rowIndex controls z) /
        2 ^ (k + controls.length)) * ψ z := by
  induction controls generalizing k ψ with
  | nil => simp [rotations, prepared, rowIndex]
  | cons _ _ ih =>
    rw [length_cons] at hk
    rw [rotations, prepared, ih (by omega), applied_crk (by omega) hz, ← mul_assoc, ← cis_add,
      rowIndex_cons, length_cons]
    congr 2
    push_cast
    rw [pow_add]
    field_simp
    ring

lemma undoes_rotations :
    Undoes n (rotations t controls k) (rotationsBack t controls k) ∧
      Undoes n (rotationsBack t controls k) (rotations t controls k) := by
  induction controls generalizing k with
  | nil => exact ⟨fun _ _ _ => rfl, fun _ _ _ => rfl⟩
  | cons c _ ih =>
    rw [length_cons] at hk
    obtain ⟨hfor, hback⟩ := ih (k := k + 1) (by omega)
    have hk' : k + 1 ≤ maxExponent := by omega
    have hg : Undoes n [.gateOp (crk (k + 1)) [c, t]]
        [.gateOp (crk (k + 1) : Gate ℝ).dagger [c, t]] := by
      intro ψ z hz
      simp only [prepared]
      rw [applied_crk_dagger hk' hz, applied_crk hk' hz, ← mul_assoc, conj_cis_mul, one_mul]
    have hg' : Undoes n [.gateOp (crk (k + 1) : Gate ℝ).dagger [c, t]]
        [.gateOp (crk (k + 1)) [c, t]] := by
      intro ψ z hz
      simp only [prepared]
      rw [applied_crk hk' hz, applied_crk_dagger hk' hz, ← mul_assoc, mul_comm (cis _),
        conj_cis_mul, one_mul]
    exact ⟨hg.append hfor, hback.append hg'⟩

end

lemma undoes_fourierBlocks {qs : List ℕ} (hlt : ∀ q ∈ qs, q < n) (hlen : qs.length ≤ maxExponent) :
    Undoes n (fourierBlocks qs) (fourierBlocksBack qs) ∧
      Undoes n (fourierBlocksBack qs) (fourierBlocks qs) := by
  induction qs with
  | nil => exact ⟨fun _ _ _ => rfl, fun _ _ _ => rfl⟩
  | cons q qs ih =>
    rw [length_cons] at hlen
    obtain ⟨hr, hr'⟩ := ih (fun q' hq' => hlt q' (by simp [hq'])) (by omega)
    obtain ⟨hrota, hrota'⟩ :=
      undoes_rotations (n := n) (t := q) (k := 1) (show 1 + qs.length ≤ _ by omega)
    have hh : Undoes n [.gateOp h [q]] [.gateOp h [q]] :=
      fun ψ z hz => applied_h_h (hlt q (by simp)) hz ψ
    exact ⟨(hh.append hrota).append hr, hr'.append (hrota'.append hh)⟩

/-- The matrix of the blocks: the bits of the result are in reversed order. -/
noncomputable def fourierKernel (n : ℕ) (qubits : List ℕ) (z x : ℕ) : Complex ℝ :=
  if AgreeOutside n qubits z x then
    ofReal (fracOneSqrtTwo ^ qubits.length) *
      cis ((2 : ℕ) * .pi * (rowIndex qubits x * rowIndex qubits.reverse z) /
        (2 ^ qubits.length : ℕ))
  else 0

lemma fourierKernel_eq (n : ℕ) (qs : List ℕ) (z x : ℕ) : fourierKernel n qs z x =
    if AgreeOutside n qs z x then
      ofReal (fracOneSqrtTwo ^ qs.length) *
        cis (2 * .pi * (rowIndex qs x * rowIndex qs.reverse z) / 2 ^ qs.length)
    else 0 := by
  rw [fourierKernel]
  push_cast
  rfl

/-- The phases add up to the product of the two numbers; whole turns drop out. -/
lemma cis_fourier (k a b x r : ℕ) :
    cis (2 * .pi * (x * r) / 2 ^ k) *
        (cis (2 * .pi * (b * x) / 2 ^ (1 + k)) * cis (.pi * (b * a))) =
      cis (2 * .pi * ((a * 2 ^ k + x : ℕ) * (2 * r + b : ℕ)) / 2 ^ (k + 1)) := by
  rw [← cis_add, ← cis_add, ← cis_add_nat_mul_two_pi _ (a * r)]
  congr 1
  push_cast
  field_simp
  ring

section
variable {n q : ℕ} {qubits : List ℕ} {x z : ℕ}

lemma fourierKernel_cons (hq : q < n) (hmem : q ∉ qubits) (hx : x < 2 ^ n) :
    ∑ y ∈ range (2 ^ n), fourierKernel n qubits z y *
        (cis (2 * .pi * ((y.testBit q).toNat * rowIndex qubits y) / 2 ^ (1 + qubits.length)) *
          lifted n [q] h y x) =
      fourierKernel n (q :: qubits) z x := by
  rw [fourierKernel_eq, ← sum_between hq hmem hx (f := fun y =>
    ofReal (fracOneSqrtTwo ^ qubits.length) *
      cis (2 * .pi * (rowIndex qubits y * rowIndex qubits.reverse z) / 2 ^ qubits.length) *
      (cis (2 * .pi * ((y.testBit q).toNat * rowIndex qubits y) / 2 ^ (1 + qubits.length)) *
        h.entry (rowIndex [q] y) (rowIndex [q] x)))]
  · refine sum_congr rfl fun y _ => ?_
    rw [fourierKernel_eq, lifted]
    by_cases hzy : AgreeOutside n qubits z y <;> by_cases hyx : AgreeOutside n [q] y x <;>
      simp [hzy]
  · intro y hyq hyj
    have hrow : rowIndex qubits y = rowIndex qubits x :=
      rowIndex_congr fun q' hq' => hyj q' fun heq => hmem (heq ▸ hq')
    rw [rowIndex_singleton, rowIndex_singleton, h_entry, hrow, hyq, rowIndex_cons,
      List.reverse_cons, rowIndex_append_singleton, length_cons, ← cis_fourier, pow_succ, map_mul]
    ring

lemma prepared_fourierBlocks (hnd : qubits.Nodup) (hlt : ∀ q ∈ qubits, q < n)
    (hlen : qubits.length ≤ maxExponent) (hz : z < 2 ^ n) (ψ : ℕ → Complex ℝ) :
    prepared n (fourierBlocks qubits) ψ z =
      ∑ x ∈ range (2 ^ n), fourierKernel n qubits z x * ψ x := by
  induction qubits generalizing ψ with
  | nil =>
    rw [sum_eq_single_of_mem z (mem_range.2 hz)]
    · rw [fourierKernel_eq, if_pos (refl n [] z)]
      simp [fourierBlocks, prepared, rowIndex]
    · intro x hx hne
      rw [fourierKernel_eq, if_neg, zero_mul]
      exact fun hagr => hne (hagr.eq_of_rowIndex_eq hz (mem_range.1 hx) rfl).symm
  | cons q qubits ih =>
    rw [length_cons] at hlen
    obtain ⟨hmem, hnd⟩ := List.nodup_cons.1 hnd
    rw [fourierBlocks, prepared, prepared_append,
      ih hnd (fun q' hq' => hlt q' (by simp [hq'])) (by omega)]
    calc ∑ y ∈ range (2 ^ n), fourierKernel n qubits z y *
          prepared n (rotations q qubits 1) (applied n [q] h ψ) y
        = ∑ y ∈ range (2 ^ n), ∑ x ∈ range (2 ^ n), fourierKernel n qubits z y *
            (cis (2 * .pi * ((y.testBit q).toNat * rowIndex qubits y) /
              2 ^ (1 + qubits.length)) * lifted n [q] h y x) * ψ x := by
          refine sum_congr rfl fun y hy => ?_
          rw [prepared_rotations (by omega) (mem_range.1 hy), applied_eq_sum_lifted,
            mul_sum, mul_sum]
          exact sum_congr rfl fun x _ => by ring
      _ = ∑ x ∈ range (2 ^ n), fourierKernel n (q :: qubits) z x * ψ x := by
          rw [sum_comm]
          refine sum_congr rfl fun x hx => ?_
          rw [← sum_mul, fourierKernel_cons (hlt q (by simp)) hmem (mem_range.1 hx)]

end

/-! ### Reversing the order of the qubits -/

/-- The index whose bit `j` is the bit `π j` of `z`. -/
def permuted (n : ℕ) (π : ℕ → ℕ) (z : ℕ) : ℕ := .ofBits fun i : Fin n => z.testBit (π i)

section
variable {n z j : ℕ} {π ρ : ℕ → ℕ}

lemma permuted_lt : permuted n π z < 2 ^ n := Nat.ofBits_lt_two_pow _

lemma testBit_permuted (hj : j < n) : (permuted n π z).testBit j = z.testBit (π j) := by
  rw [permuted, Nat.testBit_ofBits_lt _ _ hj]

lemma permuted_permuted (hπ : ∀ j < n, π j < n) :
    permuted n π (permuted n ρ z) = permuted n (ρ ∘ π) z := by
  refine eq_of_testBit_lt permuted_lt permuted_lt fun j hj => ?_
  rw [testBit_permuted hj, testBit_permuted (hπ j hj), testBit_permuted hj]
  rfl

lemma permuted_of_fixes (hz : z < 2 ^ n) (hπ : ∀ j < n, π j = j) : permuted n π z = z := by
  refine eq_of_testBit_lt permuted_lt hz fun j hj => ?_
  rw [testBit_permuted hj, hπ j hj]

lemma rowIndex_permuted {ts : List ℕ} (hlt : ∀ q ∈ ts, q < n) :
    rowIndex ts (permuted n π z) = rowIndex (ts.map π) z := by
  induction ts with
  | nil => rfl
  | cons q _ ih =>
    rw [List.map_cons, rowIndex_cons, rowIndex_cons, testBit_permuted (hlt q (by simp)),
      ih fun q' hq' => hlt q' (by simp [hq']), List.length_map]

lemma swap_entry (b c : Bool) {i : ℕ} (hi : i < 4) :
    (swap : Gate ℝ).entry (2 * b.toNat + c.toNat) i =
      if i = 2 * c.toNat + b.toNat then 1 else 0 := by
  obtain rfl | rfl | rfl | rfl : i = 0 ∨ i = 1 ∨ i = 2 ∨ i = 3 := by omega
  all_goals cases b <;> cases c <;> simp [entry, Gate.get, Gate.swap, twoQubit]

lemma applied_swap {a b : ℕ} (ha : a < n) (hb : b < n) (ψ : ℕ → Complex ℝ) :
    applied n [a, b] swap ψ z = ψ (permuted n (swap a b) z) := by
  have hrow : rowIndex [a, b] (permuted n (swap a b) z) =
      2 * (z.testBit b).toNat + (z.testBit a).toNat := by
    rw [rowIndex_pair, testBit_permuted ha, testBit_permuted hb, swap_apply_left, swap_apply_right]
  rw [applied_of_row permuted_lt, hrow, rowIndex_pair, swap_entry, if_pos rfl, one_mul]
  · cases z.testBit a <;> cases z.testBit b <;> decide
  · intro j hj hnot
    simp only [List.mem_cons, List.not_mem_nil, or_false, not_or] at hnot
    rw [testBit_permuted hj, swap_apply_of_ne_of_ne hnot.1 hnot.2]
  · intro i hi hne
    rw [rowIndex_pair, swap_entry _ _ hi, if_neg (hrow ▸ hne)]

end

section
variable {n : ℕ} {qubits : List ℕ}

/-- The first `m` swaps, as a permutation of the qubits. -/
def reversal (qubits : List ℕ) : ℕ → ℕ → ℕ
  | 0 => id
  | m + 1 => swap (qubits.getD m 0) (qubits.getD (qubits.length - m - 1) 0) ∘
      reversal qubits m

noncomputable def swapInstructions (qubits : List ℕ) (m : ℕ) : List (Instruction ℝ) :=
  (List.range m).map fun index =>
    .gateOp swap [qubits.getD index 0, qubits.getD (qubits.length - index - 1) 0]

variable {i j m : ℕ}

lemma getD_mem (hi : i < qubits.length) : qubits.getD i 0 ∈ qubits := by
  rw [getD_eq_getElem]
  exact List.getElem_mem hi

lemma getD_inj (hnd : qubits.Nodup) (hi : i < qubits.length)
    (hj : j < qubits.length) : qubits.getD i 0 = qubits.getD j 0 ↔ i = j := by
  rw [getD_eq_getElem _ _ hi, getD_eq_getElem _ _ hj, hnd.getElem_inj_iff]

lemma reversal_lt (hlt : ∀ q ∈ qubits, q < n) (hm : m ≤ qubits.length / 2) :
    ∀ j < n, reversal qubits m j < n := by
  induction m with
  | zero => exact fun j hj => hj
  | succ _ ih =>
    intro j hj
    rw [reversal, Function.comp_apply, swap_apply_def]
    split_ifs
    · exact hlt _ (getD_mem (by omega))
    · exact hlt _ (getD_mem (by omega))
    · exact ih (by omega) j hj

lemma reversal_of_not_mem (hm : m ≤ qubits.length / 2) (hj : j ∉ qubits) :
    reversal qubits m j = j := by
  induction m with
  | zero => rfl
  | succ _ ih =>
    rw [reversal, Function.comp_apply, ih (by omega), swap_apply_of_ne_of_ne]
    all_goals exact fun heq => hj (heq ▸ getD_mem (by omega))

/-- The qubits at both ends have changed places. -/
lemma reversal_getD (hnd : qubits.Nodup) (hm : m ≤ qubits.length / 2)
    (hi : i < qubits.length) : reversal qubits m (qubits.getD i 0) =
      qubits.getD (if i < m ∨ qubits.length - m ≤ i then qubits.length - 1 - i else i) 0 := by
  induction m with
  | zero =>
    rw [if_neg (by omega)]
    rfl
  | succ m ih =>
    have hinj := fun {i j : ℕ} => getD_inj hnd (i := i) (j := j)
    rw [reversal, Function.comp_apply, ih (by omega)]
    by_cases hends : i < m ∨ qubits.length - m ≤ i
    · rw [if_pos hends, if_pos (by omega), swap_apply_of_ne_of_ne]
      · exact fun heq => by have := (hinj (by omega) (by omega)).1 heq; omega
      · exact fun heq => by have := (hinj (by omega) (by omega)).1 heq; omega
    · rw [if_neg hends]
      by_cases hlf : i = m
      · rw [if_pos (by omega), hlf, swap_apply_left,
          show qubits.length - 1 - m = qubits.length - m - 1 by omega]
      by_cases hrig : i = qubits.length - m - 1
      · rw [if_pos (by omega), hrig, swap_apply_right,
          show qubits.length - 1 - (qubits.length - m - 1) = m by omega]
      · rw [if_neg (by omega), swap_apply_of_ne_of_ne]
        · exact fun heq => hlf ((hinj hi (by omega)).1 heq)
        · exact fun heq => hrig ((hinj hi (by omega)).1 heq)

/-- All swaps. -/
def reversed (qubits : List ℕ) : ℕ → ℕ := reversal qubits (qubits.length / 2)

lemma reversed_getD (hnd : qubits.Nodup) (hi : i < qubits.length) :
    reversed qubits (qubits.getD i 0) = qubits.getD (qubits.length - 1 - i) 0 := by
  rw [reversed, reversal_getD hnd le_rfl hi]
  split_ifs
  · rfl
  · rw [show qubits.length - 1 - i = i by omega]

lemma map_reversed (hnd : qubits.Nodup) : qubits.map (reversed qubits) = qubits.reverse := by
  refine List.ext_getElem (by simp) fun i hi hi' => ?_
  rw [List.length_map] at hi
  rw [List.getElem_map, List.getElem_reverse, ← getD_eq_getElem,
    reversed_getD hnd hi, getD_eq_getElem]

lemma reversed_reversed (hnd : qubits.Nodup) (j : ℕ) : reversed qubits (reversed qubits j) = j := by
  by_cases hj : j ∈ qubits
  · obtain ⟨i, hi, rfl⟩ := List.getElem_of_mem hj
    rw [← getD_eq_getElem, reversed_getD hnd hi, reversed_getD hnd (by omega),
      show qubits.length - 1 - (qubits.length - 1 - i) = i by omega]
  · rw [reversed, reversal_of_not_mem le_rfl hj, reversal_of_not_mem le_rfl hj]

lemma prepared_swapInstructions (hlt : ∀ q ∈ qubits, q < n) {z : ℕ}
    (hm : m ≤ qubits.length / 2) (hz : z < 2 ^ n) (ψ : ℕ → Complex ℝ) :
    prepared n (swapInstructions qubits m) ψ z = ψ (permuted n (reversal qubits m) z) := by
  induction m generalizing z with
  | zero =>
    rw [show permuted n (reversal qubits 0) z = z from permuted_of_fixes hz fun _ _ => rfl]
    rfl
  | succ _ ih =>
    rw [swapInstructions, List.range_succ, List.map_append, prepared_append]
    rw [List.map_singleton, prepared, prepared, applied_swap (hlt _ (getD_mem (by omega)))
      (hlt _ (getD_mem (by omega)))]
    rw [← swapInstructions, ih (by omega) permuted_lt,
      permuted_permuted (reversal_lt hlt (by omega))]
    rfl

lemma undoes_swapInstructions (hnd : qubits.Nodup) (hlt : ∀ q ∈ qubits, q < n) :
    Undoes n (swapInstructions qubits (qubits.length / 2))
      (swapInstructions qubits (qubits.length / 2)) := by
  intro ψ z hz
  rw [prepared_swapInstructions hlt le_rfl hz, prepared_swapInstructions hlt le_rfl permuted_lt,
    permuted_permuted (reversal_lt hlt le_rfl)]
  exact congrArg ψ (permuted_of_fixes hz fun j _ => reversed_reversed hnd j)

end

namespace Circuit

section
variable {n t s : ℕ} {qubits controls : List ℕ}

lemma appends_rotations (ht : t < n) (hctr : ∀ c ∈ controls, c < n ∧ c ≠ t) (k : ℕ) :
    Appends n (each ((controls.zipIdx (s + k)).map fun entry =>
      crk entry.1 t (entry.2 - s + 1))) (rotations t controls k) := by
  induction controls generalizing k with
  | nil => exact appends_each_nil
  | cons _ _ ih =>
    obtain ⟨hc, hr⟩ := List.forall_mem_cons.1 hctr
    rw [zipIdx_cons, List.map_cons]
    rw [show s + k - s + 1 = k + 1 by omega]
    exact .bind (appends_add2 hc.1 ht hc.2) (ih hr (k + 1))

lemma appends_rotationsBack (ht : t < n) (hctr : ∀ c ∈ controls, c < n ∧ c ≠ t) (k : ℕ) :
    Appends n (each ((controls.zipIdx (s + k)).reverse.map fun entry =>
      add2 (Gate.crk (entry.2 - s + 1)).dagger entry.1 t)) (rotationsBack t controls k) := by
  induction controls generalizing k with
  | nil => exact appends_each_nil
  | cons _ _ ih =>
    obtain ⟨hc, hr⟩ := List.forall_mem_cons.1 hctr
    rw [zipIdx_cons, List.reverse_cons, List.map_append]
    refine (ih hr (k + 1)).each_append ?_
    rw [List.map_singleton, show s + k - s + 1 = k + 1 by omega]
    exact (appends_add2 hc.1 ht hc.2).each_singleton

lemma zipIdx_drop {bef aft : List ℕ} {q : ℕ} :
    (bef ++ q :: aft).zipIdx.drop (bef.length + 1) = aft.zipIdx (bef.length + 1) := by
  rw [List.zipIdx_append, ← List.drop_drop]
  simp

variable (before : List ℕ) {after : List ℕ}

lemma appends_fourierBlocks (hqs : qubits = before ++ after) (hnd : after.Nodup)
    (hlt : ∀ q ∈ after, q < n) :
    Appends n (each ((after.zipIdx before.length).map fun entry => do
      h entry.1
      each ((qubits.zipIdx.drop (entry.2 + 1)).map fun later =>
        crk later.1 entry.1 (later.2 - entry.2 + 1)))) (fourierBlocks after) := by
  induction after generalizing before with
  | nil => exact appends_each_nil
  | cons q after ih =>
    obtain ⟨hmem, hnd⟩ := List.nodup_cons.1 hnd
    obtain ⟨hq, hr⟩ := List.forall_mem_cons.1 hlt
    have hrota : Appends n (each ((qubits.zipIdx.drop (before.length + 1)).map
        fun later => crk later.1 q (later.2 - before.length + 1))) (rotations q after 1) := by
      rw [hqs, zipIdx_drop]
      exact appends_rotations hq (fun c hc => ⟨hr c hc, fun heq => hmem (heq ▸ hc)⟩) 1
    have hs := ih (before ++ [q]) (by simp [hqs]) hnd hr
    rw [List.length_append] at hs
    exact ((appends_add1 hq).bind hrota).bind hs

lemma appends_fourierBlocksBack (hqs : qubits = before ++ after) (hnd : after.Nodup)
    (hlt : ∀ q ∈ after, q < n) :
    Appends n (each ((after.zipIdx before.length).reverse.map fun entry => do
      each ((qubits.zipIdx.drop (entry.2 + 1)).reverse.map fun later =>
        add2 (Gate.crk (later.2 - entry.2 + 1)).dagger later.1 entry.1)
      h entry.1)) (fourierBlocksBack after) := by
  induction after generalizing before with
  | nil => exact appends_each_nil
  | cons q _ ih =>
    obtain ⟨hmem, hnd⟩ := List.nodup_cons.1 hnd
    obtain ⟨hq, hr⟩ := List.forall_mem_cons.1 hlt
    have hs := ih (before ++ [q]) (by simp [hqs]) hnd hr
    rw [List.length_append] at hs
    rw [zipIdx_cons, List.reverse_cons, List.map_append]
    refine hs.each_append ?_
    refine .each_singleton (.bind ?_ (appends_add1 hq))
    rw [hqs, zipIdx_drop]
    exact appends_rotationsBack hq (fun c hc => ⟨hr c hc, fun heq => hmem (heq ▸ hc)⟩) 1

lemma appends_swaps (hnd : qubits.Nodup) (hlt : ∀ q ∈ qubits, q < n) :
    Appends n (each (swaps qubits))
      (swapInstructions qubits (qubits.length / 2)) := by
  rw [swapInstructions, List.map_eq_flatMap]
  refine appends_each fun ix hidx => ?_
  have hla := mem_range.1 hidx
  have hfst : ix < qubits.length := by omega
  have ho : qubits.length - ix - 1 < qubits.length := by omega
  rw [List.getElem?_eq_getElem hfst, List.getElem?_eq_getElem ho, getD_eq_getElem, getD_eq_getElem]
  refine appends_add2 (hlt _ (List.getElem_mem hfst)) (hlt _ (List.getElem_mem ho)) ?_
  intro heq
  have := hnd.getElem_inj_iff.1 heq
  omega

lemma appends_qft (hnd : qubits.Nodup) (hlt : ∀ q ∈ qubits, q < n) :
    Appends n (qft qubits)
      (fourierBlocks qubits ++ swapInstructions qubits (qubits.length / 2)) := by
  refine (appends_check fun circ hn => ?_).bind
    ((appends_fourierBlocks [] rfl hnd hlt).bind (appends_swaps hnd hlt))
  exact validateDistinctQubits_ok.2 ⟨hnd, fun q hq => hn ▸ hlt q hq⟩

lemma appends_iqft (hnd : qubits.Nodup) (hlt : ∀ q ∈ qubits, q < n) :
    Appends n (iqft qubits)
      (swapInstructions qubits (qubits.length / 2) ++ fourierBlocksBack qubits) := by
  refine (appends_check fun circ hn => ?_).bind
    ((appends_swaps hnd hlt).bind (appends_fourierBlocksBack [] rfl hnd hlt))
  exact validateDistinctQubits_ok.2 ⟨hnd, fun q hq => hn ▸ hlt q hq⟩

/-- `Circuit::qft` appends a circuit that maps a basis state with the number `x`
in the qubits to the sum of `exp(2πi·x·y/2^k)/√(2^k)` times the basis states with
`y` there and the same bits elsewhere; `Circuit::iqft` appends its inverse. -/
theorem qft_fourier {start : Circuit ℝ} (hnew : new n = .ok start) (hnodup : qubits.Nodup)
    (hlt : ∀ q ∈ qubits, q < n) :
    ∃ forward backward, Appends n (qft qubits) forward ∧ Appends n (iqft qubits) backward ∧
      (∀ x < 2 ^ n, ∀ z < 2 ^ n, prepared n forward (identity x) z =
        if AgreeOutside n qubits x z then
          ofReal (1 / Real.sqrt (2 ^ qubits.length)) *
            cis (2 * Real.pi * (rowIndex qubits x * rowIndex qubits z) / 2 ^ qubits.length)
        else 0) ∧
      Undoes n forward backward ∧ Undoes n backward forward := by
  have hlen : qubits.length ≤ maxExponent := by
    have hsub : qubits ⊆ .range n := fun q hq => List.mem_range.2 (hlt q hq)
    have hle := (hnodup.subperm hsub).length_le
    have hmax : n ≤ maxQubits := by
      rw [new] at hnew
      split_ifs at hnew with h0 hlar
      exact not_lt.1 hlar
    rw [List.length_range] at hle
    exact hle.trans (hmax.trans (by decide))
  obtain ⟨hfor, hback⟩ := undoes_fourierBlocks hlt hlen
  have hswa := undoes_swapInstructions hnodup hlt
  refine ⟨_, _, appends_qft hnodup hlt, appends_iqft hnodup hlt, fun x hx z hz => ?_,
    hfor.append hswa, hswa.append hback⟩
  rw [prepared_append, prepared_swapInstructions hlt le_rfl hz,
    prepared_fourierBlocks hnodup hlt hlen permuted_lt, sum_eq_single_of_mem x (mem_range.2 hx)]
  · have hagr : AgreeOutside n qubits (permuted n (reversed qubits) z) x ↔
        AgreeOutside n qubits x z := by
      refine forall₂_congr fun j hj => forall_congr' fun hnot => ?_
      rw [testBit_permuted hj, reversed, reversal_of_not_mem le_rfl hnot]
      exact eq_comm
    have hrow : rowIndex qubits.reverse (permuted n (reversed qubits) z) = rowIndex qubits z := by
      rw [rowIndex_permuted fun q hq => hlt q (List.mem_reverse.1 hq), List.map_reverse,
        map_reversed hnodup, List.reverse_reverse]
    rw [identity, if_pos rfl, mul_one, ← reversed, fourierKernel_eq, hrow, fracOneSqrtTwo_pow]
    exact if_congr hagr rfl rfl
  · intro y _ hne
    rw [identity, if_neg hne.symm, mul_zero]

/-- Two of three qubits, the last one as the highest bit. -/
theorem qft_fourier_three : ∃ start : Circuit ℝ, new 3 = .ok start ∧
    ∃ forward backward, Appends 3 (qft [2, 0]) forward ∧ Appends 3 (iqft [2, 0]) backward ∧
      (∀ x < 2 ^ 3, ∀ z < 2 ^ 3, prepared 3 forward (identity x) z =
        if AgreeOutside 3 [2, 0] x z then
          ofReal (1 / Real.sqrt (2 ^ 2)) *
            cis (2 * Real.pi * (rowIndex [2, 0] x * rowIndex [2, 0] z) / 2 ^ 2)
        else 0) ∧
      Undoes 3 forward backward ∧ Undoes 3 backward forward := by
  have hnew : new 3 = .ok (⟨3, 0, []⟩ : Circuit ℝ) := rfl
  exact ⟨_, hnew, qft_fourier hnew (by decide) (by decide)⟩

end

end Circuit

end Waros.Quantum
