import Mathlib.Analysis.SpecialFunctions.Trigonometric.Basic
import Waros.Quantum.Unitary

/-!
The arithmetic of the real numbers, and the gates that are unitary in it.
-/

namespace Waros.Quantum

open Lib Quantum.Complex Finset FloatOps Real

/-- Exact arithmetic. -/
noncomputable instance : FloatOps ℝ where
  lit q := q
  pi := .pi
  fracOneSqrtTwo := 1 / sqrt 2
  cos := cos
  sin := sin
  sqrt := sqrt
  abs a := |a|
  round a := round a
  powi a n := a ^ n
  lt a b := decide (a < b)
  le a b := decide (a ≤ b)
  toUsize a := min ⌊a⌋₊ (2 ^ 64 - 1)

namespace Gate

/-- Two orthonormal columns. -/
lemma single_isUnitary {name : Str} {m₀₀ m₀₁ m₁₀ m₁₁ : Complex ℝ}
    (h₀ : m₀₀.conj * m₀₀ + m₁₀.conj * m₁₀ = 1) (h₁ : m₀₁.conj * m₀₁ + m₁₁.conj * m₁₁ = 1)
    (h₀₁ : m₀₀.conj * m₀₁ + m₁₀.conj * m₁₁ = 0) :
    (single name m₀₀ m₀₁ m₁₀ m₁₁).IsUnitary := by
  have h₁₀ : m₀₁.conj * m₀₀ + m₁₁.conj * m₁₀ = 0 := by
    have h := congrArg conjHom h₀₁
    rw [map_add, map_mul, map_mul, map_zero] at h
    simp only [conjHom_apply, conj_conj] at h
    rw [← h]
    ring
  intro i hi j hj
  change i < 2 at hi
  change j < 2 at hj
  change ∑ row ∈ range 2, _ = _
  rw [sum_range_succ, sum_range_one]
  obtain rfl | rfl : i = 0 ∨ i = 1 := by omega
  · obtain rfl | rfl : j = 0 ∨ j = 1 := by omega
    · exact h₀
    · exact h₀₁
  · obtain rfl | rfl : j = 0 ∨ j = 1 := by omega
    · exact h₁₀
    · exact h₁

variable (text : FloatText ℝ) (theta : ℝ)

lemma ry_isUnitary : (ry text theta).IsUnitary := by
  have h : Real.cos (theta / lit 2) ^ 2 + .sin (theta / lit 2) ^ 2 = 1 := cos_sq_add_sin_sq _
  refine single_isUnitary ?_ ?_ ?_
  · ext
    · simpa [FloatOps.cos, FloatOps.sin, pow_two] using h
    · simp
  · ext
    · simpa [FloatOps.cos, FloatOps.sin, pow_two, add_comm] using h
    · simp
  · ext
    · simp [mul_comm]
    · simp

/-- A polar number of length one. -/
lemma conj_mul_fromPolar : (fromPolar 1 theta : Complex ℝ).conj * fromPolar 1 theta = 1 := by
  have h : Real.cos theta ^ 2 + .sin theta ^ 2 = 1 := cos_sq_add_sin_sq theta
  ext
  · simpa [fromPolar, FloatOps.cos, FloatOps.sin, pow_two] using h
  · simp [mul_comm]

lemma diagonal_isUnitary {name : Str} {a b : Complex ℝ} (ha : a.conj * a = 1)
    (hb : b.conj * b = 1) : (single name a 0 0 b).IsUnitary := by
  have h0 : (0 : Complex ℝ).conj = 0 := map_zero conjHom
  refine single_isUnitary ?_ ?_ ?_ <;> simp [ha, hb, h0]

lemma rz_isUnitary : (rz text theta).IsUnitary :=
  diagonal_isUnitary (conj_mul_fromPolar _) (conj_mul_fromPolar _)

lemma sdg_isUnitary : (sdg : Gate ℝ).IsUnitary := by
  refine diagonal_isUnitary ?_ ?_ <;> ext <;> simp

lemma fracOneSqrtTwo_mul_self : (fracOneSqrtTwo : ℝ) * fracOneSqrtTwo = 1 / 2 := by
  have h : Real.sqrt 2 * .sqrt 2 = 2 := mul_self_sqrt (by norm_num)
  change 1 / Real.sqrt 2 * (1 / .sqrt 2) = 1 / 2
  rw [div_mul_div_comm, h, one_mul]

lemma h_isUnitary : (h : Gate ℝ).IsUnitary := by
  have hhalf := fracOneSqrtTwo_mul_self
  refine single_isUnitary ?_ ?_ ?_
  · ext
    · simp [hhalf]
      norm_num
    · simp
  · ext
    · simp [hhalf]
      norm_num
    · simp
  · ext <;> simp

lemma cnot_isUnitary : (cnot : Gate ℝ).IsUnitary := by
  intro i hi j hj
  change i < 4 at hi
  change j < 4 at hj
  change ∑ row ∈ range 4, _ = _
  have h0 : (0 : Complex ℝ).conj = 0 := map_zero conjHom
  have hone : (1 : Complex ℝ).conj = 1 := map_one conjHom
  obtain rfl | rfl | rfl | rfl : i = 0 ∨ i = 1 ∨ i = 2 ∨ i = 3 := by omega
  all_goals
    obtain rfl | rfl | rfl | rfl : j = 0 ∨ j = 1 ∨ j = 2 ∨ j = 3 := by omega
    all_goals simp [sum_range_succ, entry, get, cnot, twoQubit, h0, hone]

end Gate

end Waros.Quantum
