import Mathlib.Analysis.Matrix.Spectrum

/-!
The least eigenvalue of a Hermitian matrix bounds its quadratic form from
below.
-/

namespace Waros.Lib

open Matrix Complex EuclideanSpace Finset WithLp
variable {ι : Type*} [Fintype ι] [DecidableEq ι] {A : Matrix ι ι ℂ}

/-- The quadratic form in the basis of the eigenvectors. -/
lemma quadraticForm_eq_sum (hA : A.IsHermitian) (x : EuclideanSpace ℂ ι) :
    (star x.ofLp ⬝ᵥ A *ᵥ x.ofLp).re =
      ∑ j, hA.eigenvalues j * ‖hA.eigenvectorBasis.repr x j‖ ^ 2 := by
  have hsymm := isSymmetric_toEuclideanLin_iff.2 hA
  have hinn : star x.ofLp ⬝ᵥ A *ᵥ x.ofLp = inner ℂ x (toEuclideanLin A x) := by
    rw [dotProduct_comm]
    rfl
  rw [hinn, ← hA.eigenvectorBasis.sum_inner_mul_inner, re_sum]
  refine sum_congr rfl fun j _ => ?_
  have heig : toEuclideanLin A (hA.eigenvectorBasis j) =
      (hA.eigenvalues j : ℂ) • hA.eigenvectorBasis j := by
    refine PiLp.ext fun k => ?_
    simpa using congrFun (hA.mulVec_eigenvectorBasis j) k
  rw [OrthonormalBasis.repr_apply_apply, ← hsymm, heig, inner_smul_left, conj_ofReal, mul_left_comm,
    re_ofReal_mul, ← inner_conj_symm, conj_mul', ← ofReal_pow, ofReal_re]

lemma exists_least_eigenvalue [Nonempty ι] (hA : A.IsHermitian) :
    ∃ (least : ℝ) (v : ι → ℂ), v ≠ 0 ∧ A *ᵥ v = (least : ℂ) • v ∧
      ∀ x : ι → ℂ, least * ∑ j, ‖x j‖ ^ 2 ≤ (star x ⬝ᵥ A *ᵥ x).re := by
  obtain ⟨i, hi⟩ := Finite.exists_min hA.eigenvalues
  refine ⟨hA.eigenvalues i, (hA.eigenvectorBasis i).ofLp, ?_, ?_, fun x => ?_⟩
  · intro h0
    refine hA.eigenvectorBasis.toBasis.ne_zero i ?_
    exact ofLp_injective 2 h0
  · rw [hA.mulVec_eigenvectorBasis]
    simp
  · have hform := quadraticForm_eq_sum hA (toLp 2 x)
    have hnr : ∑ j, ‖hA.eigenvectorBasis.repr (toLp 2 x) j‖ ^ 2 = ∑ j, ‖x j‖ ^ 2 := by
      rw [← norm_sq_eq, norm_map, norm_sq_eq]
    calc hA.eigenvalues i * ∑ j, ‖x j‖ ^ 2
        = ∑ j, hA.eigenvalues i * ‖hA.eigenvectorBasis.repr (toLp 2 x) j‖ ^ 2 := by
          rw [← mul_sum, hnr]
      _ ≤ ∑ j, hA.eigenvalues j * ‖hA.eigenvectorBasis.repr (toLp 2 x) j‖ ^ 2 :=
          sum_le_sum fun j _ => mul_le_mul_of_nonneg_right (hi j) (sq_nonneg _)
      _ = (star x ⬝ᵥ A *ᵥ x).re := hform.symm

omit [DecidableEq ι] in
/-- A bound of the quadratic form at an eigenvector bounds its eigenvalue. -/
lemma le_of_mulVec_eq_smul {least μ : ℝ} {v : ι → ℂ} (hv : v ≠ 0) (heig : A *ᵥ v = (μ : ℂ) • v)
    (hbd : least * ∑ j, ‖v j‖ ^ 2 ≤ (star v ⬝ᵥ A *ᵥ v).re) : least ≤ μ := by
  have hself : star v ⬝ᵥ v = ((∑ j, ‖v j‖ ^ 2 : ℝ) : ℂ) := by
    rw [dotProduct, ofReal_sum]
    refine sum_congr rfl fun j _ => ?_
    rw [Pi.star_apply, star_def, conj_mul', ofReal_pow]
  rw [heig, dotProduct_smul, hself, smul_eq_mul, ← ofReal_mul, ofReal_re] at hbd
  obtain ⟨j, hj⟩ := Function.ne_iff.1 hv
  have hpos : 0 < ∑ j, ‖v j‖ ^ 2 :=
    sum_pos' (fun i _ => sq_nonneg _) ⟨j, mem_univ j, by
      have := norm_pos_iff.2 hj
      positivity⟩
  exact le_of_mul_le_mul_right hbd hpos

end Waros.Lib
