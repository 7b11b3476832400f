import Mathlib.Probability.ProductMeasure

/-!
Sampling from a finite distribution: one uniform draw picks the first index at
which the sum of the weights exceeds it. Over independent uniform draws, the mean
of a function of the index is its mean under the weights.
-/

namespace Waros.Lib

open MeasureTheory Finset

/-- The first index at which the sum of the weights, added to `cumulative`,
exceeds the draw; the first weight has the index `index`. -/
def firstExceeding {F : Type} [Add F] (lt : F → F → Bool) (draw : F) :
    F → ℕ → List F → Option ℕ
  | _, _, [] => none
  | cumulative, index, weight :: weights =>
    if lt draw (cumulative + weight) then some index
    else firstExceeding lt draw (cumulative + weight) (index + 1) weights

/-- The uniform distribution on `[0, 1)`. -/
noncomputable def uniform : Measure ℝ := volume.restrict (Set.Ico 0 1)

instance : IsProbabilityMeasure uniform := ⟨by simp [uniform]⟩

noncomputable def uniformDraws : Measure (ℕ → ℝ) := .infinitePi fun _ => uniform

instance : IsProbabilityMeasure uniformDraws := by
  rw [uniformDraws]
  infer_instance

variable {weights : List ℝ} {lt : ℝ → ℝ → Bool}

lemma integral_firstExceeding (hlt : ∀ a b, lt a b ↔ a < b)
    (hnn : ∀ p ∈ weights, 0 ≤ p) {c : ℝ} (hsum : c + weights.sum = 1) (ix last : ℕ) (g : ℕ → ℝ) :
    IntegrableOn (fun r => g ((firstExceeding lt r c ix weights).getD last)) (Set.Ico c 1) ∧
      ∫ r in Set.Ico c 1, g ((firstExceeding lt r c ix weights).getD last) =
        ∑ i ∈ range weights.length, weights.getD i 0 * g (ix + i) := by
  induction weights generalizing c ix with
  | nil =>
    obtain rfl : c = 1 := by simpa using hsum
    simp
  | cons p weights ih =>
    have hp := hnn p List.mem_cons_self
    have hrs := fun q hq => hnn q (List.mem_cons_of_mem p hq)
    have hsum' : c + p + weights.sum = 1 := by rw [← hsum, List.sum_cons, add_assoc]
    have hle : c + p ≤ 1 := by
      have := List.sum_nonneg hrs
      linarith
    obtain ⟨hint, hval⟩ := ih hrs hsum' (ix + 1)
    -- draws below c + p pick this index, the others one of the rest
    have hfst : Set.EqOn (fun _ => g ix)
        (fun r => g ((firstExceeding lt r c ix (p :: weights)).getD last))
        (Set.Ico c (c + p)) := by
      intro r hr
      simp only [firstExceeding, if_pos ((hlt r (c + p)).2 hr.2), Option.getD_some]
    have hsec : Set.EqOn
        (fun r => g ((firstExceeding lt r (c + p) (ix + 1) weights).getD last))
        (fun r => g ((firstExceeding lt r c ix (p :: weights)).getD last))
        (Set.Ico (c + p) 1) := by
      intro r hr
      have hnot : ¬ lt r (c + p) := fun h => absurd ((hlt _ _).1 h) (not_lt.2 hr.1)
      simp only [firstExceeding, if_neg hnot]
    have hcon : IntegrableOn (fun _ => g ix) (Set.Ico c (c + p)) := integrableOn_const (by simp)
    have hint₁ := hcon.congr_fun hfst measurableSet_Ico
    have hint₂ := hint.congr_fun hsec measurableSet_Ico
    have huni : Set.Ico c 1 = Set.Ico c (c + p) ∪ Set.Ico (c + p) 1 :=
      (Set.Ico_union_Ico_eq_Ico (by linarith) hle).symm
    have hdisj : Disjoint (Set.Ico c (c + p)) (Set.Ico (c + p) 1) := Set.Ico_disjoint_Ico_same
    rw [huni]
    refine ⟨hint₁.union hint₂, ?_⟩
    rw [setIntegral_union hdisj measurableSet_Ico hint₁ hint₂,
      ← setIntegral_congr_fun measurableSet_Ico hfst,
      ← setIntegral_congr_fun measurableSet_Ico hsec, hval, List.length_cons, sum_range_succ']
    simp [hp, add_comm, add_left_comm]

lemma integral_draw {f : ℝ → ℝ} (hf : Integrable f uniform) (i : ℕ) :
    Integrable (fun draws : ℕ → ℝ => f (draws i)) uniformDraws ∧
      ∫ draws, f (draws i) ∂uniformDraws = ∫ r, f r ∂uniform := by
  have hmap : uniformDraws.map (fun draws => draws i) = uniform := Measure.infinitePi_map_eval _ i
  have hmeas : AEMeasurable (fun draws : ℕ → ℝ => draws i) uniformDraws :=
    (measurable_pi_apply i).aemeasurable
  rw [← hmap] at hf
  constructor
  · exact (integrable_map_measure hf.1 hmeas).1 hf
  · rw [← hmap, integral_map hmeas hf.1]

/-- The mean over `shots` draws of a function of the picked index. -/
lemma integral_mean_firstExceeding (hlt : ∀ a b, lt a b ↔ a < b)
    (hnn : ∀ p ∈ weights, 0 ≤ p) (hsum : weights.sum = 1) (last : ℕ) (g : ℕ → ℝ) {shots : ℕ}
    (hshort : shots ≠ 0) :
    ∫ draws, (∑ i ∈ range shots,
        g ((firstExceeding lt (draws i) 0 0 weights).getD last)) / shots ∂uniformDraws =
      ∑ i ∈ range weights.length, weights.getD i 0 * g i := by
  obtain ⟨hint, hval⟩ := integral_firstExceeding hlt hnn (c := 0) (by rw [hsum, zero_add])
    0 last g
  have hdraw := fun i => integral_draw (f := fun r =>
    g ((firstExceeding lt r 0 0 weights).getD last)) hint i
  rw [integral_div, integral_finsetSum _ fun i _ => (hdraw i).1]
  simp only [zero_add] at hval
  rw [sum_congr rfl fun i _ => (hdraw i).2, sum_const, card_range,
    nsmul_eq_mul, mul_div_cancel_left₀ _ (Nat.cast_ne_zero.2 hshort)]
  exact hval

end Waros.Lib
