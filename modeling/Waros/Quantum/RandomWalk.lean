import Mathlib.Analysis.SpecialFunctions.Sqrt

/-!
The quantum random walk on a line
(`crates/waros-quantum/src/algorithms/random_walk.rs`). Position `steps` of the
array is the origin. In exact arithmetic the real part of one coin is, up to a
sign that alternates along the line, the imaginary part of the other coin at the
mirrored position, and until the last step nothing reaches the ends of the array.
-/

namespace Waros.Quantum.RandomWalk

open Finset

/-- A pair of real and imaginary part for each side of the coin. -/
abbrev Cell (F : Type) := (F × F) × (F × F)

structure RandomWalkResult (F : Type) where
  positions : List ℤ
  probabilities : List F
  variance : F

section
variable {F : Type} [Zero F] [Add F] [Sub F] [Mul F] (invSqrtTwo : F) (lhs rhs : F × F)
  (value : F × F) (cell : Cell F)

def add : F × F := (lhs.1 + rhs.1, lhs.2 + rhs.2)

def sub : F × F := (lhs.1 - rhs.1, lhs.2 - rhs.2)

def scale (scalar : F) : F × F := (value.1 * scalar, value.2 * scalar)

def normSq : F := value.1 * value.1 + value.2 * value.2

def coined : Cell F := (scale (add cell.1 cell.2) invSqrtTwo, scale (sub cell.1 cell.2) invSqrtTwo)

/-- One round of the loop; each cell of the new array is written at most once. -/
def shifted (width : ℕ) (amplitudes : ℕ → Cell F) (position : ℕ) : Cell F :=
  (if position + 1 < width then add (0, 0) (coined invSqrtTwo (amplitudes (position + 1))).1
    else (0, 0),
    if 0 < position then add (0, 0) (coined invSqrtTwo (amplitudes (position - 1))).2 else (0, 0))

def initial (origin position : ℕ) : Cell F :=
  if position = origin then ((invSqrtTwo, 0), (0, invSqrtTwo)) else ((0, 0), (0, 0))

def amplitudes (steps rounds : ℕ) : ℕ → Cell F :=
  (shifted invSqrtTwo (2 * steps + 1))^[rounds] (initial invSqrtTwo steps)

def probability : F := normSq cell.1 + normSq cell.2

def quantumRandomWalk (ofInt : ℤ → F) (steps : ℕ) : RandomWalkResult F :=
  let positions := (List.range (2 * steps + 1)).map fun p : ℕ => (p : ℤ) - steps
  let probabilities := (List.range (2 * steps + 1)).map fun p =>
    probability (amplitudes invSqrtTwo steps steps p)
  { positions
    probabilities
    variance := ((positions.zip probabilities).map fun e => ofInt e.1 * ofInt e.1 * e.2).sum }

end

/-- What holds after some rounds. -/
structure Walks (n rounds : ℕ) (a : ℕ → Cell ℝ) : Prop where
  outside : ∀ p, p + rounds < n ∨ n + rounds < p → a p = ((0, 0), (0, 0))
  mirror : ∀ p q, p + q = 2 * n → (a p).1.2 = -((-1) ^ (p + n) * (a q).2.1) ∧
    (a p).2.2 = (-1) ^ (p + n) * (a q).1.1
  total : ∑ p ∈ range (2 * n + 1), probability (a p) = 1

variable {n rounds : ℕ} {a : ℕ → Cell ℝ} {c : ℝ}

lemma probability_coined (hc : c * c = 1 / 2) (cell : Cell ℝ) :
    probability (coined c cell) = probability cell := by
  obtain ⟨⟨x, y⟩, z, w⟩ := cell
  simp only [probability, coined, scale, add, sub, normSq]
  linear_combination (2 * (x * x + y * y + z * z + w * w)) * hc

lemma walks_initial (hc : c * c = 1 / 2) : Walks n 0 (initial c n) where
  outside p hp := if_neg (by omega)
  mirror p q hpq := by
    by_cases hp : p = n
    · have hq : q = n := by omega
      simp [initial, hp, hq]
    · have hq : q ≠ n := by omega
      simp [initial, hp, hq]
  total := by
    rw [sum_eq_single n]
    · simp only [initial, if_true, probability, normSq]
      linear_combination 2 * hc
    · intro p _ hp
      simp [initial, hp, probability, normSq]
    · exact fun hn => absurd (mem_range.2 (by omega)) hn

lemma Walks.total_shifted (h : Walks n rounds a) (hc : c * c = 1 / 2) (hlt : rounds < n) :
    ∑ p ∈ range (2 * n + 1), probability (shifted c (2 * n + 1) a p) = 1 := by
  -- the coins that would leave the array are zero
  have hfirst : normSq (coined c (a 0)).1 = 0 := by
    rw [h.outside 0 (by omega)]
    simp [coined, scale, add, normSq]
  have hlast : normSq (coined c (a (2 * n))).2 = 0 := by
    rw [h.outside (2 * n) (by omega)]
    simp [coined, scale, sub, normSq]
  have hleft : ∑ p ∈ range (2 * n + 1), normSq (shifted c (2 * n + 1) a p).1 =
      ∑ p ∈ range (2 * n + 1), normSq (coined c (a p)).1 := by
    rw [sum_range_succ, sum_range_succ', hfirst]
    refine congrArg₂ (· + ·) (sum_congr rfl fun p hp => ?_) ?_
    · simp [shifted, mem_range.1 hp, add]
    · simp [shifted, normSq]
  have hright : ∑ p ∈ range (2 * n + 1), normSq (shifted c (2 * n + 1) a p).2 =
      ∑ p ∈ range (2 * n + 1), normSq (coined c (a p)).2 := by
    rw [sum_range_succ', sum_range_succ, hlast]
    refine congrArg₂ (· + ·) (sum_congr rfl fun p _ => ?_) ?_
    · simp [shifted, add]
    · simp [shifted, normSq]
  simp only [probability, sum_add_distrib, hleft, hright]
  rw [← sum_add_distrib, ← h.total]
  exact sum_congr rfl fun p _ => probability_coined hc (a p)

lemma Walks.step (h : Walks n rounds a) (hc : c * c = 1 / 2) (hlt : rounds < n) :
    Walks n (rounds + 1) (shifted c (2 * n + 1) a) where
  outside p hp := by
    have hleft := h.outside (p + 1) (by omega)
    have hright := h.outside (p - 1) (by omega)
    simp [shifted, hleft, hright, coined, scale, add, sub]
  mirror p q hpq := by
    constructor
    · cases q with
      | zero => simp [shifted, show ¬p < 2 * n by omega]
      | succ q =>
        obtain ⟨h₀, h₁⟩ := h.mirror (p + 1) q (by omega)
        simp only [shifted, if_pos (show p + 1 < 2 * n + 1 by omega), q.succ_pos, if_true,
          Nat.add_sub_cancel, coined, scale, add, sub, h₀, h₁]
        ring
    · cases p with
      | zero => simp [shifted, show ¬q < 2 * n by omega]
      | succ p =>
        obtain ⟨h₀, h₁⟩ := h.mirror p (q + 1) (by omega)
        simp only [shifted, if_pos (show q + 1 < 2 * n + 1 by omega), p.succ_pos, if_true,
          Nat.add_sub_cancel, coined, scale, add, sub, h₀, h₁]
        ring
  total := h.total_shifted hc hlt

lemma walks_amplitudes (hc : c * c = 1 / 2) (hle : rounds ≤ n) :
    Walks n rounds (amplitudes c n rounds) := by
  induction rounds with
  | zero => exact walks_initial hc
  | succ rounds ih =>
    rw [amplitudes, Function.iterate_succ_apply']
    exact (ih (by omega)).step hc (by omega)

lemma Walks.probability_mirror (h : Walks n rounds a) {p q : ℕ} (hpq : p + q = 2 * n) :
    probability (a q) = probability (a p) := by
  have hsq k (x : ℝ) : (-1) ^ k * x * ((-1) ^ k * x) = x * x := by
    rw [mul_mul_mul_comm, ← mul_pow]
    simp
  obtain ⟨h₀, h₁⟩ := h.mirror p q hpq
  obtain ⟨k₀, k₁⟩ := h.mirror q p (by omega)
  simp only [probability, normSq, h₀, h₁, k₀, k₁, neg_mul_neg, hsq]
  ring

noncomputable def exactWalk (steps : ℕ) : RandomWalkResult ℝ :=
  quantumRandomWalk (1 / .sqrt (1 + 1)) (fun x : ℤ => (x : ℝ)) steps

def mean (r : RandomWalkResult ℝ) : ℝ :=
  ((r.positions.zip r.probabilities).map fun e => (e.1 : ℝ) * e.2).sum

lemma mean_eq_zero {prob : ℕ → ℝ} (h : ∀ p q, p + q = 2 * n → prob q = prob p) :
    ∑ p ∈ range (2 * n + 1), (((p : ℤ) - n : ℤ) : ℝ) * prob p = 0 := by
  have hneg : ∑ p ∈ range (2 * n + 1), ((p - n : ℤ)) * prob p =
      -∑ p ∈ range (2 * n + 1), ((p - n : ℤ)) * prob p := by
    nth_rewrite 1 [← sum_range_reflect]
    rw [← sum_neg_distrib]
    refine sum_congr rfl fun p hp => ?_
    obtain ⟨q, hq⟩ := Nat.exists_eq_add_of_le (Nat.lt_succ_iff.1 (mem_range.1 hp))
    rw [show 2 * n + 1 - 1 - p = q by omega, h p q hq.symm, show (q : ℤ) = 2 * n - p by omega]
    push_cast
    ring
  linarith

/-- The probabilities are a distribution that is symmetric about the origin, so
the mean is zero and the variance returned is the one of the position. -/
theorem quantumRandomWalk_symmetric (steps : ℕ) :
    (∀ p ∈ (exactWalk steps).probabilities, 0 ≤ p) ∧ (exactWalk steps).probabilities.sum = 1 ∧
      (exactWalk steps).probabilities.reverse = (exactWalk steps).probabilities ∧
      mean (exactWalk steps) = 0 ∧ (exactWalk steps).variance =
        (((exactWalk steps).positions.zip (exactWalk steps).probabilities).map fun e =>
          ((e.1 : ℝ) - mean (exactWalk steps)) ^ 2 * e.2).sum := by
  have hc : 1 / Real.sqrt (1 + 1) * (1 / .sqrt (1 + 1)) = 1 / 2 := by
    rw [div_mul_div_comm, Real.mul_self_sqrt (by norm_num), one_mul, one_add_one_eq_two]
  have hw : Walks steps steps (amplitudes (1 / .sqrt (1 + 1)) steps steps) :=
    walks_amplitudes hc le_rfl
  have hmean : mean (exactWalk steps) = 0 := by
    rw [← mean_eq_zero fun p q => hw.probability_mirror]
    simp only [mean, exactWalk, quantumRandomWalk, List.zip_map', List.map_map]
    rfl
  refine ⟨?_, hw.total, ?_, hmean, ?_⟩
  · simp only [exactWalk, quantumRandomWalk, List.forall_mem_map]
    exact fun p _ => add_nonneg (add_nonneg (mul_self_nonneg _) (mul_self_nonneg _))
      (add_nonneg (mul_self_nonneg _) (mul_self_nonneg _))
  · refine List.ext_getElem (List.length_reverse ..) fun i hi hi' => ?_
    have hlt : i < 2 * steps + 1 := by simpa [exactWalk, quantumRandomWalk] using hi'
    simp only [exactWalk, quantumRandomWalk, List.getElem_reverse, List.getElem_map,
      List.getElem_range, List.length_map, List.length_range]
    exact hw.probability_mirror (by omega)
  · rw [hmean]
    simp only [sub_zero, pow_two]
    rfl

end Waros.Quantum.RandomWalk
