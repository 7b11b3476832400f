import Mathlib.Algebra.BigOperators.Ring.Finset
import Mathlib.Algebra.Ring.CharZero
import Mathlib.Tactic.LinearCombination
import Mathlib.Tactic.Ring
import Waros.Quantum.GateAction
import Waros.Quantum.Vqe

/-!
The operator of a Pauli string, and what `pauli_expectation_from_state`
computes of it. The code goes through the rows of the operator, but takes the
phase of a `Y` from the column: it computes the expectation of the transposed
operator, which differs by a sign for every `Y`.
-/

namespace Waros.Quantum

open Pauli Complex Nat Option
open Finset (mem_range)

open Finset (range sum_congr)
open List (map_cons sum_cons)
variable {F : Type}

/-! ### The ring of amplitudes -/

namespace Complex

@[simp] lemma one_re [Zero F] [One F] : (1 : Complex F).re = 1 := rfl

@[simp] lemma one_im [Zero F] [One F] : (1 : Complex F).im = 0 := rfl

variable (a : Complex F)

@[simp] lemma neg_re [Neg F] : (-a).re = -a.re := rfl

@[simp] lemma neg_im [Neg F] : (-a).im = -a.im := rfl

@[simp] lemma mul_re [Add F] [Sub F] [Mul F] (a b : Complex F) :
    (a * b).re = a.re * b.re - a.im * b.im := rfl

@[simp] lemma mul_im [Add F] [Sub F] [Mul F] (a b : Complex F) :
    (a * b).im = a.re * b.im + a.im * b.re := rfl

@[simp] lemma conj_re [Neg F] : a.conj.re = a.re := rfl

@[simp] lemma conj_im [Neg F] : a.conj.im = -a.im := rfl

variable [CommRing F]

instance : CommRing (Complex F) where
  __ := (inferInstance : AddCommMonoid (Complex F))
  neg_add_cancel a := by ext <;> simp
  mul_assoc a b c := by ext <;> simp <;> ring
  mul_comm a b := by ext <;> simp <;> ring
  one_mul a := by ext <;> simp
  mul_one a := by ext <;> simp
  zero_mul a := by ext <;> simp
  mul_zero a := by ext <;> simp
  left_distrib a b c := by ext <;> simp <;> ring
  right_distrib a b c := by ext <;> simp <;> ring
  zsmul := zsmulRec

def conjHom : Complex F →+* Complex F where
  toFun := conj
  map_one' := by ext <;> simp
  map_zero' := by ext <;> simp
  map_mul' a b := by ext <;> simp <;> ring
  map_add' a b := by
    ext
    · simp
    · simp
      ring

@[simp] lemma conjHom_apply : conjHom a = a.conj := rfl

@[simp] lemma conj_conj : a.conj.conj = a := by ext <;> simp

def ofReal : F →+* Complex F where
  toFun a := ⟨a, 0⟩
  map_one' := rfl
  map_zero' := rfl
  map_mul' a b := by ext <;> simp
  map_add' a b := by ext <;> simp

@[simp] lemma ofReal_re (a : F) : (ofReal a).re = a := rfl

@[simp] lemma ofReal_im (a : F) : (ofReal a).im = 0 := rfl

lemma re_ofReal_mul (a : F) (z : Complex F) : (ofReal a * z).re = a * z.re := by simp

end Complex

section
variable [CommRing F]

/-- `⟨ψ|A|ψ⟩` for an operator on `n` qubits. -/
def expectation (n : ℕ) (operator : ℕ → ℕ → Complex F) (state : ℕ → Complex F) : Complex F :=
  ∑ x ∈ range (2 ^ n), ∑ y ∈ range (2 ^ n),
    (state x).conj * operator x y * state y

/-- The matrices of the Pauli operators, by the bits of row and column. -/
def Pauli.entry : Pauli → Bool → Bool → Complex F
  | .I, row, col => if row = col then 1 else 0
  | .X, row, col => if row = col then 0 else 1
  | .Y, false, true => ⟨0, -1⟩
  | .Y, true, false => ⟨0, 1⟩
  | .Y, _, _ => 0
  | .Z, false, false => 1
  | .Z, true, true => -1
  | .Z, _, _ => 0

def factorAt (paulis : List (ℕ × Pauli)) (qubit : ℕ) : Pauli := (paulis.lookup qubit).getD .I

/-- The tensor product of the factors on `n` qubits. -/
def pauliOperator (n : ℕ) (paulis : List (ℕ × Pauli)) (x y : ℕ) : Complex F :=
  ∏ qubit ∈ range n, (factorAt paulis qubit).entry (x.testBit qubit) (y.testBit qubit)

/-- The weighted sum of the operators of the terms. -/
def Hamiltonian.operator (hamiltonian : Hamiltonian F) (n x y : ℕ) : Complex F :=
  (hamiltonian.terms.map fun term => ofReal term.coefficient * pauliOperator n term.paulis x y).sum

end

/-! ### Strings as permutations with phases -/

/-- The operator exchanges the basis states of its qubit. -/
def Pauli.flips : Pauli → Bool
  | .X | .Y => true
  | .I | .Z => false

/-- The bits that a string exchanges. -/
def flipMask : List (ℕ × Pauli) → ℕ
  | [] => 0
  | (qubit, pauli) :: paulis => (if pauli.flips then 2 ^ qubit else 0) ^^^ flipMask paulis

lemma factorAt_cons_self (qubit : ℕ) (pauli : Pauli) (ps : List (ℕ × Pauli)) :
    factorAt ((qubit, pauli) :: ps) qubit = pauli := by
  simp [factorAt]

variable {qubit : ℕ}

lemma factorAt_cons_of_ne {other : ℕ} (h : other ≠ qubit) (p : Pauli) (ps : List (ℕ × Pauli)) :
    factorAt ((qubit, p) :: ps) other = factorAt ps other := by
  have hbeq : (other == qubit) = false := beq_false_of_ne h
  simp [factorAt, List.lookup_cons, hbeq]

variable {paulis : List (ℕ × Pauli)}

lemma factorAt_of_notMem (h : qubit ∉ paulis.map Prod.fst) : factorAt paulis qubit = .I := by
  rw [factorAt, List.lookup_eq_none_iff.2]
  · rfl
  · intro e hent
    exact bne_iff_ne.2 fun heq => h (heq ▸ List.mem_map_of_mem hent)

lemma testBit_flipMask (h : (paulis.map Prod.fst).Nodup) (qubit : ℕ) :
    (flipMask paulis).testBit qubit = (factorAt paulis qubit).flips := by
  induction paulis with
  | nil => simp [flipMask, factorAt, flips]
  | cons e _ ih =>
    obtain ⟨q, pauli⟩ := e
    obtain ⟨hnot, hnd⟩ := List.nodup_cons.1 h
    rw [flipMask, testBit_xor, ih hnd]
    by_cases hq : qubit = q
    · subst hq
      rw [factorAt_cons_self, factorAt_of_notMem hnot]
      cases pauli <;> simp [flips]
    · rw [factorAt_cons_of_ne hq]
      have hne : q ≠ qubit := .symm hq
      split_ifs <;> simp [hne]

lemma flipMask_lt {n : ℕ} (h : ∀ entry ∈ paulis, entry.1 < n) : flipMask paulis < 2 ^ n := by
  induction paulis with
  | nil => exact Nat.two_pow_pos n
  | cons entry _ ih =>
    obtain ⟨q, pauli⟩ := entry
    refine xor_lt_two_pow ?_ (ih fun other ho => h other (by simp [ho]))
    split_ifs
    · exact Nat.pow_lt_pow_right (by decide) (h (q, pauli) (by simp))
    · exact Nat.two_pow_pos n

section
variable [CommRing F]

/-- The entry in the row of the bit that is not zero. -/
def Pauli.phase (pauli : Pauli) (bit : Bool) : Complex F := pauli.entry bit (bit ^^ pauli.flips)

/-- The phase of a string in the row `x`. -/
def phaseOf (paulis : List (ℕ × Pauli)) (x : ℕ) : Complex F :=
  (paulis.map fun entry => entry.2.phase (x.testBit entry.1)).prod

variable (pauli : Pauli) {paulis : List (ℕ × Pauli)}

lemma Pauli.entry_eq (row col : Bool) :
    (pauli.entry row col : Complex F) = if col =
    (row ^^ pauli.flips) then pauli.phase row else 0 := by
  cases pauli <;> cases row <;> cases col <;> rfl

variable {n x q w : ℕ}

section
variable (hnd : (paulis.map Prod.fst).Nodup)
include hnd

/-- A product over all qubits is one over the factors of the string. -/
lemma prod_factorAt (hlt : ∀ entry ∈ paulis, entry.1 < n) (g : Pauli → ℕ → Complex F)
    (hI : ∀ q, g .I q = 1) :
    ∏ q ∈ range n, g (factorAt paulis q) q = (paulis.map fun entry => g entry.2 entry.1).prod := by
  induction paulis with
  | nil => exact Finset.prod_eq_one fun q _ => hI q
  | cons entry paulis ih =>
    obtain ⟨q₀, pauli⟩ := entry
    obtain ⟨hnot, hnd⟩ := List.nodup_cons.1 hnd
    have hmem : q₀ ∈ range n := mem_range.2 (hlt (q₀, pauli) (by simp))
    have hr : ∏ q ∈ (range n).erase q₀, g (factorAt ((q₀, pauli) :: paulis) q) q =
        ∏ q ∈ range n, g (factorAt paulis q) q := by
      rw [← Finset.mul_prod_erase _ _ hmem, factorAt_of_notMem hnot, hI, one_mul]
      refine Finset.prod_congr rfl fun q hq => ?_
      rw [factorAt_cons_of_ne (Finset.ne_of_mem_erase hq)]
    rw [← Finset.mul_prod_erase _ _ hmem, factorAt_cons_self, hr,
      ih hnd fun other ho => hlt other (by simp [ho])]
    rfl

/-- A row of the operator has one entry. -/
lemma pauliOperator_eq {y : ℕ} (hlt : ∀ entry ∈ paulis, entry.1 < n) (hx : x < 2 ^ n)
    (hy : y < 2 ^ n) :
    (pauliOperator n paulis x y : Complex F) =
      if y = x ^^^ flipMask paulis then phaseOf paulis x else 0 := by
  have hbt : y = x ^^^ flipMask paulis ↔
      ∀ q < n, y.testBit q = (x.testBit q ^^ (factorAt paulis q).flips) := by
    constructor
    · rintro rfl q -
      rw [testBit_xor, testBit_flipMask hnd]
    · intro h
      refine eq_of_testBit_eq fun q => ?_
      rw [testBit_xor, testBit_flipMask hnd]
      by_cases hq : q < n
      · exact h q hq
      · have hpow : 2 ^ n ≤ 2 ^ q := Nat.pow_le_pow_right (by decide) (by omega)
        rw [testBit_lt_two_pow (by omega), testBit_lt_two_pow (by omega), factorAt_of_notMem]
        · rfl
        · intro hmem
          obtain ⟨entry, hent, rfl⟩ := List.mem_map.1 hmem
          exact hq (hlt entry hent)
  rw [pauliOperator]
  simp only [entry_eq]
  split_ifs with hxy
  · rw [phaseOf, ← prod_factorAt hnd hlt (fun pauli q => pauli.phase (x.testBit q))]
    · refine Finset.prod_congr rfl fun q hq => if_pos (hbt.1 hxy q (mem_range.1 hq))
    · exact fun q => by cases x.testBit q <;> rfl
  · rw [hbt] at hxy
    push Not at hxy
    obtain ⟨q, hq, hne⟩ := hxy
    exact Finset.prod_eq_zero (mem_range.2 hq) (if_neg hne)

lemma factorAt_of_mem {e : ℕ × Pauli} (h : e ∈ paulis) : factorAt paulis e.1 = e.2 := by
  induction paulis with
  | nil => cases h
  | cons first _ ih =>
    obtain ⟨hnot, hnd⟩ := List.nodup_cons.1 hnd
    rcases List.mem_cons.1 h with rfl | h
    · exact factorAt_cons_self ..
    · have hne : e.1 ≠ first.1 := fun heq => hnot (heq ▸ List.mem_map_of_mem h)
      exact (factorAt_cons_of_ne hne ..).trans (ih hnd h)

end

lemma Pauli.conj_phase (bit : Bool) :
    (pauli.phase (bit ^^ pauli.flips) : Complex F).conj = pauli.phase bit := by
  cases pauli <;> cases bit <;> ext <;> simp [phase, entry, flips]

section
variable (hnd : (paulis.map Prod.fst).Nodup)
include hnd

/-- The operator is Hermitian. -/
lemma conj_phaseOf (x : ℕ) :
    (phaseOf paulis (x ^^^ flipMask paulis) : Complex F).conj = phaseOf paulis x := by
  rw [phaseOf, ← conjHom_apply, map_list_prod, List.map_map]
  congr 1
  refine List.map_congr_left fun e hent => ?_
  rw [Function.comp_apply, conjHom_apply, testBit_xor, testBit_flipMask hnd,
    factorAt_of_mem hnd hent, conj_phase]

/-- The expectation of a string, row by row. -/
lemma expectation_pauliOperator (hlt : ∀ entry ∈ paulis, entry.1 < n) (st : ℕ → Complex F) :
    expectation n (pauliOperator n paulis) st = ∑ x ∈ range (2 ^ n),
      (st x).conj * phaseOf paulis x * st (x ^^^ flipMask paulis) := by
  refine sum_congr rfl fun x hx => ?_
  have hx := mem_range.1 hx
  have hmapped : x ^^^ flipMask paulis ∈ range (2 ^ n) :=
    mem_range.2 (xor_lt_two_pow hx (flipMask_lt hlt))
  rw [Finset.sum_eq_single_of_mem _ hmapped]
  · rw [pauliOperator_eq hnd hlt hx (mem_range.1 hmapped), if_pos rfl]
  · intro y hy hne
    rw [pauliOperator_eq hnd hlt hx (mem_range.1 hy), if_neg hne, mul_zero, zero_mul]

lemma conj_expectation (hlt : ∀ entry ∈ paulis, entry.1 < n) (state : ℕ → Complex F) :
    (expectation n (pauliOperator n paulis) state).conj =
      expectation n (pauliOperator n paulis) state := by
  rw [expectation_pauliOperator hnd hlt, ← conjHom_apply, map_sum]
  -- the sum over all rows is the sum over all columns
  refine Finset.sum_nbij' (· ^^^ flipMask paulis) (· ^^^ flipMask paulis) ?_ ?_ ?_ ?_ ?_
  · exact fun x hx => mem_range.2 (xor_lt_two_pow (mem_range.1 hx) (flipMask_lt hlt))
  · exact fun x hx => mem_range.2 (xor_lt_two_pow (mem_range.1 hx) (flipMask_lt hlt))
  · exact fun x _ => by simp
  · exact fun x _ => by simp
  · intro x hx
    have hph := conj_phaseOf (F := F) hnd (x ^^^ flipMask paulis)
    rw [Nat.xor_assoc, Nat.xor_self, xor_zero] at hph
    rw [map_mul, map_mul, conjHom_apply, conjHom_apply, conjHom_apply,
      conj_conj, hph, Nat.xor_assoc, Nat.xor_self, xor_zero]
    ring

end

/-! ### What the loop computes -/

/-- The sign that the loop gets wrong. -/
def Pauli.sign : Pauli → F
  | .Y => -1
  | _ => 1

def signOf (paulis : List (ℕ × Pauli)) : F := (paulis.map fun entry => entry.2.sign).prod

def yCount (paulis : List (ℕ × Pauli)) : ℕ := paulis.countP fun entry => entry.2 == .Y

lemma signOf_eq (paulis : List (ℕ × Pauli)) :
    (signOf paulis : F) = if Even (yCount paulis) then 1 else -1 := by
  induction paulis with
  | nil => simp [signOf, yCount]
  | cons e paulis ih =>
    obtain ⟨q, pauli⟩ := e
    have hco : (signOf ((q, pauli) :: paulis) : F) = pauli.sign * signOf paulis := rfl
    rw [hco, ih]
    by_cases hY : pauli = .Y
    · have hcnt : yCount ((q, pauli) :: paulis) = yCount paulis + 1 := by simp [yCount, hY]
      rw [hcnt, hY, sign]
      simp only [even_add_one]
      split_ifs <;> simp
    · have hcnt : yCount ((q, pauli) :: paulis) = yCount paulis := by simp [yCount, hY]
      have hsign : (pauli.sign : F) = 1 := by cases pauli <;> first | rfl | exact absurd rfl hY
      rw [hcnt, hsign, one_mul]

lemma shr_and_one (hq : q < w) : decide (shr w x q &&& 1 = 1) = x.testBit q := by
  rw [shr, mod_eq_of_lt hq, and_one_is_mod, testBit_eq_decide_div_mod_eq]

lemma pauliStep_eq (hq : q < w) (x : ℕ) (acc : ℕ × Complex F) (p : Pauli) :
    pauliStep w x acc (q, p) = (acc.1 ^^^ (if p.flips then 2 ^ q else 0),
      acc.2 * (ofReal p.sign * p.phase (x.testBit q))) := by
  simp only [pauliStep, shr_and_one hq, shl_one hq]
  cases p <;> cases x.testBit q <;>
    simp [flips, sign, phase, entry, Complex.ext_iff]

lemma foldl_pauliStep (hlt : ∀ entry ∈ paulis, entry.1 < w) (x : ℕ) (acc : ℕ × Complex F) :
    paulis.foldl (pauliStep w x) acc = (acc.1 ^^^ flipMask paulis,
      acc.2 * (ofReal (signOf paulis) * phaseOf paulis x)) := by
  induction paulis generalizing acc with
  | nil => simp [flipMask, signOf, phaseOf]
  | cons entry paulis ih =>
    obtain ⟨q, pauli⟩ := entry
    rw [List.foldl_cons, ih (fun other ho => hlt other (by simp [ho])),
      pauliStep_eq (hlt (q, pauli) (by simp))]
    have hsign : (signOf ((q, pauli) :: paulis) : F) = pauli.sign * signOf paulis := rfl
    have hph : (phaseOf ((q, pauli) :: paulis) x : Complex F) =
      pauli.phase (x.testBit q) * phaseOf paulis x := rfl
    rw [hsign, hph, map_mul, flipMask, Nat.xor_assoc]
    ring

lemma foldlM_add {α : Type} {f : Complex F → α → Option (Complex F)} {g : α → Complex F}
    {as : List α} (h : ∀ tot, ∀ a ∈ as, f tot a = some (tot + g a)) (tot : Complex F) :
    as.foldlM f tot = some (tot + (as.map g).sum) := by
  induction as generalizing tot with
  | nil => simp
  | cons a _ ih =>
    rw [List.foldlM_cons, h tot a (by simp), bind_eq_bind, bind_some,
      ih (fun tot b hb => h tot b (by simp [hb]))]
    rw [map_cons, sum_cons, add_assoc]

lemma sum_zipIdx (st : List (Complex F)) (g : Complex F × ℕ → Complex F) :
    (st.zipIdx.map g).sum = ∑ x ∈ range st.length, g (st.getD x 0, x) := by
  have hli : st.zipIdx.map g = (List.range st.length).map fun x => g (st.getD x 0, x) := by
    refine List.ext_getElem (by simp) fun i hi hi' => ?_
    have hlt : i < st.length := by simpa using hi
    simp [hlt]
  rw [hli]
  rfl

/-- The string acts on qubits of the register, on each at most once. -/
structure PauliTerm.Valid (n : ℕ) (term : PauliTerm F) : Prop where
  nodup : (term.paulis.map Prod.fst).Nodup
  lt : ∀ entry ∈ term.paulis, entry.1 < n

section
variable {w n : ℕ} (hn : n < w) {state : List (Complex F)} (hlength : state.length = 2 ^ n)
include hn hlength

/-- The loop computes the expectation up to the sign of the string. -/
lemma pauliExpectationFromState_eq {term : PauliTerm F} (ht : term.Valid n)
    (hne : term.paulis ≠ []) :
    pauliExpectationFromState w state term = some (signOf term.paulis *
      (expectation n (pauliOperator n term.paulis) (state.getD · 0)).re) := by
  have hemp : term.paulis.isEmpty = false := by simpa using hne
  rw [pauliExpectationFromState, hemp]
  have hrd : ∀ total, ∀ amp ∈ state.zipIdx, (do
        let r := term.paulis.foldl (pauliStep w amp.2) (amp.2, 1)
        return total + amp.1.conj * r.2 * (← state[r.1]?)) =
      some (total + amp.1.conj * (ofReal (signOf term.paulis) *
        phaseOf term.paulis amp.2) *
          state.getD (amp.2 ^^^ flipMask term.paulis) 0) := by
    intro total amp hamp
    have hlt : amp.2 < 2 ^ n := by
      have := List.snd_lt_of_mem_zipIdx hamp
      omega
    have hmapped : amp.2 ^^^ flipMask term.paulis < state.length := by
      rw [hlength]
      exact xor_lt_two_pow hlt (flipMask_lt ht.lt)
    rw [foldl_pauliStep fun e hent => (ht.lt e hent).trans hn]
    simp [List.getElem?_eq_getElem hmapped]
  simp only [Bool.false_eq_true, if_false]
  rw [foldlM_add hrd]
  simp only [pure_def, bind_eq_bind, bind_some, zero_add, some.injEq]
  rw [sum_zipIdx, hlength, expectation_pauliOperator ht.nodup ht.lt,
    ← re_ofReal_mul, Finset.mul_sum]
  congr 1
  refine sum_congr rfl fun x _ => ?_
  ring

def Normalised (n : ℕ) (state : List (Complex F)) : Prop :=
  ∑ x ∈ range (2 ^ n), (state.getD x 0).normSq = 1

omit hn hlength in
lemma expectation_nil (hnr : Normalised n state) :
    expectation n (pauliOperator n []) (state.getD · 0) = 1 := by
  rw [expectation_pauliOperator (by simp) (by simp)]
  have ht : ∀ x, (state.getD x 0).conj * phaseOf [] x * state.getD (x ^^^ flipMask []) 0 =
      Complex.ofReal (state.getD x 0).normSq := by
    intro x
    rw [flipMask, Nat.xor_zero]
    ext
    · simp [phaseOf, Complex.normSq]
    · simp [phaseOf]
      ring
  rw [sum_congr rfl fun x _ => ht x, ← map_sum, hnr, map_one]

/-- The same with the constant that an empty string stands for. -/
lemma pauliExpectationFromState_normalised (hnr : Normalised n state) {term : PauliTerm F}
    (ht : term.Valid n) :
    pauliExpectationFromState w state term = some (signOf term.paulis *
      (expectation n (pauliOperator n term.paulis) (state.getD · 0)).re) := by
  by_cases hne : term.paulis = []
  · rw [pauliExpectationFromState, hne, expectation_nil hnr]
    simp [signOf]
  · exact pauliExpectationFromState_eq hn hlength ht hne

end

end

section
variable [Field F] [CharZero F] {w n : ℕ} {state : List (Complex F)}

lemma expectation_real {ps : List (ℕ × Pauli)} (hnd : (ps.map Prod.fst).Nodup)
    (hlt : ∀ entry ∈ ps, entry.1 < n) (ψ : ℕ → Complex F) :
    ofReal (expectation n (pauliOperator n ps) ψ).re = expectation n (pauliOperator n ps) ψ := by
  have him := congrArg im (conj_expectation hnd hlt ψ)
  ext
  · rfl
  · exact (CharZero.neg_eq_self_iff.1 him).symm

lemma ofReal_signOf_mul_eq_iff {term : PauliTerm F} (ht : term.Valid n) (ψ : ℕ → Complex F) :
    ofReal (signOf term.paulis * (expectation n (pauliOperator n term.paulis) ψ).re) =
        expectation n (pauliOperator n term.paulis) ψ ↔
      Even (yCount term.paulis) ∨ expectation n (pauliOperator n term.paulis) ψ = 0 := by
  have hreal := expectation_real ht.nodup ht.lt ψ
  rw [map_mul, hreal, signOf_eq]
  generalize expectation n (pauliOperator n term.paulis) ψ = value at hreal ⊢
  split_ifs with heven
  · simp [heven]
  · rw [map_neg, map_one, neg_one_mul, or_iff_right heven]
    rw [← hreal, ← map_neg]
    constructor
    · intro h
      rw [CharZero.neg_eq_self_iff.1 (congrArg re h), map_zero]
    · intro h
      rw [show value.re = 0 from congrArg re h, neg_zero]

/-! ### Hamiltonians -/

section
omit [CharZero F]

lemma expectation_add (A B : ℕ → ℕ → Complex F) (ψ : ℕ → Complex F) :
    expectation n (fun x y => A x y + B x y) ψ = expectation n A ψ + expectation n B ψ := by
  simp only [expectation, ← Finset.sum_add_distrib]
  refine sum_congr rfl fun x _ => sum_congr rfl fun y _ => ?_
  ring

lemma expectation_smul (c : Complex F) (A : ℕ → ℕ → Complex F) (ψ : ℕ → Complex F) :
    expectation n (fun x y => c * A x y) ψ = c * expectation n A ψ := by
  simp only [expectation, Finset.mul_sum]
  refine sum_congr rfl fun x _ => sum_congr rfl fun y _ => ?_
  ring

def PauliTerm.energy (term : PauliTerm F) (n : ℕ) (ψ : ℕ → Complex F) : Complex F :=
  ofReal term.coefficient * expectation n (pauliOperator n term.paulis) ψ

lemma expectation_operator (hamiltonian : Hamiltonian F) (ψ : ℕ → Complex F) :
    expectation n (hamiltonian.operator n) ψ =
      (hamiltonian.terms.map fun term => term.energy n ψ).sum := by
  have hop : hamiltonian.operator n = fun x y => (hamiltonian.terms.map fun term =>
    Complex.ofReal term.coefficient * pauliOperator n term.paulis x y).sum := rfl
  rw [hop]
  induction hamiltonian.terms with
  | nil => simp [expectation]
  | cons _ _ ih =>
    simp only [map_cons, sum_cons]
    rw [expectation_add, expectation_smul, ih]
    rfl

end

variable (terms : List (PauliTerm F))

def oddTerms : List (PauliTerm F) := terms.filter fun term => yCount term.paulis % 2 == 1

lemma expectationFromState_eq (hn : n < w) (hlength : state.length = 2 ^ n)
    (hnr : Normalised n state) {hamiltonian : Hamiltonian F}
    (hterm : ∀ term ∈ hamiltonian.terms, term.Valid n) :
    ∃ energy, hamiltonian.expectationFromState w state = some energy ∧
      ofReal energy = (hamiltonian.terms.map fun term =>
        ofReal (signOf term.paulis) * term.energy n (state.getD · 0)).sum := by
  have hmap : ∀ terms : List (PauliTerm F), (∀ term ∈ terms, term.Valid n) →
      terms.mapM (fun term => do
        return term.coefficient * (← pauliExpectationFromState w state term)) =
      some (terms.map fun term => term.coefficient * (signOf term.paulis *
        (expectation n (pauliOperator n term.paulis) (state.getD · 0)).re)) := by
    intro terms hterm
    induction terms with
    | nil => rfl
    | cons term _ ih =>
      rw [List.mapM_cons, pauliExpectationFromState_normalised hn hlength hnr
        (hterm term (by simp)), ih fun other ho => hterm other (by simp [ho])]
      rfl
  refine ⟨_, by rw [Hamiltonian.expectationFromState, hmap _ hterm]; rfl, ?_⟩
  rw [← List.sum_eq_foldl, map_list_sum, List.map_map]
  congr 1
  refine List.map_congr_left fun term ht => ?_
  have hreal := expectation_real (hterm term ht).nodup (hterm term ht).lt (state.getD · 0)
  rw [Function.comp_apply, map_mul, map_mul, hreal, PauliTerm.energy]
  ring

omit [CharZero F] in
lemma sum_signed (ψ : ℕ → Complex F) :
    (terms.map fun term => Complex.ofReal (signOf term.paulis) * term.energy n ψ).sum =
      (terms.map fun term => term.energy n ψ).sum -
        2 * ((oddTerms terms).map fun term => term.energy n ψ).sum := by
  induction terms with
  | nil => simp [oddTerms]
  | cons term terms ih =>
    have hodd : oddTerms (term :: terms) = if yCount term.paulis % 2 == 1 then
      term :: oddTerms terms else oddTerms terms := List.filter_cons
    rw [map_cons, sum_cons, ih, map_cons, sum_cons, signOf_eq, hodd]
    by_cases heven : Even (yCount term.paulis)
    · have hmod : (yCount term.paulis % 2 == 1) = false := by
        simpa using Nat.even_iff.1 heven
      rw [if_pos heven, hmod, map_one]
      simp only [Bool.false_eq_true, if_false]
      ring
    · have hmod : (yCount term.paulis % 2 == 1) = true := by
        simpa using Nat.not_even_iff.1 heven
      rw [if_neg heven, hmod, if_pos rfl, map_cons, sum_cons, map_neg, map_one]
      ring

/-- The expectation of a string comes out right exactly when the string has an
even number of `Y` factors or the expectation is zero; the energy of a
Hamiltonian, when the terms with an odd number contribute nothing. -/
theorem pauliExpectation_eq_iff (hn : n < w) (hlength : state.length = 2 ^ n)
    (hnorm : Normalised n state) :
    (∀ term : PauliTerm F, term.Valid n →
      ∃ value, pauliExpectationFromState w state term = some value ∧
        (Complex.ofReal value = expectation n (pauliOperator n term.paulis) (state.getD · 0) ↔
          Even (yCount term.paulis) ∨
            expectation n (pauliOperator n term.paulis) (state.getD · 0) = 0)) ∧
    ∀ hamiltonian : Hamiltonian F, (∀ term ∈ hamiltonian.terms, term.Valid n) →
      ∃ energy, hamiltonian.expectationFromState w state = some energy ∧
        (Complex.ofReal energy = expectation n (hamiltonian.operator n) (state.getD · 0) ↔
          ((oddTerms hamiltonian.terms).map fun term =>
            term.energy n (state.getD · 0)).sum = 0) := by
  refine ⟨fun term ht => ?_, fun hamiltonian hterm => ?_⟩
  · exact ⟨_, pauliExpectationFromState_normalised hn hlength hnorm ht,
      ofReal_signOf_mul_eq_iff ht _⟩
  · obtain ⟨energy, heq, hval⟩ := expectationFromState_eq hn hlength hnorm hterm
    refine ⟨energy, heq, ?_⟩
    have htwo : (2 : Complex F) * ofReal (1 / 2) = 1 := by
      rw [← map_ofNat (ofReal (F := F)), ← map_mul, mul_one_div_cancel two_ne_zero, map_one]
    rw [hval, expectation_operator, sum_signed, sub_eq_self]
    constructor
    · intro h
      calc _ = 2 * ofReal (1 / 2) *
            ((oddTerms hamiltonian.terms).map fun term => term.energy n (state.getD · 0)).sum := by
              rw [htwo, one_mul]
        _ = ofReal (1 / 2) * (2 *
            ((oddTerms hamiltonian.terms).map fun term => term.energy n (state.getD · 0)).sum) := by
              ring
        _ = 0 := by rw [h, mul_zero]
    · intro h
      rw [h, mul_zero]

end

/-- One qubit in the state `0.6|0⟩ + 0.8i|1⟩`. -/
def tilted : List (Complex ℚ) := [⟨3 / 5, 0⟩, ⟨0, 4 / 5⟩]

lemma tilted_normalised : Normalised 1 tilted := by
  rw [Normalised]
  decide +kernel

/-- Its expectation of `Z`. -/
theorem pauliExpectation_tilted_z :
    ∃ value, pauliExpectationFromState 64 tilted ⟨1, [(0, .Z)]⟩ = some value ∧
      Complex.ofReal value = expectation 1 (pauliOperator 1 [(0, .Z)]) (tilted.getD · 0) := by
  obtain ⟨value, hval, hiff⟩ := (pauliExpectation_eq_iff (w := 64) (by decide) (by decide)
    tilted_normalised).1 ⟨1, [(0, .Z)]⟩ ⟨by decide, by decide⟩
  exact ⟨value, hval, hiff.2 (.inl (by decide))⟩

/-- The expectation of `Y` in the same state has the wrong sign. -/
theorem pauliExpectation_tilted_y :
    Normalised 1 tilted ∧ PauliTerm.Valid 1 (⟨1, [(0, .Y)]⟩ : PauliTerm ℚ) ∧
      pauliExpectationFromState 64 tilted ⟨1, [(0, .Y)]⟩ = some (-24 / 25) ∧
      expectation 1 (pauliOperator 1 [(0, .Y)]) (tilted.getD · 0) = Complex.ofReal (24 / 25) := by
  refine ⟨tilted_normalised, ⟨by decide, by decide⟩, by decide +kernel, by decide +kernel⟩

end Waros.Quantum
