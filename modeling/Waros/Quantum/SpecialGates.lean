import Waros.Quantum.Evolution

/-!
Gates of a special shape and circuits built from them. A gate with one entry in
each row moves the amplitudes, and multiplies them where the entry is not one; the
inverse of a unitary gate undoes it. Builder methods are described by the
instructions they append.
-/

namespace Waros.Quantum

open Lib Circuit Fallible Finset Gate Real Complex

section
variable {F : Type} [CommRing F] {n z z' : ℕ} {targets : List ℕ} {gate : Gate F}
  {φ ψ : ℕ → Complex F}

/-- The row of the matrix at `z` has its only entry in the column of `z'`. -/
lemma applied_of_row (hz' : z' < 2 ^ n) (hz : AgreeOutside n targets z z')
    (hrow : ∀ j < 2 ^ targets.length, j ≠ rowIndex targets z' →
      gate.entry (rowIndex targets z) j = 0) :
    applied n targets gate ψ z = gate.entry (rowIndex targets z) (rowIndex targets z') * ψ z' := by
  rw [applied, ← agreeing, sum_eq_single_of_mem z' (mem_agreeing.2 ⟨hz', hz⟩)]
  intro y hy hne
  obtain ⟨hlt, hagr⟩ := mem_agreeing.1 hy
  rw [hrow _ (rowIndex_lt targets y), zero_mul]
  exact fun heq => hne ((hagr.symm.trans hz).eq_of_rowIndex_eq hlt hz' heq)

/-- The conjugate transpose of a unitary matrix takes back what its gate does. -/
lemma applied_applied_of_conj {gate' : Gate F} (hg : gate.IsUnitary)
    (hconj : ∀ i < 2 ^ gate.numQubits, ∀ j < 2 ^ gate.numQubits,
      gate'.entry i j = (gate.entry j i).conj)
    (hwid : gate.numQubits = targets.length) (hnd : targets.Nodup)
    (hlt : ∀ q ∈ targets, q < n) (hz : z < 2 ^ n) :
    applied n targets gate' (applied n targets gate ψ) z = ψ z := by
  have hlif : ∀ x y, lifted n targets gate' x y = (lifted n targets gate y x).conj := by
    intro x y
    by_cases h : AgreeOutside n targets x y
    · rw [lifted, if_pos h, lifted, if_pos h.symm,
        hconj _ (hwid ▸ rowIndex_lt targets x) _ (hwid ▸ rowIndex_lt targets y)]
    · rw [lifted, if_neg h, lifted, if_neg fun h' => h h'.symm, ← conjHom_apply, map_zero]
  calc applied n targets gate' (applied n targets gate ψ) z
      = ∑ x ∈ range (2 ^ n), ∑ y ∈ range (2 ^ n),
          (lifted n targets gate x z).conj * lifted n targets gate x y * ψ y := by
        rw [applied_eq_sum_lifted]
        refine sum_congr rfl fun x _ => ?_
        rw [applied_eq_sum_lifted, mul_sum, hlif]
        exact sum_congr rfl fun y _ => (mul_assoc _ _ _).symm
    _ = ∑ y ∈ range (2 ^ n), identity z y * ψ y := by
        rw [sum_comm]
        refine sum_congr rfl fun y hy => ?_
        rw [← sum_mul, sum_conj_lifted hg hwid hnd hlt hz (mem_range.1 hy)]
    _ = ψ z := by
        rw [sum_eq_single_of_mem z (mem_range.2 hz), identity, if_pos rfl, one_mul]
        intro y _ hne
        rw [identity, if_neg hne.symm, zero_mul]

lemma Gate.OnQubits.entry_dagger {k i j : ℕ} (h : gate.OnQubits k) (hi : i < 2 ^ k)
    (hj : j < 2 ^ k) : gate.dagger.entry i j = (gate.entry j i).conj := by
  have hlt : i * 2 ^ k + j < gate.matrix.length := by
    calc i * 2 ^ k + j < i * 2 ^ k + 2 ^ k := by omega
      _ = (i + 1) * 2 ^ k := (Nat.succ_mul i (2 ^ k)).symm
      _ ≤ 2 ^ k * 2 ^ k := Nat.mul_le_mul_right _ hi
      _ = gate.matrix.length := by rw [h.size, ← Nat.mul_pow]
  have hpos : 0 < 2 ^ k := Nat.two_pow_pos k
  rw [entry, entry, get, Gate.dagger, h.width]
  simp only [List.getElem?_map, List.getElem?_range hlt, Option.map_some, Option.getD_some]
  rw [mul_comm, Nat.mul_add_mod, Nat.mod_eq_of_lt hj, Nat.mul_add_div hpos,
    Nat.div_eq_of_lt hj, add_zero]

lemma prepared_congr (h : ∀ x < 2 ^ n, φ x = ψ x) (ins : List (Instruction F)) :
    ∀ x < 2 ^ n, prepared n ins φ x = prepared n ins ψ x := by
  induction ins generalizing φ ψ with
  | nil => exact h
  | cons i _ ih =>
    cases i with
    | gateOp =>
      intro x _
      rw [prepared, prepared, applied_congr h]
    | conditionalGate =>
      refine ih fun x hx => ?_
      split_ifs
      · rw [applied_congr h]
      · exact h x hx
    | measure | barrier => exact ih h

/-- The second circuit takes back what the first one does. -/
def Undoes (n : ℕ) (first second : List (Instruction F)) : Prop :=
  ∀ ψ : ℕ → Complex F, ∀ z < 2 ^ n, prepared n second (prepared n first ψ) z = ψ z

variable {first first' second second' : List (Instruction F)}

lemma Undoes.append (h : Undoes n first second) (h' : Undoes n first' second') :
    Undoes n (first ++ first') (second' ++ second) := by
  intro ψ z hz
  rw [prepared_append, prepared_append]
  calc prepared n second (prepared n second' (prepared n first' (prepared n first ψ))) z
      = prepared n second (prepared n first ψ) z := prepared_congr (h' _) second z hz
    _ = ψ z := h ψ z hz

def Instruction.inverse : Instruction F → Instruction F
  | .gateOp gate targets => .gateOp gate.inverse targets
  | instruction => instruction

/-- The inverses of unitary gates, in the opposite order, take back what a circuit does. -/
theorem undoes_inverse {m : ℕ} {ins : List (Instruction F)} (hfit : ∀ i ∈ ins, i.WellFormed n m)
    (hunit : ∀ i ∈ ins, i.IsUnitary) : Undoes n ins (ins.reverse.map .inverse) := by
  induction ins with
  | nil => exact fun _ _ _ => rfl
  | cons i ins ih =>
    obtain ⟨hi, hfit⟩ := List.forall_mem_cons.1 hfit
    obtain ⟨hu, hunit⟩ := List.forall_mem_cons.1 hunit
    rw [List.reverse_cons, List.map_append]
    refine .append (?_ : Undoes n [i] [i.inverse]) (ih hfit hunit)
    cases i with
    | gateOp gate =>
      have hq : gate.OnQubits gate.numQubits := ⟨rfl, hi.size⟩
      exact fun ψ z hz => applied_applied_of_conj hu (fun i hi j hj => hq.entry_dagger hi hj)
        hi.width hi.nodup hi.lt hz
    | conditionalGate | measure => exact hu.elim
    | barrier => exact fun _ _ _ => rfl

/-- Two gates that do not commute. -/
theorem undoes_inverse_h_sdg : Undoes 1 [.gateOp (h : Gate ℝ) [0], .gateOp sdg [0]]
    [.gateOp (inverse sdg) [0], .gateOp (inverse h) [0]] := by
  refine undoes_inverse (m := 0) (List.forall_mem_cons.2 ⟨?_, List.forall_mem_singleton.2 ?_⟩)
    (List.forall_mem_cons.2 ⟨h_isUnitary, List.forall_mem_singleton.2 sdg_isUnitary⟩)
  all_goals exact ⟨rfl, .inl rfl, by simp, by simp, rfl⟩

end

section
variable {F : Type} {n : ℕ}

/-- On a circuit of `n` qubits the method appends the instructions. -/
def Appends (n : ℕ) (method : Builder F Unit) (instructions : List (Instruction F)) : Prop :=
  ∀ circuit : Circuit F, circuit.numQubits = n → method circuit =
    (.ok (), { circuit with instructions := circuit.instructions ++ instructions })

variable {method method' : Builder F Unit} {is is' : List (Instruction F)}

lemma Appends.bind (h : Appends n method is) (h' : Appends n method' is') :
    Appends n (do method; method') (is ++ is') := by
  intro c hn
  have hsec := h' { c with instructions := c.instructions ++ is } hn
  rw [List.append_assoc] at hsec
  rw [bind_of_ok (h c hn)]
  exact hsec

lemma appends_check {f : Circuit F → Except WarosError Unit}
    (hf : ∀ circuit, circuit.numQubits = n → f circuit = .ok ()) :
    Appends n (check f) [] := by
  intro circuit hn
  rw [check, hf circuit hn, List.append_nil]
  rfl

lemma appends_add1 {gate : Gate F} {q : ℕ} (hq : q < n) :
    Appends n (add1 gate q) [.gateOp gate [q]] := by
  intro c hn
  rw [add1, check_bind_of_ok (validateQubit_ok.2 (hn ▸ hq))]
  rfl

lemma appends_add2 {gate : Gate F} {q₀ q₁ : ℕ} (h₀ : q₀ < n) (h₁ : q₁ < n) (hne : q₀ ≠ q₁) :
    Appends n (add2 gate q₀ q₁) [.gateOp gate [q₀, q₁]] := by
  intro c hn
  rw [add2, check_bind_of_ok (validatePair_ok.2 ⟨hn ▸ h₀, hn ▸ h₁, hne⟩)]
  rfl

lemma appends_each_nil : Appends n (each ([] : List (Builder F Unit))) [] := by
  intro c _
  rw [List.append_nil]
  rfl

lemma appends_each {α : Type} {xs : List α} {f : α → Builder F Unit}
    {g : α → List (Instruction F)} (h : ∀ a ∈ xs, Appends n (f a) (g a)) :
    Appends n (each (xs.map f)) (xs.flatMap g) := by
  induction xs with
  | nil => exact appends_each_nil
  | cons a _ ih => exact (h a (by simp)).bind (ih fun b hb => h b (by simp [hb]))

lemma each_append {σ ε : Type} (xs ys : List (Fallible σ ε Unit)) (s : σ) :
    each (xs ++ ys) s = (do each xs; each ys) s := by
  induction xs generalizing s with
  | nil => rfl
  | cons x xs ih =>
    rw [List.cons_append]
    rcases hx : x s with ⟨res, t⟩
    cases res with
    | error e =>
      have hxs : each (x :: xs) s = (.error e, t) := bind_of_error hx
      rw [bind_of_error hxs]
      exact bind_of_error hx
    | ok u =>
      have hco : each (x :: xs) s = each xs t := bind_of_ok hx
      rw [show each (x :: (xs ++ ys)) s = each (xs ++ ys) t from bind_of_ok hx, ih]
      rcases hxs : each xs t with ⟨res, v⟩
      cases res with
      | error => rw [bind_of_error hxs, bind_of_error (hco.trans hxs)]
      | ok => rw [bind_of_ok hxs, bind_of_ok (hco.trans hxs)]

lemma Appends.each_append {xs ys : List (Builder F Unit)}
    (h : Appends n (each xs) is) (h' : Appends n (each ys) is') :
    Appends n (each (xs ++ ys)) (is ++ is') := by
  intro c hn
  rw [Quantum.each_append]
  exact h.bind h' c hn

lemma Appends.each_singleton (h : Appends n method is) : Appends n (each [method]) is := by
  intro c hn
  rw [each, bind_of_ok (h c hn)]
  rfl

end

/-! ### Phases -/

variable (θ : ℝ) (k : ℕ)

/-- `exp(iθ)`. -/
noncomputable def cis : Complex ℝ := ⟨cos θ, sin θ⟩

@[simp] lemma cis_zero : cis 0 = 1 := by ext <;> simp [cis]

@[simp] lemma cis_pi : cis .pi = -1 := by ext <;> simp [cis]

lemma cis_add (θ θ' : ℝ) : cis (θ + θ') = cis θ * cis θ' := by
  ext
  · simp [cis, cos_add]
  · simp [cis, sin_add]
    ring

lemma cis_add_nat_mul_two_pi : cis (θ + k * (2 * .pi)) = cis θ := by
  rw [cis, cis, cos_add_nat_mul_two_pi, sin_add_nat_mul_two_pi]

lemma conj_cis_mul : (cis θ).conj * cis θ = 1 := by
  have h : cos θ ^ 2 + sin θ ^ 2 = 1 := cos_sq_add_sin_sq θ
  ext
  · simpa [cis, pow_two] using h
  · simp [mul_comm]

lemma fromPolar_one : (fromPolar 1 θ : Complex ℝ) = cis θ := by
  ext <;> simp [fromPolar, cis, FloatOps.cos, FloatOps.sin]

lemma rowIndex_pair (q₀ q₁ x : ℕ) :
    rowIndex [q₀, q₁] x = 2 * (x.testBit q₀).toNat + (x.testBit q₁).toNat := by
  simp [rowIndex]

lemma rowIndex_congr {ts : List ℕ} {x y : ℕ}
    (h : ∀ q ∈ ts, x.testBit q = y.testBit q) : rowIndex ts x = rowIndex ts y := by
  induction ts with
  | nil => rfl
  | cons q _ ih =>
    rw [rowIndex_cons, rowIndex_cons, h q (by simp), ih fun q' hq' => h q' (by simp [hq'])]

lemma rowIndex_append_singleton (ts : List ℕ) (q x : ℕ) :
    rowIndex (ts ++ [q]) x = 2 * rowIndex ts x + (x.testBit q).toNat := by
  rw [rowIndex, List.foldl_append]
  rfl

lemma eq_of_testBit_lt {n x y : ℕ} (hx : x < 2 ^ n) (hy : y < 2 ^ n)
    (h : ∀ j < n, x.testBit j = y.testBit j) : x = y := by
  have hagr : AgreeOutside n [] x y := fun j hj _ => (h j hj).symm
  exact hagr.eq_of_rowIndex_eq hx hy rfl

lemma exists_setBit {n q x : ℕ} (hq : q < n) (hx : x < 2 ^ n) (b : Bool) :
    ∃ y < 2 ^ n, y.testBit q = b ∧ ∀ j, j ≠ q → y.testBit j = x.testBit j := by
  by_cases hb : x.testBit q = b
  · exact ⟨x, hx, hb, fun _ _ => rfl⟩
  · refine ⟨x ^^^ 2 ^ q, Nat.xor_lt_two_pow hx (Nat.pow_lt_pow_right one_lt_two hq), ?_,
      fun j hj => ?_⟩
    · cases hbit : x.testBit q <;> cases b <;> simp_all
    · rw [Nat.testBit_xor, Nat.testBit_two_pow_of_ne hj.symm, Bool.xor_false]

section
variable {F : Type} [CommRing F] {n q x z : ℕ} {qubits : List ℕ}

/-- A step on the qubits after a step on `q`: only the state with the bit of `q`
from `z` and the other bits from `x` lies between `x` and `z`. -/
lemma sum_between (hq : q < n) (hmem : q ∉ qubits) (hx : x < 2 ^ n) {f : ℕ → Complex F}
    {v : Complex F} (hf : ∀ y, y.testBit q = z.testBit q →
      (∀ j, j ≠ q → y.testBit j = x.testBit j) → f y = v) :
    ∑ y ∈ range (2 ^ n), (if AgreeOutside n qubits z y ∧ AgreeOutside n [q] y x then f y else 0) =
      if AgreeOutside n (q :: qubits) z x then v else 0 := by
  by_cases hagr : AgreeOutside n (q :: qubits) z x
  · obtain ⟨y, hy, hyq, hyj⟩ := exists_setBit hq hx (z.testBit q)
    have hzy : AgreeOutside n qubits z y := by
      intro j hj hnot
      by_cases hjq : j = q
      · rw [hjq, hyq]
      · rw [hyj j hjq, hagr j hj (by simp [hjq, hnot])]
    have hyx : AgreeOutside n [q] y x := by
      intro j _ hnot
      exact (hyj j (by simpa using hnot)).symm
    rw [if_pos hagr, sum_eq_single_of_mem y (mem_range.2 hy), if_pos ⟨hzy, hyx⟩, hf y hyq hyj]
    intro y' hy' hne
    rw [if_neg]
    rintro ⟨hzy', hyx'⟩
    refine hne ((hyx'.trans hyx.symm).eq_of_rowIndex_eq (mem_range.1 hy') hy ?_)
    rw [rowIndex_singleton, rowIndex_singleton, hyq, hzy' q hq hmem]
  · rw [if_neg hagr]
    refine sum_eq_zero fun y _ => if_neg ?_
    rintro ⟨hzy, hyx⟩
    refine hagr fun j hj hnot => ?_
    rw [List.mem_cons, not_or] at hnot
    rw [hyx j hj (by simpa using hnot.1), hzy j hj hnot.2]

end

lemma fracOneSqrtTwo_pow : (FloatOps.fracOneSqrtTwo : ℝ) ^ k = 1 / sqrt (2 ^ k) := by
  induction k with
  | zero => simp
  | succ _ ih =>
    rw [pow_succ, ih, pow_succ, sqrt_mul (by positivity)]
    exact one_div_mul_one_div _ _

lemma h_entry (b c : Bool) : (h : Gate ℝ).entry b.toNat c.toNat =
    ofReal FloatOps.fracOneSqrtTwo * cis (.pi * (b.toNat * c.toNat)) := by
  cases b <;> cases c <;> ext <;> simp [Gate.h, single, entry, Gate.get]

lemma h_hermitian : ∀ i < 2, ∀ j < 2, (h : Gate ℝ).entry i j = ((h : Gate ℝ).entry j i).conj := by
  intro i hi j hj
  obtain rfl | rfl : i = 0 ∨ i = 1 := by omega
  all_goals
    obtain rfl | rfl : j = 0 ∨ j = 1 := by omega
    all_goals ext <;> simp [Gate.h, single, entry, Gate.get]

lemma applied_h_h {n q z : ℕ} (hq : q < n) (hz : z < 2 ^ n) (ψ : ℕ → Complex ℝ) :
    applied n [q] h (applied n [q] h ψ) z = ψ z :=
  applied_applied_of_conj h_isUnitary h_hermitian rfl (List.nodup_singleton q)
    (by simpa using hq) hz

end Waros.Quantum
