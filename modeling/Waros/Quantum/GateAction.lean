import Mathlib.Algebra.BigOperators.Group.Finset.Basic
import Mathlib.Algebra.Ring.Int.Defs
import Mathlib.Data.Nat.Bitwise
import Waros.Quantum.StateVector

/-!
What a gate does to a state vector. `applied` is the action of a matrix on the
target bits of an index and of the identity on the other bits. The in-place
loops compute it, in both layouts and with any interleaving of the chunks;
nothing is needed of the arithmetic but that addition is associative and
commutative.
-/

namespace Waros.Quantum

open Lib Chunk StateVectorSoA Function Nat Bool Option
open StateVectorSoA (ofAos)

/-- The target bits of an index as a number, the first target being the highest
bit. -/
def rowIndex (targets : List ℕ) (x : ℕ) : ℕ :=
  targets.foldl (fun row q => 2 * row + (x.testBit q).toNat) 0

lemma rowIndex_singleton (q x : ℕ) : rowIndex [q] x = (x.testBit q).toNat := by simp [rowIndex]

/-- The two indices have the same bits outside the targets. -/
def AgreeOutside (n : ℕ) (targets : List ℕ) (x y : ℕ) : Prop :=
  ∀ j < n, j ∉ targets → y.testBit j = x.testBit j

instance (n : ℕ) (targets : List ℕ) (x y : ℕ) : Decidable (AgreeOutside n targets x y) :=
  inferInstanceAs (Decidable (∀ j < n, j ∉ targets → y.testBit j = x.testBit j))

/-! ### Bits of an index inside a chunk -/

variable {k w b s m i j : ℕ}

lemma shl_one (hk : k < w) : shl w 1 k = 2 ^ k := by
  rw [shl, mod_eq_of_lt hk, one_mul, mod_eq_of_lt (Nat.pow_lt_pow_right one_lt_two hk)]

lemma shl_two_pow (hk : k + 1 < w) : shl w (2 ^ k) 1 = 2 ^ (k + 1) := by
  have hone : 1 % w = 1 := mod_eq_of_lt (by omega)
  rw [shl, hone, pow_one, ← pow_succ, mod_eq_of_lt (Nat.pow_lt_pow_right one_lt_two hk)]

lemma lt_two_pow_iff_succ {t : ℕ} : b < 2 ^ t ↔ b < 2 ^ (t + 1) ∧ b.testBit t = false := by
  constructor
  · intro hb
    exact ⟨hb.trans (Nat.pow_lt_pow_right one_lt_two t.lt_succ_self), testBit_lt_two_pow hb⟩
  · rintro ⟨hb, hbit⟩
    apply lt_pow_two_of_testBit
    intro j hj
    rcases eq_or_lt_of_le hj with rfl | hj
    · exact hbit
    · exact testBit_lt_two_pow (hb.trans_le (Nat.pow_le_pow_right two_pos hj))

lemma testBit_chunk (hb : b < 2 ^ s) (j : ℕ) :
    (k * 2 ^ s + b).testBit j = if j < s then b.testBit j else k.testBit (j - s) := by
  rw [mul_comm]
  exact testBit_two_pow_mul_add k hb j

lemma chunk_add_or (hb : b < 2 ^ s) (hm : m < 2 ^ s) :
    k * 2 ^ s + (b ||| m) = (k * 2 ^ s + b) ||| m := by
  apply eq_of_testBit_eq
  intro j
  rw [testBit_chunk (or_lt_two_pow hb hm), testBit_or, testBit_or, testBit_chunk hb]
  split_ifs with hj
  · rfl
  · rw [testBit_lt_two_pow (hm.trans_le (Nat.pow_le_pow_right two_pos (not_lt.1 hj))),
      Bool.or_false]

lemma chunk_add_inj {k' b' : ℕ} (hb : b < 2 ^ s) (hb' : b' < 2 ^ s)
    (h : k * 2 ^ s + b = k' * 2 ^ s + b') : k = k' ∧ b = b' := by
  have hk : k = k' := by
    have hdiv := congrArg (· / 2 ^ s) h
    simpa [add_comm, add_mul_div_right, div_eq_of_lt hb, div_eq_of_lt hb'] using hdiv
  subst hk
  omega

def clearBits (targets : List ℕ) (x : ℕ) : ℕ := targets.foldl (fun x q => x ^^^ (x &&& 2 ^ q)) x

lemma testBit_clearBits (ts : List ℕ) (x j : ℕ) :
    (clearBits ts x).testBit j = (x.testBit j && decide (j ∉ ts)) := by
  induction ts generalizing x with
  | nil => simp [clearBits]
  | cons q ts ih =>
    have hstp : clearBits (q :: ts) x = clearBits ts (x ^^^ (x &&& 2 ^ q)) := rfl
    rw [hstp, ih]
    by_cases hq : q = j
    · subst hq
      simp
    · simp [hq, Ne.symm]

lemma clearBits_lt {ts : List ℕ} {x : ℕ} (hx : x < 2 ^ s) : clearBits ts x < 2 ^ s := by
  apply lt_pow_two_of_testBit
  intro j hj
  rw [testBit_clearBits, testBit_lt_two_pow (hx.trans_le (Nat.pow_le_pow_right two_pos hj)),
    Bool.false_and]

section
variable {α : Type} {k s b m : ℕ} {cells : List α}

lemma chunk_get (d : α) (hb : b < 2 ^ s) (hcell : k * 2 ^ s + b < cells.length) :
    get ⟨k * 2 ^ s, 2 ^ s⟩ cells b = some (cells.getD (k * 2 ^ s + b) d) := by
  rw [Chunk.get, if_pos hb, List.getElem?_eq_getElem hcell, List.getD_eq_getElem]

lemma chunk_set (hb : b < 2 ^ s) (v : α) :
    set ⟨k * 2 ^ s, 2 ^ s⟩ cells b v = some (cells.set (k * 2 ^ s + b) v) := by
  rw [Chunk.set, if_pos hb]

lemma chunk_get_or (d : α) (hb : b < 2 ^ s) (hm : m < 2 ^ s)
    (hcell : k * 2 ^ s + b ||| m < cells.length) :
    get ⟨k * 2 ^ s, 2 ^ s⟩ cells (b ||| m) = some (cells.getD (k * 2 ^ s + b ||| m) d) := by
  rw [← chunk_add_or hb hm] at hcell ⊢
  exact chunk_get d (or_lt_two_pow hb hm) hcell

lemma chunk_set_or (hb : b < 2 ^ s) (hm : m < 2 ^ s) (v : α) :
    set ⟨k * 2 ^ s, 2 ^ s⟩ cells (b ||| m) v = some (cells.set (k * 2 ^ s + b ||| m) v) := by
  rw [← chunk_add_or hb hm]
  exact chunk_set (or_lt_two_pow hb hm) v

end

/-! ### Families of indices -/

/-- The indices that differ in the target bits only. -/
structure Family (n : ℕ) (targets family : List ℕ) : Prop where
  nodup : family.Nodup
  lt : ∀ x ∈ family, x < 2 ^ n
  agree : ∀ x ∈ family, ∀ y < 2 ^ n, AgreeOutside n targets x y ↔ y ∈ family

/-- The numbers that have no bits outside the targets. -/
structure Masks (targets masks : List ℕ) : Prop where
  nodup : masks.Nodup
  within : ∀ m ∈ masks, ∀ j, m.testBit j → j ∈ targets
  all : ∀ m, (∀ j, m.testBit j → j ∈ targets) → m ∈ masks

variable {targets masks : List ℕ}

section
variable (h : Masks targets masks)
include h

lemma Masks.testBit_or (hm : m ∈ masks) (hj : j ∉ targets) : (i ||| m).testBit j = i.testBit j := by
  have hclr : m.testBit j = false := eq_false_iff.2 fun hbit => hj (h.within m hm j hbit)
  rw [Nat.testBit_or, hclr, Bool.or_false]

lemma Masks.lt_two_pow (hs : ∀ q ∈ targets, q < s) (hm : m ∈ masks) : m < 2 ^ s := by
  apply lt_pow_two_of_testBit
  intro j hj
  exact eq_false_iff.2 fun hbit => absurd (hs j (h.within m hm j hbit)) (not_lt.2 hj)

lemma Masks.family {n : ℕ} (hn : ∀ q ∈ targets, q < n)
    (hi : i < 2 ^ n) (hclr : ∀ q ∈ targets, i.testBit q = false) :
    Family n targets (masks.map (i ||| ·)) := by
  refine ⟨?_, ?_, ?_⟩
  · refine (List.nodup_map_iff_inj_on h.nodup).2 fun m hm m' hm' heq => ?_
    apply eq_of_testBit_eq
    intro j
    have hbit := congrArg (·.testBit j) heq
    by_cases hj : j ∈ targets
    · simpa [hclr j hj] using hbit
    · have hm : m.testBit j = false := eq_false_iff.2 fun hb => hj (h.within m hm j hb)
      have hm' : m'.testBit j = false := eq_false_iff.2 fun hb => hj (h.within m' hm' j hb)
      rw [hm, hm']
  · intro x hx
    obtain ⟨m, hm, rfl⟩ := List.mem_map.1 hx
    exact or_lt_two_pow hi (h.lt_two_pow hn hm)
  · intro x hx y hy
    obtain ⟨m, hm, rfl⟩ := List.mem_map.1 hx
    constructor
    · -- the mask of `y` is what `y` has in the targets
      intro hagr
      refine List.mem_map.2 ⟨y ^^^ clearBits targets y, h.all _ fun j hj => ?_, ?_⟩
      · by_contra hout
        simp [testBit_clearBits, hout] at hj
      · apply eq_of_testBit_eq
        intro j
        rw [Nat.testBit_or, testBit_xor, testBit_clearBits]
        by_cases hj : j ∈ targets
        · simp [hj, hclr]
        · by_cases hjn : j < n
          · simp [hj, hagr j hjn, h.testBit_or hm]
          · have hpow := Nat.pow_le_pow_right two_pos (not_lt.1 hjn)
            simp [testBit_lt_two_pow (hi.trans_le hpow), testBit_lt_two_pow (hy.trans_le hpow)]
    · intro hmem j hj hout
      obtain ⟨m', hm', rfl⟩ := List.mem_map.1 hmem
      rw [h.testBit_or hm hout, h.testBit_or hm' hout]

lemma Masks.self_mem : i ∈ masks.map (i ||| ·) := List.mem_map.2 ⟨0, h.all 0 (by simp), or_zero i⟩

lemma Masks.eq_of_clear (hj : j ∈ masks.map (i ||| ·))
    (hi : ∀ q ∈ targets, i.testBit q = false) (hclr : ∀ q ∈ targets, j.testBit q = false) :
    j = i := by
  obtain ⟨m, hm, rfl⟩ := List.mem_map.1 hj
  apply eq_of_testBit_eq
  intro q
  by_cases hq : q ∈ targets
  · rw [hclr q hq, hi q hq]
  · exact h.testBit_or hm hq

end

/-- The masks of the targets, in the order of the rows of a matrix. -/
def masksOf : List ℕ → List ℕ
  | [] => [0]
  | q :: targets => masksOf targets ++ (masksOf targets).map (2 ^ q ||| ·)

lemma masks_masksOf {targets : List ℕ} (hnd : targets.Nodup) : Masks targets (masksOf targets) := by
  induction targets with
  | nil =>
    refine ⟨by simp [masksOf], by simp [masksOf], fun m hm => ?_⟩
    refine List.mem_singleton.2 (eq_of_testBit_eq fun j => ?_)
    simpa using hm j
  | cons q targets ih =>
    obtain ⟨hq, hnd⟩ := List.nodup_cons.1 hnd
    have h := ih hnd
    -- so that the masks with the bit q are new ones
    have hbit : ∀ m ∈ masksOf targets, m.testBit q = false := fun m hm =>
      eq_false_iff.2 fun hb => hq (h.within m hm q hb)
    refine ⟨?_, ?_, ?_⟩
    · refine List.nodup_append.2 ⟨h.nodup, ?_, ?_⟩
      · refine (List.nodup_map_iff_inj_on h.nodup).2 fun m hm m' hm' heq => ?_
        apply eq_of_testBit_eq
        intro j
        have hj := congrArg (·.testBit j) heq
        by_cases hjq : q = j
        · subst hjq
          rw [hbit m hm, hbit m' hm']
        · simpa [hjq] using hj
      · intro m hm m' hm' heq
        obtain ⟨m₀, -, rfl⟩ := List.mem_map.1 hm'
        have hq := hbit m hm
        simp [heq] at hq
    · intro m hm j hj
      rcases List.mem_append.1 hm with hm | hm
      · exact List.mem_cons_of_mem q (h.within m hm j hj)
      · obtain ⟨m₀, hm₀, rfl⟩ := List.mem_map.1 hm
        rcases or_eq_true_iff.1 ((testBit_or _ _ _).symm.trans hj) with hj | hj
        · exact List.mem_cons.2 (.inl (by simpa [testBit_two_pow, eq_comm] using hj))
        · exact List.mem_cons_of_mem q (h.within m₀ hm₀ j hj)
    · intro m hm
      have hr : clearBits [q] m ∈ masksOf targets := by
        refine h.all _ fun j hj => ?_
        rw [testBit_clearBits, and_eq_true, decide_eq_true_iff, List.mem_singleton] at hj
        exact (List.mem_cons.1 (hm j hj.1)).resolve_left hj.2
      by_cases hmq : m.testBit q
      · refine List.mem_append_right _ (List.mem_map.2 ⟨_, hr, ?_⟩)
        apply eq_of_testBit_eq
        intro j
        by_cases hj : q = j
        · subst hj
          simp [hmq]
        · simp [testBit_clearBits, hj, Ne.symm]
      · have heq : clearBits [q] m = m := by
          apply eq_of_testBit_eq
          intro j
          by_cases hj : j = q
          · subst hj
            simpa [testBit_clearBits] using hmq
          · simp [testBit_clearBits, hj]
        exact List.mem_append_left _ (heq ▸ hr)

section
variable {F : Type}

def Gate.entry [Zero F] (gate : Gate F) (row col : ℕ) : Complex F := (gate.get row col).getD 0

variable {gate : Gate F} {targets family : List ℕ} {bases : List ℕ}
  {round : Chunk → ℕ → List (Complex F) → Option (List (Complex F))} {state : List (Complex F)}
  {chunks : List Chunk} (chunk : Chunk) (cells : List (Complex F))
  {roundSoA : Chunk → ℕ → StateVectorSoA F → Option (StateVectorSoA F)} {k n s b t q₀ q₁ len w : ℕ}

lemma Gate.OnQubits.get_eq [Zero F] (h : gate.OnQubits k) (row col : ℕ)
    (hrow : row < 2 ^ k) (hcol : col < 2 ^ k) : gate.get row col = some (gate.entry row col) := by
  have hlt : row * 2 ^ k + col < gate.matrix.length := by
    calc row * 2 ^ k + col < row * 2 ^ k + 2 ^ k := by omega
      _ = (row + 1) * 2 ^ k := (succ_mul row (2 ^ k)).symm
      _ ≤ 2 ^ k * 2 ^ k := mul_le_mul_right _ hrow
      _ = gate.matrix.length := by rw [h.size, ← Nat.mul_pow]
  rw [entry, get, h.width, List.getElem?_eq_getElem hlt, getD_some]

variable [AddCommMonoid F] [Sub F] [Mul F]

/-- The amplitude at `x` after the gate. -/
def applied (n : ℕ) (targets : List ℕ) (gate : Gate F) (amplitude : ℕ → Complex F) (x : ℕ) :
    Complex F :=
  ∑ y ∈ (Finset.range (2 ^ n)).filter (AgreeOutside n targets x),
    gate.entry (rowIndex targets x) (rowIndex targets y) * amplitude y

lemma Family.applied_eq (h : Family n targets family) (gate : Gate F)
    (amplitude : ℕ → Complex F) : ∀ x ∈ family, applied n targets gate amplitude x =
      (family.map fun y => gate.entry (rowIndex targets x) (rowIndex targets y) *
        amplitude y).sum := by
  intro x hx
  rw [applied, ← List.sum_toFinset _ h.nodup]
  congr 1
  ext y
  rw [Finset.mem_filter, Finset.mem_range, List.mem_toFinset]
  constructor
  · rintro ⟨hy, hagr⟩
    exact (h.agree x hx y hy).1 hagr
  · intro hy
    exact ⟨h.lt y hy, (h.agree x hx y (h.lt y hy)).2 hy⟩

lemma Family.applied_congr (h : Family n targets family) (gate : Gate F)
    (f g : ℕ → Complex F) (hfg : ∀ x ∈ family, f x = g x) :
    ∀ x ∈ family, applied n targets gate f x = applied n targets gate g x := by
  intro x hx
  rw [h.applied_eq gate f x hx, h.applied_eq gate g x hx]
  congr 1
  exact List.map_congr_left fun y hy => by rw [hfg y hy]

variable {ts : List ℕ} {σ : Type}

/-- The loops over the chunks compute the action, whatever the order of the
rounds is. -/
lemma foldlM_rounds (htarg : ts.Nodup) (hs : ∀ q ∈ ts, q < s) (hsn : s ≤ n) (hnd : bases.Nodup)
    (hbase : ∀ b, b ∈ bases ↔ b < 2 ^ s ∧ ∀ q ∈ ts, b.testBit q = false)
    (hrd : ∀ k, ∀ b ∈ bases, k * 2 ^ s + b < 2 ^ n → InPlace.Rewrites 0 (round ⟨k * 2 ^ s, 2 ^ s⟩ b)
        ((masksOf ts).map (k * 2 ^ s + b ||| ·)) (applied n ts gate)) (hst : state.length = 2 ^ n)
    (hchunk : chunksExactMut (2 ^ s) state.length = some chunks) {ord : List (Chunk × ℕ)}
    (hord : ord.Perm (chunks.product bases)) :
    ord.foldlM (fun state entry => round entry.1 entry.2 state) state =
      some ((List.range (2 ^ n)).map (applied n ts gate (state.getD · 0))) := by
  have hpos : 0 < 2 ^ s := Nat.two_pow_pos s
  have hmask := masks_masksOf htarg
  have hfamily := fun {i} hi hclr =>
    hmask.family (i := i) (fun q hq => (hs q hq).trans_le hsn) hi hclr
  have hchunk' : (List.range (2 ^ n / 2 ^ s)).map (fun k => (⟨k * 2 ^ s, 2 ^ s⟩)) = chunks := by
    rw [chunksExactMut, if_neg hpos.ne', hst] at hchunk
    exact some.inj hchunk
  -- the rounds are those of the chunk numbers and the bases
  have hmem : ∀ entry, entry ∈ ord ↔ ∃ k < 2 ^ n / 2 ^ s, ∃ b ∈ bases,
      entry = (⟨k * 2 ^ s, 2 ^ s⟩, b) := by
    rintro ⟨chunk, b⟩
    have hprod : (chunk, b) ∈ chunks.product bases ↔ chunk ∈ chunks ∧ b ∈ bases := List.mem_product
    rw [hord.mem_iff, hprod, ← hchunk', List.mem_map]
    constructor
    · rintro ⟨⟨k, hk, rfl⟩, hb⟩
      exact ⟨k, List.mem_range.1 hk, b, hb, rfl⟩
    · rintro ⟨k, hk, b', hb, heq⟩
      cases heq
      exact ⟨⟨k, List.mem_range.2 hk, rfl⟩, hb⟩
  have hdist : chunks.Nodup := by
    rw [← hchunk']
    refine List.nodup_range.map fun k k' heq => ?_
    exact eq_of_mul_eq_mul_right hpos (mk.inj heq).1
  have hlt : ∀ k < 2 ^ n / 2 ^ s, ∀ b ∈ bases, k * 2 ^ s + b < 2 ^ n := by
    intro k hk b hb
    calc k * 2 ^ s + b < k * 2 ^ s + 2 ^ s := Nat.add_lt_add_left ((hbase b).1 hb).1 _
      _ = (k + 1) * 2 ^ s := (succ_mul k (2 ^ s)).symm
      _ ≤ 2 ^ n / 2 ^ s * 2 ^ s := mul_le_mul_right _ hk
      _ ≤ 2 ^ n := div_mul_le_self _ _
  have hclr : ∀ k, ∀ b ∈ bases, ∀ q ∈ ts, (k * 2 ^ s + b).testBit q = false := by
    intro k b hb q hq
    rw [testBit_chunk ((hbase b).1 hb).1, if_pos (hs q hq)]
    exact ((hbase b).1 hb).2 q hq
  have hrewr : ∀ entry ∈ ord, InPlace.Rewrites 0 (round entry.1 entry.2)
      ((masksOf ts).map (entry.1.start + entry.2 ||| ·)) (applied n ts gate) := by
    intro entry hent
    obtain ⟨k, hk, b, hb, rfl⟩ := (hmem entry).1 hent
    exact hrd k b hb (hlt k hk b hb)
  rw [← hst]
  refine InPlace.Rewrites.loop_eq hrewr ?_ ?_ ?_ ?_
  · -- an index in two families has one index with clear target bits below it
    refine List.Nodup.pairwise_of_forall_ne (hord.nodup_iff.2 (hdist.product hnd)) ?_
    intro entry hent entry' hent' hne x hx hx'
    obtain ⟨k, hk, b, hb, rfl⟩ := (hmem entry).1 hent
    obtain ⟨k', hk', b', hb', rfl⟩ := (hmem entry').1 hent'
    have hi := hlt k hk b hb
    have hi' := hlt k' hk' b' hb'
    have hboth := ((hfamily hi (hclr k b hb)).agree x hx _ hi').1
      (((hfamily hi' (hclr k' b' hb')).agree x hx' _ hi').2 hmask.self_mem)
    have heq := hmask.eq_of_clear hboth (hclr k b hb) (hclr k' b' hb')
    obtain ⟨rfl, rfl⟩ := chunk_add_inj ((hbase b').1 hb').1 ((hbase b).1 hb).1 heq
    exact hne rfl
  · intro entry hent x hx
    obtain ⟨k, hk, b, hb, rfl⟩ := (hmem entry).1 hent
    rw [hst]
    exact (hfamily (hlt k hk b hb) (hclr k b hb)).lt x hx
  · intro x hx
    rw [hst] at hx
    have hk : x / 2 ^ s < 2 ^ n / 2 ^ s := div_lt_div_of_lt_of_dvd (pow_dvd_pow 2 hsn) hx
    have hb : clearBits ts (x % 2 ^ s) ∈ bases := by
      refine (hbase _).2 ⟨clearBits_lt (mod_lt _ hpos), fun q hq => ?_⟩
      simp [testBit_clearBits, hq]
    refine ⟨_, (hmem _).2 ⟨x / 2 ^ s, hk, _, hb, rfl⟩, ?_⟩
    have hfam := hfamily (hlt _ hk _ hb) (hclr _ _ hb)
    refine (hfam.agree _ hmask.self_mem x hx).1 fun j hj hout => ?_
    rw [testBit_chunk (clearBits_lt (mod_lt _ hpos)), testBit_clearBits, testBit_div_two_pow]
    by_cases hjs : j < s
    · simp [hjs, hout]
    · simp [hjs, Nat.sub_add_cancel (not_lt.1 hjs)]
  · intro entry hent x hx
    rfl

lemma apply1qRound_rewrites (ht : t < n) (hb : b < 2 ^ t)
    (hi : k * 2 ^ (t + 1) + b < 2 ^ n) (hg : gate.OnQubits 1) :
    InPlace.Rewrites 0 (apply1qRound (2 ^ t) gate ⟨k * 2 ^ (t + 1), 2 ^ (t + 1)⟩ b)
      ((masksOf [t]).map (k * 2 ^ (t + 1) + b ||| ·)) (applied n [t] gate) := by
  have ht' : 2 ^ t < 2 ^ (t + 1) := Nat.pow_lt_pow_right one_lt_two t.lt_succ_self
  have hb' : b < 2 ^ (t + 1) := hb.trans ht'
  have hclr : (k * 2 ^ (t + 1) + b).testBit t = false := by
    rw [testBit_chunk hb', if_pos t.lt_succ_self, testBit_lt_two_pow hb]
  have hfamily := (masks_masksOf (List.nodup_singleton t)).family (n := n) (by simpa using ht) hi
    (by simpa using hclr)
  refine .of_sets (fun cells hrng => ?_) (hfamily.applied_congr gate)
  have hmask : (masksOf [t]).map (k * 2 ^ (t + 1) + b ||| ·) =
      [k * 2 ^ (t + 1) + b, k * 2 ^ (t + 1) + b ||| 2 ^ t] := by
    simp [masksOf]
  rw [hmask] at hfamily hrng ⊢
  have hsum := hfamily.applied_eq gate (cells.getD · 0)
  simp only [List.forall_mem_cons, List.map_cons, List.map_nil, List.sum_cons, List.sum_nil,
    add_zero, rowIndex, List.foldl_cons, testBit_or, hclr,
    testBit_two_pow_self, Bool.false_or, toNat_false, toNat_true] at hsum hrng
  obtain ⟨h0, hone, -⟩ := hrng
  simp only [apply1qRound, bind_eq_bind, bind_some, chunk_get 0 hb' h0,
    chunk_get_or 0 hb' ht' hone, chunk_set hb', chunk_set_or hb' ht', hg.get_eq, pow_one,
    zero_lt_two, one_lt_two, List.foldl_cons, List.foldl_nil, hsum.1, hsum.2.1]

lemma apply2qRound_rewrites (hq : q₀ ≠ q₁) (h₀ : q₀ < s) (h₁ : q₁ < s)
    (hsn : s ≤ n) (hb : b < 2 ^ s) (hb₀ : b.testBit q₀ = false) (hb₁ : b.testBit q₁ = false)
    (hi : k * 2 ^ s + b < 2 ^ n) (hg : gate.OnQubits 2) :
    InPlace.Rewrites 0 (apply2qRound (2 ^ q₀) (2 ^ q₁) gate ⟨k * 2 ^ s, 2 ^ s⟩ b)
      ((masksOf [q₀, q₁]).map (k * 2 ^ s + b ||| ·)) (applied n [q₀, q₁] gate) := by
  have hm₀ : 2 ^ q₀ < 2 ^ s := Nat.pow_lt_pow_right one_lt_two h₀
  have hm₁ : 2 ^ q₁ < 2 ^ s := Nat.pow_lt_pow_right one_lt_two h₁
  have hclr₀ : (k * 2 ^ s + b).testBit q₀ = false := by rw [testBit_chunk hb, if_pos h₀, hb₀]
  have hclr₁ : (k * 2 ^ s + b).testBit q₁ = false := by rw [testBit_chunk hb, if_pos h₁, hb₁]
  have hfamily := (masks_masksOf (show [q₀, q₁].Nodup by simpa using hq)).family (n := n)
    (by simpa using ⟨h₀.trans_le hsn, h₁.trans_le hsn⟩) hi (by simpa using ⟨hclr₀, hclr₁⟩)
  refine .of_sets (fun cells hrng => ?_) (hfamily.applied_congr gate)
  have hmask : (masksOf [q₀, q₁]).map (k * 2 ^ s + b ||| ·) =
      [k * 2 ^ s + b, k * 2 ^ s + b ||| 2 ^ q₁, k * 2 ^ s + b ||| 2 ^ q₀,
        k * 2 ^ s + b ||| (2 ^ q₀ ||| 2 ^ q₁)] := by
    simp [masksOf]
  rw [hmask] at hfamily hrng ⊢
  have hsum := hfamily.applied_eq gate (cells.getD · 0)
  simp only [List.forall_mem_cons, List.map_cons, List.map_nil, List.sum_cons, List.sum_nil,
    add_zero, rowIndex, List.foldl_cons, testBit_or, hclr₀, hclr₁,
    testBit_two_pow_self, testBit_two_pow, hq, hq.symm, Bool.or_false,
    Bool.or_true, decide_false, toNat_false, toNat_true] at hsum hrng
  obtain ⟨hcell₀, hcell₁, hcell₂, hcell₃, -⟩ := hrng
  have hrow : ∀ row < 2 ^ 2, ∀ a₀ a₁ a₂ a₃, rowOf2q gate row a₀ a₁ a₂ a₃ =
      some (gate.entry row 0 * a₀ + (gate.entry row 1 * a₁ + (gate.entry row 2 * a₂ +
        gate.entry row 3 * a₃))) := by
    intro row hrow a₀ a₁ a₂ a₃
    simp only [rowOf2q, hg.get_eq row _ hrow (by decide : 0 < 2 ^ 2),
      hg.get_eq row _ hrow (by decide : 1 < 2 ^ 2), hg.get_eq row _ hrow (by decide : 2 < 2 ^ 2),
      hg.get_eq row _ hrow (by decide : 3 < 2 ^ 2), bind_eq_bind, bind_some, pure_def, add_assoc]
  simp only [apply2qRound, bind_eq_bind, bind_some, Nat.or_assoc,
    chunk_get 0 hb hcell₀, chunk_get_or 0 hb hm₁ hcell₁, chunk_get_or 0 hb hm₀ hcell₂,
    chunk_get_or 0 hb (or_lt_two_pow hm₀ hm₁) hcell₃, chunk_set hb, chunk_set_or hb hm₀,
    chunk_set_or hb hm₁, chunk_set_or hb (or_lt_two_pow hm₀ hm₁), hrow 0 (by decide),
    hrow 1 (by decide), hrow 2 (by decide), hrow 3 (by decide),
    List.foldl_cons, List.foldl_nil, hsum.1, hsum.2.1, hsum.2.2.1, hsum.2.2.2.1]

lemma foldlM_product (rd : Chunk → ℕ → σ → Option σ) (bases : List ℕ) (cs : List Chunk)
    (state : σ) :
    (cs.product bases).foldlM (fun state entry => rd entry.1 entry.2 state) state =
      cs.foldlM (applyBlock rd bases) state := by
  induction cs generalizing state with
  | nil => rfl
  | cons chunk cs ih =>
    have hco : (chunk :: cs).product bases =
        bases.map (.mk chunk) ++ cs.product bases := List.product_cons chunk cs bases
    rw [hco, List.foldlM_append, List.foldlM_map, List.foldlM_cons]
    simp only [ih, applyBlock]

/-- When all orders of the rounds have the same result, so have both loops. -/
lemma chunkLoops_eq {size : ℕ} {rd : Chunk → ℕ → σ → Option σ} {st : σ} {r : Option σ}
    (hchunk : chunksExactMut size len = some chunks)
    (h : ∀ order : List (Chunk × ℕ), order.Perm (chunks.product bases) →
      order.foldlM (fun st entry => rd entry.1 entry.2 st) st = r) :
    forChunks size len rd bases st = r ∧
      ∀ result, ParForChunks size len rd bases st result ↔ result = r := by
  have hflat : (chunks.map fun chunk => bases.map (.mk chunk)).flatten = chunks.product bases := rfl
  refine ⟨?_, fun result => ?_⟩
  · rw [forChunks, hchunk, bind_eq_bind, bind_some, ← foldlM_product]
    exact h _ (.refl _)
  · simp only [ParForChunks, hchunk]
    constructor
    · rintro ⟨order, hord, rfl⟩
      exact h order (hflat ▸ hord.perm)
    · rintro rfl
      exact ⟨_, interleaves_flatten _, h _ (.refl _)⟩

/-! ### The layout in two vectors -/

def parts (a : Complex F) : F × F := (a.re, a.im)

section
omit [AddCommMonoid F] [Sub F] [Mul F]

lemma getPair_ofAos (i : ℕ) : chunk.getPair (.ofAos cells) i = (chunk.get cells i).map parts := by
  simp only [Chunk.getPair, Chunk.get, ofAos, List.getElem?_map]
  split
  · cases cells[chunk.start + i]? <;> rfl
  · rfl

lemma setPair_ofAos (i : ℕ) (value : Complex F) :
    chunk.setPair (.ofAos cells) i (parts value) = (chunk.set cells i value).map .ofAos := by
  simp only [Chunk.setPair, Chunk.set, ofAos, parts]
  split
  · simp [List.map_set, ofAos]
  · rfl

/-- A loop in the one layout is the loop in the other. -/
lemma foldlM_ofAos
    (h : ∀ chunk base cells, roundSoA chunk base (.ofAos cells) =
      (round chunk base cells).map .ofAos) (order : List (Chunk × ℕ)) (cells : List (Complex F)) :
    order.foldlM (fun state entry => roundSoA entry.1 entry.2 state) (.ofAos cells) =
      (order.foldlM (fun state entry => round entry.1 entry.2 state) cells).map .ofAos := by
  induction order generalizing cells with
  | nil => rfl
  | cons _ _ ih => simp only [List.foldlM_cons, h, bind_eq_bind, bind_map, map_bind, comp_def, ih]

lemma length_ofAos : (ofAos cells).length = cells.length := by simp [length, ofAos]

end

lemma mulComplexPair_parts (a b : Complex F) : mulComplexPair a (parts b) = parts (a * b) := rfl

omit [Sub F] [Mul F] in
lemma addComplexPairs_parts (a b : Complex F) :
    addComplexPairs (parts a) (parts b) = parts (a + b) := rfl

lemma apply1qRoundSoA_ofAos (mask : ℕ) (hg : gate.OnQubits 1) (ch : Chunk) (base : ℕ)
    (cs : List (Complex F)) :
    apply1qRoundSoA mask gate ch base (.ofAos cs) =
      (apply1qRound mask gate ch base cs).map .ofAos := by
  simp only [apply1qRoundSoA, apply1qRound, hg.get_eq, pow_one, zero_lt_two, one_lt_two,
    bind_eq_bind, bind_some, getPair_ofAos, bind_map, map_bind,
    comp_def, mulComplexPair_parts, addComplexPairs_parts, setPair_ofAos]

lemma rowOf2qSoA_parts (gate : Gate F) (row : ℕ) (a₀ a₁ a₂ a₃ : Complex F) :
    rowOf2qSoA gate row (parts a₀) (parts a₁) (parts a₂) (parts a₃) =
      (rowOf2q gate row a₀ a₁ a₂ a₃).map parts := by
  simp only [rowOf2qSoA, rowOf2q, bind_eq_bind, pure_def, map_bind,
    comp_def, map_some, mulComplexPair_parts, addComplexPairs_parts, add_assoc]

lemma apply2qRoundSoA_ofAos (mask₀ mask₁ : ℕ) (gate : Gate F) (ch : Chunk) (base : ℕ)
    (cs : List (Complex F)) :
    apply2qRoundSoA mask₀ mask₁ gate ch base (.ofAos cs) =
      (apply2qRound mask₀ mask₁ gate ch base cs).map .ofAos := by
  simp only [apply2qRoundSoA, apply2qRound, bind_eq_bind, getPair_ofAos, bind_map,
    map_bind, comp_def, rowOf2qSoA_parts, setPair_ofAos]

structure Apply1qGives (w : ℕ) (state : List (Complex F)) (target : ℕ) (gate : Gate F)
    (result : List (Complex F)) : Prop where
  sequential : apply1q w state target gate = some result
  parallel : ∀ r, Apply1qParallel w state target gate r ↔ r = some result
  soa : apply1qSoA w (.ofAos state) target gate = some (.ofAos result)
  soaParallel : ∀ r, Apply1qSoAParallel w (.ofAos state) target gate r ↔ r = some (.ofAos result)

structure Apply2qGives (w : ℕ) (state : List (Complex F)) (q₀ q₁ : ℕ) (gate : Gate F)
    (result : List (Complex F)) : Prop where
  sequential : apply2q w state q₀ q₁ gate = some result
  parallel : ∀ r, Apply2qParallel w state q₀ q₁ gate r ↔ r = some result
  soa : apply2qSoA w (.ofAos state) q₀ q₁ gate = some (.ofAos result)
  soaParallel : ∀ r, Apply2qSoAParallel w (.ofAos state) q₀ q₁ gate r ↔ r = some (.ofAos result)

/-- All loops end with the action of the matrix when each round computes its part
of it. -/
lemma chunkLoops_applied (htarg : ts.Nodup) (hs : ∀ q ∈ ts, q < s) (hsn : s ≤ n)
    (hnd : bases.Nodup) (hbase : ∀ b, b ∈ bases ↔ b < 2 ^ s ∧ ∀ q ∈ ts, b.testBit q = false)
    (hrd : ∀ k, ∀ b ∈ bases, k * 2 ^ s + b < 2 ^ n → InPlace.Rewrites 0 (round ⟨k * 2 ^ s, 2 ^ s⟩ b)
        ((masksOf ts).map (k * 2 ^ s + b ||| ·)) (applied n ts gate))
    (hroundSoA : ∀ chunk base cells, roundSoA chunk base (.ofAos cells) =
      (round chunk base cells).map .ofAos) (hst : state.length = 2 ^ n)
    {result : List (Complex F)}
    (hres : result = (List.range (2 ^ n)).map (applied n ts gate (state.getD · 0))) :
    (forChunks (2 ^ s) state.length round bases state = some result ∧
      ∀ r, ParForChunks (2 ^ s) state.length round bases state r ↔ r = some result) ∧
    forChunks (2 ^ s) (ofAos state).length roundSoA bases (.ofAos state) = some (.ofAos result) ∧
    ∀ r, ParForChunks (2 ^ s) (ofAos state).length roundSoA bases
      (.ofAos state) r ↔ r = some (.ofAos result) := by
  obtain ⟨chunks, hchunk⟩ : ∃ chunks, chunksExactMut (2 ^ s) state.length = some chunks :=
    ⟨_, if_neg (Nat.two_pow_pos s).ne'⟩
  have hrun : ∀ order : List (Chunk × ℕ), order.Perm (chunks.product bases) →
      order.foldlM (fun state e => round e.1 e.2 state) state = some result := by
    intro order hord
    rw [hres]
    exact foldlM_rounds htarg hs hsn hnd hbase hrd hst hchunk hord
  refine ⟨chunkLoops_eq hchunk hrun, ?_⟩
  rw [length_ofAos]
  refine chunkLoops_eq hchunk fun order hord => ?_
  rw [foldlM_ofAos hroundSoA, hrun order hord, map_some]

lemma apply1qGives_applied (hn : n < w) (ht : t < n) (hg : gate.OnQubits 1)
    (hst : state.length = 2 ^ n) :
    Apply1qGives w state t gate
      ((List.range (2 ^ n)).map (applied n [t] gate (state.getD · 0))) := by
  have hmask : shl w 1 t = 2 ^ t := shl_one (by omega)
  have hsz : shl w (2 ^ t) 1 = 2 ^ (t + 1) := shl_two_pow (by omega)
  have hbase : ∀ b, b ∈ bases1q (2 ^ t) ↔ b < 2 ^ (t + 1) ∧ ∀ q ∈ [t], b.testBit q = false := by
    intro b
    rw [bases1q, List.mem_range, List.forall_mem_singleton]
    exact lt_two_pow_iff_succ
  obtain ⟨⟨hseq, hpar⟩, hsoa, hsoaPar⟩ := chunkLoops_applied (List.nodup_singleton t)
    (by simp) ht List.nodup_range hbase
    (fun k b hb hi => apply1qRound_rewrites ht (List.mem_range.1 hb) hi hg)
    (apply1qRoundSoA_ofAos (2 ^ t) hg) hst rfl
  constructor
  · rw [apply1q, hmask, hsz]
    exact hseq
  · rw [Apply1qParallel, hmask, hsz]
    exact hpar
  · rw [apply1qSoA, hmask, hsz]
    exact hsoa
  · rw [Apply1qSoAParallel, hmask, hsz]
    exact hsoaPar

lemma mem_bases2q : b ∈ bases2q (2 ^ q₀) (2 ^ q₁) len ↔
    b < len ∧ ∀ q ∈ [q₀, q₁], b.testBit q = false := by
  have hbit : ∀ q, b &&& 2 ^ q = 0 ↔ b.testBit q = false := by
    intro q
    rw [and_two_pow]
    cases b.testBit q <;> simp
  simp [bases2q, hbit]

lemma apply2qGives_applied (hn : n < w) (h₀ : q₀ < n) (h₁ : q₁ < n)
    (hq : q₀ ≠ q₁) (hg : gate.OnQubits 2) (hst : state.length = 2 ^ n) :
    Apply2qGives w state q₀ q₁ gate
      ((List.range (2 ^ n)).map (applied n [q₀, q₁] gate (state.getD · 0))) := by
  have hmask₀ : shl w 1 q₀ = 2 ^ q₀ := shl_one (by omega)
  have hmask₁ : shl w 1 q₁ = 2 ^ q₁ := shl_one (by omega)
  have hsz : shl w 1 (max q₀ q₁ + 1) = 2 ^ (max q₀ q₁ + 1) := shl_one (by omega)
  have hlt₀ : q₀ < max q₀ q₁ + 1 := lt_succ_of_le (le_max_left q₀ q₁)
  have hlt₁ : q₁ < max q₀ q₁ + 1 := lt_succ_of_le (le_max_right q₀ q₁)
  have hsn : max q₀ q₁ + 1 ≤ n := max_lt h₀ h₁
  obtain ⟨⟨hseq, hpar⟩, hsoa, hsoaPar⟩ := chunkLoops_applied (by simpa using hq)
    (by simpa using ⟨hlt₀, hlt₁⟩) hsn (List.nodup_range.filter _) (fun b => mem_bases2q)
    (fun k b hb hi => by
      obtain ⟨hb, hclr⟩ := mem_bases2q.1 hb
      exact apply2qRound_rewrites hq hlt₀ hlt₁ hsn hb (hclr q₀ (by simp)) (hclr q₁ (by simp)) hi hg)
    (apply2qRoundSoA_ofAos (2 ^ q₀) (2 ^ q₁) gate) hst rfl
  constructor
  · rw [apply2q, hmask₀, hmask₁, hsz]
    exact hseq
  · rw [Apply2qParallel, hmask₀, hmask₁, hsz]
    exact hpar
  · rw [apply2qSoA, hmask₀, hmask₁, hsz]
    exact hsoa
  · rw [Apply2qSoAParallel, hmask₀, hmask₁, hsz]
    exact hsoaPar

/-- All variants of both functions compute the action of the matrix on its
targets. A vector of `2 ^ n` amplitudes has a length of `n + 1` bits, so `n` is
below the width of a machine word. -/
theorem applyVariants_applied {w n : ℕ} (hn : n < w) {state : List (Complex F)}
    (hstate : state.length = 2 ^ n) :
    (∀ target < n, ∀ gate : Gate F, gate.OnQubits 1 →
      Apply1qGives w state target gate
        ((List.range (2 ^ n)).map (applied n [target] gate (state.getD · 0)))) ∧
    ∀ q₀ < n, ∀ q₁ < n, q₀ ≠ q₁ → ∀ gate : Gate F, gate.OnQubits 2 →
      Apply2qGives w state q₀ q₁ gate
        ((List.range (2 ^ n)).map (applied n [q₀, q₁] gate (state.getD · 0))) :=
  ⟨fun _ ht _ hg => apply1qGives_applied hn ht hg hstate,
    fun _ h₀ _ h₁ hq _ hg => apply2qGives_applied hn h₀ h₁ hq hg hstate⟩

end

/-- A controlled negation of the low bit by the high one. -/
theorem applyVariants_cnot :
    Apply2qGives 64 [⟨(2 : ℤ), 0⟩, ⟨3, 0⟩, ⟨0, 5⟩, ⟨0, 7⟩] 1 0
      ⟨[], [1, 0, 0, 0, 0, 1, 0, 0, 0, 0, 0, 1, 0, 0, 1, 0], 2⟩
      [⟨2, 0⟩, ⟨3, 0⟩, ⟨0, 7⟩, ⟨0, 5⟩] := by
  have hlen : [⟨2, 0⟩, ⟨3, 0⟩, ⟨0, 5⟩, (⟨0, 7⟩ : Complex ℤ)].length = 2 ^ 2 := rfl
  have h := (applyVariants_applied (w := 64) (n := 2) (by decide) hlen).2 1 (by decide) 0
    (by decide) (by decide) ⟨[], [1, 0, 0, 0, 0, 1, 0, 0, 0, 0, 0, 1, 0, 0, 1, 0], 2⟩ ⟨rfl, rfl⟩
  exact h

end Waros.Quantum
