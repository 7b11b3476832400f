import Waros.Lib.U64
import Mathlib.Tactic.Ring

/-!
Modular powers for factoring (`crates/waros-quantum/src/algorithms/shor.rs`). Words
of 64 bits are natural numbers, and their products wrap.
-/

namespace Waros.Quantum.Shor

open Lib U64

def modPowLoop (modulus result base exponent : ℕ) : ℕ :=
  if exponent = 0 then result
  else modPowLoop modulus
    (if exponent % 2 = 1 then wrappingMul result base % modulus else result)
    (wrappingMul base base % modulus) (exponent / 2)
termination_by exponent

/-- Modular exponentiation by repeated squaring. -/
def modPow (base exponent modulus : ℕ) : ℕ :=
  if modulus = 1 then 0 else modPowLoop modulus 1 (base % modulus) exponent

section
variable {m : ℕ} (hmul : ∀ a < m, ∀ b < m, wrappingMul a b % m = a * b % m)
include hmul

lemma modPowLoop_eq {r b : ℕ} (hr : r < m) (hb : b < m) (e : ℕ) :
    modPowLoop m r b e = r * b ^ e % m := by
  induction e using Nat.strongRecOn generalizing r b with
  | _ e ih =>
    have hm : 0 < m := by omega
    rw [modPowLoop]
    split_ifs with he hodd
    · rw [he, pow_zero, mul_one, Nat.mod_eq_of_lt hr]
    · rw [ih _ (by omega) (Nat.mod_lt _ hm) (Nat.mod_lt _ hm), hmul r hr b hb, hmul b hb b hb]
      conv_rhs => rw [← Nat.div_add_mod e 2, hodd, pow_succ, pow_mul, sq]
      rw [Nat.mul_mod, Nat.mod_mod, Nat.pow_mod, Nat.mod_mod, ← Nat.pow_mod, ← Nat.mul_mod]
      congr 1
      ring
    · rw [ih _ (by omega) hr (Nat.mod_lt _ hm), hmul b hb b hb]
      conv_rhs => rw [← Nat.div_add_mod e 2, show e % 2 = 0 by omega, add_zero, pow_mul, sq]
      rw [Nat.mul_mod, Nat.pow_mod, Nat.mod_mod, ← Nat.pow_mod, ← Nat.mul_mod]

end

/-- The powers are right for a modulus whose products fit into a word, and for one
that divides the number of words, so that wrapping does not matter. -/
theorem modPow_eq_iff {m : ℕ} (hm : 0 < m) :
    (∀ b < 2 ^ 64, ∀ e < 2 ^ 64, modPow b e m = b ^ e % m) ↔ m ≤ 2 ^ 32 ∨ m ∣ 2 ^ 64 := by
  constructor
  · intro h
    by_contra hno
    push Not at hno
    have hsq := h (2 ^ 32) (by decide) 2 (by decide)
    rw [modPow, if_neg (by omega), Nat.mod_eq_of_lt hno.1, modPowLoop, modPowLoop, modPowLoop]
      at hsq
    exact hno.2 (Nat.dvd_of_mod_eq_zero hsq.symm)
  · intro h b _ e _
    have hmul : ∀ a < m, ∀ b < m, wrappingMul a b % m = a * b % m := by
      intro a ha b hb
      rcases h with hle | hdvd
      · have hlt : a * b < 2 ^ 64 := by
          calc a * b < 2 ^ 32 * 2 ^ 32 := Nat.mul_lt_mul'' (ha.trans_le hle) (hb.trans_le hle)
            _ = 2 ^ 64 := by norm_num
        rw [wrappingMul, Nat.mod_eq_of_lt hlt]
      · rw [wrappingMul, Nat.mod_mod_of_dvd _ hdvd]
    rw [modPow]
    split_ifs with hone
    · rw [hone, Nat.mod_one]
    · rw [modPowLoop_eq hmul (by omega) (Nat.mod_lt _ hm), one_mul, ← Nat.pow_mod]

theorem modPow_eq_iff_prime :
    (∀ b < 2 ^ 64, ∀ e < 2 ^ 64, modPow b e 1000003 = b ^ e % 1000003) ↔
      1000003 ≤ 2 ^ 32 ∨ 1000003 ∣ 2 ^ 64 :=
  modPow_eq_iff (by norm_num)

/-- The square of `2 ^ 32` is lost. -/
theorem modPow_wraps : modPow (2 ^ 32) 2 (2 ^ 32 + 1) ≠ (2 ^ 32) ^ 2 % (2 ^ 32 + 1) := by
  rw [modPow, modPowLoop, modPowLoop, modPowLoop]
  norm_num [wrappingMul]

end Waros.Quantum.Shor
