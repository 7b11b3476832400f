import Mathlib.Algebra.Order.Ring.Nat

/-!
Arithmetic of 64-bit machine words on natural numbers. A word is a number
below `2 ^ 64`; the operations differ in what they do at the upper end:
they wrap, saturate, or report the overflow. In memory a word is eight bytes,
least significant first. Page arithmetic is rounding to multiples of `4096`.
-/

namespace Waros.Lib.U64

variable (a b : ℕ)

/-- Wrapping addition, the meaning of `+` without overflow checks. -/
def wrappingAdd : ℕ := (a + b) % 2 ^ 64

def wrappingMul : ℕ := (a * b) % 2 ^ 64

def saturatingAdd : ℕ := min (a + b) (2 ^ 64 - 1)

def saturatingMul : ℕ := min (a * b) (2 ^ 64 - 1)

def checkedAdd : Option ℕ := if a + b < 2 ^ 64 then some (a + b) else none

def checkedSub : Option ℕ := if b ≤ a then some (a - b) else none

/-- Rounding down to a page boundary, the mask `a & !0xFFF`. -/
def alignDown (a : ℕ) : ℕ := a / 4096 * 4096

/-- The number with the given bytes, least significant first. -/
def ofBytes : List UInt8 → ℕ
  | [] => 0
  | byte :: bytes => byte.toNat + 256 * ofBytes bytes

/-- The eight bytes of a word, least significant first. -/
def toBytes (a : ℕ) : List UInt8 := (List.range 8).map fun i => .ofNat (a / 256 ^ i)

lemma ofBytes_lt (bs : List UInt8) : ofBytes bs < 256 ^ bs.length := by
  induction bs with
  | nil => simp [ofBytes]
  | cons byte =>
    have hbyte := byte.toNat_lt
    rw [ofBytes, List.length_cons]
    omega

lemma wrappingAdd_of_lt {a b : ℕ} (h : a + b < 2 ^ 64) : wrappingAdd a b = a + b :=
  Nat.mod_eq_of_lt h

lemma saturatingAdd_of_lt {a b : ℕ} (h : a + b < 2 ^ 64) : saturatingAdd a b = a + b := by
  unfold saturatingAdd
  omega

end Waros.Lib.U64
