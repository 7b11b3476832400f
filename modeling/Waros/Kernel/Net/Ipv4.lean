import Mathlib.Algebra.BigOperators.Group.List.Basic
import Mathlib.Algebra.Order.BigOperators.Group.List
import Mathlib.Algebra.Order.Ring.Nat

/-!
The checksum of an internet header: the ones' complement of the ones' complement
sum of its big-endian words, after `net/ipv4.rs`.
-/

namespace Waros.Kernel.Net.Ipv4

open List

/-- The chunks of two bytes; a last byte alone is the high one of its word. -/
def words : List UInt8 → List ℕ
  | [] => []
  | [high] => [256 * high.toNat]
  | high :: low :: rest => (256 * high.toNat + low.toNat) :: words rest

/-- The carries out of the low sixteen bits are added back until none is left. -/
def foldCarries (sum : ℕ) : ℕ :=
  if 65536 ≤ sum then foldCarries (sum % 65536 + sum / 65536) else sum

def ipv4Checksum (header : List UInt8) : ℕ :=
  let sum := (words header).foldl (fun sum word => (sum + word) % 2 ^ 32) 0
  65535 - foldCarries sum % 65536

def storeWord (header : List UInt8) (offset word : ℕ) : List UInt8 :=
  (header.set offset (.ofNat (word / 256))).set (offset + 1) (.ofNat (word % 256))

variable {header other : List UInt8} {i word : ℕ}

lemma words_storeWord (hword : word < 65536) (hi : 2 * i + 1 < header.length) :
    words (storeWord header (2 * i) word) = (words header).set i word := by
  induction i generalizing header with
  | zero =>
    match header, hi with
    | high :: low :: rest, _ =>
      simp only [storeWord, words, set_cons_zero, set_cons_succ, mul_zero, UInt8.toNat_ofNat']
      congr 1
      omega
  | succ i ih =>
    match header, hi with
    | high :: low :: rest, hi =>
      rw [length_cons, length_cons] at hi
      rw [words, set_cons_succ, ← ih (by omega)]
      rfl

lemma length_words (heven : header.length % 2 = 0) : 2 * (words header).length = header.length := by
  fun_induction words header with
  | case1 => rfl
  | case2 => cases heven
  | case3 high low rest ih =>
    rw [length_cons, length_cons] at heven ⊢
    rw [length_cons, mul_add, ih (by omega)]

lemma le_of_mem_words (hword : word ∈ words header) : word ≤ 65535 := by
  fun_induction words header with
  | case1 => cases hword
  | case2 high =>
    have := high.toNat_lt
    rw [mem_singleton] at hword
    omega
  | case3 high low rest ih =>
    have := high.toNat_lt
    have := low.toNat_lt
    rcases mem_cons.1 hword with rfl | hword
    exacts [by omega, ih hword]

/-- With the carries added back, a sum is counted modulo `65535`, and only the sum of
no ones is zero. -/
lemma foldCarries_eq (sum : ℕ) :
    foldCarries sum = if sum = 0 then 0 else (sum - 1) % 65535 + 1 := by
  fun_induction foldCarries sum with
  | case1 sum hle ih => rw [ih, if_neg (by omega), if_neg (by omega)]; omega
  | case2 sum hlt => split_ifs <;> omega

lemma foldCarries_add_complement (sum : ℕ) :
    foldCarries (sum + (65535 - foldCarries sum)) = 65535 := by
  rw [foldCarries_eq, foldCarries_eq sum]
  split_ifs <;> omega

lemma foldl_wrapping_add (l : List ℕ) {sum : ℕ} (hsum : sum < 2 ^ 32) :
    l.foldl (fun sum word => (sum + word) % 2 ^ 32) sum = (sum + l.sum) % 2 ^ 32 := by
  induction l generalizing sum with
  | nil => exact (Nat.mod_eq_of_lt hsum).symm
  | cons word l ih => rw [foldl_cons, ih (Nat.mod_lt _ (by decide)), sum_cons]; omega

lemma ipv4Checksum_eq :
    ipv4Checksum header = 65535 - foldCarries ((words header).sum % 2 ^ 32) := by
  have hle := foldCarries_eq ((words header).sum % 2 ^ 32)
  rw [ipv4Checksum, foldl_wrapping_add _ (by decide), zero_add, Nat.mod_eq_of_lt]
  split_ifs at hle <;> omega

lemma sum_words_le (heven : header.length % 2 = 0) (hlen : header.length ≤ 131070) :
    (words header).sum ≤ 65535 * 65535 := by
  have hlength := length_words heven
  calc (words header).sum
    _ ≤ (words header).length • 65535 := sum_le_card_nsmul _ _ fun _ => le_of_mem_words
    _ ≤ 65535 * 65535 := Nat.mul_le_mul_right 65535 (by omega)

lemma sum_words_storeWord (heven : header.length % 2 = 0) (hi : 2 * i < header.length)
    (hword : word < 65536) : (words (storeWord (storeWord header (2 * i) 0) (2 * i) word)).sum =
      (words (storeWord header (2 * i) 0)).sum + word := by
  have hlen := length_words heven
  rw [words_storeWord hword (by simp [storeWord]; omega), words_storeWord (by decide) (by omega),
    set_set, sum_set, sum_set, if_pos (by omega), if_pos (by omega)]
  omega

theorem ipv4Checksum_storeWord {f : ℕ} (heven : header.length % 2 = 0)
    (hlen : header.length ≤ 131070) (hf : f % 2 = 0) (hlt : f < header.length) :
    ipv4Checksum (storeWord (storeWord header f 0) f (ipv4Checksum (storeWord header f 0))) = 0 ∧
      ∀ other, (words other).Perm (words header) → ipv4Checksum other = ipv4Checksum header := by
  obtain ⟨i, rfl⟩ := Nat.dvd_of_mod_eq_zero hf
  refine ⟨?_, fun other hperm => by rw [ipv4Checksum_eq, ipv4Checksum_eq, hperm.sum_eq]⟩
  have hword : ipv4Checksum (storeWord header (2 * i) 0) < 65536 := by
    rw [ipv4Checksum_eq]
    omega
  have hsum := sum_words_storeWord heven hlt hword
  have hle := @sum_words_le (storeWord (storeWord header (2 * i) 0) (2 * i)
    (ipv4Checksum (storeWord header (2 * i) 0))) (by simpa [storeWord]) (by simpa [storeWord])
  rw [ipv4Checksum_eq, Nat.mod_eq_of_lt (by omega), hsum, ipv4Checksum_eq,
    Nat.mod_eq_of_lt (by omega), foldCarries_add_complement]

theorem ipv4Checksum_storeWord_two :
    ipv4Checksum (storeWord (storeWord [69, 0, 1, 2] 2 0) 2
      (ipv4Checksum (storeWord [69, 0, 1, 2] 2 0))) = 0 ∧
    ∀ other, (words other).Perm (words [69, 0, 1, 2]) →
      ipv4Checksum other = ipv4Checksum [69, 0, 1, 2] :=
  ipv4Checksum_storeWord (by decide) (by decide) (by decide) (by decide)

end Waros.Kernel.Net.Ipv4
