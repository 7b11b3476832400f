import Mathlib.Algebra.Order.Ring.Nat
import Mathlib.Data.List.Basic

/-!
A table of lists, found through the low bits of a number. It keeps a finite
map with numeric keys in small lists, so that the map can be evaluated.
-/

namespace Waros.Lib

open Nat

inductive Radix (α : Type*)
  | empty
  | leaf (entries : List α)
  | node (even odd : Radix α)

namespace Radix

variable {α : Type*}

/-- The list at the low `depth` bits of `k`. -/
def get : ℕ → ℕ → Radix α → List α
  | 0, _, leaf entries => entries
  | depth + 1, k, node even odd =>
    if k % 2 = 0 then get depth (k / 2) even else get depth (k / 2) odd
  | _, _, _ => []

def halves : Radix α → Radix α × Radix α
  | node even odd => (even, odd)
  | _ => (empty, empty)

/-- Applies `f` to the list at the low `depth` bits of `k`. -/
def modify (f : List α → List α) : ℕ → ℕ → Radix α → Radix α
  | 0, _, t => leaf (f (t.get 0 0))
  | depth + 1, k, t =>
    if k % 2 = 0 then node (modify f depth (k / 2) t.halves.1) t.halves.2
    else node t.halves.1 (modify f depth (k / 2) t.halves.2)

/-- Applies `f` to every list. -/
def map (f : List α → List α) : Radix α → Radix α
  | empty => empty
  | leaf entries => leaf (f entries)
  | node even odd => node (map f even) (map f odd)

@[simp] lemma get_empty (d k : ℕ) : (empty : Radix α).get d k = [] := by cases d <;> rfl

lemma get_succ (d k : ℕ) (t : Radix α) :
    t.get (d + 1) k = if k % 2 = 0 then t.halves.1.get d (k / 2) else t.halves.2.get d (k / 2) := by
  cases t with
  | empty => simp [halves]
  | leaf => simp [halves, get]
  | node => rfl

lemma get_zero (j k : ℕ) (t : Radix α) : t.get 0 j = t.get 0 k := by cases t <;> rfl

lemma get_modify (f : List α → List α) (depth j k : ℕ) (t : Radix α) :
    (t.modify f depth k).get depth j =
      if j % 2 ^ depth = k % 2 ^ depth then f (t.get depth j) else t.get depth j := by
  induction depth generalizing j k t with
  | zero => simp [modify, get, get_zero j 0, mod_one]
  | succ depth ih =>
    -- The lowest bit chooses the half, the others decide within it.
    have hspl : j % 2 ^ (depth + 1) = k % 2 ^ (depth + 1) ↔
        j % 2 = k % 2 ∧ j / 2 % 2 ^ depth = k / 2 % 2 ^ depth := by
      rw [pow_succ, mul_comm, mod_mul, mod_mul]
      omega
    simp only [hspl, get_succ, modify]
    rcases mod_two_eq_zero_or_one k with hk | hk <;>
      rcases mod_two_eq_zero_or_one j with hj | hj <;>
      simp [hk, hj, halves, ih]

lemma get_map {f : List α → List α} (hf : f [] = []) (d k : ℕ) (t : Radix α) :
    (t.map f).get d k = f (t.get d k) := by
  induction t generalizing d k with
  | empty => simp [map, hf]
  | leaf => cases d <;> simp [map, get, hf]
  | node _ _ iheven ihodd =>
    cases d with
    | zero => simp [map, get, hf]
    | succ =>
      simp only [map, get, iheven, ihodd]
      split_ifs <;> rfl

end Radix

end Waros.Lib
