import Mathlib.Tactic.Common

/-!
Computations that can fail, and failures that must not happen. `Avoids bad P`
says that a computation does not end with the failure `bad`, and that its result,
if it has one, satisfies `P`.
-/

namespace Waros.Lib

variable {ε α β σ ι : Type} {bad : ε}

def Avoids (bad : ε) (P : α → Prop) (result : Except ε α) : Prop :=
  result ≠ .error bad ∧ ∀ a, result = .ok a → P a

namespace Avoids

variable {P P' : α → Prop} {Q : β → Prop}

lemma ok {a : α} (h : P a) : Avoids bad P (.ok a) := by
  constructor
  · intro hbad
    cases hbad
  · intro a' ha
    exact Except.ok.inj ha ▸ h

lemma error {e : ε} (h : e ≠ bad) : Avoids bad P (.error e) := by
  constructor
  · intro hbad
    exact h (Except.error.inj hbad)
  · intro a ha
    cases ha

variable {result : Except ε α} {items : List ι}

lemma bind {x : Except ε α} {f : α → Except ε β} (hx : Avoids bad P x)
    (hf : ∀ a, P a → Avoids bad Q (f a)) : Avoids bad Q (x >>= f) := by
  cases x with
  | error => exact error fun h => hx.1 (congrArg _ h)
  | ok a => exact hf a (hx.2 a rfl)

lemma foldlM {P : σ → Prop} {step : σ → ι → Except ε σ}
    (h : ∀ i ∈ items, ∀ s, P s → Avoids bad P (step s i)) {s : σ} (hs : P s) :
    Avoids bad P (items.foldlM step s) := by
  induction items generalizing s with
  | nil => exact ok hs
  | cons _ _ ih =>
    obtain ⟨hi, hr⟩ := List.forall_mem_cons.1 h
    exact (hi s hs).bind fun s₁ hs₁ => ih hr hs₁

end Avoids

end Waros.Lib
