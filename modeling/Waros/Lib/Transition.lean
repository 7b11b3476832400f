import Mathlib.Data.List.Basic

/-!
Runs of a deterministic system: a step function on states and a list of
events. A guard `ok` on the state before a step and on its event singles
out the runs whose steps all meet it; `run_invariant` is the one induction
that every statement about such runs is an instance of.
-/

namespace Waros.Lib

variable {σ ε : Type*} (step : σ → ε → σ)

/-- The state after the events `es`, taken in order from `s`. -/
def run (s : σ) (es : List ε) : σ := es.foldl step s

variable (s : σ) {es : List ε} {p : ε → Prop}

@[simp] lemma run_nil : run step s [] = s := rfl

@[simp] lemma run_cons (e : ε) (es : List ε) :
    run step s (e :: es) = run step (step s e) es := rfl

lemma run_append (es fs : List ε) : run step s (es ++ fs) = run step (run step s es) fs :=
  List.foldl_append

/-- Every step of the run from `s` over `es` meets the guard `ok`. -/
def StepsOk (ok : σ → ε → Prop) : σ → List ε → Prop
  | _, [] => True
  | s, e :: es => ok s e ∧ StepsOk ok (step s e) es

/-- Deciding a guarded run decides each step in turn. -/
def decStepsOk (ok : σ → ε → Prop) [∀ s e, Decidable (ok s e)] :
    (s : σ) → (es : List ε) → Decidable (StepsOk step ok s es)
  | _, [] => .isTrue trivial
  | s, e :: es =>
    have := decStepsOk ok (step s e) es
    inferInstanceAs (Decidable (ok s e ∧ StepsOk step ok (step s e) es))

instance (ok : σ → ε → Prop) [∀ s e, Decidable (ok s e)] (s : σ) (es : List ε) :
    Decidable (StepsOk step ok s es) := decStepsOk step ok s es

variable {step} {ok : σ → ε → Prop} {Inv : σ → Prop}

/-- A property of the initial state that every guarded step keeps holds
after every guarded run. -/
lemma run_invariant (hstp : ∀ s e, Inv s → ok s e → Inv (step s e)) {s : σ} (hs : Inv s)
    (hok : StepsOk step ok s es) : Inv (run step s es) := by
  induction es generalizing s with
  | nil => exact hs
  | cons e _ ih => exact ih (hstp s e hs hok.1) hok.2

/-- A guard on the events alone. -/
lemma stepsOk_of_forall (h : ∀ e ∈ es, p e) (s : σ) : StepsOk step (fun _ e => p e) s es := by
  induction es generalizing s with
  | nil => exact trivial
  | cons e _ ih => exact ⟨h e (by simp), ih (fun e' he' => h e' (by simp [he'])) (step s e)⟩

/-- The steps of a beginning of a guarded run meet the guard too. -/
lemma StepsOk.take {s : σ} (hok : StepsOk step ok s es) (n : ℕ) :
    StepsOk step ok s (es.take n) := by
  induction es generalizing s n with
  | nil => simpa using hok
  | cons _ _ ih =>
    cases n with
    | zero => exact trivial
    | succ n => exact ⟨hok.1, ih hok.2 n⟩

/-- The guard is exactly what a run needs for a property, when it keeps a
stronger one and the property after a step shows that the step met it. -/
lemma forall_run_take_iff_of_keeps {Good : σ → Prop} (hgd : ∀ s, Inv s → Good s)
    (hkp : ∀ s e, Inv s → p e → ok s e → Inv (step s e))
    (hnee : ∀ s e, Inv s → p e → Good (step s e) → ok s e) {s : σ} (hs : Inv s)
    (hes : ∀ e ∈ es, p e) : (∀ n, Good (run step s (es.take n))) ↔ StepsOk step ok s es := by
  induction es generalizing s with
  | nil => simp [StepsOk, hgd s hs]
  | cons e es ih =>
    have he : p e := hes e (by simp)
    have hr : ∀ e' ∈ es, p e' := fun e' he' => hes e' (by simp [he'])
    constructor
    · intro h
      have hok := hnee s e hs he (h 1)
      exact ⟨hok, (ih (hkp s e hs he hok) hr).1 fun n => h (n + 1)⟩
    · rintro ⟨hok, hste⟩ n
      cases n with
      | zero => exact hgd s hs
      | succ n => exact (ih (hkp s e hs he hok) hr).2 hste n

/-- When the guard is what a step needs to keep the property, the property holds
in all states of a run exactly when all steps meet the guard. -/
lemma forall_run_take_iff {p : ε → Prop}
    (hstp : ∀ s e, Inv s → p e → (Inv (step s e) ↔ ok s e)) {s : σ} {es : List ε} (hs : Inv s)
    (hes : ∀ e ∈ es, p e) : (∀ n, Inv (run step s (es.take n))) ↔ StepsOk step ok s es :=
  forall_run_take_iff_of_keeps (fun _ h => h) (fun s e h he hok => (hstp s e h he).2 hok)
    (fun s e h he hnx => (hstp s e h he).1 hnx) hs hes

/-- The same without a guard. -/
lemma run_invariant_of_step (hstp : ∀ s e, Inv s → Inv (step s e))
    {s : σ} (es : List ε) (hs : Inv s) : Inv (run step s es) := by
  induction es generalizing s with
  | nil => exact hs
  | cons e _ ih => exact ih (hstp s e hs)

/-- Two systems that take the same events stay related. -/
lemma run_simulates {τ : Type*} {step' : τ → ε → τ} {R : σ → τ → Prop}
    (hstp : ∀ s t e, R s t → p e → R (step s e) (step' t e)) {s : σ} {t : τ} (hR : R s t)
    (hes : ∀ e ∈ es, p e) : R (run step s es) (run step' t es) := by
  induction es generalizing s t with
  | nil => exact hR
  | cons e _ ih => exact ih (hstp s t e hR (hes e (by simp))) fun e' he' => hes e' (by simp [he'])

/-- A preorder that every step follows relates the beginning of a run to its
end. -/
lemma run_related {R : σ → σ → Prop} (hrefl : ∀ s, R s s)
    (htra : ∀ {s t u}, R s t → R t u → R s u) (hstp : ∀ s e, R s (step s e)) (s : σ)
    (es : List ε) : R s (run step s es) := by
  induction es generalizing s with
  | nil => exact hrefl s
  | cons e _ ih => exact htra (hstp s e) (ih (step s e))

end Waros.Lib
