import Mathlib.Data.List.Basic

/-!
Computations that may panic, and computations on a state that may fail. A failure
ends the computation and keeps the changes made before it, as a function does that
returns early.
-/

namespace Waros.Lib

/-- A call returns, or it panics. -/
inductive Outcome (α : Type)
  | returned (value : α)
  | panicked
  deriving DecidableEq

def Outcome.isPanicked {α : Type} : Outcome α → Bool
  | .panicked => true
  | .returned _ => false

lemma Outcome.eq_panicked {α : Type} {outcome : Outcome α} (h : outcome.isPanicked) :
    outcome = .panicked := by
  cases outcome with
  | returned => exact absurd h (by simp [isPanicked])
  | panicked => rfl

/-- A computation takes a state and returns its result and the state it
leaves, also when it fails. -/
def Fallible (σ ε α : Type) : Type := σ → Except ε α × σ

namespace Fallible

variable {σ ε ε' α β : Type}

instance : Monad (Fallible σ ε) where
  pure a := fun s => (.ok a, s)
  bind x f := fun s =>
    match x s with
    | (.ok a, t) => f a t
    | (.error e, t) => (.error e, t)

variable (e : ε) (s : σ) {a : α} {b : β}

def fail : Fallible σ ε α := fun s => (.error e, s)

/-- Computes a value of the state, or fails, and changes nothing. -/
def read (f : σ → Except ε α) : Fallible σ ε α := fun s => (f s, s)

def modify (f : σ → σ) : Fallible σ ε Unit := fun s => (.ok (), f s)

def mapError (f : ε → ε') (x : Fallible σ ε α) : Fallible σ ε' α := fun s =>
  ((x s).1.mapError f, (x s).2)

/-- The steps in order, up to the first that fails. -/
def each : List (Fallible σ ε Unit) → Fallible σ ε Unit
  | [] => pure ()
  | x :: xs => do
    x
    each xs

@[simp] lemma pure_apply (a : α) (s : σ) : (pure a : Fallible σ ε α) s = (.ok a, s) := rfl

@[simp] lemma fail_apply : (fail e : Fallible σ ε α) s = (.error e, s) := rfl

@[simp] lemma read_apply (f : σ → Except ε α) (s : σ) : read f s = (f s, s) := rfl

@[simp] lemma modify_apply (f : σ → σ) (s : σ) :
    (modify f : Fallible σ ε Unit) s = (.ok (), f s) := rfl

variable {x : Fallible σ ε α} {f : α → Fallible σ ε β}

lemma bind_of_ok {s t : σ} (h : x s = (.ok a, t)) : (x >>= f) s = f a t := by
  show (match x s with | (.ok a, t) => f a t | (.error e, t) => (.error e, t)) = _
  rw [h]

lemma bind_of_error {s t : σ} {e : ε} (h : x s = (.error e, t)) : (x >>= f) s = (.error e, t) := by
  show (match x s with | (.ok a, t) => f a t | (.error e, t) => (.error e, t)) = _
  rw [h]

/-- A sequence succeeds exactly when both halves do. -/
lemma bind_eq_ok {s u : σ} :
    (x >>= f) s = (.ok b, u) ↔ ∃ a t, x s = (.ok a, t) ∧ f a t = (.ok b, u) := by
  rcases hx : x s with ⟨e | a, t⟩
  · rw [bind_of_error hx]
    simp
  · rw [bind_of_ok hx]
    simp

lemma snd_bind_pure (x : Fallible σ ε α) (b : β) (s : σ) :
    ((x >>= fun _ => pure b) s).2 = (x s).2 := by
  rcases hx : x s with ⟨e | a, t⟩
  · rw [bind_of_error hx]
  · rw [bind_of_ok hx]
    rfl

lemma read_bind_eq_ok {f : σ → Except ε α} {g : α → Fallible σ ε β} {s t : σ} :
    (read f >>= g) s = (.ok b, t) ↔ ∃ a, f s = .ok a ∧ g a s = (.ok b, t) := by
  rw [bind_eq_ok]
  simp

@[simp] lemma modify_bind (f : σ → σ) (g : Unit → Fallible σ ε β) (s : σ) :
    (modify f >>= g) s = g () (f s) := rfl

@[simp] lemma each_nil : (each [] : Fallible σ ε Unit) s = (.ok (), s) := rfl

lemma each_cons_eq_ok {x : Fallible σ ε Unit} {xs : List (Fallible σ ε Unit)} {s u : σ} :
    each (x :: xs) s = (.ok (), u) ↔ ∃ t, x s = (.ok (), t) ∧ each xs t = (.ok (), u) := by
  show (x >>= fun _ => each xs) s = _ ↔ _
  rw [bind_eq_ok]
  exact ⟨fun ⟨_, t, h⟩ => ⟨t, h⟩, fun ⟨t, h⟩ => ⟨(), t, h⟩⟩

lemma mapError_eq_ok {f : ε → ε'} {s t : σ} : mapError f x s = (.ok a, t) ↔ x s = (.ok a, t) := by
  rcases hx : x s with ⟨e | b, u⟩ <;> simp [mapError, hx, Except.mapError]

lemma mapError_eq_error {f : ε → ε'} {s t : σ} {e' : ε'} :
    mapError f x s = (.error e', t) ↔ ∃ e, x s = (.error e, t) ∧ f e = e' := by
  rcases hx : x s with ⟨e | b, u⟩ <;> simp [mapError, hx, Except.mapError, and_comm]

/-- Whatever the outcome, the state before and the state after are related. -/
def Keeps (R : σ → σ → Prop) (x : Fallible σ ε α) : Prop := ∀ s, R s (x s).2

section
variable {R : σ → σ → Prop}

lemma keeps_pure (hrefl : ∀ s, R s s) (a : α) : Keeps R (pure a : Fallible σ ε α) :=
  fun s => hrefl s

lemma keeps_read (hrefl : ∀ s, R s s) (f : σ → Except ε α) : Keeps R (read f) := fun s => hrefl s

lemma Keeps.bind (htra : ∀ s t u, R s t → R t u → R s u) {x : Fallible σ ε α}
    {f : α → Fallible σ ε β} (hx : Keeps R x) (hf : ∀ a, Keeps R (f a)) : Keeps R (x >>= f) := by
  intro s
  have hs := hx s
  rcases heq : x s with ⟨e | a, t⟩
  · rw [bind_of_error heq]
    rwa [heq] at hs
  · rw [bind_of_ok heq]
    rw [heq] at hs
    exact htra _ _ _ hs (hf a t)

lemma Keeps.each (hrefl : ∀ s, R s s) (htra : ∀ s t u, R s t → R t u → R s u)
    {xs : List (Fallible σ ε Unit)} (h : ∀ x ∈ xs, Keeps R x) : Keeps R (each xs) := by
  induction xs with
  | nil => exact keeps_pure hrefl ()
  | cons x _ ih =>
    exact (h x List.mem_cons_self).bind htra fun _ => ih fun y hy => h y (List.mem_cons_of_mem x hy)

end

/-! ### Pre- and postconditions -/

/-- From `s`, a success ends in a result and a state with `Q`, and a failure
in an error and a state with `E`. -/
def wp (x : Fallible σ ε α) (Q : α → σ → Prop) (E : ε → σ → Prop) (s : σ) : Prop :=
  match x s with
  | (.ok a, t) => Q a t
  | (.error e, t) => E e t

section
variable {Q Q' : α → σ → Prop} {E E' : ε → σ → Prop} {s : σ} {x : Fallible σ ε α} {P : σ → Prop}

lemma wp_iff :
    wp x Q E s ↔ (∀ a t, x s = (.ok a, t) → Q a t) ∧ ∀ e t, x s = (.error e, t) → E e t := by
  rw [wp]
  rcases x s with ⟨e | a, t⟩ <;> simp

lemma wp.ok (h : wp x Q E s) {a : α} {t : σ} (hx : x s = (.ok a, t)) : Q a t :=
  (wp_iff.1 h).1 a t hx

lemma wp.error (h : wp x Q E s) {e : ε} {t : σ} (hx : x s = (.error e, t)) : E e t :=
  (wp_iff.1 h).2 e t hx

lemma wp.mono (h : wp x Q E s) (hQ : ∀ a t, Q a t → Q' a t) (hE : ∀ e t, E e t → E' e t) :
    wp x Q' E' s :=
  wp_iff.2 ⟨fun a t hx => hQ a t (h.ok hx), fun e t hx => hE e t (h.error hx)⟩

@[simp] lemma wp_pure (a : α) : wp (pure a : Fallible σ ε α) Q E s ↔ Q a s := .rfl

@[simp] lemma wp_fail (e : ε) : wp (fail e : Fallible σ ε α) Q E s ↔ E e s := .rfl

@[simp] lemma wp_modify {Q : Unit → σ → Prop} (f : σ → σ) :
    wp (modify f : Fallible σ ε Unit) Q E s ↔ Q () (f s) := .rfl

lemma wp_read {f : σ → Except ε α} (hQ : ∀ a, f s = .ok a → Q a s)
    (hE : ∀ e, f s = .error e → E e s) : wp (read f) Q E s := by
  rw [wp_iff]
  constructor
  · rintro a t h
    obtain ⟨hf, rfl⟩ := Prod.mk.inj h
    exact hQ a hf
  · rintro e t h
    obtain ⟨hf, rfl⟩ := Prod.mk.inj h
    exact hE e hf

@[simp] lemma wp_bind {Q : β → σ → Prop} (x : Fallible σ ε α) (f : α → Fallible σ ε β) :
    wp (x >>= f) Q E s ↔ wp x (fun a t => wp (f a) Q E t) E s := by
  rcases h : x s with ⟨e | a, t⟩
  · simp only [wp, bind_of_error h, h]
  · simp only [wp, bind_of_ok h, h]

/-- What holds of the state that is left, whatever the outcome. -/
lemma wp_of_state (h : P (x s).2) (hQ : ∀ a t, P t → Q a t) (hE : ∀ e t, P t → E e t) :
    wp x Q E s := by
  rw [wp_iff]
  constructor
  · rintro a t hx
    rw [hx] at h
    exact hQ a t h
  · rintro e t hx
    rw [hx] at h
    exact hE e t h

/-- The state that is left, when both outcomes say the same of it. -/
lemma wp.state (h : wp x Q E s) (hQ : ∀ a t, Q a t → P t) (hE : ∀ e t, E e t → P t) :
    P (x s).2 := by
  rcases hx : x s with ⟨e | a, t⟩
  · exact hE e t (h.error hx)
  · exact hQ a t (h.ok hx)

lemma Keeps.wp {R : σ → σ → Prop} (h : Keeps R x) (hQ : ∀ a t, R s t → Q a t)
    (hE : ∀ e t, R s t → E e t) : wp x Q E s :=
  wp_of_state (h s) hQ hE

end

end Fallible

end Waros.Lib
