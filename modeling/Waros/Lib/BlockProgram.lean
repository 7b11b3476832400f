import Waros.Lib.Fallible

/-!
Programs over numbered blocks. A program reads and writes single blocks, may
report an error or panic, and may leave notes about what it does. What its
reads and writes mean is up to a handler, so that one program can be run on a
store, on a cache in front of the store, or stopped between two writes.
-/

namespace Waros.Lib

/-- A program with blocks `β`, errors `ε`, notes `η` and results `α`. -/
inductive BlockProgram (β ε η α : Type)
  | ret (value : α)
  | fail (error : ε)
  | panics
  | read (address : ℕ) (next : β → BlockProgram β ε η α)
  | write (address : ℕ) (block : β) (next : BlockProgram β ε η α)
  | note (event : η) (next : BlockProgram β ε η α)

namespace BlockProgram

variable {β ε η α γ : Type}

protected def bind : BlockProgram β ε η α → (α → BlockProgram β ε η γ) → BlockProgram β ε η γ
  | ret value, f => f value
  | fail error, _ => fail error
  | panics, _ => panics
  | read address next, f => read address fun block => (next block).bind f
  | write address block next, f => write address block (next.bind f)
  | note event next, f => note event (next.bind f)

instance : Monad (BlockProgram β ε η) where
  pure := ret
  bind := .bind

protected lemma bind_assoc {δ : Type} (p : BlockProgram β ε η α) (f : α → BlockProgram β ε η γ)
    (g : γ → BlockProgram β ε η δ) :
    (p.bind f).bind g = p.bind fun value => (f value).bind g := by
  induction p with
  | ret | fail | panics => rfl
  | read a _ ih => exact congrArg (read a) (funext ih)
  | write a b _ ih => exact congrArg (write a b) ih
  | note ev _ ih => exact congrArg (note ev) ih

lemma bind_ret (p : BlockProgram β ε η α) : p.bind ret = p := by
  induction p with
  | ret | fail | panics => rfl
  | read a _ ih => exact congrArg (read a) (funext ih)
  | write a b _ ih => exact congrArg (write a b) ih
  | note ev _ ih => exact congrArg (note ev) ih

instance : LawfulMonad (BlockProgram β ε η) :=
  .mk' (BlockProgram β ε η) bind_ret (fun _ _ => rfl) BlockProgram.bind_assoc

/-- A computation that may fail. -/
def lift : Except ε α → BlockProgram β ε η α
  | .ok value => ret value
  | .error error => fail error

def readBlock (address : ℕ) : BlockProgram β ε η β := read address ret

def writeBlock (address : ℕ) (block : β) : BlockProgram β ε η Unit := write address block (ret ())

def annotate (event : η) : BlockProgram β ε η Unit := note event (ret ())

end BlockProgram

/-- What the reads and writes of a program do to a state. -/
structure BlockHandler (σ β ε : Type) where
  read : σ → ℕ → Except ε β × σ
  write : σ → ℕ → β → Except ε Unit × σ

/-- What an execution does, apart from its reads. -/
inductive BlockEvent (β η : Type)
  | wrote (address : ℕ) (block : β)
  | noted (event : η)

def writesOf {β η : Type} : List (BlockEvent β η) → List (ℕ × β)
  | [] => []
  | .wrote address block :: trace => (address, block) :: writesOf trace
  | .noted _ :: trace => writesOf trace

variable {β η : Type} (t u : List (BlockEvent β η))

lemma writesOf_append : writesOf (t ++ u) = writesOf t ++ writesOf u := by
  induction t with
  | nil => rfl
  | cons ev _ ih => cases ev <;> simp [writesOf, ih]

def notesOf {β η : Type} : List (BlockEvent β η) → List η
  | [] => []
  | .wrote _ _ :: trace => notesOf trace
  | .noted event :: trace => event :: notesOf trace

lemma notesOf_append : notesOf (t ++ u) = notesOf t ++ notesOf u := by
  induction t with
  | nil => rfl
  | cons ev _ ih => cases ev <;> simp [notesOf, ih]

/-- The result of running a program: how it ended, the state it left behind and
the events on the way. -/
structure Execution (σ β ε η α : Type) where
  outcome : Outcome (Except ε α)
  state : σ
  trace : List (BlockEvent β η)

namespace Execution

variable {σ τ β ε η α γ : Type}

/-- A normal end. -/
def ok (value : α) (state : σ) (trace : List (BlockEvent β η)) : Execution σ β ε η α :=
  ⟨.returned (.ok value), state, trace⟩

def error (err : ε) (state : σ) (trace : List (BlockEvent β η)) : Execution σ β ε η α :=
  ⟨.returned (.error err), state, trace⟩

/-- The execution after some events. -/
def after (trace : List (BlockEvent β η)) (e : Execution σ β ε η α) : Execution σ β ε η α :=
  { e with trace := trace ++ e.trace }

protected def bind (e : Execution σ β ε η α) (f : α → σ → Execution σ β ε η γ) :
    Execution σ β ε η γ :=
  match e.outcome with
  | .returned (.ok value) => (f value e.state).after e.trace
  | .returned (.error err) => error err e.state e.trace
  | .panicked => ⟨.panicked, e.state, e.trace⟩

variable (value : α) (s : σ) (t : List (BlockEvent β η)) (e : Execution σ β ε η α)
  (f : α → σ → Execution σ β ε η γ)

@[simp] lemma state_ok : (ok value s t : Execution σ β ε η α).state = s := rfl

@[simp] lemma trace_ok : (ok value s t : Execution σ β ε η α).trace = t := rfl

@[simp] lemma outcome_after : (e.after t).outcome = e.outcome := rfl

@[simp] lemma state_after : (e.after t).state = e.state := rfl

@[simp] lemma after_nil : e.after [] = e := rfl

@[simp] lemma after_ok (t u : List (BlockEvent β η)) (v : α) (s : σ) :
    (ok v s u : Execution σ β ε η α).after t = ok v s (t ++ u) := rfl

@[simp] lemma after_error (t u : List (BlockEvent β η)) (err : ε) (s : σ) :
    (error err s u : Execution σ β ε η α).after t = error err s (t ++ u) := rfl

@[simp] lemma bind_ok : (ok value s t).bind f = (f value s).after t := rfl

/-- When a sequence ends normally, so do its parts. -/
lemma bind_outcome_ok {e : Execution σ β ε η α} {f : α → σ → Execution σ β ε η γ} {res : γ}
    (h : (e.bind f).outcome = .returned (.ok res)) :
    ∃ value, e.outcome = .returned (.ok value) ∧ (f value e.state).outcome = .returned (.ok res) ∧
      (e.bind f).state = (f value e.state).state := by
  obtain ⟨outcome, state, trace⟩ := e
  cases outcome with
  | returned returned =>
    cases returned with
    | ok value => exact ⟨value, rfl, h, rfl⟩
    | error => cases h
  | panicked => cases h

lemma bind_after : (e.after t).bind f = (e.bind f).after t := by
  obtain ⟨o, state, trace⟩ := e
  cases o with
  | returned res =>
    cases res with
    | ok => simp [Execution.bind, after]
    | error => rfl
  | panicked => rfl

/-- The execution did not panic and left only good notes. -/
structure Clean (good : η → Prop) (e : Execution σ β ε η α) : Prop where
  returns : e.outcome ≠ .panicked
  notes : ∀ note ∈ notesOf e.trace, good note

variable {good : η → Prop}

lemma clean_ok {v : α} {s : σ} {t : List (BlockEvent β η)} :
    (ok v s t : Execution σ β ε η α).Clean good ↔ ∀ note ∈ notesOf t, good note :=
  ⟨fun h => h.notes, fun h => ⟨by simp [ok], h⟩⟩

lemma clean_error {err : ε} {s : σ} {t : List (BlockEvent β η)} :
    (error err s t : Execution σ β ε η α).Clean good ↔ ∀ note ∈ notesOf t, good note :=
  ⟨fun h => h.notes, fun h => ⟨by simp [error], h⟩⟩

lemma clean_after {t : List (BlockEvent β η)} {e : Execution σ β ε η α} :
    (e.after t).Clean good ↔ (∀ note ∈ notesOf t, good note) ∧ e.Clean good := by
  constructor
  · rintro ⟨hret, hnot⟩
    rw [after, notesOf_append] at hnot
    exact ⟨fun note hnote => hnot note (by simp [hnote]), hret,
      fun note hnote => hnot note (by simp [hnote])⟩
  · rintro ⟨ht, hret, hnot⟩
    refine ⟨hret, ?_⟩
    intro note hnote
    rw [after, notesOf_append, List.mem_append] at hnote
    exact hnote.elim (ht note) (hnot note)

/-- A sequence is clean when its parts are, as far as they are reached. -/
lemma clean_bind {e : Execution σ β ε η α} {f : α → σ → Execution σ β ε η γ} :
    (e.bind f).Clean good ↔
      e.Clean good ∧ ∀ value, e.outcome = .returned (.ok value) → (f value e.state).Clean good := by
  obtain ⟨outcome, state, trace⟩ := e
  cases outcome with
  | panicked => exact ⟨fun h => absurd rfl h.returns, fun h => absurd rfl h.1.returns⟩
  | returned res =>
    cases res with
    | error =>
      constructor
      · exact fun h => ⟨⟨by simp, h.notes⟩, by simp⟩
      · exact fun h => ⟨by simp [Execution.bind, error], h.1.notes⟩
    | ok value =>
      change ((f value state).after trace).Clean good ↔ _
      rw [clean_after]
      constructor
      · rintro ⟨ht, hclear⟩
        refine ⟨⟨by simp, ht⟩, ?_⟩
        rintro _ ⟨⟩
        exact hclear
      · rintro ⟨he, hf⟩
        exact ⟨he.notes, hf value rfl⟩

end Execution

namespace BlockProgram

variable {σ τ β ε η α γ : Type}

def exec (h : BlockHandler σ β ε) : BlockProgram β ε η α → σ → Execution σ β ε η α
  | ret value, s => .ok value s []
  | fail error, s => .error error s []
  | panics, s => ⟨.panicked, s, []⟩
  | read address next, s =>
    match h.read s address with
    | (.ok block, s) => (next block).exec h s
    | (.error error, s) => .error error s []
  | write address block next, s =>
    match h.write s address block with
    | (.ok (), s) => (next.exec h s).after [.wrote address block]
    | (.error error, s) => .error error s []
  | note event next, s => (next.exec h s).after [.noted event]

variable (h : BlockHandler σ β ε)

lemma exec_bind (p : BlockProgram β ε η α) (f : α → BlockProgram β ε η γ) (s : σ) :
    exec h (p >>= f) s = (exec h p s).bind fun value => exec h (f value) := by
  show exec h (p.bind f) s = _
  induction p generalizing s with
  | ret | fail | panics => rfl
  | read a _ ih =>
    rw [BlockProgram.bind, exec, exec]
    cases hrd : h.read s a with
    | mk res s' =>
      cases res with
      | ok b => exact ih b s'
      | error => rfl
  | write a b _ ih =>
    rw [BlockProgram.bind, exec, exec]
    cases hwr : h.write s a b with
    | mk res =>
      cases res with
      | ok =>
        simp only [ih]
        rw [Execution.bind_after]
      | error => rfl
  | note _ _ ih => rw [BlockProgram.bind, exec, exec, ih, Execution.bind_after]

variable {δ : Type} {f : γ → δ → BlockProgram β ε η γ} {p : BlockProgram β ε η α}

/-- A loop whose body leaves the state alone. -/
lemma exec_foldlM {g : γ → δ → γ} {t : δ → List (BlockEvent β η)} {s : σ} {xs : List δ}
    (hbody : ∀ c, ∀ x ∈ xs, exec h (f c x) s = .ok (g c x) s (t x)) (c : γ) :
    exec h (xs.foldlM f c) s = .ok (xs.foldl g c) s (xs.flatMap t) := by
  induction xs generalizing c with
  | nil => rfl
  | cons x _ ih =>
    rw [List.foldlM_cons, exec_bind, hbody c x (by simp), Execution.bind_ok,
      ih (fun c y hy => hbody c y (by simp [hy])), Execution.after_ok, List.foldl_cons,
      List.flatMap_cons]

def ReadOnly : BlockProgram β ε η α → Prop
  | ret _ => True
  | fail _ => True
  | panics => True
  | read _ next => ∀ block, (next block).ReadOnly
  | write _ _ _ => False
  | note _ next => next.ReadOnly

lemma ReadOnly.bind {f : α → BlockProgram β ε η γ} (hp : p.ReadOnly)
    (hf : ∀ value, (f value).ReadOnly) : (p >>= f).ReadOnly := by
  induction p with
  | ret value => exact hf value
  | fail | panics => exact trivial
  | read _ _ ih => exact fun b => ih b (hp b)
  | write => exact hp.elim
  | note _ _ ih => exact ih hp

lemma readOnly_foldlM (hf : ∀ c x, (f c x).ReadOnly) (xs : List δ) (c : γ) :
    (xs.foldlM f c).ReadOnly := by
  induction xs generalizing c with
  | nil => exact trivial
  | cons x _ ih => exact .bind (hf c x) ih

variable {h}

/-- Such a program leaves the state alone, if reading does. -/
lemma ReadOnly.state_eq (hp : p.ReadOnly) (hrd : ∀ s address, (h.read s address).2 = s)
    (s : σ) : (exec h p s).state = s := by
  induction p with
  | ret | fail | panics => rfl
  | read address _ ih =>
    have hst := hrd s address
    rw [exec]
    cases hres : h.read s address with
    | mk res =>
      rw [hres] at hst
      cases hst
      cases res with
      | ok b => exact ih b (hp b)
      | error => rfl
  | write => exact hp.elim
  | note _ _ ih => exact ih hp

/-- The program neither panics nor leaves notes. -/
def Quiet : BlockProgram β ε η α → Prop
  | ret _ => True
  | fail _ => True
  | panics => False
  | read _ next => ∀ block, (next block).Quiet
  | write _ _ next => next.Quiet
  | note _ _ => False

lemma Quiet.bind {f : α → BlockProgram β ε η γ} (hp : p.Quiet) (hf : ∀ value, (f value).Quiet) :
    (p >>= f).Quiet := by
  induction p with
  | ret value => exact hf value
  | fail => exact trivial
  | panics | note => exact hp.elim
  | read _ _ ih => exact fun b => ih b (hp b)
  | write _ _ _ ih => exact ih hp

lemma quiet_foldlM (hf : ∀ c x, (f c x).Quiet) (xs : List δ) (c : γ) : (xs.foldlM f c).Quiet := by
  induction xs generalizing c with
  | nil => exact trivial
  | cons x _ ih => exact .bind (hf c x) ih

lemma Quiet.clean (hp : p.Quiet) (good : η → Prop) (s : σ) : (exec h p s).Clean good := by
  induction p generalizing s with
  | ret => exact ⟨by simp [exec, Execution.ok], by simp [exec, notesOf]⟩
  | fail => exact ⟨by simp [exec, Execution.error], by simp [exec, Execution.error, notesOf]⟩
  | panics | note => exact hp.elim
  | read a _ ih =>
    rw [exec]
    cases h.read s a with
    | mk res s' =>
      cases res with
      | ok b => exact ih b (hp b) s'
      | error => exact Execution.clean_error.2 (by simp [notesOf])
  | write a b _ ih =>
    rw [exec]
    cases h.write s a b with
    | mk res s' =>
      cases res with
      | ok => exact Execution.clean_after.2 ⟨by simp [notesOf], ih hp s'⟩
      | error => exact Execution.clean_error.2 (by simp [notesOf])

/-- Two handlers that answer alike in related states and keep them related. -/
structure Simulation (h : BlockHandler σ β ε) (k : BlockHandler τ β ε) (R : σ → τ → Prop) :
    Prop where
  read : ∀ s t address, R s t → (h.read s address).1 = (k.read t address).1 ∧
    R (h.read s address).2 (k.read t address).2
  write : ∀ s t address block, R s t → (h.write s address block).1 = (k.write t address block).1 ∧
    R (h.write s address block).2 (k.write t address block).2

/-- A program cannot tell such handlers apart. -/
lemma exec_simulates {k : BlockHandler τ β ε} {R : σ → τ → Prop} (hsim : Simulation h k R)
    (p : BlockProgram β ε η α) {s : σ} {t : τ} (hR : R s t) :
    (exec h p s).outcome = (exec k p t).outcome ∧ (exec h p s).trace = (exec k p t).trace ∧
      R (exec h p s).state (exec k p t).state := by
  induction p generalizing s t with
  | ret | fail | panics => exact ⟨rfl, rfl, hR⟩
  | read a _ ih =>
    obtain ⟨hres, hst⟩ := hsim.read s t a hR
    rw [exec, exec]
    cases hs : h.read s a with
    | mk res =>
      cases ht : k.read t a with
      | mk =>
        rw [hs, ht] at hres hst
        cases hres
        cases res with
        | ok b => exact ih b hst
        | error => exact ⟨rfl, rfl, hst⟩
  | write a b _ ih =>
    obtain ⟨hres, hst⟩ := hsim.write s t a b hR
    rw [exec, exec]
    cases hs : h.write s a b with
    | mk res =>
      cases ht : k.write t a b with
      | mk =>
        rw [hs, ht] at hres hst
        cases hres
        cases res with
        | ok =>
          obtain ⟨hout, htra, hr⟩ := ih hst
          exact ⟨hout, congrArg _ htra, hr⟩
        | error => exact ⟨rfl, rfl, hst⟩
  | note _ _ ih =>
    obtain ⟨hout, htra, hr⟩ := ih hR
    exact ⟨hout, congrArg _ htra, hr⟩

end BlockProgram

end Waros.Lib
