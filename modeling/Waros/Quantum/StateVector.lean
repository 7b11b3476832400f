import Waros.Lib.InPlace
import Waros.Quantum.Gate

/-!
Gates on state vectors (`crates/waros-quantum/src/simulator/statevector.rs`).
The loops work in place on chunks of the state. A panic is `none`: an index out
of range, a chunk size of zero, or a gate width that is not supported.

The state is kept as one vector of amplitudes or as two vectors of their real
and imaginary parts. With `parallel`, the chunks are worked on by several
threads; that run is a relation, which allows every interleaving of the rounds
of the chunks. The machine words have `w` bits.
-/

namespace Waros.Quantum

open Lib

/-- `a << k` in a word of `w` bits, without overflow checks: the shift distance
is taken modulo `w`. -/
def shl (w a k : ℕ) : ℕ := a * 2 ^ (k % w) % 2 ^ w

/-- `a >> k` in a word of `w` bits. -/
def shr (w a k : ℕ) : ℕ := a / 2 ^ (k % w)

/-- The cells from `start` on of an array, as a slice of their own. -/
structure Chunk where
  start : ℕ
  len : ℕ

section
variable {α : Type}

def Chunk.get (chunk : Chunk) (cells : List α) (i : ℕ) : Option α :=
  if i < chunk.len then cells[chunk.start + i]? else none

def Chunk.set (chunk : Chunk) (cells : List α) (i : ℕ) (value : α) : Option (List α) :=
  if i < chunk.len then some (cells.set (chunk.start + i) value) else none

end

/-- `chunks_exact_mut`; what is left at the end is in no chunk. -/
def chunksExactMut (size len : ℕ) : Option (List Chunk) :=
  if size = 0 then none else some ((List.range (len / size)).map fun k => ⟨k * size, size⟩)

variable {F : Type} [Add F] [Sub F] [Mul F]

variable (mask : ℕ) (chunk : Chunk) (mask₀ mask₁ : ℕ)

def apply1qRound (gate : Gate F) (chunk : Chunk) (base : ℕ) (state : List (Complex F)) :
    Option (List (Complex F)) := do
  let pairIndex := base ||| mask
  let amplitudeZero ← chunk.get state base
  let amplitudeOne ← chunk.get state pairIndex
  let state ← chunk.set state base
    ((← gate.get 0 0) * amplitudeZero + (← gate.get 0 1) * amplitudeOne)
  chunk.set state pairIndex
    ((← gate.get 1 0) * amplitudeZero + (← gate.get 1 1) * amplitudeOne)

/-- The rounds of `apply_1q_block`: one for every `base` below the mask. -/
def bases1q : List ℕ := .range mask

def rowOf2q (gate : Gate F) (row : ℕ) (a₀ a₁ a₂ a₃ : Complex F) : Option (Complex F) := do
  return (← gate.get row 0) * a₀ + (← gate.get row 1) * a₁ + (← gate.get row 2) * a₂ +
    (← gate.get row 3) * a₃

def apply2qRound (gate : Gate F) (chunk : Chunk) (base : ℕ) (state : List (Complex F)) :
    Option (List (Complex F)) := do
  let a₀ ← chunk.get state base
  let a₁ ← chunk.get state (base ||| mask₁)
  let a₂ ← chunk.get state (base ||| mask₀)
  let a₃ ← chunk.get state (base ||| mask₀ ||| mask₁)
  let state ← chunk.set state base (← rowOf2q gate 0 a₀ a₁ a₂ a₃)
  let state ← chunk.set state (base ||| mask₁) (← rowOf2q gate 1 a₀ a₁ a₂ a₃)
  let state ← chunk.set state (base ||| mask₀) (← rowOf2q gate 2 a₀ a₁ a₂ a₃)
  chunk.set state (base ||| mask₀ ||| mask₁) (← rowOf2q gate 3 a₀ a₁ a₂ a₃)

/-- The rounds of `apply_2q_block`: a `base` with one of the bits set is
skipped. -/
def bases2q (mask₀ mask₁ len : ℕ) : List ℕ :=
  (List.range len).filter fun base => base &&& mask₀ = 0 ∧ base &&& mask₁ = 0

structure StateVectorSoA (F : Type) where
  real : List F
  imag : List F

namespace StateVectorSoA

def intoAos (state : StateVectorSoA F) : List (Complex F) := .zipWith .mk state.real state.imag

/-- The parts of a vector of amplitudes. -/
def ofAos (state : List (Complex F)) : StateVectorSoA F :=
  ⟨state.map Complex.re, state.map Complex.im⟩

end StateVectorSoA

def mulComplexPair (lhs : Complex F) (rhs : F × F) : F × F :=
  (lhs.re * rhs.1 - lhs.im * rhs.2, lhs.re * rhs.2 + lhs.im * rhs.1)

def addComplexPairs (lhs rhs : F × F) : F × F := (lhs.1 + rhs.1, lhs.2 + rhs.2)

/-- The two parts of an amplitude. -/
def Chunk.getPair (state : StateVectorSoA F) (i : ℕ) : Option (F × F) := do
  return (← chunk.get state.real i, ← chunk.get state.imag i)

def Chunk.setPair (state : StateVectorSoA F) (i : ℕ) (value : F × F) :
    Option (StateVectorSoA F) := do
  return ⟨← chunk.set state.real i value.1, ← chunk.set state.imag i value.2⟩

def apply1qRoundSoA (gate : Gate F) (chunk : Chunk) (base : ℕ) (state : StateVectorSoA F) :
    Option (StateVectorSoA F) := do
  let m₀₀ ← gate.get 0 0
  let m₀₁ ← gate.get 0 1
  let m₁₀ ← gate.get 1 0
  let m₁₁ ← gate.get 1 1
  let pairIndex := base ||| mask
  let amplitudeZero ← chunk.getPair state base
  let amplitudeOne ← chunk.getPair state pairIndex
  let state ← chunk.setPair state base
    (addComplexPairs (mulComplexPair m₀₀ amplitudeZero) (mulComplexPair m₀₁ amplitudeOne))
  chunk.setPair state pairIndex
    (addComplexPairs (mulComplexPair m₁₀ amplitudeZero) (mulComplexPair m₁₁ amplitudeOne))

/-- The value that `apply_2q_block_soa` stores in a row; the four products are
added in pairs. -/
def rowOf2qSoA (gate : Gate F) (row : ℕ) (a₀ a₁ a₂ a₃ : F × F) : Option (F × F) := do
  return addComplexPairs
    (addComplexPairs (mulComplexPair (← gate.get row 0) a₀) (mulComplexPair (← gate.get row 1) a₁))
    (addComplexPairs (mulComplexPair (← gate.get row 2) a₂) (mulComplexPair (← gate.get row 3) a₃))

def apply2qRoundSoA (gate : Gate F) (chunk : Chunk) (base : ℕ) (state : StateVectorSoA F) :
    Option (StateVectorSoA F) := do
  let a₀ ← chunk.getPair state base
  let a₁ ← chunk.getPair state (base ||| mask₁)
  let a₂ ← chunk.getPair state (base ||| mask₀)
  let a₃ ← chunk.getPair state (base ||| mask₀ ||| mask₁)
  let state ← chunk.setPair state base (← rowOf2qSoA gate 0 a₀ a₁ a₂ a₃)
  let state ← chunk.setPair state (base ||| mask₁) (← rowOf2qSoA gate 1 a₀ a₁ a₂ a₃)
  let state ← chunk.setPair state (base ||| mask₀) (← rowOf2qSoA gate 2 a₀ a₁ a₂ a₃)
  chunk.setPair state (base ||| mask₀ ||| mask₁) (← rowOf2qSoA gate 3 a₀ a₁ a₂ a₃)

/-! ### The loops over the chunks -/

section
variable {σ : Type}

/-- The rounds of one chunk. -/
def applyBlock (round : Chunk → ℕ → σ → Option σ) (bases : List ℕ) (state : σ) (chunk : Chunk) :
    Option σ :=
  bases.foldlM (fun state base => round chunk base state) state

/-- A loop over `chunks_exact_mut`, one chunk after the other. -/
def forChunks (size len : ℕ) (round : Chunk → ℕ → σ → Option σ) (bases : List ℕ) (state : σ) :
    Option σ := do
  (← chunksExactMut size len).foldlM (applyBlock round bases) state

/-- A loop over `par_chunks_exact_mut`: the chunks are shared out among threads. -/
def ParForChunks (size len : ℕ) (round : Chunk → ℕ → σ → Option σ) (bases : List ℕ) (state : σ)
    (result : Option σ) : Prop :=
  match chunksExactMut size len with
  | none => result = none
  | some chunks =>
    ∃ order, Interleaves (chunks.map fun chunk => bases.map (Prod.mk chunk)) order ∧
      order.foldlM (fun state entry => round entry.1 entry.2 state) state = result

end

variable (w : ℕ) (state : List (Complex F)) (target : ℕ) (gate : Gate F) (q₀ q₁ : ℕ)

def apply1q : Option (List (Complex F)) :=
  let mask := shl w 1 target
  forChunks (shl w mask 1) state.length (apply1qRound mask gate) (bases1q mask) state

def Apply1qParallel : Option (List (Complex F)) → Prop :=
  let mask := shl w 1 target
  ParForChunks (shl w mask 1) state.length (apply1qRound mask gate) (bases1q mask) state

def apply2q (gate : Gate F) : Option (List (Complex F)) :=
  let blockSize := shl w 1 (max q₀ q₁ + 1)
  forChunks blockSize state.length (apply2qRound (shl w 1 q₀) (shl w 1 q₁) gate)
    (bases2q (shl w 1 q₀) (shl w 1 q₁) blockSize) state

def Apply2qParallel (gate : Gate F) : Option (List (Complex F)) → Prop :=
  let blockSize := shl w 1 (max q₀ q₁ + 1)
  ParForChunks blockSize state.length (apply2qRound (shl w 1 q₀) (shl w 1 q₁) gate)
    (bases2q (shl w 1 q₀) (shl w 1 q₁) blockSize) state

/-- The number of amplitudes that both vectors have a part of. -/
def StateVectorSoA.length (state : StateVectorSoA F) : ℕ := min state.real.length state.imag.length

def apply1qSoA (state : StateVectorSoA F) (target : ℕ) (gate : Gate F) :
    Option (StateVectorSoA F) :=
  let mask := shl w 1 target
  forChunks (shl w mask 1) state.length (apply1qRoundSoA mask gate) (bases1q mask) state

def Apply1qSoAParallel (state : StateVectorSoA F) (target : ℕ) (gate : Gate F) :
    Option (StateVectorSoA F) → Prop :=
  let mask := shl w 1 target
  ParForChunks (shl w mask 1) state.length (apply1qRoundSoA mask gate) (bases1q mask) state

def apply2qSoA (state : StateVectorSoA F) (q₀ q₁ : ℕ) (gate : Gate F) :
    Option (StateVectorSoA F) :=
  let blockSize := shl w 1 (max q₀ q₁ + 1)
  forChunks blockSize state.length (apply2qRoundSoA (shl w 1 q₀) (shl w 1 q₁) gate)
    (bases2q (shl w 1 q₀) (shl w 1 q₁) blockSize) state

def Apply2qSoAParallel (state : StateVectorSoA F) (q₀ q₁ : ℕ) (gate : Gate F) :
    Option (StateVectorSoA F) → Prop :=
  let blockSize := shl w 1 (max q₀ q₁ + 1)
  ParForChunks blockSize state.length (apply2qRoundSoA (shl w 1 q₀) (shl w 1 q₁) gate)
    (bases2q (shl w 1 q₀) (shl w 1 q₁) blockSize) state

end Waros.Quantum
