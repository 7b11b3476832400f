import Waros.Lib.InverseSampling
import Waros.Lib.Avoids
import Waros.Quantum.Circuit
import Waros.Quantum.GateAction

/-!
Runs of a circuit on the state-vector backend without noise
(`crates/waros-quantum/src/simulator`). A circuit that measures at its end only
is evolved once and then sampled; any other circuit is run shot by shot. Gates
are applied one chunk after the other; the parallel loops end with the same
state.
-/

namespace Waros.Quantum

open Lib FloatOps

inductive StateVectorLayout
  | aos
  | soa

structure QuantumResult where
  counts : List (Str × ℕ)
  totalShots : ℕ

/-- The generator, with the numbers it returns and how many are taken. -/
structure StdRng (F : Type) where
  draws : ℕ → F
  taken : ℕ

def StdRng.gen {F : Type} (rng : StdRng F) : F × StdRng F :=
  (rng.draws rng.taken, { rng with taken := rng.taken + 1 })

/-- The circuit has a measurement before a gate, or a gate that depends on
classical bits. -/
def hasMidCircuitMeasurement {F : Type} : Bool → List (Instruction F) → Bool
  | _, [] => false
  | _, .measure _ _ :: instructions => hasMidCircuitMeasurement true instructions
  | _, .conditionalGate _ _ _ _ :: _ => true
  | sawMeasurement, .gateOp _ _ :: instructions =>
    sawMeasurement || hasMidCircuitMeasurement sawMeasurement instructions
  | sawMeasurement, .barrier _ :: instructions =>
    hasMidCircuitMeasurement sawMeasurement instructions

def measuredQubits {F : Type} (instructions : List (Instruction F)) : List ℕ :=
  instructions.filterMap fun
    | .measure qubit _ => some qubit
    | .gateOp _ _ | .conditionalGate _ _ _ _ | .barrier _ => none

/-- `*counts.entry(key).or_insert(0) += 1`. -/
def countKey (key : Str) : List (Str × ℕ) → List (Str × ℕ)
  | [] => [(key, 1)]
  | entry :: counts =>
    if entry.1 == key then (entry.1, entry.2 + 1) :: counts else entry :: countKey key counts

section
variable {F : Type} [FloatOps F] (w : ℕ)

/-! ### States -/

variable (reserve : ℕ → Bool) (numQubits : ℕ) (state : List (Complex F))
  (layout : StateVectorLayout) (circuit : Circuit F) (qubit : ℕ)

/-- `reserve` says whether there is memory for that many elements. -/
def zeroState : Except WarosError (List (Complex F)) :=
  let dim := shl w 1 numQubits
  if reserve dim then .ok ((List.replicate dim 0).set 0 1)
  else .error (.insufficientMemory numQubits (dim * 16 % 2 ^ w))

def zeroStateSoa : Except WarosError (StateVectorSoA F) :=
  let dim := shl w 1 numQubits
  if reserve dim then .ok ⟨(List.replicate dim 0).set 0 1, .replicate dim 0⟩
  else .error (.insufficientMemory numQubits (dim * 16 % 2 ^ w))

def applyGate (targets : List ℕ) (gate : Gate F) : Option (List (Complex F)) :=
  match gate.numQubits, targets with
  | 1, q₀ :: _ => apply1q w state q₀ gate
  | 2, q₀ :: q₁ :: _ => apply2q w state q₀ q₁ gate
  | _, _ => none

def applyGateSoa (state : StateVectorSoA F) (targets : List ℕ) (gate : Gate F) :
    Option (StateVectorSoA F) :=
  match gate.numQubits, targets with
  | 1, q₀ :: _ => apply1qSoA w state q₀ gate
  | 2, q₀ :: q₁ :: _ => apply2qSoA w state q₀ q₁ gate
  | _, _ => none

def applySequence {σ : Type} (apply : σ → List ℕ → Gate F → Option σ) (state : σ) :
    List (Instruction F) → Option σ
  | [] => some state
  | .gateOp gate targets :: instructions => do
    applySequence apply (← apply state targets gate) instructions
  | .conditionalGate _ _ _ _ :: instructions => applySequence apply state instructions
  | .measure _ _ :: instructions => applySequence apply state instructions
  | .barrier _ :: instructions => applySequence apply state instructions

def StateVectorSoA.probabilities (state : StateVectorSoA F) : List F :=
  .zipWith (fun re im => re * re + im * im) state.real state.imag

/-- The probabilities of the basis states after the gates of the circuit. -/
def finalProbabilities (reserve : ℕ → Bool) (circuit : Circuit F) : Except Stop (List F) :=
  match layout with
  | .aos =>
    match zeroState w reserve circuit.numQubits with
    | .error e => .error (.error e)
    | .ok state =>
      match applySequence (applyGate w) state circuit.instructions with
      | none => .error .panicked
      | some state => .ok (state.map Complex.normSq)
  | .soa =>
    match zeroStateSoa w reserve circuit.numQubits with
    | .error e => .error (.error e)
    | .ok state =>
      match applySequence (applyGateSoa w) state circuit.instructions with
      | none => .error .panicked
      | some state => .ok state.probabilities

def sample (probabilities : List F) (rng : StdRng F) : ℕ × StdRng F :=
  ((firstExceeding lt rng.gen.1 0 0 probabilities).getD (probabilities.length - 1), rng.gen.2)

def bitChar (bit : Bool) : Char := if bit then '1' else '0'

/-- The bits of a sampled index that are measured, or all of them. -/
def sampleKey (measured : List ℕ) (index : ℕ) : Str :=
  (if measured.isEmpty then .range numQubits else measured).map fun qubit =>
    bitChar (decide (shr w index qubit &&& 1 = 1))

/-- The loop over the shots that are left. -/
def sampleShots (numQubits : ℕ) (measured : List ℕ) (probabilities : List F) :
    ℕ → StdRng F → List (Str × ℕ) → List (Str × ℕ)
  | 0, _, counts => counts
  | shots + 1, rng, counts =>
    sampleShots numQubits measured probabilities shots (sample probabilities rng).2
      (countKey (sampleKey w numQubits measured (sample probabilities rng).1) counts)

def runSampleMode (reserve : ℕ → Bool) (circuit : Circuit F) (shots : ℕ) (rng : StdRng F) :
    Except Stop QuantumResult :=
  match finalProbabilities w layout reserve circuit with
  | .error stop => .error stop
  | .ok probabilities => .ok ⟨sampleShots w circuit.numQubits
      (measuredQubits circuit.instructions) probabilities shots rng [], shots⟩

/-! ### Shots -/

def probabilityOne : F :=
  ((state.zipIdx.filter fun entry => decide (entry.2 &&& shl w 1 qubit ≠ 0)).map
    fun entry => entry.1.normSq).foldl (· + ·) 0

def probabilityZero : F := 1 - probabilityOne w state qubit

def clampUnit (a : F) : F :=
  if lt a 0 then 0 else if lt 1 a then 1 else a

/-- Returns the outcome and the collapsed state. -/
def measureQubit (rng : StdRng F) : Except WarosError (Bool × List (Complex F)) × StdRng F :=
  let probabilityZero := clampUnit (probabilityZero w state qubit)
  let outcome := le probabilityZero rng.gen.1
  let keptProbability := if outcome then 1 - probabilityZero else probabilityZero
  if le keptProbability (lit (1 / 1000000000000000)) then
    (.error (.numericalInstability "collapsing a near-zero measurement branch".toList), rng.gen.2)
  else
    let scale := 1 / sqrt keptProbability
    (.ok (outcome, state.zipIdx.map fun entry =>
      if decide (entry.2 &&& shl w 1 qubit ≠ 0) == outcome then
        ⟨entry.1.re * scale, entry.1.im * scale⟩
      else 0), rng.gen.2)

/-- Panics where a bit is missing. -/
def readClassicalRegister (register : List ℕ) (classicalBits : List Bool) : Option ℕ :=
  register.zipIdx.foldlM (fun value entry => do
    return value ||| shl w (← classicalBits[entry.1]?).toNat entry.2) 0

structure Shot (F : Type) where
  state : List (Complex F)
  classicalBits : List Bool
  rng : StdRng F

def shotStep (s : Shot F) : Instruction F → Except Stop (Shot F)
  | .gateOp gate targets =>
    match applyGate w s.state targets gate with
    | none => .error .panicked
    | some state => .ok { s with state }
  | .conditionalGate register value gate targets =>
    match readClassicalRegister w register s.classicalBits with
    | none => .error .panicked
    | some current =>
      if current = value then
        match applyGate w s.state targets gate with
        | none => .error .panicked
        | some state => .ok { s with state }
      else .ok s
  | .measure qubit classicalBit =>
    match measureQubit w s.state qubit s.rng with
    | (.error e, _) => .error (.error e)
    | (.ok (outcome, state), rng) =>
      if s.classicalBits.length ≤ classicalBit then .error .panicked
      else .ok ⟨state, s.classicalBits.set classicalBit outcome, rng⟩
  | .barrier _ => .ok s

/-- Returns the string of the classical bits and the generator. -/
def runSingleShot (rng : StdRng F) : Except Stop (Str × StdRng F) :=
  match zeroState w reserve circuit.numQubits with
  | .error e => .error (.error e)
  | .ok state => do
    let s ← circuit.instructions.foldlM (shotStep w)
      ⟨state, .replicate circuit.numClassicalBits false, rng⟩
    return (s.classicalBits.map bitChar, s.rng)

def shotLoop (reserve : ℕ → Bool) (circuit : Circuit F) :
    ℕ → StdRng F → List (Str × ℕ) → Except Stop (List (Str × ℕ))
  | 0, _, counts => .ok counts
  | shots + 1, rng, counts => do
    let (key, rng) ← runSingleShot w reserve circuit rng
    shotLoop reserve circuit shots rng (countKey key counts)

def runShotMode (shots : ℕ) (rng : StdRng F) :
    Except Stop QuantumResult := do
  return ⟨← shotLoop w reserve circuit shots rng [], shots⟩

def StateVectorBackend.run (reserve : ℕ → Bool) (circuit : Circuit F) (shots : ℕ) (rng : StdRng F) :
    Except Stop QuantumResult :=
  if shots = 0 then .error (.error (.invalidShots shots))
  else if hasMidCircuitMeasurement false circuit.instructions then
    runShotMode w reserve circuit shots rng
  else runSampleMode w layout reserve circuit shots rng

def StateVectorBackend.statevector (layout : StateVectorLayout) (reserve : ℕ → Bool)
    (circuit : Circuit F) : Except Stop (List (Complex F)) :=
  if hasMidCircuitMeasurement false circuit.instructions then
    .error (.error (.simulationError
      "statevector is unavailable for circuits with mid-circuit measurements".toList))
  else
    match layout with
    | .aos =>
      match zeroState w reserve circuit.numQubits with
      | .error e => .error (.error e)
      | .ok state =>
        match applySequence (applyGate w) state circuit.instructions with
        | none => .error .panicked
        | some state => .ok state
    | .soa =>
      match zeroStateSoa w reserve circuit.numQubits with
      | .error e => .error (.error e)
      | .ok state =>
        match applySequence (applyGateSoa w) state circuit.instructions with
        | none => .error .panicked
        | some state => .ok state.intoAos

end

/-!
## Safety of the simulator

A well-formed circuit with fewer qubits than a machine word has bits never makes
the state-vector simulator panic: every chunk, every gate width and every
classical bit is in range, whatever the numbers are.
-/

open Chunk StateVectorBackend List Nat
open Option (bind_eq_bind bind_some)

section
variable {α : Type} {chunk : Chunk} {cells : List α} {len i : ℕ}

lemma Chunk.get_of_lt (hlen : cells.length = len) (hch : chunk.start + chunk.len ≤ len)
    (hi : i < chunk.len) : ∃ a, chunk.get cells i = some a := by
  have hcell : chunk.start + i < cells.length := by omega
  exact ⟨cells[chunk.start + i], by rw [get, if_pos hi, getElem?_eq_getElem]⟩

lemma Chunk.set_of_lt (hlen : cells.length = len) (hi : i < chunk.len) (v : α) :
    ∃ cells', chunk.set cells i v = some cells' ∧ cells'.length = len :=
  ⟨cells.set (chunk.start + i) v, by rw [set, if_pos hi], by simpa using hlen⟩

end

variable {len size : ℕ}

lemma mem_chunksExactMut {cs : List Chunk}
    (h : chunksExactMut size len = some cs) {ch : Chunk} (hmem : ch ∈ cs) :
    ch.len = size ∧ ch.start + ch.len ≤ len := by
  rw [chunksExactMut] at h
  split_ifs at h
  cases h
  obtain ⟨k, hk, rfl⟩ := mem_map.1 hmem
  refine ⟨rfl, ?_⟩
  calc k * size + size = (k + 1) * size := (succ_mul k size).symm
    _ ≤ len / size * size := mul_le_mul_right _ (mem_range.1 hk)
    _ ≤ len := div_mul_le_self len size

/-- A loop over the chunks goes through when its rounds do. -/
lemma forChunks_goesThrough {σ : Type} {P : σ → Prop} (hsz : size ≠ 0)
    {rd : Chunk → ℕ → σ → Option σ} {bases : List ℕ}
    (h : ∀ chunk : Chunk, chunk.len = size → chunk.start + chunk.len ≤ len → ∀ b ∈ bases,
      GoesThrough P (rd chunk b)) : GoesThrough P (forChunks size len rd bases) := by
  obtain ⟨chunks, hchunk⟩ : ∃ chunks, chunksExactMut size len = some chunks := ⟨_, if_neg hsz⟩
  have hlp : GoesThrough P (chunks.foldlM (applyBlock rd bases)) :=
    .foldlM fun chunk hmem => .foldlM fun b hb =>
      h chunk (mem_chunksExactMut hchunk hmem).1 (mem_chunksExactMut hchunk hmem).2 b hb
  intro s hs
  rw [forChunks, hchunk]
  exact hlp s hs

section
variable {F : Type} [FloatOps F] {gate : Gate F} {chunk : Chunk} {len b : ℕ} {mask row i : ℕ}

lemma apply1qRound_goesThrough (hg : gate.OnQubits 1)
    (hch : chunk.start + chunk.len ≤ len) (hb : b < chunk.len) (hpair : b ||| mask < chunk.len) :
    GoesThrough (·.length = len) (apply1qRound mask gate chunk b) := by
  intro state hlen
  obtain ⟨a₀, h₀⟩ := get_of_lt hlen hch hb
  obtain ⟨a₁, h₁⟩ := get_of_lt hlen hch hpair
  simp only [apply1qRound, h₀, h₁, hg.get_eq, pow_one, zero_lt_two, one_lt_two,
    bind_eq_bind, bind_some]
  obtain ⟨state₁, hset, hlen₁⟩ := set_of_lt hlen hb
    (gate.entry 0 0 * a₀ + gate.entry 0 1 * a₁)
  rw [hset]
  exact set_of_lt hlen₁ hpair _

lemma rowOf2q_eq (hg : gate.OnQubits 2) (hrow : row < 4) (a₀ a₁ a₂ a₃ : Complex F) :
    ∃ a, rowOf2q gate row a₀ a₁ a₂ a₃ = some a := by
  simp [rowOf2q, hg.get_eq, hrow]

variable {mask₀ mask₁ : ℕ} {state : StateVectorSoA F}

lemma apply2qRound_goesThrough (hg : gate.OnQubits 2)
    (hch : chunk.start + chunk.len ≤ len) (hb : b < chunk.len) (hb₁ : b ||| mask₁ < chunk.len)
    (hb₀ : b ||| mask₀ < chunk.len) (hboth : b ||| mask₀ ||| mask₁ < chunk.len) :
    GoesThrough (·.length = len) (apply2qRound mask₀ mask₁ gate chunk b) := by
  intro state hlen
  obtain ⟨a₀, h₀⟩ := get_of_lt hlen hch hb
  obtain ⟨a₁, h₁⟩ := get_of_lt hlen hch hb₁
  obtain ⟨a₂, h₂⟩ := get_of_lt hlen hch hb₀
  obtain ⟨a₃, h₃⟩ := get_of_lt hlen hch hboth
  obtain ⟨r₀, hr₀⟩ := rowOf2q_eq hg (show 0 < 4 by decide) a₀ a₁ a₂ a₃
  obtain ⟨r₁, hr₁⟩ := rowOf2q_eq hg (show 1 < 4 by decide) a₀ a₁ a₂ a₃
  obtain ⟨r₂, hr₂⟩ := rowOf2q_eq hg (show 2 < 4 by decide) a₀ a₁ a₂ a₃
  obtain ⟨r₃, hr₃⟩ := rowOf2q_eq hg (show 3 < 4 by decide) a₀ a₁ a₂ a₃
  obtain ⟨s₀, hs₀, hl₀⟩ := set_of_lt hlen hb r₀
  obtain ⟨s₁, hs₁, hl₁⟩ := set_of_lt hl₀ hb₁ r₁
  obtain ⟨s₂, hs₂, hl₂⟩ := set_of_lt hl₁ hb₀ r₂
  simp only [apply2qRound, h₀, h₁, h₂, h₃, hr₀, hr₁, hr₂, hr₃, hs₀, hs₁, hs₂, bind_eq_bind,
    bind_some]
  exact set_of_lt hl₂ hboth r₃

def StateVectorSoA.HasLength (len : ℕ) (state : StateVectorSoA F) : Prop :=
  state.real.length = len ∧ state.imag.length = len

omit [FloatOps F] in
lemma Chunk.getPair_of_lt (h : state.HasLength len) (hch : chunk.start + chunk.len ≤ len)
    (hi : i < chunk.len) : ∃ a, chunk.getPair state i = some a := by
  obtain ⟨re, hre⟩ := get_of_lt h.1 hch hi
  obtain ⟨im, him⟩ := get_of_lt h.2 hch hi
  exact ⟨(re, im), by rw [getPair, hre, him]; rfl⟩

omit [FloatOps F] in
lemma Chunk.setPair_of_lt (h : state.HasLength len) (hi : i < chunk.len) (value : F × F) :
    ∃ state', chunk.setPair state i value = some state' ∧ state'.HasLength len := by
  obtain ⟨re, hre, hlre⟩ := set_of_lt h.1 hi value.1
  obtain ⟨im, him, hlim⟩ := set_of_lt h.2 hi value.2
  exact ⟨⟨re, im⟩, by rw [setPair, hre, him]; rfl, hlre, hlim⟩

lemma apply1qRoundSoA_goesThrough (hg : gate.OnQubits 1)
    (hch : chunk.start + chunk.len ≤ len) (hb : b < chunk.len) (hpair : b ||| mask < chunk.len) :
    GoesThrough (StateVectorSoA.HasLength len) (apply1qRoundSoA mask gate chunk b) := by
  intro state hlen
  obtain ⟨a₀, h₀⟩ := getPair_of_lt hlen hch hb
  obtain ⟨a₁, h₁⟩ := getPair_of_lt hlen hch hpair
  simp only [apply1qRoundSoA, h₀, h₁, hg.get_eq, pow_one, zero_lt_two, one_lt_two,
    bind_eq_bind, bind_some]
  obtain ⟨state₁, hset, hlen₁⟩ := setPair_of_lt hlen hb
    (addComplexPairs (mulComplexPair (gate.entry 0 0) a₀) (mulComplexPair (gate.entry 0 1) a₁))
  rw [hset]
  exact setPair_of_lt hlen₁ hpair _

lemma rowOf2qSoA_eq (hg : gate.OnQubits 2) (hrow : row < 4) (a₀ a₁ a₂ a₃ : F × F) :
    ∃ a, rowOf2qSoA gate row a₀ a₁ a₂ a₃ = some a := by
  simp [rowOf2qSoA, hg.get_eq, hrow]

lemma apply2qRoundSoA_goesThrough (hg : gate.OnQubits 2)
    (hch : chunk.start + chunk.len ≤ len) (hb : b < chunk.len) (hb₁ : b ||| mask₁ < chunk.len)
    (hb₀ : b ||| mask₀ < chunk.len) (hboth : b ||| mask₀ ||| mask₁ < chunk.len) :
    GoesThrough (StateVectorSoA.HasLength len) (apply2qRoundSoA mask₀ mask₁ gate chunk b) := by
  intro state hlen
  obtain ⟨a₀, h₀⟩ := getPair_of_lt hlen hch hb
  obtain ⟨a₁, h₁⟩ := getPair_of_lt hlen hch hb₁
  obtain ⟨a₂, h₂⟩ := getPair_of_lt hlen hch hb₀
  obtain ⟨a₃, h₃⟩ := getPair_of_lt hlen hch hboth
  obtain ⟨r₀, hr₀⟩ := rowOf2qSoA_eq hg (show 0 < 4 by decide) a₀ a₁ a₂ a₃
  obtain ⟨r₁, hr₁⟩ := rowOf2qSoA_eq hg (show 1 < 4 by decide) a₀ a₁ a₂ a₃
  obtain ⟨r₂, hr₂⟩ := rowOf2qSoA_eq hg (show 2 < 4 by decide) a₀ a₁ a₂ a₃
  obtain ⟨r₃, hr₃⟩ := rowOf2qSoA_eq hg (show 3 < 4 by decide) a₀ a₁ a₂ a₃
  obtain ⟨s₀, hs₀, hl₀⟩ := setPair_of_lt hlen hb r₀
  obtain ⟨s₁, hs₁, hl₁⟩ := setPair_of_lt hl₀ hb₁ r₁
  obtain ⟨s₂, hs₂, hl₂⟩ := setPair_of_lt hl₁ hb₀ r₂
  simp only [apply2qRoundSoA, h₀, h₁, h₂, h₃, hr₀, hr₁, hr₂, hr₃, hs₀, hs₁, hs₂,
    bind_eq_bind, bind_some]
  exact setPair_of_lt hl₂ hboth r₃

end

section
variable {F : Type} [FloatOps F] {w n m : ℕ} {b : ℕ} {targets : List ℕ}

/-- The indices of a round on two qubits are in the chunk. -/
lemma bases2q_lt {q₀ q₁ size : ℕ} (hsz : size = 2 ^ (max q₀ q₁ + 1))
    (hb : b ∈ bases2q (2 ^ q₀) (2 ^ q₁) size) :
    b < size ∧ b ||| 2 ^ q₁ < size ∧ b ||| 2 ^ q₀ < size ∧ b ||| 2 ^ q₀ ||| 2 ^ q₁ < size := by
  subst hsz
  have hlt : b < 2 ^ (max q₀ q₁ + 1) := mem_range.1 (mem_filter.1 hb).1
  have h₀ : 2 ^ q₀ < 2 ^ (max q₀ q₁ + 1) := Nat.pow_lt_pow_right one_lt_two (by omega)
  have h₁ : 2 ^ q₁ < 2 ^ (max q₀ q₁ + 1) := Nat.pow_lt_pow_right one_lt_two (by omega)
  exact ⟨hlt, or_lt_two_pow hlt h₁, or_lt_two_pow hlt h₀, or_lt_two_pow (or_lt_two_pow hlt h₀) h₁⟩

lemma bases1q_lt {t : ℕ} (hb : b ∈ bases1q (2 ^ t)) :
    b < 2 ^ (t + 1) ∧ b ||| 2 ^ t < 2 ^ (t + 1) := by
  have ht : 2 ^ t < 2 ^ (t + 1) := Nat.pow_lt_pow_right one_lt_two t.lt_succ_self
  have hlt : b < 2 ^ (t + 1) := (mem_range.1 hb).trans ht
  exact ⟨hlt, or_lt_two_pow hlt ht⟩

variable {gate : Gate F} {α : Type}

lemma applyGate_goesThrough (hn : n < w) (hfit : GateFits n gate targets) (len : ℕ) :
    GoesThrough (·.length = len) (applyGate w · targets gate) := by
  intro state hlen
  rcases hfit.supported with hone | htwo
  · obtain ⟨t, rfl⟩ := length_eq_one_iff.1 (hfit.width.symm.trans hone)
    have ht : t < n := hfit.lt t (by simp)
    simp only [applyGate, hone, apply1q, shl_one (ht.trans hn),
      shl_two_pow (show t + 1 < w by omega), hlen]
    refine forChunks_goesThrough (by positivity) (fun chunk hsz hch b hb => ?_) state hlen
    exact apply1qRound_goesThrough ⟨hone, hone ▸ hfit.size⟩ hch (hsz ▸ (bases1q_lt hb).1)
      (hsz ▸ (bases1q_lt hb).2)
  · obtain ⟨q₀, q₁, rfl⟩ := length_eq_two.1 (hfit.width.symm.trans htwo)
    have h₀ : q₀ < n := hfit.lt q₀ (by simp)
    have h₁ : q₁ < n := hfit.lt q₁ (by simp)
    simp only [applyGate, htwo, apply2q, shl_one (h₀.trans hn), shl_one (h₁.trans hn),
      shl_one (show max q₀ q₁ + 1 < w by omega), hlen]
    refine forChunks_goesThrough (by positivity) (fun chunk hsz hch b hb => ?_) state hlen
    obtain ⟨hb, hb₁, hb₀, hboth⟩ := bases2q_lt rfl hb
    exact apply2qRound_goesThrough ⟨htwo, htwo ▸ hfit.size⟩ hch (hsz ▸ hb) (hsz ▸ hb₁)
      (hsz ▸ hb₀) (hsz ▸ hboth)

lemma applyGateSoa_goesThrough (hn : n < w) (hfit : GateFits n gate targets) (len : ℕ) :
    GoesThrough (StateVectorSoA.HasLength len) (applyGateSoa w · targets gate) := by
  intro state hst
  have hlen : state.length = len := by rw [StateVectorSoA.length, hst.1, hst.2, min_self]
  rcases hfit.supported with hone | htwo
  · obtain ⟨t, rfl⟩ := length_eq_one_iff.1 (hfit.width.symm.trans hone)
    have ht : t < n := hfit.lt t (by simp)
    simp only [applyGateSoa, hone, apply1qSoA, shl_one (ht.trans hn),
      shl_two_pow (show t + 1 < w by omega), hlen]
    refine forChunks_goesThrough (by positivity) (fun chunk hsz hch b hb => ?_) state hst
    exact apply1qRoundSoA_goesThrough ⟨hone, hone ▸ hfit.size⟩ hch (hsz ▸ (bases1q_lt hb).1)
      (hsz ▸ (bases1q_lt hb).2)
  · obtain ⟨q₀, q₁, rfl⟩ := length_eq_two.1 (hfit.width.symm.trans htwo)
    have h₀ : q₀ < n := hfit.lt q₀ (by simp)
    have h₁ : q₁ < n := hfit.lt q₁ (by simp)
    simp only [applyGateSoa, htwo, apply2qSoA, shl_one (h₀.trans hn), shl_one (h₁.trans hn),
      shl_one (show max q₀ q₁ + 1 < w by omega), hlen]
    refine forChunks_goesThrough (by positivity) (fun chunk hsz hch b hb => ?_) state hst
    obtain ⟨hb, hb₁, hb₀, hboth⟩ := bases2q_lt rfl hb
    exact apply2qRoundSoA_goesThrough ⟨htwo, htwo ▸ hfit.size⟩ hch (hsz ▸ hb) (hsz ▸ hb₁)
      (hsz ▸ hb₀) (hsz ▸ hboth)

omit [FloatOps F] in
/-- The gates of well-formed instructions go through in every layout. -/
lemma applySequence_goesThrough {σ : Type} {P : σ → Prop} {apply : σ → List ℕ → Gate F → Option σ}
    (happ : ∀ gate targets, GateFits n gate targets → GoesThrough P (apply · targets gate))
    {instructions : List (Instruction F)} (h : ∀ i ∈ instructions, i.WellFormed n m) :
    GoesThrough P (applySequence apply · instructions) := by
  induction instructions with
  | nil => exact fun s hs => ⟨s, rfl, hs⟩
  | cons i _ ih =>
    obtain ⟨hi, hrs⟩ := forall_mem_cons.1 h
    cases i with
    | gateOp gate targets =>
      intro s hs
      obtain ⟨s₁, hg, hs₁⟩ := happ gate targets hi s hs
      obtain ⟨s', hrun, hs'⟩ := ih hrs s₁ hs₁
      refine ⟨s', ?_, hs'⟩
      simp only [applySequence, hg, bind_eq_bind, bind_some]
      exact hrun
    | conditionalGate | measure | barrier => exact ih hrs

/-! ### Shots -/

/-- The computation does not panic, and what it returns has the property. -/
abbrev NoPanic (P : α → Prop) (result : Except Stop α) : Prop := Avoids .panicked P result

lemma NoPanic.error {P : α → Prop} (e : WarosError) : NoPanic P (.error (.error e)) :=
  Avoids.error fun h => by cases h

/-- A condition on classical bits that exist can be read. -/
lemma readClassicalRegister_goesThrough {reg : List ℕ} {bits : List Bool}
    (h : ∀ b ∈ reg, b < bits.length) : ∃ value, readClassicalRegister w reg bits = some value := by
  have hlp : GoesThrough (fun _ => True) (reg.zipIdx.foldlM fun value e => do
      return value ||| shl w (← bits[e.1]?).toNat e.2) := by
    refine .foldlM fun e hent value _ => ?_
    have hbit : e.1 < bits.length := h _ (fst_mem_of_mem_zipIdx hent)
    simp only [getElem?_eq_getElem hbit]
    exact ⟨_, rfl, trivial⟩
  obtain ⟨value, hval, -⟩ := hlp 0 trivial
  exact ⟨value, hval⟩

lemma measureQubit_length {state state' : List (Complex F)} {q : ℕ} {rng rng' : StdRng F}
    {outcome : Bool} (h : measureQubit w state q rng = (.ok (outcome, state'), rng')) :
    state'.length = state.length := by
  simp only [measureQubit] at h
  split_ifs at h <;> cases h <;> simp

lemma shotStep_noPanic (hn : n < w) {i : Instruction F} (hi : i.WellFormed n m) {s : Shot F}
    {len : ℕ} (hs : s.state.length = len ∧ s.classicalBits.length = m) :
    NoPanic (fun s => s.state.length = len ∧ s.classicalBits.length = m) (shotStep w s i) := by
  cases i with
  | gateOp =>
    obtain ⟨state, hg, hlen⟩ := applyGate_goesThrough hn hi len s.state hs.1
    simp only [shotStep, hg]
    exact .ok ⟨hlen, hs.2⟩
  | conditionalGate =>
    obtain ⟨cur, hrd⟩ := readClassicalRegister_goesThrough (w := w) (hs.2 ▸ hi.2)
    obtain ⟨state, hg, hlen⟩ := applyGate_goesThrough hn hi.1 len s.state hs.1
    simp only [shotStep, hrd, hg]
    split
    · exact .ok ⟨hlen, hs.2⟩
    · exact .ok hs
  | measure qubit bit =>
    rcases hmeas : measureQubit w s.state qubit s.rng with ⟨e | ⟨o, state⟩, rng⟩
    · simp only [shotStep, hmeas]
      exact .error e
    · have hbit : ¬ s.classicalBits.length ≤ bit := by
        have hlt : bit < m := hi.2
        omega
      simp only [shotStep, hmeas, if_neg hbit]
      exact .ok ⟨(measureQubit_length hmeas).trans hs.1, by simpa using hs.2⟩
  | barrier => exact .ok hs

variable {circuit : Circuit F}

section
variable (hn : circuit.numQubits < w) (hc : circuit.WellFormed) (rsv : ℕ → Bool)
  (lay : StateVectorLayout)
include hn hc

lemma runSingleShot_noPanic (rng : StdRng F) :
    NoPanic (fun _ => True) (runSingleShot w rsv circuit rng) := by
  rw [runSingleShot]
  rcases h0 : zeroState (F := F) w rsv circuit.numQubits with e | state
  · exact .error e
  have hfold : NoPanic (fun s : Shot F => s.state.length = state.length ∧
      s.classicalBits.length = circuit.numClassicalBits) (circuit.instructions.foldlM (shotStep w)
        ⟨state, .replicate circuit.numClassicalBits false, rng⟩) :=
    .foldlM (fun i hi s hs => shotStep_noPanic hn (hc.instructions i hi) hs) ⟨rfl, by simp⟩
  exact hfold.bind fun _ _ => .ok trivial

lemma shotLoop_noPanic (shots : ℕ) (rng : StdRng F) (cs : List (Str × ℕ)) :
    NoPanic (fun _ => True) (shotLoop w rsv circuit shots rng cs) := by
  induction shots generalizing rng cs with
  | zero => exact .ok trivial
  | succ _ ih => exact (runSingleShot_noPanic hn hc rsv rng).bind fun res _ => ih res.2 _

/-- The final state of a well-formed circuit is reached in both layouts. -/
lemma applySequence_of_wellFormed (state : List (Complex F)) :
    ∃ state', applySequence (applyGate w) state circuit.instructions = some state' := by
  obtain ⟨state', hrun, -⟩ := applySequence_goesThrough
    (fun gate targets hfit => applyGate_goesThrough hn hfit state.length)
    hc.instructions state rfl
  exact ⟨state', hrun⟩

lemma applySequenceSoa_of_wellFormed {rsv : ℕ → Bool} {state : StateVectorSoA F}
    (h0 : zeroStateSoa w rsv circuit.numQubits = .ok state) :
    ∃ state', applySequence (applyGateSoa w) state circuit.instructions = some state' := by
  have hlen : state.HasLength (shl w 1 circuit.numQubits) := by
    simp only [zeroStateSoa] at h0
    split at h0
    · cases h0
      exact ⟨by simp, by simp⟩
    · cases h0
  obtain ⟨state', hrun, -⟩ := applySequence_goesThrough
    (fun gate targets hfit => applyGateSoa_goesThrough hn hfit _) hc.instructions state hlen
  exact ⟨state', hrun⟩

lemma finalProbabilities_noPanic (rsv : ℕ → Bool) :
    NoPanic (fun _ => True) (finalProbabilities w lay rsv circuit) := by
  cases lay with
  | aos =>
    cases h0 : zeroState (F := F) w rsv circuit.numQubits with
    | error e =>
      simp only [finalProbabilities, h0]
      exact .error e
    | ok state =>
      obtain ⟨state', hrun⟩ := applySequence_of_wellFormed hn hc state
      simp only [finalProbabilities, h0, hrun]
      exact .ok trivial
  | soa =>
    cases h0 : zeroStateSoa (F := F) w rsv circuit.numQubits with
    | error e =>
      simp only [finalProbabilities, h0]
      exact .error e
    | ok =>
      obtain ⟨state', hrun⟩ := applySequenceSoa_of_wellFormed hn hc h0
      simp only [finalProbabilities, h0, hrun]
      exact .ok trivial

/-- A run of a well-formed circuit does not panic. -/
lemma run_noPanic (rsv : ℕ → Bool) (shots : ℕ) (rng : StdRng F) :
    run w lay rsv circuit shots rng ≠ .error .panicked := by
  suffices h : NoPanic (fun _ => True)
      (run w lay rsv circuit shots rng) from h.1
  rw [StateVectorBackend.run]
  split_ifs
  · exact .error _
  · exact (shotLoop_noPanic hn hc rsv shots rng []).bind fun _ _ => .ok trivial
  · have hfinish := finalProbabilities_noPanic hn hc lay rsv
    rw [runSampleMode]
    cases hres : finalProbabilities w lay rsv circuit with
    | error =>
      rw [hres] at hfinish
      exact ⟨fun h => hfinish.1 (congrArg _ (Except.error.inj h)), fun _ _ => trivial⟩
    | ok => exact .ok trivial

lemma statevector_noPanic (rsv : ℕ → Bool) : statevector w lay rsv circuit ≠ .error .panicked := by
  suffices h : NoPanic (fun _ => True)
      (statevector w lay rsv circuit) from h.1
  simp only [statevector]
  split_ifs
  · exact .error _
  · cases lay with
    | aos =>
      cases h0 : zeroState (F := F) w rsv circuit.numQubits with
      | error e => exact .error e
      | ok state =>
        obtain ⟨state', hrun⟩ := applySequence_of_wellFormed hn hc state
        simp only [hrun]
        exact .ok trivial
    | soa =>
      cases h0 : zeroStateSoa (F := F) w rsv circuit.numQubits with
      | error e => exact .error e
      | ok =>
        obtain ⟨state', hrun⟩ := applySequenceSoa_of_wellFormed hn hc h0
        simp only [hrun]
        exact .ok trivial

end

end

end Waros.Quantum
