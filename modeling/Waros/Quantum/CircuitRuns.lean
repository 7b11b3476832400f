import Waros.Lib.Transition
import Waros.Quantum.Compose
import Waros.Quantum.RealArithmetic
import Waros.Quantum.Simulator

/-!
Runs of builder calls. A program holds circuits in variables and calls the
public methods on them. In every state of a run all circuits can be simulated
exactly when no circuit of 64 qubits or more is made, no accepted conditional
gate has an unsupported width and no call counts the classical bits beyond a
machine word.
-/

namespace Waros.Quantum

open Lib List Function StateVectorBackend Circuit

/-! ### The public methods -/

inductive SingleGate (F : Type)
  | h | x | y | z | s | sdg | t | tdg | sx
  | rx (theta : F)
  | ry (theta : F)
  | rz (theta : F)
  | u3 (theta phi lambda : F)

inductive PairGate (F : Type)
  | cnot | cx | cz | cy | swap
  | rzz (theta : F)
  | crk (k : ℕ)

/-- A call of a public method, without `append` and `compose`. -/
inductive Method (F : Type)
  | single (gate : SingleGate F) (qubit : ℕ)
  | pair (gate : PairGate F) (q₀ q₁ : ℕ)
  | toffoli (control₀ control₁ target : ℕ)
  | customGate (gate : Gate F) (targets : List ℕ)
  | conditionalGate (classicalBits : List ℕ) (value : ℕ) (gate : Gate F) (targets : List ℕ)
  | measure (qubit : ℕ)
  | measureInto (qubit classicalBit : ℕ)
  | measureAll
  | barrier (qubits : List ℕ)
  | barrierAll
  | qft (qubits : List ℕ)
  | iqft (qubits : List ℕ)

section
variable {F : Type} [FloatOps F] (text : FloatText F)

def SingleGate.method (qubit : ℕ) : SingleGate F → Builder F Unit
  | .h => Circuit.h qubit
  | .x => Circuit.x qubit
  | .y => Circuit.y qubit
  | .z => Circuit.z qubit
  | .s => Circuit.s qubit
  | .sdg => Circuit.sdg qubit
  | .t => Circuit.t qubit
  | .tdg => Circuit.tdg qubit
  | .sx => Circuit.sx qubit
  | .rx theta => Circuit.rx text qubit theta
  | .ry theta => Circuit.ry text qubit theta
  | .rz theta => Circuit.rz text qubit theta
  | .u3 theta phi lambda => Circuit.u3 text qubit theta phi lambda

def PairGate.method (q₀ q₁ : ℕ) : PairGate F → Builder F Unit
  | .cnot => Circuit.cnot q₀ q₁
  | .cx => Circuit.cx q₀ q₁
  | .cz => Circuit.cz q₀ q₁
  | .cy => Circuit.cy q₀ q₁
  | .swap => Circuit.swap q₀ q₁
  | .rzz theta => Circuit.rzz text q₀ q₁ theta
  | .crk k => Circuit.crk q₀ q₁ k

def Method.run : Method F → Builder F Unit
  | .single gate qubit => gate.method text qubit
  | .pair gate q₀ q₁ => gate.method text q₀ q₁
  | .toffoli control₀ control₁ target => Circuit.toffoli control₀ control₁ target
  | .customGate gate targets => Circuit.customGate gate targets
  | .conditionalGate classicalBits value gate targets =>
    Circuit.conditionalGate classicalBits value gate targets
  | .measure qubit => do let _ ← Circuit.measure qubit
  | .measureInto qubit classicalBit => Circuit.measureInto qubit classicalBit
  | .measureAll => Circuit.measureAll
  | .barrier qubits => Circuit.barrier qubits
  | .barrierAll => Circuit.barrierAll
  | .qft qubits => Circuit.qft qubits
  | .iqft qubits => Circuit.iqft qubits

/-- The arguments have their types: a gate matrix has an entry for every row and
column, and an index is a machine word. -/
def Method.Typed : Method F → Prop
  | .customGate gate _ => gate.matrix.length = 4 ^ gate.numQubits
  | .conditionalGate _ _ gate _ => gate.matrix.length = 4 ^ gate.numQubits
  | .measureInto _ classicalBit => classicalBit < 2 ^ 64
  | _ => True

/-- What a call must meet. -/
def Method.Sound (circuit : Circuit F) : Method F → Prop
  | .conditionalGate classicalBits _ gate targets =>
    classicalBits ≠ [] → (∀ b ∈ classicalBits, b < circuit.numClassicalBits) →
      gate.numQubits = targets.length → (targets.Nodup ∧ ∀ q ∈ targets, q < circuit.numQubits) →
      gate.numQubits = 1 ∨ gate.numQubits = 2
  | .measure qubit => qubit < circuit.numQubits → circuit.numClassicalBits + 1 < 2 ^ 64
  | .measureInto qubit classicalBit => qubit < circuit.numQubits → classicalBit + 1 < 2 ^ 64
  | .measureAll => circuit.numClassicalBits + circuit.numQubits < 2 ^ 64
  | _ => True

namespace Circuit

lemma preserves_single (gate : SingleGate F) (q : ℕ) : Preserves (gate.method text q) := by
  cases gate <;> exact preserves_add1 ⟨rfl, rfl⟩ q

lemma preserves_pair (gate : PairGate F) (q₀ q₁ : ℕ) : Preserves (gate.method text q₀ q₁) := by
  cases gate <;> exact preserves_add2 ⟨rfl, rfl⟩ q₀ q₁

variable {circuit : Circuit F}

lemma measure_wellFormed (hc : circuit.WellFormed) (q : ℕ) :
    ((Method.measure q).run text circuit).2.WellFormed ↔
      (q < circuit.numQubits → circuit.numClassicalBits + 1 < 2 ^ 64) := by
  have hrun : ((Method.measure q).run text circuit).2 = (measure q circuit).2 :=
    Fallible.snd_bind_pure _ _ _
  rw [hrun, measure, after_check validateQubit_ok hc]
  refine imp_congr_right fun hq => ⟨fun h => ?_, fun h => measured_wellFormed hc hq h⟩
  by_contra hlt
  exact (measured_spoiled q (not_lt.1 hlt)).not_wellFormed h

omit [FloatOps F]

lemma measureInto_wellFormed (hc : circuit.WellFormed) (qubit : ℕ) (classicalBit : ℕ) :
    (measureInto qubit classicalBit circuit).2.WellFormed ↔
      (qubit < circuit.numQubits → classicalBit + 1 < 2 ^ 64) := by
  rw [measureInto, after_check validateQubit_ok hc]
  refine imp_congr_right fun hq => ?_
  have hrequ : U64.wrappingAdd classicalBit 1 < 2 ^ 64 := Nat.mod_lt _ (by decide)
  have hrai : (circuit.raised (U64.wrappingAdd classicalBit 1)).WellFormed :=
    ⟨max_lt hc.word hrequ, fun j hj => (hc.instructions j hj).mono (le_max_left _ _)⟩
  refine (pushed_wellFormed hrai).trans ⟨fun h => ?_, fun h => ⟨hq, ?_⟩⟩
  · have hlt : classicalBit < max circuit.numClassicalBits (U64.wrappingAdd classicalBit 1) := h.2
    have hword := hrai.word
    exact Nat.lt_of_le_of_lt hlt hword
  · rw [raised, U64.wrappingAdd_of_lt h]
    exact lt_max_of_lt_right (Nat.lt_succ_self _)

lemma measureAll_wellFormed (hc : circuit.WellFormed) :
    (measureAll circuit).2.WellFormed ↔ circuit.numClassicalBits + circuit.numQubits < 2 ^ 64 := by
  -- measuring is copying a measurement
  have hrun : (measureAll circuit : Except Stop Unit × Circuit F) =
      Fallible.each (((List.range circuit.numQubits).map fun qubit => .measure qubit 0).map
        (appendInstruction none)) circuit := by
    rw [map_map]
    rfl
  have hins : ∀ i ∈ (List.range circuit.numQubits).map (Instruction.measure (F := F) · 0),
      i.WellFormed circuit.numQubits 1 := by
    intro i hi
    obtain ⟨qubit, hq, rfl⟩ := mem_map.1 hi
    exact ⟨mem_range.1 hq, Nat.one_pos⟩
  have hcnt : ∀ (qubits : List ℕ) (m : ℕ),
      (qubits.map (Instruction.measure (F := F) · 0)).foldl bitsAfter m = m + qubits.length := by
    intro qubits
    induction qubits with
    | nil => exact fun _ => rfl
    | cons _ _ ih =>
      intro m
      rw [map_cons, foldl_cons, ih, length_cons, bitsAfter]
      omega
  rw [hrun, each_appendInstruction (placement_none _) hins,
    foldl_appended_wellFormed hc (placement_none _) (by decide) hins, hcnt, length_range]

lemma append_wellFormed {circuit other : Circuit F} (hc : circuit.WellFormed)
    (ho : other.WellFormed) : (append other circuit).2.WellFormed ↔
      (circuit.numQubits = other.numQubits →
        other.instructions.foldl bitsAfter circuit.numClassicalBits < 2 ^ 64) := by
  rw [append, after_check (p := circuit.numQubits = other.numQubits) (by split_ifs <;> simp_all) hc]
  refine imp_congr_right fun hwid => ?_
  have hplaced : Placement none other.numQubits circuit.numQubits id := hwid ▸ placement_none _
  rw [each_appendInstruction hplaced ho.instructions]
  exact foldl_appended_wellFormed hc hplaced ho.word ho.instructions

lemma compose_wellFormed {circuit other : Circuit F} (hc : circuit.WellFormed)
    (ho : other.WellFormed) (mapping : List ℕ) :
    (compose other mapping circuit).2.WellFormed ↔ (mapping.length = other.numQubits →
        (mapping.Nodup ∧ ∀ q ∈ mapping, q < circuit.numQubits) →
        other.instructions.foldl bitsAfter circuit.numClassicalBits < 2 ^ 64) := by
  rw [compose, after_check (p := mapping.length = other.numQubits) (by split_ifs <;> simp_all) hc]
  refine imp_congr_right fun hlen => (after_check validateDistinctQubits_ok hc _).trans ?_
  refine imp_congr_right fun hmapp => ?_
  have hplaced := placement_some hlen hmapp.1 hmapp.2
  rw [each_appendInstruction hplaced ho.instructions]
  exact foldl_appended_wellFormed hc hplaced ho.word ho.instructions

end Circuit

/-- A method leaves a well-formed circuit well formed exactly when the call is
sound. -/
lemma Method.wellFormed_iff {circuit : Circuit F} (hc : circuit.WellFormed) {method : Method F}
    (htyp : method.Typed) :
    (method.run text circuit).2.WellFormed ↔ method.Sound circuit := by
  cases method with
  | single gate qubit => exact iff_true_intro (preserves_single text gate qubit circuit hc)
  | pair gate q₀ q₁ => exact iff_true_intro (preserves_pair text gate q₀ q₁ circuit hc)
  | toffoli a b c => exact iff_true_intro (preserves_toffoli a b c circuit hc)
  | customGate _ targets => exact iff_true_intro (preserves_customGate htyp targets circuit hc)
  | conditionalGate bits v _ targets => exact conditionalGate_wellFormed htyp hc bits v targets
  | measure qubit => exact measure_wellFormed text hc qubit
  | measureInto qubit bit => exact measureInto_wellFormed hc qubit bit
  | measureAll => exact measureAll_wellFormed hc
  | barrier qs => exact iff_true_intro (preserves_barrier qs circuit hc)
  | barrierAll => exact iff_true_intro (preserves_barrierAll circuit hc)
  | qft qs => exact iff_true_intro (preserves_qft qs circuit hc)
  | iqft qs => exact iff_true_intro (preserves_iqft qs circuit hc)

/-! ### The number of qubits -/

def SameWidth {F : Type} (circuit circuit' : Circuit F) : Prop :=
  circuit'.numQubits = circuit.numQubits

theorem SameWidth.trans {F : Type} (first second third : Circuit F) (h : SameWidth first second)
    (h' : SameWidth second third) : SameWidth first third :=
  Eq.trans h' h

/-- The method leaves the number of qubits as it is. -/
def KeepsWidth {F α : Type} (method : Builder F α) : Prop := Fallible.Keeps SameWidth method

namespace KeepsWidth

section
omit [FloatOps F]

theorem bind {α β : Type} {x : Builder F α} {f : α → Builder F β} (hx : KeepsWidth x)
    (hf : ∀ a, KeepsWidth (f a)) : KeepsWidth (x >>= f) :=
  Fallible.Keeps.bind SameWidth.trans hx hf

theorem each {xs : List (Builder F Unit)} (h : ∀ x ∈ xs, KeepsWidth x) :
    KeepsWidth (Fallible.each xs) :=
  have hrefl : ∀ circuit : Circuit F, SameWidth circuit circuit := fun _ => rfl
  Fallible.Keeps.each hrefl SameWidth.trans h

theorem check (f : Circuit F → Except WarosError Unit) : KeepsWidth (Circuit.check f) := by
  intro circuit
  rw [Circuit.check]
  cases f circuit <;> rfl

theorem orPanic {α : Type} (a : Option α) : KeepsWidth (Quantum.orPanic a : Builder F α) := by
  intro circuit
  cases a <;> rfl

theorem push (instruction : Instruction F) : KeepsWidth (Circuit.push instruction) :=
  fun _ => rfl

theorem add1 (gate : Gate F) (qubit : ℕ) : KeepsWidth (Circuit.add1 gate qubit) :=
  (check _).bind fun _ => push _

theorem add2 (gate : Gate F) (q₀ q₁ : ℕ) : KeepsWidth (Circuit.add2 gate q₀ q₁) :=
  (check _).bind fun _ => push _

theorem ensureClassicalBits (required : ℕ) :
    KeepsWidth (Circuit.ensureClassicalBits required : Builder F Unit) :=
  fun _ => rfl

theorem measure (qubit : ℕ) : KeepsWidth (Circuit.measure qubit : Builder F ℕ) := by
  refine (check _).bind fun _ => ?_
  exact fun _ => rfl

theorem measure_ignored (qubit : ℕ) :
    KeepsWidth (do let _ ← Circuit.measure qubit : Builder F Unit) :=
  (measure qubit).bind fun _ => fun _ => rfl

theorem appendInstruction (qubitMapping : Option (List ℕ)) (instruction : Instruction F) :
    KeepsWidth (Circuit.appendInstruction qubitMapping instruction) := by
  cases instruction with
  | gateOp | barrier => exact (orPanic _).bind fun _ => push _
  | conditionalGate =>
    exact (orPanic _).bind fun _ => (ensureClassicalBits _).bind fun _ => push _
  | measure => exact (orPanic _).bind fun _ => measure_ignored _

theorem append (other : Circuit F) : KeepsWidth (Circuit.append other) := by
  refine (check _).bind fun _ => each fun x hx => ?_
  obtain ⟨instruction, -, rfl⟩ := mem_map.1 hx
  exact appendInstruction none instruction

theorem compose (other : Circuit F) (qubitMapping : List ℕ) :
    KeepsWidth (Circuit.compose other qubitMapping) := by
  refine (check _).bind fun _ => (check _).bind fun _ => each fun x hx => ?_
  obtain ⟨instruction, -, rfl⟩ := mem_map.1 hx
  exact appendInstruction _ instruction

end

theorem swaps (qubits : List ℕ) :
    ∀ x ∈ (Circuit.swaps qubits : List (Builder F Unit)), KeepsWidth x := by
  intro x hx
  obtain ⟨i, -, rfl⟩ := mem_map.1 hx
  exact (orPanic _).bind fun _ => (orPanic _).bind fun _ => add2 _ _ _

theorem qft (qubits : List ℕ) : KeepsWidth (Circuit.qft qubits : Builder F Unit) := by
  refine (check _).bind fun _ => .bind (each fun x hx => ?_) fun _ => each (swaps qubits)
  obtain ⟨⟨target, index⟩, -, rfl⟩ := mem_map.1 hx
  refine (add1 _ target).bind fun _ => each fun y hy => ?_
  obtain ⟨⟨control, offset⟩, -, rfl⟩ := mem_map.1 hy
  exact add2 _ control target

theorem iqft (qubits : List ℕ) : KeepsWidth (Circuit.iqft qubits : Builder F Unit) := by
  refine (check _).bind fun _ => .bind (each (swaps qubits)) fun _ => each fun x hx => ?_
  obtain ⟨⟨target, index⟩, -, rfl⟩ := mem_map.1 hx
  refine .bind (each fun y hy => ?_) fun _ => add1 _ target
  obtain ⟨⟨control, other⟩, -, rfl⟩ := mem_map.1 hy
  exact add2 _ control target

theorem toffoli (control₀ control₁ target : ℕ) :
    KeepsWidth (Circuit.toffoli control₀ control₁ target : Builder F Unit) := by
  refine (check _).bind fun _ => each ?_
  have hh : ∀ q, KeepsWidth (Circuit.h q : Builder F Unit) := add1 _
  have ht : ∀ q, KeepsWidth (Circuit.t q : Builder F Unit) := add1 _
  have htdg : ∀ q, KeepsWidth (Circuit.tdg q : Builder F Unit) := add1 _
  have hcnot : ∀ q₀ q₁, KeepsWidth (Circuit.cnot q₀ q₁ : Builder F Unit) := add2 _
  simp [hh, ht, htdg, hcnot]

end KeepsWidth

theorem Method.keepsWidth (method : Method F) : KeepsWidth (method.run text) := by
  cases method with
  | single gate qubit => cases gate <;> exact .add1 _ qubit
  | pair gate q₀ q₁ => cases gate <;> exact .add2 _ q₀ q₁
  | toffoli a b c => exact .toffoli a b c
  | customGate =>
    exact (KeepsWidth.check _).bind fun _ => (KeepsWidth.check _).bind fun _ =>
      (KeepsWidth.check _).bind fun _ => .push _
  | conditionalGate =>
    exact (KeepsWidth.check _).bind fun _ => (KeepsWidth.check _).bind fun _ =>
      (KeepsWidth.check _).bind fun _ => (KeepsWidth.check _).bind fun _ => .push _
  | measure qubit => exact .measure_ignored qubit
  | measureInto =>
    exact (KeepsWidth.check _).bind fun _ => (KeepsWidth.ensureClassicalBits _).bind fun _ =>
      .push _
  | measureAll =>
    refine fun circuit => KeepsWidth.each (fun x hx => ?_) circuit
    obtain ⟨qubit, -, rfl⟩ := mem_map.1 hx
    exact .measure_ignored qubit
  | barrier => exact (KeepsWidth.check _).bind fun _ => .push _
  | barrierAll => exact fun circuit => KeepsWidth.push _ circuit
  | qft qubits => exact .qft qubits
  | iqft qubits => exact .iqft qubits

/-! ### Programs -/

/-- The circuit is well formed, and `1usize << num_qubits` counts the amplitudes
of its states. -/
structure Circuit.Simulable {F : Type} (circuit : Circuit F) : Prop where
  wellFormed : circuit.WellFormed
  width : circuit.numQubits < 64

/-- The circuits in the variables of a program. -/
abbrev Workspace (F : Type) : Type := ℕ → Option (Circuit F)

/-- A call, with the variable that it constructs or changes. -/
inductive Call (F : Type)
  | new (var numQubits : ℕ)
  | withClassicalBits (var numQubits numClassicalBits : ℕ)
  | clone (var source : ℕ)
  | method (var : ℕ) (called : Method F)
  | append (var other : ℕ)
  | compose (var other : ℕ) (qubitMapping : List ℕ)

namespace Workspace

def empty : Workspace F := fun _ => none

/-- A constructor that fails leaves the variable as it is. -/
def construct (ws : Workspace F) (var : ℕ) : Except WarosError (Circuit F) → Workspace F
  | .ok circuit => update ws var (some circuit)
  | .error _ => ws

/-- A method that fails can have changed the circuit. -/
def change (ws : Workspace F) (var : ℕ) (builder : Builder F Unit) : Workspace F :=
  match ws var with
  | none => ws
  | some circuit => update ws var (some (builder circuit).2)

/-- A method that reads the circuit in a second variable. -/
def changeFrom (ws : Workspace F) (var other : ℕ) (builder : Circuit F → Builder F Unit) :
    Workspace F :=
  match ws other with
  | none => ws
  | some circuit => ws.change var (builder circuit)

def Simulable (ws : Workspace F) : Prop :=
  ∀ var circuit, ws var = some circuit → circuit.Simulable

variable {ws : Workspace F}

omit [FloatOps F]

theorem simulable_update (h : ws.Simulable) (var : ℕ) {circuit : Circuit F} :
    Simulable (update ws var (some circuit)) ↔ circuit.Simulable := by
  constructor
  · intro hupdate
    exact hupdate var circuit (update_self var _ ws)
  · intro hcircuit var' circuit' hvar
    rcases eq_or_ne var' var with rfl | hne
    · rw [update_self] at hvar
      exact Option.some.inj hvar ▸ hcircuit
    · rw [update_of_ne hne] at hvar
      exact h var' circuit' hvar

theorem simulable_change (h : ws.Simulable) (var : ℕ) {builder : Builder F Unit}
    (hwidth : KeepsWidth builder) : (ws.change var builder).Simulable ↔
      ∀ circuit, ws var = some circuit → (builder circuit).2.WellFormed := by
  rw [change]
  cases hvar : ws var with
  | none => simp [h]
  | some circuit =>
    have hlt : (builder circuit).2.numQubits < 64 := hwidth circuit ▸ (h var circuit hvar).width
    refine (simulable_update h var).trans ⟨?_, fun hbuild => ⟨hbuild circuit rfl, hlt⟩⟩
    rintro hsimulable _ ⟨⟩
    exact hsimulable.wellFormed

theorem simulable_changeFrom (h : ws.Simulable) (var other : ℕ)
    {builder : Circuit F → Builder F Unit} (hwidth : ∀ source, KeepsWidth (builder source)) :
    (ws.changeFrom var other builder).Simulable ↔
      ∀ source circuit, ws other = some source → ws var = some circuit →
        (builder source circuit).2.WellFormed := by
  rw [changeFrom]
  rcases ws other with _ | source
  · simp [h]
  rw [simulable_change h var (hwidth source)]
  constructor
  · rintro hbuild _ circuit ⟨⟩ hvar
    exact hbuild circuit hvar
  · exact fun hbuild circuit hvar => hbuild source circuit rfl hvar

end Workspace

namespace Call

def step (ws : Workspace F) : Call F → Workspace F
  | .new var numQubits => ws.construct var (Circuit.new numQubits)
  | .withClassicalBits var numQubits numClassicalBits =>
    ws.construct var (Circuit.withClassicalBits numQubits numClassicalBits)
  | .clone var source =>
    match ws source with
    | none => ws
    | some circuit => update ws var (some circuit)
  | .method var called => ws.change var (called.run text)
  | .append var other => ws.changeFrom var other Circuit.append
  | .compose var other qubitMapping =>
    ws.changeFrom var other fun circuit => Circuit.compose circuit qubitMapping

def Typed : Call F → Prop
  | .withClassicalBits _ _ numClassicalBits => numClassicalBits < 2 ^ 64
  | .method _ called => called.Typed
  | _ => True

/-- What a call must meet: a circuit that is made has fewer than 64 qubits, and
for `append` and `compose`, the classical bits with those of the copied
instructions are counted in a machine word. -/
def Sound (ws : Workspace F) : Call F → Prop
  | .new _ numQubits | .withClassicalBits _ numQubits _ =>
    numQubits ≤ maxQubits → numQubits < 64
  | .method var called => ∀ circuit, ws var = some circuit → called.Sound circuit
  | .append var other => ∀ source circuit, ws other = some source → ws var = some circuit →
      circuit.numQubits = source.numQubits →
      source.instructions.foldl bitsAfter circuit.numClassicalBits < 2 ^ 64
  | .compose var other qubitMapping => ∀ source circuit, ws other = some source →
      ws var = some circuit → qubitMapping.length = source.numQubits →
      (qubitMapping.Nodup ∧ ∀ q ∈ qubitMapping, q < circuit.numQubits) →
      source.instructions.foldl bitsAfter circuit.numClassicalBits < 2 ^ 64
  | .clone _ _ => True

variable {ws : Workspace F}

section
omit [FloatOps F]

/-- A constructor that checks the number of qubits and makes a well-formed
circuit. -/
theorem construct_simulable (h : ws.Simulable) (var : ℕ) {numQubits : ℕ}
    {result : Except WarosError (Circuit F)}
    (hok : ∀ circuit, result = .ok circuit →
      circuit.WellFormed ∧ circuit.numQubits = numQubits ∧ numQubits ≤ maxQubits)
    (herror : ∀ error, result = .error error → numQubits = 0 ∨ maxQubits < numQubits) :
    (ws.construct var result).Simulable ↔ (numQubits ≤ maxQubits → numQubits < 64) := by
  cases result with
  | error error =>
    refine iff_of_true h fun hle => ?_
    rcases herror error rfl with hzero | hgt <;> omega
  | ok circuit =>
    obtain ⟨hcircuit, hwidth, hle⟩ := hok circuit rfl
    refine (Workspace.simulable_update h var).trans ⟨fun hsim _ => hwidth ▸ hsim.width, ?_⟩
    exact fun hlt => ⟨hcircuit, hwidth ▸ hlt hle⟩

theorem new_spec (numQubits : ℕ) :
    (∀ circuit : Circuit F, Circuit.new numQubits = .ok circuit →
      circuit.WellFormed ∧ circuit.numQubits = numQubits ∧ numQubits ≤ maxQubits) ∧
    ∀ error, (Circuit.new numQubits : Except WarosError (Circuit F)) = .error error →
      numQubits = 0 ∨ maxQubits < numQubits := by
  rw [Circuit.new]
  split_ifs with hzero hgt
  · exact ⟨by simp, fun _ _ => .inl hzero⟩
  · exact ⟨by simp, fun _ _ => .inr hgt⟩
  · refine ⟨?_, by simp⟩
    rintro circuit ⟨⟩
    exact ⟨⟨Nat.two_pow_pos 64, by simp⟩, rfl, not_lt.1 hgt⟩

theorem withClassicalBits_spec (numQubits : ℕ) {numClassicalBits : ℕ}
    (hword : numClassicalBits < 2 ^ 64) :
    (∀ circuit : Circuit F, Circuit.withClassicalBits numQubits numClassicalBits = .ok circuit →
      circuit.WellFormed ∧ circuit.numQubits = numQubits ∧ numQubits ≤ maxQubits) ∧
    ∀ error, (Circuit.withClassicalBits numQubits numClassicalBits :
      Except WarosError (Circuit F)) = .error error → numQubits = 0 ∨ maxQubits < numQubits := by
  obtain ⟨hok, herror⟩ := new_spec (F := F) numQubits
  rw [Circuit.withClassicalBits]
  cases hnew : (Circuit.new numQubits : Except WarosError (Circuit F)) with
  | error error => exact ⟨by rintro _ ⟨⟩, fun _ _ => herror error hnew⟩
  | ok circuit =>
    obtain ⟨hcircuit, hwidth⟩ := hok circuit hnew
    have hempty : circuit.instructions = [] := by
      rw [Circuit.new] at hnew
      split_ifs at hnew
      cases hnew
      rfl
    refine ⟨?_, by rintro _ ⟨⟩⟩
    rintro _ ⟨⟩
    exact ⟨⟨hword, by simp [hempty]⟩, hwidth⟩

end

/-- A call leaves all circuits simulable exactly when it is sound. -/
theorem simulable_iff (h : ws.Simulable) {call : Call F} (htyped : call.Typed) :
    (step text ws call).Simulable ↔ call.Sound ws := by
  cases call with
  | new var numQubits =>
    exact construct_simulable h var (new_spec numQubits).1 (new_spec numQubits).2
  | withClassicalBits var numQubits =>
    have hspec := withClassicalBits_spec (F := F) numQubits htyped
    exact construct_simulable h var hspec.1 hspec.2
  | clone var source =>
    refine iff_true_intro ?_
    rw [step]
    cases hsource : ws source with
    | none => exact h
    | some circuit => exact (Workspace.simulable_update h var).2 (h source circuit hsource)
  | method var called =>
    refine (Workspace.simulable_change h var (called.keepsWidth text)).trans ?_
    exact forall_congr' fun circuit => forall_congr' fun hvar =>
      called.wellFormed_iff text (h var circuit hvar).wellFormed htyped
  | append var other =>
    refine (Workspace.simulable_changeFrom h var other .append).trans ?_
    refine forall_congr' fun source => forall_congr' fun circuit => forall_congr' fun hsource =>
      forall_congr' fun hvar => ?_
    exact append_wellFormed (h var circuit hvar).wellFormed (h other source hsource).wellFormed
  | compose var other qubitMapping =>
    refine (Workspace.simulable_changeFrom h var other fun source =>
      .compose source qubitMapping).trans ?_
    refine forall_congr' fun source => forall_congr' fun circuit => forall_congr' fun hsource =>
      forall_congr' fun hvar => ?_
    exact compose_wellFormed (h var circuit hvar).wellFormed (h other source hsource).wellFormed
      qubitMapping

end Call

/-- In all states of a program every circuit is well formed and has fewer than 64
qubits exactly when all calls are sound. The state-vector simulator then panics on
none of the circuits. -/
theorem circuits_simulable_iff (calls : List (Call F)) (htyped : ∀ call ∈ calls, call.Typed) :
    ((∀ k, (run (Call.step text) Workspace.empty (calls.take k)).Simulable) ↔
      StepsOk (Call.step text) Call.Sound Workspace.empty calls) ∧
    (StepsOk (Call.step text) Call.Sound Workspace.empty calls →
      ∀ k var circuit, run (Call.step text) Workspace.empty (calls.take k) var = some circuit →
        ∀ (layout : StateVectorLayout) (reserve : ℕ → Bool),
          (∀ shots rng, run 64 layout reserve circuit shots rng ≠ .error .panicked) ∧
          statevector 64 layout reserve circuit ≠ .error .panicked) := by
  have hempty : (.empty : Workspace F).Simulable := by
    intro var circuit hvar
    cases hvar
  have hstep : ∀ ws call, ws.Simulable → call.Typed →
      ((Call.step text ws call).Simulable ↔ call.Sound ws) :=
    fun _ _ hws hcall => Call.simulable_iff text hws hcall
  have hiff : (∀ k, (run (Call.step text) .empty (calls.take k)).Simulable) ↔
      StepsOk (Call.step text) Call.Sound .empty calls :=
    forall_run_take_iff hstep hempty htyped
  refine ⟨hiff, fun hok k var circuit hvar layout reserve => ?_⟩
  obtain ⟨hcircuit, hwidth⟩ := hiff.2 hok k var circuit hvar
  exact ⟨fun shots rng => run_noPanic hwidth hcircuit layout reserve shots rng,
    statevector_noPanic hwidth hcircuit layout reserve⟩

end

/-- A text for numbers that no call prints. -/
def noText : FloatText ℝ := ⟨fun _ => [], fun _ => [], fun _ => none⟩

def measuringCalls : List (Call ℝ) :=
  [.new 0 2, .method 0 (.single .h 0), .method 0 (.measureInto 1 5), .clone 1 0, .append 0 1]

/-- A measurement into a bit that is not there yet raises the number of bits, and
an appended one takes the next. -/
theorem measuringCalls_simulable :
    StepsOk (Call.step noText) Call.Sound Workspace.empty measuringCalls ∧
      ∀ k, (run (Call.step noText) Workspace.empty (measuringCalls.take k)).Simulable := by
  have hsound : StepsOk (Call.step noText) Call.Sound .empty measuringCalls := by
    refine ⟨fun _ => by decide, fun _ _ => trivial, fun _ _ _ => by decide, trivial, ?_, trivial⟩
    rintro source circuit ⟨⟩ ⟨⟩ -
    decide
  have htyped : ∀ call ∈ measuringCalls, call.Typed := by
    simp [measuringCalls, Call.Typed, Method.Typed]
  exact ⟨hsound, (circuits_simulable_iff noText measuringCalls htyped).1.2 hsound⟩

/-- A gate on three qubits, with a matrix of the right size. -/
noncomputable def wideGate : Gate ℝ := ⟨"wide".toList, replicate 64 0, 3⟩

noncomputable def wideCalls : List (Call ℝ) :=
  [.withClassicalBits 0 3 1, .method 0 (.conditionalGate [0] 0 wideGate [0, 1, 2])]

noncomputable def wideCircuit : Circuit ℝ := ⟨3, 1, [.conditionalGate [0] 0 wideGate [0, 1, 2]]⟩

def lastBitCalls : List (Call ℝ) := [.new 0 1, .method 0 (.measureInto 0 (2 ^ 64 - 1))]

def longCalls : List (Call ℝ) := [.new 0 64, .method 0 (.pair .cnot 0 63)]

noncomputable def longCircuit : Circuit ℝ := ⟨64, 0, [.gateOp .cnot [0, 63]]⟩

/-- A conditional gate on three qubits is accepted, and a run then panics; a
measurement into the last classical bit is accepted and leaves no bits; and for
64 qubits the number of amplitudes is counted as one. -/
theorem wideCalls_accepted :
    ((∀ call ∈ wideCalls, call.Typed) ∧
      run (Call.step noText) Workspace.empty wideCalls 0 = some wideCircuit ∧
      ¬ wideCircuit.Simulable ∧
      run 64 .aos (fun _ => true) wideCircuit 1 ⟨fun _ => 0, 0⟩ = .error .panicked) ∧
    ((∀ call ∈ lastBitCalls, call.Typed) ∧
      run (Call.step noText) Workspace.empty lastBitCalls 0 =
        some ⟨1, 0, [.measure 0 (2 ^ 64 - 1)]⟩) ∧
    (∀ call ∈ longCalls, call.Typed) ∧
      run (Call.step noText) Workspace.empty longCalls 0 = some longCircuit ∧
      run 64 .aos (fun _ => true) longCircuit 1 ⟨fun _ => 0, 0⟩ = .error .panicked := by
  refine ⟨⟨?_, rfl, ?_, rfl⟩, ⟨?_, rfl⟩, ?_, rfl, ?_⟩
  · simp [wideCalls, Call.Typed, Method.Typed, wideGate]
  · intro hcircuit
    have hfits : GateFits 3 wideGate [0, 1, 2] :=
      (hcircuit.wellFormed.instructions _ (mem_singleton_self _)).1
    rcases hfits.supported with h | h <;> cases h
  · simp [lastBitCalls, Call.Typed, Method.Typed]
  · simp [longCalls, Call.Typed, Method.Typed]
  · rfl

end Waros.Quantum
