import Waros.Lib.Text
import Mathlib.Data.Rat.Defs

/-!
Complex amplitudes (`crates/waros-quantum/src/complex.rs`) and the floating
point operations that the crate uses. Everything is generic in the type `F` of
the floating point numbers, so that the code can be read over `f64` as well as
over exact numbers.
-/

namespace Waros.Quantum
/-- The operations on floating point numbers that occur in the crate. -/
class FloatOps (F : Type) extends Zero F, One F, Add F, Neg F, Sub F, Mul F, Div F where
  /-- A literal such as `0.5` or `1e-9`. -/
  lit : ℚ → F
  pi : F
  fracOneSqrtTwo : F
  cos : F → F
  sin : F → F
  sqrt : F → F
  abs : F → F
  round : F → F
  /-- `powi`; the exponents in the crate are not negative. -/
  powi : F → ℕ → F
  lt : F → F → Bool
  le : F → F → Bool
  /-- The saturating cast `as usize`. -/
  toUsize : F → ℕ

@[ext] structure Complex (F : Type) where
  re : F
  im : F
  deriving DecidableEq

namespace Complex

variable {F : Type}

instance [Zero F] : Zero (Complex F) := ⟨⟨0, 0⟩⟩

instance [Zero F] [One F] : One (Complex F) := ⟨⟨1, 0⟩⟩

instance [Add F] : Add (Complex F) := ⟨fun a b => ⟨a.re + b.re, a.im + b.im⟩⟩

instance [Neg F] : Neg (Complex F) := ⟨fun a => ⟨-a.re, -a.im⟩⟩

instance [Add F] [Sub F] [Mul F] : Mul (Complex F) :=
  ⟨fun a b => ⟨a.re * b.re - a.im * b.im, a.re * b.im + a.im * b.re⟩⟩

def I [Zero F] [One F] : Complex F := ⟨0, 1⟩

def normSq [Add F] [Mul F] (a : Complex F) : F := a.re * a.re + a.im * a.im

def conj [Neg F] (a : Complex F) : Complex F := ⟨a.re, -a.im⟩

def fromPolar [FloatOps F] (r theta : F) : Complex F :=
  ⟨r * FloatOps.cos theta, r * FloatOps.sin theta⟩

@[simp] lemma zero_re [Zero F] : (0 : Complex F).re = 0 := rfl

@[simp] lemma zero_im [Zero F] : (0 : Complex F).im = 0 := rfl

@[simp] lemma add_re [Add F] (a b : Complex F) : (a + b).re = a.re + b.re := rfl

@[simp] lemma add_im [Add F] (a b : Complex F) : (a + b).im = a.im + b.im := rfl

lemma add_assoc_complex [AddSemigroup F] (a b c : Complex F) : a + b + c = a + (b + c) :=
  Complex.ext (add_assoc a.re b.re c.re) (add_assoc a.im b.im c.im)

lemma add_comm_complex [AddCommMagma F] (a b : Complex F) : a + b = b + a :=
  Complex.ext (add_comm a.re b.re) (add_comm a.im b.im)

lemma zero_add_complex [AddZeroClass F] (a : Complex F) : 0 + a = a :=
  Complex.ext (zero_add a.re) (zero_add a.im)

lemma add_zero_complex [AddZeroClass F] (a : Complex F) : a + 0 = a :=
  Complex.ext (add_zero a.re) (add_zero a.im)

/-- Exact addition of amplitudes is associative and commutative, so amplitudes
can be summed over sets of indices. -/
instance [AddCommMonoid F] : AddCommMonoid (Complex F) where
  add_assoc := add_assoc_complex
  add_comm := add_comm_complex
  zero_add := zero_add_complex
  add_zero := add_zero_complex
  nsmul := nsmulRec

end Complex

/-!
## Gates

The gate library (`crates/waros-quantum/src/gate.rs`). A gate carries its
printed name besides its matrix, and the name of a rotation shows the angle
with three decimals only.
-/

open Lib FloatOps Complex

/-- How floating point numbers are printed and read: `{x:.3}`, `{x}` and
`str::parse::<f64>`. -/
structure FloatText (F : Type) where
  fixed3 : F → Str
  display : F → Str
  parse : Str → Option F

structure Gate (F : Type) where
  name : Str
  /-- The rows of the matrix, one after the other. -/
  matrix : List (Complex F)
  numQubits : ℕ

namespace Gate

variable {F : Type}

def single (name : Str) (m₀₀ m₀₁ m₁₀ m₁₁ : Complex F) : Gate F := ⟨name, [m₀₀, m₀₁, m₁₀, m₁₁], 1⟩

def twoQubit (name : Str) (rows : List (List (Complex F))) : Gate F := ⟨name, rows.flatten, 2⟩

/-- An entry of the matrix; `none` where the index panics. -/
def get (gate : Gate F) (row col : ℕ) : Option (Complex F) :=
  gate.matrix[row * 2 ^ gate.numQubits + col]?

/-- The conjugate transpose of a gate whose matrix has `4 ^ numQubits` entries. -/
def dagger [Zero F] [Neg F] (gate : Gate F) : Gate F where
  name := gate.name ++ "^dagger".toList
  matrix := (List.range gate.matrix.length).map fun i =>
    ((gate.get (i % 2 ^ gate.numQubits) (i / 2 ^ gate.numQubits)).getD 0).conj
  numQubits := gate.numQubits

/-- The gate acts on `k` qubits. -/
structure OnQubits (gate : Gate F) (k : ℕ) : Prop where
  width : gate.numQubits = k
  size : gate.matrix.length = 4 ^ k

lemma OnQubits.dagger [Zero F] [Neg F] {gate : Gate F} {k : ℕ} (h : gate.OnQubits k) :
    gate.dagger.OnQubits k :=
  ⟨h.width, by rw [Gate.dagger, List.length_map, List.length_range, h.size]⟩

def inverse [Zero F] [Neg F] (gate : Gate F) : Gate F := gate.dagger

section
variable [FloatOps F]

/-! ### Single-qubit gates -/

def x : Gate F := single "X".toList 0 1 1 0

def y : Gate F := single "Y".toList 0 ⟨0, -1⟩ ⟨0, 1⟩ 0

def z : Gate F := single "Z".toList 1 0 0 (-1)

def h : Gate F :=
  let s : Complex F := ⟨fracOneSqrtTwo, 0⟩
  single "H".toList s s s (-s)

def s : Gate F := single "S".toList 1 0 0 Complex.I

def sdg : Gate F := single "Sdg".toList 1 0 0 ⟨0, -1⟩

def t : Gate F := single "T".toList 1 0 0 (fromPolar 1 (pi / lit 4))

def tdg : Gate F := single "Tdg".toList 1 0 0 (fromPolar 1 (-pi / lit 4))

variable (text : FloatText F)

def angleName (gate : String) (theta : F) : Str := gate.toList ++ '(' :: text.fixed3 theta ++ [')']

variable (theta : F)

def rx : Gate F :=
  let c : Complex F := ⟨cos (theta / lit 2), 0⟩
  let s : Complex F := ⟨0, -sin (theta / lit 2)⟩
  single (angleName text "Rx" theta) c s s c

def ry : Gate F :=
  let c : Complex F := ⟨cos (theta / lit 2), 0⟩
  let s : Complex F := ⟨sin (theta / lit 2), 0⟩
  single (angleName text "Ry" theta) c (-s) s c

def rz : Gate F :=
  single (angleName text "Rz" theta) (fromPolar 1 (-theta / lit 2)) 0 0
    (fromPolar 1 (theta / lit 2))

def sx : Gate F :=
  let a : Complex F := ⟨lit (1 / 2), lit (1 / 2)⟩
  let b : Complex F := ⟨lit (1 / 2), lit (-1 / 2)⟩
  single "SX".toList a b b a

def u3 (theta phi lambda : F) : Gate F :=
  let ct := cos (theta / lit 2)
  let st := sin (theta / lit 2)
  single
    ("U3(".toList ++ text.fixed3 theta ++ ',' :: text.fixed3 phi ++ ',' :: text.fixed3 lambda ++
      [')'])
    ⟨ct, 0⟩ (fromPolar (-st) lambda) (fromPolar st phi)
    (fromPolar ct (phi + lambda))

def cnot : Gate F := twoQubit "CNOT".toList [[1, 0, 0, 0], [0, 1, 0, 0], [0, 0, 0, 1], [0, 0, 1, 0]]

def cz : Gate F := twoQubit "CZ".toList [[1, 0, 0, 0], [0, 1, 0, 0], [0, 0, 1, 0], [0, 0, 0, -1]]

def swap : Gate F := twoQubit "SWAP".toList [[1, 0, 0, 0], [0, 0, 1, 0], [0, 1, 0, 0], [0, 0, 0, 1]]

def cy : Gate F :=
  twoQubit "CY".toList [[1, 0, 0, 0], [0, 1, 0, 0], [0, 0, 0, ⟨0, -1⟩], [0, 0, ⟨0, 1⟩, 0]]

def rzz : Gate F :=
  let p₁ : Complex F := fromPolar 1 (-theta / lit 2)
  let p₂ : Complex F := fromPolar 1 (theta / lit 2)
  twoQubit (angleName text "Rzz" theta)
    [[p₁, 0, 0, 0], [0, p₂, 0, 0], [0, 0, p₂, 0], [0, 0, 0, p₁]]

/-- The largest `i32`. -/
def maxExponent : ℕ := 2 ^ 31 - 1

def crk (k : ℕ) : Gate F :=
  let exponent := min k maxExponent
  let angle := lit 2 * pi / powi (lit 2) exponent
  twoQubit ("CR".toList ++ .ofNat k)
    [[1, 0, 0, 0], [0, 1, 0, 0], [0, 0, 1, 0], [0, 0, 0, fromPolar 1 angle]]

end

end Gate

end Waros.Quantum
