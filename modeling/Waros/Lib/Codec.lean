import Mathlib.Algebra.Order.Ring.Nat
import Mathlib.Data.Char

/-!
Encodings of values as bytes. A `Codec` is what a serialisation library
offers: an encoder that may refuse, and a decoder. A `Wire` is a format that
can be read off the front of a byte string; formats are put together from
smaller ones, and each one carries the proof that it reads back what it
writes.
-/

namespace Waros.Lib

structure Codec (α : Type) where
  encode : α → Option (List UInt8)
  decode : List UInt8 → Option α

/-- What is encoded is decoded to the same value. -/
def Codec.RoundTrips {α : Type} (codec : Codec α) : Prop :=
  ∀ a bytes, codec.encode a = some bytes → codec.decode bytes = some a

structure Wire (α : Type) where
  put : α → List UInt8
  get : List UInt8 → Option (α × List UInt8)
  get_put : ∀ a rest, get (put a ++ rest) = some (a, rest)

namespace Wire

open List
variable {α β : Type} (wire : Wire α) (b : Bool) (n : ℕ) (c : Char)

/-- The whole byte string must be read. -/
def codec : Codec α where
  encode a := some (wire.put a)
  decode bytes :=
    match wire.get bytes with
    | some (a, []) => some a
    | _ => none

lemma codec_roundTrips : wire.codec.RoundTrips := by
  rintro a bytes h
  obtain rfl : wire.put a = bytes := Option.some.inj h
  have hget := wire.get_put a []
  rw [append_nil] at hget
  simp only [codec, hget]

/-! ### Formats put together from others -/

section
variable (wire : Wire α) (other : Wire β)

def getVia (f : β → α) (bytes : List UInt8) : Option (α × List UInt8) :=
  (other.get bytes).map fun (b, rest) => (f b, rest)

lemma getVia_put {f : α → β} {g : β → α} (h : ∀ a, g (f a) = a) (a : α) (rest : List UInt8) :
    getVia other g (other.put (f a) ++ rest) = some (a, rest) := by
  simp [getVia, other.get_put, h]

/-- The format of the values that `f` turns into values with a format. -/
def comap (f : α → β) (g : β → α) (h : ∀ a, g (f a) = a) : Wire α :=
  ⟨fun a => other.put (f a), getVia other g, getVia_put other h⟩

def getPair (bytes : List UInt8) : Option ((α × β) × List UInt8) :=
  (wire.get bytes).bind fun (a, rest) => (other.get rest).map fun (b, rest) => ((a, b), rest)

lemma getPair_put (p : α × β) (rest : List UInt8) :
    getPair wire other (wire.put p.1 ++ other.put p.2 ++ rest) = some (p, rest) := by
  simp [getPair, wire.get_put, other.get_put]

def pair : Wire (α × β) :=
  ⟨fun p => wire.put p.1 ++ other.put p.2, getPair wire other, getPair_put wire other⟩

def putOption : Option α → List UInt8
  | none => [0]
  | some a => 1 :: wire.put a

def getOption : List UInt8 → Option (Option α × List UInt8)
  | [] => none
  | byte :: rest =>
    if byte = 0 then some (none, rest)
    else (wire.get rest).map fun (a, rest) => (some a, rest)

lemma getOption_put (a : Option α) (rest : List UInt8) :
    getOption wire (putOption wire a ++ rest) = some (a, rest) := by
  cases a with
  | none => rfl
  | some => simp [putOption, getOption, wire.get_put]

def option : Wire (Option α) := ⟨putOption wire, getOption wire, getOption_put wire⟩

/-- The values in order, each after a one, and a zero. -/
def putList : List α → List UInt8
  | [] => [0]
  | a :: as => 1 :: (wire.put a ++ putList as)

/-- Reads at most `fuel` values. -/
def getList : ℕ → List UInt8 → Option (List α × List UInt8)
  | 0, _ => none
  | _ + 1, [] => none
  | fuel + 1, byte :: rest =>
    if byte = 0 then some ([], rest)
    else (wire.get rest).bind fun (a, rest) =>
      (getList fuel rest).map fun (as, rest) => (a :: as, rest)

variable (as : List α)

lemma getList_putList (rest : List UInt8) {fuel : ℕ} (hfuel : as.length < fuel) :
    getList wire fuel (putList wire as ++ rest) = some (as, rest) := by
  induction as generalizing fuel with
  | nil =>
    cases fuel with
    | zero => cases hfuel
    | succ => rfl
  | cons _ _ ih =>
    cases fuel with
    | zero => cases hfuel
    | succ =>
      have hr := ih (Nat.lt_of_succ_lt_succ hfuel)
      simp [putList, getList, wire.get_put, hr]

lemma length_lt_putList : as.length < (putList wire as).length := by
  induction as with
  | nil => simp [putList]
  | cons =>
    simp only [putList, length_cons, length_append]
    omega

lemma getList_put (rest : List UInt8) :
    getList wire (putList wire as ++ rest).length (putList wire as ++ rest) = some (as, rest) := by
  apply getList_putList
  have := length_lt_putList wire as
  rw [length_append]
  omega

def list : Wire (List α) :=
  ⟨putList wire, fun bytes => getList wire bytes.length bytes, getList_put wire⟩

end

/-! ### Formats of simple values -/

def putBool : List UInt8 := [if b then 1 else 0]

def getBool : List UInt8 → Option (Bool × List UInt8)
  | [] => none
  | byte :: rest => some (byte == 1, rest)

lemma getBool_put (rest : List UInt8) : getBool (putBool b ++ rest) = some (b, rest) := by
  cases b <;> rfl

def bool : Wire Bool := ⟨putBool, getBool, getBool_put⟩

def getByte : List UInt8 → Option (UInt8 × List UInt8)
  | [] => none
  | byte :: rest => some (byte, rest)

def byte : Wire UInt8 := ⟨fun b => [b], getByte, fun _ _ => rfl⟩

/-- A number as that many ones and a zero. -/
def putNat : List UInt8 := replicate n 1 ++ [0]

def getNat : List UInt8 → Option (ℕ × List UInt8)
  | [] => none
  | byte :: rest =>
    if byte = 0 then some (0, rest) else (getNat rest).map fun (n, rest) => (n + 1, rest)

lemma getNat_put (rest : List UInt8) : getNat (putNat n ++ rest) = some (n, rest) := by
  induction n with
  | zero => rfl
  | succ _ ih => simpa [putNat, replicate_succ, getNat] using ih

def nat : Wire ℕ := ⟨putNat, getNat, getNat_put⟩

/-- The scalar value of a character in four digits to the base 64. -/
def putChar : List UInt8 :=
  [.ofNat (c.toNat / 262144), .ofNat (c.toNat / 4096 % 64),
    .ofNat (c.toNat / 64 % 64), .ofNat (c.toNat % 64)]

def getChar : List UInt8 → Option (Char × List UInt8)
  | b₃ :: b₂ :: b₁ :: b₀ :: rest =>
    some (.ofNat (b₃.toNat * 262144 + b₂.toNat * 4096 + b₁.toNat * 64 + b₀.toNat), rest)
  | _ => none

lemma getChar_put (rest : List UInt8) : getChar (putChar c ++ rest) = some (c, rest) := by
  have hlt : c.toNat < 0x110000 := by
    rcases c.valid with h | h
    · exact lt_trans h (by decide)
    · exact h.2
  have hval : c.toNat / 262144 % 256 * 262144 + c.toNat / 4096 % 64 % 256 * 4096 +
      c.toNat / 64 % 64 % 256 * 64 + c.toNat % 64 % 256 = c.toNat := by omega
  simp [getChar, putChar, hval]

def char : Wire Char := ⟨putChar, getChar, getChar_put⟩

end Wire

end Waros.Lib
