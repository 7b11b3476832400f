import Mathlib.Data.Nat.Basic

/-!
The capability bit field and the default sets of
`kernel/src/security/capabilities.rs`. Bits 0–15 are the standard
capabilities, bits 16–31 the WarOS-exclusive ones.
-/

namespace Waros.Kernel.Security

/-- A `bitflags` set over `u64`. -/
structure Capabilities where
  bits : BitVec 64
  deriving DecidableEq

namespace Capabilities

/-- The capability with the given bit number. -/
def bit (n : ℕ) : Capabilities := ⟨1#64 <<< n⟩

def userAdmin := bit 0
def fsAdmin := bit 1
def fileReadAll := bit 2
def fileWriteAll := bit 3
def processAdmin := bit 4
def netAdmin := bit 5
def netRaw := bit 6
def netBindService := bit 7
def hwAccess := bit 8
def sysTime := bit 9
def sysPower := bit 10
def pkgInstall := bit 11
def quantumAlloc := bit 16
def quantumExecute := bit 17
def quantumRemote := bit 18
def cryptoPq := bit 19
def cryptoKeygen := bit 20
def entropyAccess := bit 21
def aiInference := bit 22
def securityAdmin := bit 23
def auditRead := bit 24
def firewallBypass := bit 25

def union (a b : Capabilities) : Capabilities := ⟨a.bits ||| b.bits⟩

/-- The operator `&`. -/
def inter (a b : Capabilities) : Capabilities := ⟨a.bits &&& b.bits⟩

/-- `a.remove(b)`. -/
def remove (a b : Capabilities) : Capabilities := ⟨a.bits &&& ~~~b.bits⟩

def contains (a b : Capabilities) : Bool := a.bits &&& b.bits == b.bits

/-- Every capability of `a` is one of `b`. -/
def Subset (a b : Capabilities) : Prop := b.contains a
  deriving Decidable

instance : HasSubset Capabilities := ⟨Subset⟩

instance (a b : Capabilities) : Decidable (a ⊆ b) := inferInstanceAs (Decidable (Subset a b))

lemma subset_iff {a b : Capabilities} : a ⊆ b ↔ b.bits &&& a.bits = a.bits := by
  change b.contains a ↔ _
  simp [contains]

lemma contains_iff_subset {a b : Capabilities} : a.contains b ↔ b ⊆ a := .rfl

lemma Subset.refl (a : Capabilities) : a ⊆ a := by simp [subset_iff]

lemma Subset.trans {a b c : Capabilities} (hab : a ⊆ b) (hbc : b ⊆ c) : a ⊆ c := by
  rw [subset_iff] at *
  rw [← hab, ← BitVec.and_assoc, hbc]

variable (a b : Capabilities)

lemma inter_subset_left : a.inter b ⊆ a := by simp [subset_iff, inter, ← BitVec.and_assoc]

lemma inter_subset_right : a.inter b ⊆ b := by
  simp [subset_iff, inter, BitVec.and_comm a.bits, ← BitVec.and_assoc]

lemma remove_subset : a.remove b ⊆ a := by simp [subset_iff, remove, ← BitVec.and_assoc]

/-- `a` and `b` have no capability in common. -/
def Disjoint : Prop := a.bits &&& b.bits = 0#64
  deriving Decidable

lemma remove_disjoint : Disjoint (a.remove b) b := by simp [Disjoint, remove, BitVec.and_assoc]

lemma Disjoint.mono {a b c : Capabilities} (hab : a ⊆ b) (hbc : Disjoint b c) : Disjoint a c := by
  rw [subset_iff] at hab
  rw [Disjoint] at *
  rw [← hab, BitVec.and_assoc, BitVec.and_comm a.bits, ← BitVec.and_assoc, hbc, BitVec.zero_and]

end Capabilities

open Capabilities

def adminDefault : Capabilities :=
  [userAdmin, fsAdmin, fileReadAll, fileWriteAll, processAdmin, netAdmin, netRaw,
    netBindService, hwAccess, sysTime, sysPower, pkgInstall, quantumAlloc, quantumExecute,
    quantumRemote, cryptoPq, cryptoKeygen, entropyAccess, aiInference, securityAdmin,
    auditRead, firewallBypass].foldl union ⟨0⟩

def userDefault : Capabilities :=
  [quantumAlloc, quantumExecute, cryptoPq, cryptoKeygen, aiInference,
    netBindService].foldl union ⟨0⟩

end Waros.Kernel.Security
