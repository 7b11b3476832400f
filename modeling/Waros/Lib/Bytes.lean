import Waros.Lib.U64

/-!
Records of bytes. A field is a range of the record; putting a value into a
field replaces the range. Numbers are stored least significant byte first.
-/

namespace Waros.Lib.Bytes

open List Nat

/-- The field of `len` bytes at an offset. -/
def field (offset len : ℕ) (record : List UInt8) : List UInt8 := (record.drop offset).take len

/-- Replaces the field at an offset. -/
def put (offset : ℕ) (value record : List UInt8) : List UInt8 :=
  record.take offset ++ value ++ record.drop (offset + value.length)

/-- The low `n` bytes of a number, least significant first. -/
def ofNat : ℕ → ℕ → List UInt8
  | 0, _ => []
  | n + 1, v => .ofNat v :: ofNat n (v / 256)

variable (bytes : List UInt8) (v : UInt16)

/-- The number with the given bytes. -/
abbrev toNat : ℕ := U64.ofBytes bytes

@[simp] lemma length_ofNat (n v : ℕ) : (ofNat n v).length = n := by
  induction n generalizing v with
  | zero => rfl
  | succ _ ih => simp [ofNat, ih]

lemma toNat_ofNat (n v : ℕ) : toNat (ofNat n v) = v % 256 ^ n := by
  induction n generalizing v with
  | zero => simp [ofNat, U64.ofBytes, mod_one]
  | succ n ih =>
    show (UInt8.ofNat v).toNat + 256 * toNat (ofNat n (v / 256)) = v % 256 ^ (n + 1)
    rw [ih, pow_succ', mod_mul]
    simp

def toU16 : UInt16 := .ofNat (toNat bytes)
def toU32 : UInt32 := .ofNat (toNat bytes)
def toU64 : UInt64 := .ofNat (toNat bytes)

def ofU16 : List UInt8 := ofNat 2 v.toNat
def ofU32 (v : UInt32) : List UInt8 := ofNat 4 v.toNat
def ofU64 (v : UInt64) : List UInt8 := ofNat 8 v.toNat

@[simp] lemma length_ofU16 : (ofU16 v).length = 2 := length_ofNat ..
@[simp] lemma length_ofU32 (v : UInt32) : (ofU32 v).length = 4 := length_ofNat ..
@[simp] lemma length_ofU64 (v : UInt64) : (ofU64 v).length = 8 := length_ofNat ..

@[simp] lemma toU16_ofU16 : toU16 (ofU16 v) = v := by
  rw [toU16, ofU16, toNat_ofNat, mod_eq_of_lt (show v.toNat < 256 ^ 2 from v.toNat_lt),
    UInt16.ofNat_toNat]

@[simp] lemma toU32_ofU32 (v : UInt32) : toU32 (ofU32 v) = v := by
  rw [toU32, ofU32, toNat_ofNat, mod_eq_of_lt (show v.toNat < 256 ^ 4 from v.toNat_lt),
    UInt32.ofNat_toNat]

@[simp] lemma toU64_ofU64 (v : UInt64) : toU64 (ofU64 v) = v := by
  rw [toU64, ofU64, toNat_ofNat, mod_eq_of_lt (show v.toNat < 256 ^ 8 from v.toNat_lt),
    UInt64.ofNat_toNat]

variable {value record : List UInt8} {offset len offset' : ℕ}

lemma length_put (h : offset + value.length ≤ record.length) :
    (put offset value record).length = record.length := by
  simp only [put, length_append, length_take, length_drop]
  omega

lemma field_put_same (hlen : value.length = len) (h : offset ≤ record.length) :
    field offset len (put offset value record) = value := by
  have htake : (record.take offset).length = offset := by simp [h]
  rw [field, put, append_assoc, drop_append_of_le_length htake.ge, drop_of_length_le htake.le,
    nil_append, take_append_of_le_length hlen.ge, take_of_length_le hlen.le]

lemma field_put_before (hbef : offset + len ≤ offset') (h : offset' ≤ record.length) :
    field offset len (put offset' value record) = field offset len record := by
  apply ext_getElem?
  intro i
  simp only [field, put, getElem?_take, getElem?_drop, append_assoc]
  split_ifs
  · rw [getElem?_append_left (by simp; omega), getElem?_take, if_pos (by omega)]
  · rfl

end Waros.Lib.Bytes
