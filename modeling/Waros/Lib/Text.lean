import Mathlib.Algebra.Order.Ring.Nat
import Mathlib.Data.List.DropRight

/-!
Strings as lists of Unicode scalar values, with the operations of the Rust
string library that path handling is written in. Lengths are counted in
UTF-8 bytes, trimming removes the Unicode `White_Space` characters, and
`splitOn` keeps empty pieces.
-/

namespace Waros.Lib

abbrev Str := List Char

namespace Str

open List String
variable (s : Str) (c : Char)

/-- The length of a string in bytes of its UTF-8 encoding. -/
def byteLen : ℕ := (s.map Char.utf8Size).sum

/-- The Unicode `White_Space` property. -/
def isWhitespace : Bool :=
  let n := c.toNat
  (0x09 ≤ n && n ≤ 0x0D) || n == 0x20 || n == 0x85 || n == 0xA0 || n == 0x1680 ||
    (0x2000 ≤ n && n ≤ 0x200A) || n == 0x2028 || n == 0x2029 || n == 0x202F ||
    n == 0x205F || n == 0x3000

def trim : Str := (s.dropWhile isWhitespace).rdropWhile isWhitespace

def trimEndMatches (s : Str) : Str := s.rdropWhile (· == c)

def stripPrefix (p s : Str) : Option Str :=
  if p.isPrefixOf s then some (s.drop p.length) else none

/-- What stands before the last occurrence of `c`, if there is one: the
slice `s[..s.rfind(c)]`. -/
def beforeLast (s : Str) : Option Str :=
  match s.reverse.dropWhile (· != c) with
  | [] => none
  | _ :: rest => some rest.reverse

/-- `str::rsplit(c).next()`: the piece after the last occurrence of `c`. -/
def afterLast (s : Str) : Str := (s.reverse.takeWhile (· != c)).reverse

/-- The slice `&s[..n]` of the first `n` bytes; `none` where it panics,
because `n` is past the end or inside a character. -/
def sliceTo : ℕ → Str → Option Str
  | 0, _ => some []
  | _ + 1, [] => none
  | n + 1, c :: cs =>
    if c.utf8Size ≤ n + 1 then (sliceTo (n + 1 - c.utf8Size) cs).map (c :: ·) else none
  termination_by _ s => s.length

def ofUtf8 (bytes : List UInt8) : Option Str := (fromUTF8? ⟨bytes.toArray⟩).map toList

/-- `str::as_bytes`. -/
def toUtf8 : List UInt8 := s.flatMap utf8EncodeChar

/-- The decimal digits of a number, as `{n}` prints them. -/
def ofNat (n : ℕ) : Str := Nat.toDigits 10 n

lemma trim_of_no_whitespace {s : Str} (h : ∀ c ∈ s, isWhitespace c = false) : trim s = s := by
  have hdrop : s.dropWhile isWhitespace = s := by
    rw [dropWhile_eq_self_iff]
    intro hs
    simp [h]
  rw [trim, hdrop, rdropWhile_eq_self_iff]
  intro hs
  simp [h]

/-- Trimming a string that ends in something without whitespace only affects
what stands before it. -/
lemma trim_append_cons {s t : Str} {c : Char} (hc : isWhitespace c = false)
    (ht : ∀ x ∈ t, isWhitespace x = false) :
    trim (s ++ c :: t) = s.dropWhile isWhitespace ++ c :: t := by
  have hdrop : (s ++ c :: t).dropWhile isWhitespace = s.dropWhile isWhitespace ++ c :: t := by
    rw [dropWhile_append]
    split_ifs with hemp
    · rw [isEmpty_iff.mp hemp]
      simp [hc]
    · rfl
  rw [trim, hdrop]
  rcases mem_cons.mp (getLast_mem (cons_ne_nil c t)) with hla | hla
  · simp [hla, hc]
  · simp [ht _ hla]

/-- Every character other than the separator ends up in some piece. -/
lemma exists_mem_splitOn {a x : Char} {s : Str} (hx : x ∈ s) (hne : x ≠ a) :
    ∃ piece ∈ s.splitOn a, x ∈ piece := by
  induction s with
  | nil => simp at hx
  | cons y ys ih =>
    rw [splitOn_cons_eq_if_modifyHead]
    obtain ⟨piece, pieces, hspl⟩ := exists_cons_of_ne_nil (splitOn_ne_nil a ys)
    by_cases hya : y = a
    · have hxy : x ∈ ys := by
        rcases mem_cons.mp hx with rfl | hx
        · exact absurd hya hne
        · exact hx
      obtain ⟨p, hp, hxp⟩ := ih hxy
      exact ⟨p, by simp [hya, hp], hxp⟩
    · rw [if_neg (by simp [hya]), hspl]
      rcases mem_cons.mp hx with rfl | hx
      · exact ⟨x :: piece, by simp, by simp⟩
      · obtain ⟨p, hp, hxp⟩ := ih hx
        rw [hspl] at hp
        rcases mem_cons.mp hp with rfl | hp
        · exact ⟨y :: p, by simp, by simp [hxp]⟩
        · exact ⟨p, by simp [hp], hxp⟩

lemma stripPrefix_eq_some {p s rest : Str} : stripPrefix p s = some rest ↔ s = p ++ rest := by
  rw [stripPrefix]
  split_ifs with hp
  · obtain ⟨t, rfl⟩ := isPrefixOf_iff_prefix.mp hp
    simp
  · constructor
    · intro h
      cases h
    · rintro rfl
      exact absurd ( isPrefixOf_iff_prefix.2 (prefix_append p rest)) hp

/-- `str::contains`, for a string. -/
def contains (text needle : Str) : Bool := text.tails.any needle.isPrefixOf

lemma toUtf8_of_ofUtf8 {bytes : List UInt8} {text : Str} (h : ofUtf8 bytes = some text) :
    toUtf8 text = bytes := by
  obtain ⟨s, hs, rfl⟩ := Option.map_eq_some_iff.mp h
  have hbs : s.toByteArray = ⟨bytes.toArray⟩ := by
    unfold fromUTF8? at hs
    split at hs
    · cases hs
      rfl
    · simp at hs
  have henc := congrArg (fun b : ByteArray => b.data.toList) (utf8Encode_toList (b := s))
  rw [hbs] at henc
  simpa [utf8Encode, toUtf8] using henc

lemma ofUtf8_toUtf8 : ofUtf8 (toUtf8 s) = some s := by
  have henc : (⟨(toUtf8 s).toArray⟩) = utf8Encode s := by
    apply ByteArray.ext
    simp [utf8Encode, toUtf8]
  have hvali : (utf8Encode s).IsValidUTF8 := ⟨s, rfl⟩
  rw [ofUtf8, henc, fromUTF8?, dif_pos hvali]
  exact congrArg some (toList_ofList (l := s))

lemma toUtf8_append (s t : Str) : toUtf8 (s ++ t) = toUtf8 s ++ toUtf8 t := flatMap_append

lemma length_toUtf8 : (toUtf8 s).length = byteLen s := by
  rw [toUtf8, byteLen]
  simp

/-- Only the character NUL has a zero byte in its encoding. -/
lemma zero_notMem_toUtf8 {s : Str} (h : ∀ c ∈ s, c.toNat ≠ 0) : 0 ∉ toUtf8 s := by
  intro hmem
  obtain ⟨c, hc, h0⟩ := mem_flatMap.1 hmem
  have hne := h c hc
  have hval : c.toNat = c.val.toNat := rfl
  simp only [utf8EncodeChar] at h0
  split_ifs at h0 <;> simp [← UInt8.toNat_inj] at h0 <;> omega

end Str

end Waros.Lib
