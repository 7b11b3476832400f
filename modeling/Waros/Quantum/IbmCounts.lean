import Waros.Lib.Text
import Mathlib.Data.List.Nodup
import Mathlib.Data.List.Pairwise
import Mathlib.Data.Nat.Bitwise

/-!
The measurement counts in the results of the IBM backend (`backends/ibm/mod.rs`),
with the outcomes as strings of bits, that of the first qubit first.
-/

namespace Waros.Quantum.Ibm

open Lib Str List Nat

def hexDigit (c : Char) : Option ℕ :=
  if '0' ≤ c ∧ c ≤ '9' then some (c.toNat - 48)
  else if 'a' ≤ c ∧ c ≤ 'f' then some (c.toNat - 87)
  else if 'A' ≤ c ∧ c ≤ 'F' then some (c.toNat - 55)
  else none

def pushDigit (value : ℕ) (c : Char) : Option ℕ :=
  (hexDigit c).bind fun digit =>
    if 16 * value + digit < 2 ^ 128 then some (16 * value + digit) else none

/-- `u128::from_str_radix(_, 16)`. -/
def fromStrRadix (s : Str) : Option ℕ :=
  let digits := (stripPrefix ['+'] s).getD s
  if digits = [] then none else digits.foldlM pushDigit 0

def normalizeIbmState (state : Str) (width : ℕ) : Str :=
  let trimmed := trim state
  match (stripPrefix "0x".toList trimmed).or (stripPrefix "0X".toList trimmed) with
  | some hex => (leftpad width '0' (toDigits 2 ((fromStrRadix hex).getD 0))).reverse
  | none =>
    let binary := trimmed.filter (· ≠ ' ')
    if byteLen binary < width then leftpad width '0' binary else binary

/-- The values of JSON, with what `as_u64` gives of a number. -/
inductive Value
  | number (asU64 : Option ℕ)
  | array (values : List Value)
  | object (map : List (Str × Value))
  | other

def Value.asObject : Value → Option (List (Str × Value))
  | object map => some map
  | _ => none

def parseCount (width : ℕ) : Str × Value → Option (Str × ℕ)
  | (state, .number (some value)) =>
    if value < 2 ^ 32 then some (normalizeIbmState state width, value) else none
  | _ => none

def parseCounts (outputBits : Option ℕ) (counts : List (Str × Value)) :
    Option (List (Str × ℕ)) :=
  let width := outputBits.getD
    ((counts.map fun entry => (normalizeIbmState entry.1 0).byteLen).foldl max 0)
  -- of the entries under one key, the last stays in a `HashMap`
  (counts.mapM (parseCount width)).map (pwFilter fun a b => a.1 ≠ b.1)

mutual

def extractCounts (outputBits : Option ℕ) : Value → Option (List (Str × ℕ))
  | .object map =>
    match (map.lookup "counts".toList).bind Value.asObject with
    | some counts => parseCounts outputBits counts
    | none => firstField outputBits map
  | .array values => firstValue outputBits values
  | _ => none

def firstField (outputBits : Option ℕ) : List (Str × Value) → Option (List (Str × ℕ))
  | [] => none
  | (_, nested) :: map => (extractCounts outputBits nested).or (firstField outputBits map)

def firstValue (outputBits : Option ℕ) : List Value → Option (List (Str × ℕ))
  | [] => none
  | nested :: values => (extractCounts outputBits nested).or (firstValue outputBits values)

end

/-! ### Outcomes -/

/-- The bits of an outcome, the lowest first. -/
def bitString (w v : ℕ) : Str := (range w).map fun i => if v.testBit i then '1' else '0'

/-- The form of an outcome in the results of the service. -/
def hexForm (v : ℕ) : Str := "0x".toList ++ toDigits 16 v

/-- A binary form: the highest bit first, with or without spaces. -/
def IsBinaryForm (w v : ℕ) (s : Str) : Prop := s.filter (· ≠ ' ') = (bitString w v).reverse
  deriving Decidable

variable {w v : ℕ}

lemma bitString_succ : bitString (w + 1) v = digitChar (v % 2) :: bitString w (v / 2) := by
  rw [bitString, range_succ_eq_map, map_cons]
  congr 1
  · rcases mod_two_eq_zero_or_one v with h | h <;> simp [h]
  · simp [bitString, testBit_succ]

lemma leftpad_toDigits (hv : v < 2 ^ (w + 1)) :
    leftpad (w + 1) '0' (toDigits 2 v) = (bitString (w + 1) v).reverse := by
  induction w generalizing v with
  | zero =>
    have hv : v = 0 ∨ v = 1 := by omega
    rcases hv with rfl | rfl <;> decide
  | succ w ih =>
    rw [bitString_succ, reverse_cons, ← ih (by omega), toDigits_eq_if (by decide)]
    split_ifs with hlt
    · have hzero : v / 2 = 0 := by omega
      rw [hzero, mod_eq_of_lt hlt]
      simp [replicate_succ']
    · simp

lemma hexDigit_digitChar : ∀ d < 16, hexDigit (digitChar d) = some d := by decide

lemma foldlM_toDigits (hv : v < 2 ^ 128) : (toDigits 16 v).foldlM pushDigit 0 = some v := by
  induction v using Nat.strong_induction_on with
  | _ v ih =>
    rw [toDigits_eq_if (by decide)]
    split_ifs with hlt
    · simpa [pushDigit, hexDigit_digitChar v hlt] using hv
    · rw [foldlM_append, ih (v / 16) (by omega) (by omega)]
      have hdiv : 16 * (v / 16) + v % 16 = v := by omega
      simpa [pushDigit, hexDigit_digitChar (v % 16) (by omega), hdiv] using hv

lemma digit_of_mem {c : Char} (hc : c ∈ toDigits 16 v) : isWhitespace c = false ∧ c ≠ '+' := by
  have hdigit : ∀ d < 16, isWhitespace (digitChar d) = false ∧ digitChar d ≠ '+' := by
    decide
  induction v using Nat.strong_induction_on with
  | _ v ih =>
    rw [toDigits_eq_if (by decide)] at hc
    split_ifs at hc with hlt
    · exact mem_singleton.1 hc ▸ hdigit v hlt
    · rcases mem_append.1 hc with hc | hc
      · exact ih (v / 16) (by omega) hc
      · exact mem_singleton.1 hc ▸ hdigit (v % 16) (by omega)

lemma stripPrefix_of_notMem {p s : Str} {c : Char} (hp : c ∈ p) (hs : c ∉ s) :
    stripPrefix p s = none :=
  if_neg fun h => hs (( isPrefixOf_iff_prefix.1 h).subset hp)

lemma normalize_hex (hw : w + 1 ≤ 128) (hv : v < 2 ^ (w + 1)) :
    normalizeIbmState (hexForm v) (w + 1) = bitString (w + 1) v := by
  have hmem : ∀ c ∈ "0x".toList ++ toDigits 16 v, isWhitespace c = false := by
    intro c hc
    rcases mem_append.1 hc with hc | hc
    · obtain rfl | rfl : c = '0' ∨ c = 'x' := by simpa using hc
      all_goals decide
    · exact (digit_of_mem hc).1
  have hlt : v < 2 ^ 128 := hv.trans_le (Nat.pow_le_pow_right (by decide) hw)
  have hparse : fromStrRadix (toDigits 16 v) = some v := by
    rw [fromStrRadix,
      stripPrefix_of_notMem (mem_singleton_self '+') fun h => (digit_of_mem h).2 rfl]
    exact (if_neg toDigits_ne_nil).trans (foldlM_toDigits hlt)
  have hstrip : stripPrefix "0x".toList ("0x".toList ++ toDigits 16 v) = some (toDigits 16 v) := rfl
  rw [normalizeIbmState, hexForm, trim_of_no_whitespace hmem, hstrip]
  dsimp only [Option.some_or]
  rw [hparse, Option.getD_some, leftpad_toDigits hv, reverse_reverse]

/-- A string whose blanks are spaces keeps all else when it is trimmed. -/
lemma filter_trim {s : Str} (hs : ∀ c ∈ s, isWhitespace c → c = ' ') :
    (trim s).filter (· ≠ ' ') = s.filter (· ≠ ' ') := by
  have hdrop (t : Str) (ht : t ⊆ s) :
      (t.dropWhile isWhitespace).filter (· ≠ ' ') = t.filter (· ≠ ' ') := by
    have hnil : (t.takeWhile isWhitespace).filter (· ≠ ' ') = [] := by
      rw [filter_eq_nil_iff]
      intro c hc
      simpa using hs c (ht (( takeWhile_prefix _).subset hc)) (mem_takeWhile_imp hc)
    conv_rhs => rw [← takeWhile_append_dropWhile (p := isWhitespace) (l := t)]
    rw [filter_append, hnil, nil_append]
  rw [trim, rdropWhile, filter_reverse, hdrop, filter_reverse, reverse_reverse, hdrop s fun _ => id]
  exact fun c hc => (dropWhile_suffix _).subset (mem_reverse.1 hc)

lemma normalize_binary {s : Str} (hs : IsBinaryForm w v s) :
    normalizeIbmState s w = (bitString w v).reverse := by
  have hmem : ∀ c ∈ s, c = ' ' ∨ c = '0' ∨ c = '1' := by
    intro c hc
    by_cases hblank : c = ' '
    · exact .inl hblank
    · have hbit : c ∈ (bitString w v).reverse := hs ▸ mem_filter.2 ⟨hc, by simpa⟩
      rw [mem_reverse, bitString, mem_map] at hbit
      obtain ⟨i, -, rfl⟩ := hbit
      split_ifs <;> simp
  have htrim : (trim s).filter (· ≠ ' ') = (bitString w v).reverse := by
    rw [filter_trim, hs]
    intro c hc hblank
    rcases hmem c hc with rfl | rfl | rfl
    exacts [rfl, absurd hblank (by decide), absurd hblank (by decide)]
  have hsub {c : Char} (hc : c ∈ trim s) : c ∈ s :=
    (dropWhile_suffix _).subset (( rdropWhile_prefix _ _).subset hc)
  rw [normalizeIbmState,
    stripPrefix_of_notMem (c := 'x') (by decide) fun h => absurd (hmem 'x' (hsub h)) (by decide),
    stripPrefix_of_notMem (c := 'X') (by decide) fun h => absurd (hmem 'X' (hsub h)) (by decide)]
  dsimp only [Option.none_or]
  rw [htrim]
  split_ifs
  · simp [bitString]
  · rfl

def countsObject (encode : ℕ → Str) (count : ℕ → ℕ) (outcomes : List ℕ) : Value :=
  .object [("counts".toList, .object (outcomes.map fun v => (encode v, .number (some (count v)))))]

lemma extractCounts_countsObject {encode : ℕ → Str} {count : ℕ → ℕ} {outcomes : List ℕ}
    (hcount : ∀ v ∈ outcomes, count v < 2 ^ 32)
    (hnodup : (outcomes.map fun v => normalizeIbmState (encode v) w).Nodup) :
    extractCounts (some w) (countsObject encode count outcomes) =
      some (outcomes.map fun v => (normalizeIbmState (encode v) w, count v)) := by
  have hparse : (outcomes.map fun v => (encode v, .number (some (count v)))).mapM
      (parseCount w) = some (outcomes.map fun v => (normalizeIbmState (encode v) w, count v)) := by
    clear hnodup
    induction outcomes with
    | nil => rfl
    | cons v outcomes ih =>
      obtain ⟨hlt, hcount⟩ := forall_mem_cons.1 hcount
      rw [map_cons, mapM_cons, ih hcount, parseCount, if_pos hlt]
      rfl
  rw [countsObject, extractCounts]
  simp only [lookup_cons, beq_self_eq_true, Option.bind_some, Value.asObject, parseCounts,
    Option.getD_some, hparse, Option.map_some]
  rw [pwFilter_eq_self.2 (by simpa [Nodup, pairwise_map] using hnodup)]

lemma bitString_inj {u : ℕ} (hu : u < 2 ^ (w + 1)) (hv : v < 2 ^ (w + 1))
    (h : bitString (w + 1) u = bitString (w + 1) v) : u = v := by
  have hvalue {v : ℕ} (hv : v < 2 ^ (w + 1)) :
      ofDigitChars 2 (bitString (w + 1) v).reverse 0 = v := by
    rw [← leftpad_toDigits hv, leftpad, ofDigitChars_append, ofDigitChars_replicate_zero,
      mul_zero, ofDigitChars_toDigits (by decide) (by decide)]
  rw [← hvalue hu, h, hvalue hv]

lemma reverse_bitString_iff :
    (bitString w v).reverse = bitString w v ↔ ∀ i < w, v.testBit i = v.testBit (w - 1 - i) := by
  have hdigit (a b : Bool) : (if a then '1' else '0') = (if b then '1' else '0') ↔ a = b := by
    cases a <;> cases b <;> decide
  simp only [bitString, ext_getElem_iff, length_reverse, getElem_reverse, getElem_map,
    getElem_range, length_map, length_range, true_and, hdigit]
  exact ⟨fun h i hi => (h i hi hi).symm, fun h i hi _ => (h i hi).symm⟩

/-- The binary form is returned as it stands, the highest bit first. -/
theorem normalizeIbmState_iff (hw : 1 ≤ w) (hle : w ≤ 128) (hv : v < 2 ^ w) :
    ((∀ s, IsBinaryForm w v s → normalizeIbmState s w = normalizeIbmState (hexForm v) w ∧
        normalizeIbmState (hexForm v) w = bitString w v) ∧
      ∀ encode, (encode = hexForm ∨ ∀ u, IsBinaryForm w u (encode u)) → ∀ count outcomes,
        outcomes.Nodup → (∀ u ∈ outcomes, u < 2 ^ w ∧ count u < 2 ^ 32) →
          ∃ counts, extractCounts (some w) (countsObject encode count outcomes) = some counts ∧
            (counts.map Prod.fst).Nodup ∧ counts.map Prod.snd = outcomes.map count) ↔
    ∀ i < w, v.testBit i = v.testBit (w - 1 - i) := by
  obtain ⟨w, rfl⟩ := Nat.exists_eq_add_of_le' hw
  rw [← reverse_bitString_iff, normalize_hex hle hv]
  constructor
  · rintro ⟨hbits, -⟩
    have hself : IsBinaryForm (w + 1) v (bitString (w + 1) v).reverse := by
      rw [IsBinaryForm, filter_eq_self]
      intro c hc
      obtain ⟨i, -, rfl⟩ := mem_map.1 (mem_reverse.1 hc)
      split_ifs <;> decide
    exact (normalize_binary hself).symm.trans (hbits _ hself).1
  · intro hpal
    refine ⟨fun s hs => ⟨(normalize_binary hs).trans hpal, rfl⟩, ?_⟩
    intro encode hencode count outcomes hnodup hlt
    have hinj : (outcomes.map fun u => normalizeIbmState (encode u) (w + 1)).Nodup := by
      refine hnodup.map_on fun u hu u' hu' heq => bitString_inj (hlt u hu).1 (hlt u' hu').1 ?_
      rcases hencode with rfl | hbinary
      · rwa [normalize_hex hle (hlt u hu).1, normalize_hex hle (hlt u' hu').1] at heq
      · rwa [normalize_binary (hbinary u), normalize_binary (hbinary u'), reverse_inj] at heq
    refine ⟨_, extractCounts_countsObject (fun u hu => (hlt u hu).2) hinj, ?_, ?_⟩
    · simpa [Function.comp_def] using hinj
    · simp

theorem normalizeIbmState_iff_bell :
    normalizeIbmState "1 1".toList 2 = normalizeIbmState (hexForm 3) 2 ∧
      normalizeIbmState (hexForm 3) 2 = bitString 2 3 :=
  ((normalizeIbmState_iff (by decide) (by decide) (by decide)).2 (by decide)).1 _ (by decide)

theorem normalizeIbmState_binary_one : IsBinaryForm 2 1 "01".toList ∧
    normalizeIbmState "01".toList 2 ≠ normalizeIbmState (hexForm 1) 2 := by decide

end Waros.Quantum.Ibm
