import Mathlib.Algebra.Order.Ring.Nat
import Mathlib.Data.List.Sort

/-!
A list used as a table: entries are looked up, changed and removed by a key,
and lookup and change act on the first entry with the key.
-/

namespace Waros.Lib

open List
variable {κ α : Type*} [DecidableEq κ] (key : α → κ)

/-- The first entry with key `k`. -/
def lookup (k : κ) (xs : List α) : Option α := xs.find? fun a => key a = k

/-- Applies `f` to the first entry with key `k`. -/
def modifyFirst (k : κ) (f : α → α) : List α → List α
  | [] => []
  | a :: as => if key a = k then f a :: as else a :: modifyFirst k f as

variable {xs : List α} {a : α} (k : κ) {f : α → α}

lemma lookup_key {key : α → κ} {k : κ} (h : lookup key k xs = some a) : key a = k := by
  simpa using find?_some h

lemma lookup_mem {key : α → κ} {k : κ} (h : lookup key k xs = some a) : a ∈ xs :=
  mem_of_find?_eq_some h

lemma lookup_eq_none {k : κ} : lookup key k xs = none ↔ ∀ a ∈ xs, key a ≠ k := by simp [lookup]

lemma lookup_modifyFirst (hf : ∀ a, key (f a) = key a) (j : κ) (xs : List α) :
    lookup key j (modifyFirst key k f xs) =
      if j = k then (lookup key j xs).map f else lookup key j xs := by
  induction xs with
  | nil => simp [lookup, modifyFirst]
  | cons a _ ih =>
    by_cases hk : key a = k
    · by_cases hj : j = k
      · subst hj
        simp [lookup, modifyFirst, hk, hf]
      · have hkj : ¬ k = j := fun h => hj h.symm
        simp [lookup, modifyFirst, hk, hf, hj, hkj]
    · by_cases haj : key a = j
      · have hj : ¬ j = k := fun h => hk (haj.trans h)
        simp [lookup, modifyFirst, hj, haj]
      · simpa [lookup, modifyFirst, hk, haj] using ih

lemma mem_modifyFirst {k : κ} {b : α} (h : b ∈ modifyFirst key k f xs) :
    b ∈ xs ∨ ∃ a ∈ xs, key a = k ∧ b = f a := by
  induction xs with
  | nil => simp [modifyFirst] at h
  | cons a _ ih =>
    by_cases hk : key a = k
    · simp only [modifyFirst, hk, if_true, mem_cons] at h
      rcases h with rfl | h
      · exact .inr ⟨a, by simp, hk, rfl⟩
      · exact .inl (by simp [h])
    · simp only [modifyFirst, hk, if_false, mem_cons] at h
      rcases h with rfl | h
      · exact .inl (by simp)
      · rcases ih h with h | ⟨c, hc, hck, rfl⟩
        · exact .inl (by simp [h])
        · exact .inr ⟨c, by simp [hc], hck, rfl⟩

/-- A field that the change leaves alone. -/
lemma map_modifyFirst {β : Type*} (g : α → β) (hg : ∀ a, g (f a) = g a) (xs : List α) :
    (modifyFirst key k f xs).map g = xs.map g := by
  induction xs with
  | nil => rfl
  | cons a _ ih =>
    by_cases hk : key a = k
    · simp [modifyFirst, hk, hg]
    · simp [modifyFirst, hk, ih]

lemma map_key_modifyFirst (hf : ∀ a, key (f a) = key a) (xs : List α) :
    (modifyFirst key k f xs).map key = xs.map key :=
  map_modifyFirst key k key hf xs

/-- With distinct keys every entry is found under its key. -/
lemma lookup_of_mem (hnd : (xs.map key).Nodup) (ha : a ∈ xs) : lookup key (key a) xs = some a := by
  induction xs with
  | nil => exact absurd ha not_mem_nil
  | cons b _ ih =>
    rw [map_cons, nodup_cons] at hnd
    rcases mem_cons.1 ha with rfl | ha
    · simp [lookup]
    · have hne : key b ≠ key a := by
        intro h
        exact hnd.1 (h ▸ mem_map_of_mem ha)
      simpa [lookup, hne] using ih hnd.2 ha

/-- With distinct keys, what holds of the other entries and of the changed one
holds of all. -/
lemma forall_mem_modifyFirst {k : κ} (hf : ∀ a, key (f a) = key a) (hnd : (xs.map key).Nodup)
    {P : α → Prop} (ho : ∀ a ∈ xs, key a ≠ k → P a) (hchg : ∀ a ∈ xs, key a = k → P (f a)) :
    ∀ b ∈ modifyFirst key k f xs, P b := by
  intro b hb
  have hl := lookup_of_mem key (map_key_modifyFirst key k hf xs ▸ hnd) hb
  rw [lookup_modifyFirst key k hf] at hl
  by_cases hk : key b = k
  · rw [if_pos hk, Option.map_eq_some_iff] at hl
    obtain ⟨a, ha, rfl⟩ := hl
    exact hchg a (lookup_mem ha) ((lookup_key ha).trans hk)
  · rw [if_neg hk] at hl
    exact ho b (lookup_mem hl) hk

lemma length_modifyFirst (f : α → α) (xs : List α) :
    (modifyFirst key k f xs).length = xs.length := by
  induction xs with
  | nil => rfl
  | cons a _ ih => by_cases hk : key a = k <;> simp [modifyFirst, hk, ih]

/-- Only the value at the first entry matters. -/
lemma modifyFirst_congr {k : κ} {f g : α → α} (h : lookup key k xs = some a) (hfg : f a = g a) :
    modifyFirst key k f xs = modifyFirst key k g xs := by
  induction xs with
  | nil => rfl
  | cons b bs ih =>
    by_cases hk : key b = k
    · obtain rfl : b = a := by simpa [lookup, hk] using h
      simp [modifyFirst, hk, hfg]
    · have hrs : lookup key k bs = some a := by simpa [lookup, hk] using h
      simp [modifyFirst, hk, ih hrs]

lemma modifyFirst_id (xs : List α) : modifyFirst key k id xs = xs := by
  induction xs with
  | nil => rfl
  | cons a _ ih => by_cases hk : key a = k <;> simp [modifyFirst, ih]

/-- A change leaves the table as it is exactly when it keeps the entry it
finds. -/
lemma modifyFirst_eq_self_iff {k : κ} (hf : ∀ a, key (f a) = key a)
    (h : lookup key k xs = some a) : modifyFirst key k f xs = xs ↔ f a = a := by
  constructor
  · intro heq
    have hl := lookup_modifyFirst key k hf k xs
    rw [heq, h] at hl
    simpa using hl.symm
  · intro heq
    rw [modifyFirst_congr key h (show f a = id a from heq), modifyFirst_id]

lemma lookup_append_singleton (xs : List α) (a : α) :
    lookup key k (xs ++ [a]) = (lookup key k xs).or (if key a = k then some a else none) := by
  by_cases h : key a = k <;> simp [lookup]

lemma lookup_eraseP {j k : κ} (h : j ≠ k) (xs : List α) :
    lookup key j (xs.eraseP fun a => key a = k) = lookup key j xs := by
  induction xs with
  | nil => rfl
  | cons a _ ih =>
    by_cases hk : key a = k
    · simp [lookup, hk, symm h]
    · rw [eraseP_cons_of_neg (by simpa using hk)]
      by_cases hj : key a = j
      · simp [lookup, hj]
      · simpa [lookup, hj] using ih

lemma lookup_eraseP_self {k : κ} (hnd : (xs.map key).Nodup) :
    lookup key k (xs.eraseP fun a => key a = k) = none := by
  induction xs with
  | nil => rfl
  | cons a _ ih =>
    rw [map_cons, nodup_cons] at hnd
    by_cases hk : key a = k
    · rw [eraseP_cons_of_pos (by simpa using hk), lookup_eq_none]
      rintro b hb rfl
      exact hnd.1 (hk ▸ mem_map_of_mem hb)
    · rw [eraseP_cons_of_neg (by simpa using hk)]
      have hrs := ih hnd.2
      rw [lookup_eq_none] at hrs ⊢
      intro b hb
      rcases mem_cons.mp hb with rfl | hb
      · exact hk
      · exact hrs b hb

/-- Changing the entry of a key does not show among the entries of the others. -/
lemma filter_ne_modifyFirst (hf : ∀ a, key (f a) = key a) (xs : List α) :
    (modifyFirst key k f xs).filter (fun a => key a ≠ k) = xs.filter fun a => key a ≠ k := by
  induction xs with
  | nil => rfl
  | cons a _ ih =>
    by_cases hk : key a = k
    · simp [modifyFirst, hk, hf]
    · simpa [modifyFirst, hk] using ih

lemma filter_ne_eraseP (xs : List α) :
    (xs.eraseP fun a => key a = k).filter (fun a => key a ≠ k) = xs.filter fun a => key a ≠ k := by
  induction xs with
  | nil => rfl
  | cons a _ ih =>
    by_cases hk : key a = k
    · simp [hk]
    · simpa [hk] using ih

/-- Among distinct keys, the entry of one key can be moved to the end. -/
lemma filter_append_lookup_perm (hnd : (xs.map key).Nodup) :
    (xs.filter (fun a => key a ≠ k) ++ (lookup key k xs).toList).Perm xs := by
  induction xs with
  | nil => exact .nil
  | cons a as ih =>
    rw [map_cons, nodup_cons] at hnd
    by_cases ha : key a = k
    · have hots : as.filter (fun b => key b ≠ k) = as := by
        rw [filter_eq_self]
        intro b hb
        refine decide_eq_true fun hk => hnd.1 ?_
        rw [ha, ← hk]
        exact mem_map_of_mem hb
      have hl : lookup key k (a :: as) = some a := by simp [lookup, ha]
      rw [filter_cons_of_neg (by simpa using ha), hots, hl]
      exact perm_append_singleton a as
    · have hl : lookup key k (a :: as) = lookup key k as := by simp [lookup, ha]
      rw [filter_cons_of_pos (by simpa using ha), hl]
      exact (ih hnd.2).cons a

/-- With distinct keys, a sum over the table is the sum over the other entries
and the one that the key finds. -/
lemma sum_eq_filter_add_lookup (w : α → ℕ) (k : κ) (hnd : (xs.map key).Nodup) :
    (xs.map w).sum = ((xs.filter fun a => key a ≠ k).map w).sum +
      ((lookup key k xs).map w).getD 0 := by
  have hsum := ((filter_append_lookup_perm key k hnd).map w).sum_nat
  rw [← hsum]
  cases lookup key k xs <;> simp

lemma lookup_filter_key (keep : κ → Bool) (k : κ) (xs : List α) :
    lookup key k (xs.filter fun a => keep (key a)) = if keep k then lookup key k xs else none := by
  induction xs with
  | nil => simp [lookup]
  | cons a _ ih =>
    by_cases hk : key a = k
    · subst hk
      cases hkp : keep (key a)
      · simpa [hkp] using ih
      · simp [lookup, hkp]
    · cases hkp : keep (key a)
      · simpa [lookup, hk] using ih
      · simpa [lookup, hk] using ih

omit [DecidableEq κ] in
/-- Marking a key as seen excludes it from the rest of the table. -/
lemma forall_key_notMem_append_singleton (seen : List κ) (k : κ) (xs : List α) :
    (∀ a ∈ xs, key a ∉ seen ++ [k]) ↔ (∀ a ∈ xs, key a ∉ seen) ∧ k ∉ xs.map key := by
  simp only [mem_append, mem_singleton, not_or, mem_map, not_exists, not_and]
  exact ⟨fun h => ⟨fun a ha => (h a ha).1, fun a ha => (h a ha).2⟩,
    fun h a ha => ⟨h.1 a ha, h.2 a ha⟩⟩

/-- Sorting is stable, so it does not change what a key finds. -/
lemma lookup_insertionSort (r : α → α → Prop) [DecidableRel r] [Std.Total r] [IsTrans α r]
    (hr : ∀ a b, key a = key b → r a b) (k : κ) (xs : List α) :
    lookup key k (xs.insertionSort r) = lookup key k xs := by
  have hsub : (xs.filter fun a => key a = k).Sublist (xs.insertionSort r) := by
    apply sublist_insertionSort
    · refine .imp_of_mem ?_ (pairwise_of_forall fun _ _ => trivial)
      intro a b ha hb _
      simp only [mem_filter, decide_eq_true_eq] at ha hb
      exact hr a b (ha.2.trans hb.2.symm)
    · exact filter_sublist
  have hfilt := hsub.filter fun a => decide (key a = k)
  rw [filter_filter] at hfilt
  simp only [Bool.and_self] at hfilt
  have hlen := ((perm_insertionSort r xs).filter fun a => decide (key a = k)).length_eq
  have heq := hfilt.eq_of_length hlen.symm
  rw [lookup, lookup, ← head?_filter, ← head?_filter, heq]

/-- A table with distinct keys that is sorted by key is strictly sorted. -/
lemma pairwise_lt_insertionSort {ι : Type*} [LinearOrder ι] (rank : α → ι)
    (hnd : (xs.map rank).Nodup) :
    (xs.insertionSort fun a b => rank a ≤ rank b).Pairwise fun a b => rank a < rank b := by
  have hsrt := pairwise_insertionSort (fun a b => rank a ≤ rank b) xs
  have hperm := (perm_insertionSort (fun a b => rank a ≤ rank b) xs).map rank
  have hne := pairwise_map.1 (hperm.nodup_iff.2 hnd)
  exact hsrt.imp₂ (fun _ _ hle hne => lt_of_le_of_ne hle hne) hne

end Waros.Lib
