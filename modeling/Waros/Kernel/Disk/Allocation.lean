import Waros.Kernel.Disk.Machine

/-!
First-fit allocation and the search for a slot of the file table, as functions
of what is on the device. The extent invariant is stated here: allocation
relies on it, and saving, deleting and synchronising keep it.
-/

namespace Waros.Kernel.Disk

open Lib Fs Execution List Nat

/-- Two ranges of blocks do not overlap. -/
def Apart (start count start' count' : ℕ) : Prop := start + count ≤ start' ∨ start' + count' ≤ start

/-! ### Gaps -/

variable {ranges : List (ℕ × ℕ)}

/-- The gap is behind the candidate and overlaps none of the ranges. A gap that
was found is followed by a range. -/
lemma firstGap_spec (n : ℕ) (hsrt : ranges.Pairwise fun a b => a.1 ≤ b.1)
    (hrngs : ∀ r ∈ ranges, r.1 < r.2 ∧ r.2 < 2 ^ 32) (cand : ℕ) :
    cand ≤ (firstGap n cand ranges).1 ∧ (∀ r ∈ ranges, (firstGap n cand ranges).1 + n ≤ r.1 ∨
        r.2 ≤ (firstGap n cand ranges).1) ∧
      ((firstGap n cand ranges).2 → ∃ r ∈ ranges, (firstGap n cand ranges).1 + n ≤ r.1) := by
  induction ranges generalizing cand with
  | nil => simp [firstGap]
  | cons r _ ih =>
    obtain ⟨start, stop⟩ := r
    have hr := hrngs (start, stop) (by simp)
    rw [firstGap]
    split_ifs
    · have hgap' : cand + n ≤ start := by
        omega
      refine ⟨le_rfl, ?_, fun _ => ⟨(start, stop), by simp, hgap'⟩⟩
      intro r hr
      rcases mem_cons.1 hr with rfl | hr
      · exact .inl hgap'
      · exact .inl (hgap'.trans (rel_of_pairwise_cons hsrt hr))
    · obtain ⟨hle, hap, hfd⟩ := ih hsrt.of_cons
        (fun r hr => hrngs r (by simp [hr])) (max cand stop)
      refine ⟨(le_max_left _ _).trans hle, ?_, ?_⟩
      · intro r hr
        rcases mem_cons.1 hr with rfl | hr
        · omega
        · exact hap r hr
      · intro htrue
        obtain ⟨r, hr, hbef⟩ := hfd htrue
        exact ⟨r, by simp [hr], hbef⟩

/-- First fit skips a range only when no gap of `count` blocks is before it. -/
lemma firstGap_le (count : ℕ) {width : ℕ} (hrngs : ∀ r ∈ ranges, r.2 ≤ r.1 + width) (cand : ℕ) :
    (firstGap count cand ranges).1 ≤ cand + ranges.length * (count + width) := by
  induction ranges generalizing cand with
  | nil => simp [firstGap]
  | cons r _ ih =>
    obtain ⟨lo, stop⟩ := r
    have hr : stop ≤ lo + width := hrngs (lo, stop) (by simp)
    rw [firstGap, length_cons, succ_mul]
    split_ifs
    · exact le_add_right _ _
    · have hrs := ih (fun r hr => hrngs r (by simp [hr])) (max cand stop)
      omega

/-- The gap starts at the candidate or at the end of a range. -/
lemma firstGap_le_of_forall (n : ℕ) {bound : ℕ} (hrngs : ∀ r ∈ ranges, r.2 ≤ bound)
    {cand : ℕ} (hcand : cand ≤ bound) :
    (firstGap n cand ranges).1 ≤ bound := by
  induction ranges generalizing cand with
  | nil => exact hcand
  | cons r _ ih =>
    obtain ⟨lo, stop⟩ := r
    rw [firstGap]
    split_ifs
    · exact hcand
    · exact ih (fun r hr => hrngs r (by simp [hr])) (max_le hcand (hrngs (lo, stop) (by simp)))

namespace VirtioBlk

variable {d : VirtioBlk}

def Active (d : VirtioBlk) (index : ℕ) : Prop := (d.entryAt index).active ≠ 0
  deriving Decidable

/-- The first block of the entry. -/
def start (d : VirtioBlk) (index : ℕ) : ℕ := (d.entryAt index).startBlock.toNat

/-- The number of its blocks. -/
def count (d : VirtioBlk) (index : ℕ) : ℕ := (d.entryAt index).blockCount.toNat

/-- The entry occupies blocks that an allocation must not touch. -/
def Occupies (d : VirtioBlk) (ignoreIndex : Option ℕ) (index : ℕ) : Prop :=
  some index ≠ ignoreIndex ∧ d.Active index ∧ d.count index ≠ 0
  deriving Decidable

lemma occupied_iff {i : ℕ} :
    d.Active i ∧ d.count i ≠ 0 ↔ ¬ ((d.entryAt i).active = 0 ∨ (d.entryAt i).blockCount = 0) := by
  rw [not_or, ← UInt32.toNat_inj]
  rfl

/-- The ranges that `allocate_blocks` collects. -/
def rangesOf (d : VirtioBlk) (ignoreIndex : Option ℕ) : List (ℕ × ℕ) :=
  ((range maxFiles).filter fun index => d.Occupies ignoreIndex index).map fun index =>
    (d.start index, (d.start index + d.count index) % 2 ^ 32)

def gap (d : VirtioBlk) (count : ℕ) (ignoreIndex : Option ℕ) : ℕ × Bool :=
  firstGap count 0 ((d.rangesOf ignoreIndex).insertionSort fun a b => a.1 ≤ b.1)

def rangeNotes (d : VirtioBlk) (ignoreIndex : Option ℕ) (index : ℕ) :
    List (BlockEvent Sector DiskNote) :=
  if d.Occupies ignoreIndex index ∧ d.start index + d.count index ≥ 2 ^ 32 then
    [.noted .wrapped]
  else []

lemma foldl_append_filter {α γ : Type} (p : α → Prop) [DecidablePred p] (f : α → γ)
    (xs : List α) (ys : List γ) :
    xs.foldl (fun ys x => if p x then ys ++ [f x] else ys) ys =
      ys ++ (xs.filter fun x => p x).map f := by
  induction xs generalizing ys with
  | nil => simp
  | cons x _ ih =>
    rw [foldl_cons, ih]
    by_cases hx : p x <;> simp [hx]

/-- One turn of the loop of `used_ranges`. -/
def rangeStep (ignoreIndex : Option ℕ) (ranges : List (ℕ × ℕ)) (index : ℕ) :
    DiskM (List (ℕ × ℕ)) :=
  if some index = ignoreIndex then pure ranges
  else do
    let entry ← readFileEntry index
    if entry.active = 0 ∨ entry.blockCount = 0 then pure ranges
    else do
      let stop ← asU32 (entry.startBlock.toNat + entry.blockCount.toNat)
      pure (ranges ++ [(entry.startBlock.toNat, stop)])

lemma exec_rangeStep {index : ℕ} (hidx : index < maxFiles)
    (hacc : d.accepts (fileTableStartSector + index)) (ign : Option ℕ) (rs : List (ℕ × ℕ)) :
    d.exec (rangeStep ign rs index) = .ok (if d.Occupies ign index then
          rs ++ [(d.start index, (d.start index + d.count index) % 2 ^ 32)] else rs)
        d (d.rangeNotes ign index) := by
  rw [rangeStep]
  by_cases hign : some index = ign
  · simp [hign, Occupies, rangeNotes]
  rw [if_neg hign, exec_bind, exec_readFileEntry_eq hidx, if_pos hacc, bind_ok, after_nil]
  by_cases hskip : (d.entryAt index).active = 0 ∨ (d.entryAt index).blockCount = 0
  · have hfr : ¬ d.Occupies ign index := by
      rw [Occupies, occupied_iff]
      tauto
    rw [if_pos hskip, exec_pure, if_neg hfr, rangeNotes, if_neg fun hnote => hfr hnote.1]
  · have hocc : d.Occupies ign index := by
      rw [Occupies, occupied_iff]
      tauto
    rw [if_neg hskip, exec_bind, exec_asU32, bind_ok, exec_pure, after_ok, append_nil, rangeNotes]
    simp only [hocc, true_and]
    rfl

lemma exec_usedRanges (h : d.HasTable) (ign : Option ℕ) :
    d.exec (usedRanges ign) = .ok (d.rangesOf ign) d
        ((range maxFiles).flatMap (d.rangeNotes ign)) := by
  have hlp := exec_tableLoop (d := d) (f := rangeStep ign)
    (fun ranges i hidx => exec_rangeStep hidx (h.accepts_entry hidx) ign ranges) []
  rw [foldl_append_filter] at hlp
  exact hlp

/-- `allocate_blocks` as a function of the device. -/
lemma exec_allocateBlocks (h : d.HasTable) (hval : d.superblock.isValid) (n : ℕ) (ign : Option ℕ) :
    d.exec (allocateBlocks n ign) = if (d.gap n ign).2 = true ∨
          min ((d.gap n ign).1 + n) (2 ^ 32 - 1) ≤ d.superblock.totalBlocks.toNat then
        .ok (d.gap n ign).1 d
          ((range maxFiles).flatMap (d.rangeNotes ign))
      else
        .error .diskFull d ((range maxFiles).flatMap (d.rangeNotes ign)) := by
  rw [allocateBlocks, exec_bind, exec_readSuperblock h.accepts_zero, if_pos hval,
    bind_ok, after_nil, exec_bind, exec_usedRanges h, bind_ok, gap]
  dsimp only
  split_ifs
  · rw [exec_pure, after_ok, append_nil]
  · rw [exec_fail, after_error, append_nil]

/-- The block ranges of the active entries are disjoint, below the number of
blocks in the superblock, and large enough for the files. -/
structure ExtentsOk (d : VirtioBlk) : Prop where
  below : ∀ i < maxFiles, d.Active i → d.count i ≠ 0 →
    d.start i + d.count i ≤ d.superblock.totalBlocks.toNat
  apart : ∀ i < maxFiles, ∀ j < maxFiles, i ≠ j → d.Active i → d.Active j → d.count i ≠ 0 →
    d.count j ≠ 0 → Apart (d.start i) (d.count i) (d.start j) (d.count j)
  size_le : ∀ i < maxFiles, d.Active i → (d.entryAt i).size.toNat ≤ d.count i * blockSize

/-- The blocks belong to no active entry, except possibly to the slot. -/
def Free (d : VirtioBlk) (slot start count : ℕ) : Prop :=
  ∀ i < maxFiles, i ≠ slot → d.Active i → d.count i ≠ 0 → Apart start count (d.start i) (d.count i)

section
variable (hextents : d.ExtentsOk)
include hextents

lemma ExtentsOk.stop_lt {i : ℕ} (hi : i < maxFiles) (hact : d.Active i)
    (hcnt : d.count i ≠ 0) : d.start i + d.count i < 2 ^ 32 :=
  (hextents.below i hi hact hcnt).trans_lt d.superblock.totalBlocks.toNat_lt

variable (ign : Option ℕ) (n : ℕ)

lemma ExtentsOk.rangesOf_eq :
    d.rangesOf ign = ((range maxFiles).filter fun index => d.Occupies ign index).map fun index =>
        (d.start index, d.start index + d.count index) := by
  apply map_congr_left
  intro index hidx
  rw [mem_filter, mem_range, decide_eq_true_eq] at hidx
  rw [mod_eq_of_lt (hextents.stop_lt hidx.1 hidx.2.2.1 hidx.2.2.2)]

lemma ExtentsOk.rangeNotes_eq : (range maxFiles).flatMap (d.rangeNotes ign) = [] := by
  rw [flatMap_eq_nil_iff]
  intro i hidx
  rw [mem_range] at hidx
  rw [rangeNotes, if_neg]
  rintro ⟨hocc, hwrap⟩
  exact absurd (hextents.stop_lt hidx hocc.2.1 hocc.2.2) (not_lt.2 hwrap)

lemma ExtentsOk.mem_ranges {ign : Option ℕ} {r : ℕ × ℕ}
    (hr : r ∈ (d.rangesOf ign).insertionSort fun a b => a.1 ≤ b.1) :
    ∃ i < maxFiles, d.Occupies ign i ∧ r = (d.start i, d.start i + d.count i) := by
  rw [mem_insertionSort, hextents.rangesOf_eq] at hr
  obtain ⟨i, hi, rfl⟩ := mem_map.1 hr
  rw [mem_filter, mem_range, decide_eq_true_eq] at hi
  exact ⟨i, hi.1, hi.2, rfl⟩

/-- What an allocation returns: blocks that no other entry occupies. They are
below the number of blocks, unless that number is the largest one and the sum
saturates. -/
lemma ExtentsOk.gap_spec (ign : Option ℕ) :
    (∀ i < maxFiles, d.Occupies ign i → Apart (d.gap n ign).1 n (d.start i) (d.count i)) ∧
      ((d.gap n ign).2 → (d.gap n ign).1 + n ≤ d.superblock.totalBlocks.toNat) := by
  have hsrt := pairwise_insertionSort (fun a b : ℕ × ℕ => a.1 ≤ b.1)
    (d.rangesOf ign)
  obtain ⟨-, hap, hfd⟩ := firstGap_spec n hsrt (fun r hr => by
    obtain ⟨i, hi, hocc, rfl⟩ := hextents.mem_ranges hr
    have hpos := pos_of_ne_zero hocc.2.2
    exact ⟨Nat.lt_add_of_pos_right hpos, hextents.stop_lt hi hocc.2.1 hocc.2.2⟩) 0
  constructor
  · intro i hi hocc
    apply hap (d.start i, d.start i + d.count i)
    rw [mem_insertionSort, hextents.rangesOf_eq]
    exact mem_map.2 ⟨i, by simp [hi, hocc], rfl⟩
  · intro htrue
    obtain ⟨r, hr, hbef⟩ := hfd htrue
    obtain ⟨i, hi, hocc, rfl⟩ := hextents.mem_ranges hr
    have hbel := hextents.below i hi hocc.2.1 hocc.2.2
    exact hbef.trans ((le_add_right _ _).trans hbel)

lemma ExtentsOk.gap_lt (ign : Option ℕ) : (d.gap n ign).1 < 2 ^ 32 := by
  have hbd : (d.gap n ign).1 ≤ 2 ^ 32 - 1 := by
    refine firstGap_le_of_forall n ?_ (zero_le _)
    intro r hr
    obtain ⟨i, hi, hocc, rfl⟩ := hextents.mem_ranges hr
    exact le_sub_one_of_lt (hextents.stop_lt hi hocc.2.1 hocc.2.2)
  omega

/-- First fit stays near the beginning. -/
lemma ExtentsOk.gap_le {width : ℕ} (hwid : ∀ i < maxFiles, d.Active i → d.count i ≤ width)
    (n : ℕ) (ign : Option ℕ) :
    (d.gap n ign).1 ≤ maxFiles * (n + width) := by
  have hlen : ((d.rangesOf ign).insertionSort fun a b => a.1 ≤ b.1).length ≤ maxFiles := by
    rw [length_insertionSort, rangesOf, length_map]
    exact (length_filter_le _ _).trans_eq length_range
  have hnar : ∀ r ∈ (d.rangesOf ign).insertionSort fun a b => a.1 ≤ b.1, r.2 ≤ r.1 + width := by
    intro r hr
    obtain ⟨i, hi, hocc, rfl⟩ := hextents.mem_ranges hr
    exact Nat.add_le_add_left (hwid i hi hocc.2.1) _
  have hgap := firstGap_le n hnar 0
  rw [zero_add] at hgap
  exact hgap.trans (mul_le_mul_right _ hlen)

end

end VirtioBlk

end Waros.Kernel.Disk
