import Mathlib.Order.Interval.Finset.Nat
import Waros.Kernel.Memory.Paging
import Waros.Lib.Transition

/-!
Runs of the frame allocator from the memory map of the boot loader
(`kernel/src/memory/physical.rs`): the set of frames whose bit is clear, what
each operation does to it, and what holds after any calls that free only
blocks handed out before, however often.
-/

namespace Waros.Kernel.Memory

open Lib BitmapAllocator Finset

def frameSize : ℕ := 4096

def maxTrackedPhysicalMemory : ℕ := 4 * 1024 * 1024 * 1024

/-- The kinds of the boot loader: only usable memory is told apart. -/
inductive MemoryRegionKind
  | usable
  | reserved
  deriving DecidableEq

structure MemoryRegion where
  start : ℕ
  endAddr : ℕ
  kind : MemoryRegionKind

namespace BitmapAllocator

/-- A round of the inner loop of `init`. -/
def addFrame (a : BitmapAllocator) (frame : ℕ) : BitmapAllocator :=
  if a.isAllocated frame then
    { a.setAllocated frame false with
      totalFrames := a.totalFrames + 1
      freeFrames := a.freeFrames + 1 }
  else a

/-- A round of the outer loop of `init`. -/
def addRegion (a : BitmapAllocator) (region : MemoryRegion) : BitmapAllocator :=
  if region.kind ≠ .usable then a
  else
    let start := if region.start = 0 then frameSize else region.start
    let startFrame := start / frameSize
    let endFrame := min region.endAddr maxTrackedPhysicalMemory / frameSize
    let a := (List.range' startFrame (endFrame - startFrame)).foldl addFrame a
    { a with maxFrameIndex := max a.maxFrameIndex endFrame }

/-- All bits of the bitmap are set before the regions are added. -/
def empty : BitmapAllocator :=
  { bitmap := 2 ^ maxTrackedFrames - 1
    totalFrames := 0
    freeFrames := 0
    scanHint := 1
    maxFrameIndex := 1 }

/-- `init`; the conversions to `usize` cannot fail on a 64-bit machine. -/
def init (memoryRegions : List MemoryRegion) : BitmapAllocator :=
  memoryRegions.foldl addRegion empty

def allocateContiguousFrames (a : BitmapAllocator) (count : ℕ) : Option (ℕ × BitmapAllocator) :=
  if count = 0 ∨ count > a.freeFrames then none
  else
    let max := min a.maxFrameIndex maxTrackedFrames
    if max ≤ count then none
    else
      match (List.range' 1 (max - count)).find? fun startIndex =>
          !(List.range count).any fun offset => a.isAllocated (startIndex + offset) with
      | none => none
      | some startIndex =>
        some (startIndex,
          { (List.range count).foldl (fun a offset => a.setAllocated (startIndex + offset) true) a
            with
            freeFrames := a.freeFrames - count
            scanHint := startIndex + count })

/-- A round of the loop of `free_contiguous_frames`. -/
def release (a : BitmapAllocator) (frame : ℕ) : BitmapAllocator :=
  if a.isAllocated frame then
    { a.setAllocated frame false with freeFrames := a.freeFrames + 1 }
  else a

def freeContiguousFrames (a : BitmapAllocator) (startIndex count : ℕ) : BitmapAllocator :=
  if startIndex = 0 ∨ count = 0 then a
  else
    let endIndex := min (U64.saturatingAdd startIndex count) a.maxFrameIndex
    (List.range' startIndex (endIndex - startIndex)).foldl release a

/-! ### The clear bits -/

/-- The tracked frames whose bit is clear. -/
def clear (a : BitmapAllocator) : Finset ℕ :=
  (range maxTrackedFrames).filter fun f => f ≠ 0 ∧ a.isAllocated f = false

variable {a : BitmapAllocator} {frame : ℕ} {region : MemoryRegion} {startIndex count : ℕ}

lemma mem_clear {f : ℕ} : f ∈ a.clear ↔ f < maxTrackedFrames ∧ f ≠ 0 ∧ a.isAllocated f = false := by
  rw [clear, mem_filter, mem_range]

/-- Only the bitmap counts. -/
lemma clear_congr {a b : BitmapAllocator} (h : ∀ f, b.isAllocated f = a.isAllocated f) :
    b.clear = a.clear := by
  ext f
  rw [mem_clear, mem_clear, h]

lemma clear_setAllocated_true (a : BitmapAllocator) (frame : ℕ) :
    (a.setAllocated frame true).clear = a.clear.erase frame := by
  ext f
  rw [mem_clear, mem_erase, mem_clear, isAllocated_setAllocated]
  split_ifs with hf
  · simp [hf]
  · simp [hf]

lemma clear_setAllocated_false (a : BitmapAllocator) (hne : frame ≠ 0)
    (hlt : frame < maxTrackedFrames) :
    (a.setAllocated frame false).clear = insert frame a.clear := by
  ext f
  rw [mem_clear, mem_insert, mem_clear, isAllocated_setAllocated]
  split_ifs with hf
  · simp [hf, hne, hlt]
  · simp [hf]

/-- The counter of free frames is the number of clear bits. -/
structure Counted (a : BitmapAllocator) : Prop where
  freeFrames_eq : a.freeFrames = a.clear.card
  maxFrameIndex_le : a.maxFrameIndex ≤ maxTrackedFrames

/-- What a round of a loop that frees `frame` does. -/
structure Freed (a b : BitmapAllocator) (frame : ℕ) : Prop where
  clear_eq : b.clear = insert frame a.clear
  counted : b.Counted
  maxFrameIndex_eq : b.maxFrameIndex = a.maxFrameIndex

lemma Counted.clearBit {a b : BitmapAllocator} (h : a.Counted) (hne : frame ≠ 0)
    (hlt : frame < maxTrackedFrames) (hallo : a.isAllocated frame)
    (hbitm : b.bitmap = (a.setAllocated frame false).bitmap)
    (hfree : b.freeFrames = a.freeFrames + 1) (hmax : b.maxFrameIndex = a.maxFrameIndex) :
    Freed a b frame := by
  have hclr : b.clear = insert frame a.clear := by
    rw [← clear_setAllocated_false a hne hlt]
    exact clear_congr fun f => by rw [isAllocated, isAllocated, hbitm]
  have hnotMem : frame ∉ a.clear := by simp [mem_clear, hallo]
  refine ⟨hclr, ⟨?_, hmax ▸ h.maxFrameIndex_le⟩, hmax⟩
  rw [hfree, hclr, card_insert_of_notMem hnotMem, h.freeFrames_eq]

/-- A frame that is free already. -/
lemma Counted.keepBit (h : a.Counted) (hne : frame ≠ 0) (hlt : frame < maxTrackedFrames)
    (hfree : ¬a.isAllocated frame) : Freed a a frame := by
  refine ⟨(insert_eq_of_mem ?_).symm, h, rfl⟩
  exact mem_clear.2 ⟨hlt, hne, by simpa using hfree⟩

lemma Counted.addFrame (h : a.Counted) (hne : frame ≠ 0) (hlt : frame < maxTrackedFrames) :
    Freed a (a.addFrame frame) frame := by
  rw [BitmapAllocator.addFrame]
  split_ifs with hallo
  · exact h.clearBit hne hlt hallo rfl rfl (by simp)
  · exact h.keepBit hne hlt hallo

lemma Counted.release (h : a.Counted) (hne : frame ≠ 0) (hlt : frame < maxTrackedFrames) :
    Freed a (a.release frame) frame := by
  rw [BitmapAllocator.release]
  split_ifs with hallo
  · exact h.clearBit hne hlt hallo rfl rfl (by simp)
  · exact h.keepBit hne hlt hallo

/-- A loop that frees the frames of a list. -/
lemma Counted.foldl {rd : BitmapAllocator → ℕ → BitmapAllocator}
    (hrd : ∀ {a : BitmapAllocator} {frame : ℕ}, a.Counted → frame ≠ 0 →
      frame < maxTrackedFrames → Freed a (rd a frame) frame) {fs : List ℕ}
    (hfrs : ∀ frame ∈ fs, frame ≠ 0 ∧ frame < maxTrackedFrames) (h : a.Counted) :
    (∀ f, f ∈ (fs.foldl rd a).clear ↔ f ∈ fs ∨ f ∈ a.clear) ∧ (fs.foldl rd a).Counted ∧
      (fs.foldl rd a).maxFrameIndex = a.maxFrameIndex := by
  induction fs generalizing a with
  | nil => exact ⟨by simp, h, rfl⟩
  | cons frame _ ih =>
    obtain ⟨hne, hlt⟩ := hfrs frame (by simp)
    have hfre := hrd h hne hlt
    obtain ⟨hclr, hcd, hmax⟩ := ih (fun f hf => hfrs f (by simp [hf])) hfre.counted
    refine ⟨fun f => ?_, hcd, hmax.trans hfre.maxFrameIndex_eq⟩
    rw [List.foldl_cons, hclr, hfre.clear_eq, mem_insert, List.mem_cons, or_left_comm, or_assoc]

/-- A frame inside a usable region and below the tracked limit. -/
def UsableIn (region : MemoryRegion) (f : ℕ) : Prop :=
  region.kind = .usable ∧ region.start ≤ f * frameSize ∧ (f + 1) * frameSize ≤ region.endAddr ∧
    (f + 1) * frameSize ≤ maxTrackedPhysicalMemory

variable (regions : List MemoryRegion) {rs : List MemoryRegion}

/-- The frames to be managed: frame 0 is not. -/
def Usable (f : ℕ) : Prop := f ≠ 0 ∧ ∃ region ∈ regions, UsableIn region f

/-- The regions begin and end at page boundaries. -/
def PageAligned : Prop :=
  ∀ region ∈ regions, region.start % frameSize = 0 ∧ region.endAddr % frameSize = 0

/-- The allocator manages the frames of the regions. -/
structure Covers (regions : List MemoryRegion) (a : BitmapAllocator) : Prop where
  counted : a.Counted
  clear_iff : ∀ f, f ∈ a.clear ↔ Usable regions f
  below : ∀ f, Usable regions f → f < a.maxFrameIndex

lemma covers_empty : Covers [] empty := by
  have hclr : empty.clear = ∅ := by
    ext f
    simp only [mem_clear, isAllocated, empty]
    simp +contextual
  refine ⟨⟨by rw [hclr]; rfl, by decide⟩, fun f => ?_, ?_⟩
  · simp [hclr, Usable]
  · rintro f ⟨-, region, hreg, -⟩
    cases hreg

lemma usable_append_singleton (rs : List MemoryRegion) (region : MemoryRegion) (f : ℕ) :
    Usable (rs ++ [region]) f ↔ (f ≠ 0 ∧ UsableIn region f) ∨ Usable rs f := by
  simp only [Usable, List.mem_append, List.mem_singleton, or_and_right, exists_or, exists_eq_left]
  rw [or_comm, and_or_left]

/-- The frames of a page-aligned usable region are those the inner loop runs
over. -/
lemma mem_regionFrames (hkind : region.kind = .usable) (hal : region.start % frameSize = 0)
    (f : ℕ) :
    f ∈ List.range' ((if region.start = 0 then frameSize else region.start) / frameSize)
        (min region.endAddr maxTrackedPhysicalMemory / frameSize -
          (if region.start = 0 then frameSize else region.start) / frameSize) ↔
      f ≠ 0 ∧ UsableIn region f := by
  rw [List.mem_range'_1]
  simp only [UsableIn, hkind, true_and, frameSize] at *
  split_ifs
  · omega
  · omega

lemma Covers.addRegion (h : Covers rs a) (hal : region.start % frameSize = 0) :
    Covers (rs ++ [region]) (a.addRegion region) := by
  rw [BitmapAllocator.addRegion]
  by_cases hkind : region.kind = .usable
  case neg =>
    have hnot : ∀ f, ¬UsableIn region f := fun f hf => hkind hf.1
    rw [if_pos hkind]
    refine ⟨h.counted, fun f => ?_, fun f hf => ?_⟩
    · rw [h.clear_iff, usable_append_singleton]
      simp [hnot]
    · rw [usable_append_singleton] at hf
      exact h.below f (by simpa [hnot] using hf)
  case pos =>
    have hfrs := mem_regionFrames hkind hal
    rw [if_neg (not_not.2 hkind)]
    have hbd : min region.endAddr maxTrackedPhysicalMemory / frameSize ≤ maxTrackedFrames :=
      Nat.div_le_div_right (min_le_right _ _)
    have hbel : ∀ f, UsableIn region f →
        f < min region.endAddr maxTrackedPhysicalMemory / frameSize := by
      rintro f ⟨-, -, hend, hlim⟩
      exact (Nat.le_div_iff_mul_le (by decide)).2 (le_min hend hlim)
    obtain ⟨hclr, hcd, hmax⟩ := h.counted.foldl
      (fun h hne hlt => Counted.addFrame h hne hlt)
      (fun f hf => ⟨((hfrs f).1 hf).1, (hbel f ((hfrs f).1 hf).2).trans_le hbd⟩)
    refine ⟨⟨hcd.freeFrames_eq, max_le hcd.maxFrameIndex_le hbd⟩, fun f => ?_, fun f hf => ?_⟩
    · rw [usable_append_singleton, ← hfrs, ← h.clear_iff, ← hclr]
      rfl
    · rw [usable_append_singleton] at hf
      rcases hf with hf | hf
      · exact lt_max_of_lt_right (hbel f hf.2)
      · exact lt_max_of_lt_left (hmax ▸ h.below f hf)

lemma covers_init (hal : PageAligned rs) : Covers rs (init rs) := by
  induction rs using List.reverseRecOn with
  | nil => exact covers_empty
  | append_singleton _ region ih =>
    have hregs := ih fun other ho => hal other (by simp [ho])
    rw [init, List.foldl_append]
    exact hregs.addRegion (hal region (by simp)).1

lemma Counted.allocateFrame {a a' : BitmapAllocator} (h : a.Counted)
    (hall : a.allocateFrame = some (frame, a')) :
    frame ∈ a.clear ∧ a'.clear = a.clear.erase frame ∧ a'.Counted ∧
      a'.maxFrameIndex = a.maxFrameIndex := by
  obtain ⟨hne, hlt, hfree, hmax, hbt⟩ := allocateFrame_eq_some hall
  have hmem : frame ∈ a.clear := mem_clear.2 ⟨hlt.trans_le h.maxFrameIndex_le, hne, hfree⟩
  have hclr : a'.clear = a.clear.erase frame := by
    rw [← clear_setAllocated_true]
    exact clear_congr fun f => by rw [hbt, isAllocated_setAllocated]
  have hcnt : a'.freeFrames = a.freeFrames - 1 := by
    simp only [BitmapAllocator.allocateFrame] at hall
    split_ifs at hall
    split at hall
    · cases hall
    · obtain ⟨-, rfl⟩ := Prod.mk.inj (Option.some.inj hall)
      rfl
  refine ⟨hmem, hclr, ⟨?_, hmax ▸ h.maxFrameIndex_le⟩, hmax⟩
  rw [hcnt, hclr, card_erase_of_mem hmem, h.freeFrames_eq]

lemma scan_eq_none {max left off : ℕ} (h : a.scan max left off = none) (i : ℕ) (hi : i < left) :
    (a.scanHint + (off + i)) % max = 0 ∨ a.isAllocated ((a.scanHint + (off + i)) % max) := by
  induction left generalizing off i with
  | zero => cases hi
  | succ _ ih =>
    simp only [scan] at h
    split_ifs at h with hskip
    cases i with
    | zero => simpa using hskip
    | succ i =>
      rw [show off + (i + 1) = off + 1 + i by omega]
      exact ih h i (by omega)

/-- The scan comes by every frame, wherever it starts. -/
lemma exists_offset (hint : ℕ) {max f : ℕ} (hf : f < max) : ∃ i < max, (hint + i) % max = f := by
  have hmod : hint % max < max := Nat.mod_lt _ (by omega)
  refine ⟨(f + (max - hint % max)) % max, Nat.mod_lt _ (by omega), ?_⟩
  have hsum : hint + (f + (max - hint % max)) = f + max * (hint / max + 1) := by
    have hdiv := Nat.div_add_mod hint max
    rw [Nat.mul_succ]
    omega
  rw [Nat.add_mod_mod, hsum, Nat.add_mul_mod_self_left, Nat.mod_eq_of_lt hf]

lemma Counted.allocateFrame_eq_none (h : a.Counted)
    (hbel : ∀ f ∈ a.clear, f < a.maxFrameIndex) (hn : a.allocateFrame = none) :
    a.clear = ∅ := by
  simp only [BitmapAllocator.allocateFrame] at hn
  split_ifs at hn with h0
  · rw [← card_eq_zero, ← h.freeFrames_eq]
    exact h0
  cases hsc : a.scan (min a.maxFrameIndex maxTrackedFrames)
      (min a.maxFrameIndex maxTrackedFrames) 0 with
  | some frame =>
    rw [hsc] at hn
    cases hn
  | none =>
    rw [min_eq_left h.maxFrameIndex_le] at hsc
    refine eq_empty_of_forall_notMem fun f hf => ?_
    obtain ⟨-, hne, hfree⟩ := mem_clear.1 hf
    obtain ⟨i, hi, hfi⟩ := exists_offset a.scanHint (hbel f hf)
    have hskip := scan_eq_none hsc i hi
    rw [zero_add, hfi, hfree] at hskip
    simp [hne] at hskip

lemma isAllocated_foldl_setAllocated (a : BitmapAllocator) (si n f : ℕ) :
    ((List.range n).foldl (fun a offset => a.setAllocated (si + offset) true)
        a).isAllocated f =
      if si ≤ f ∧ f < si + n then true else a.isAllocated f := by
  induction n with
  | zero => simp only [List.range_zero, List.foldl_nil]; rw [if_neg (by omega)]
  | succ _ ih =>
    rw [List.range_succ, List.foldl_append, List.foldl_cons, List.foldl_nil,
      isAllocated_setAllocated, ih]
    split_ifs <;> first | rfl | omega

lemma maxFrameIndex_foldl_setAllocated (a : BitmapAllocator) (si n : ℕ) :
    ((List.range n).foldl (fun a offset => a.setAllocated (si + offset) true)
        a).maxFrameIndex = a.maxFrameIndex := by
  induction n with
  | zero => rfl
  | succ _ ih =>
    rw [List.range_succ, List.foldl_append, List.foldl_cons, List.foldl_nil,
      setAllocated_maxFrameIndex, ih]

/-- What the search of `allocate_contiguous_frames` looks for. -/
lemma run_clear_iff :
    (!(List.range count).any fun offset => a.isAllocated (startIndex + offset)) = true ↔
      ∀ offset < count, a.isAllocated (startIndex + offset) = false := by
  simp

lemma Counted.allocateContiguousFrames {a a' : BitmapAllocator} (h : a.Counted)
    (hall : a.allocateContiguousFrames count = some (startIndex, a')) :
    Finset.Ico startIndex (startIndex + count) ⊆ a.clear ∧
      a'.clear = a.clear \ Finset.Ico startIndex (startIndex + count) ∧ a'.Counted ∧
      a'.maxFrameIndex = a.maxFrameIndex := by
  simp only [BitmapAllocator.allocateContiguousFrames] at hall
  split_ifs at hall
  split at hall
  · cases hall
  · next lo hfd =>
    obtain ⟨rfl, rfl⟩ := Prod.mk.inj (Option.some.inj hall)
    have hfnd := List.find?_some hfd
    have hrun := run_clear_iff.1 hfnd
    have hrng := List.mem_range'_1.1 (List.mem_of_find?_eq_some hfd)
    have hsub : Finset.Ico lo (lo + count) ⊆ a.clear := by
      intro f hf
      obtain ⟨hle, hlt⟩ := mem_Ico.1 hf
      obtain ⟨off, rfl⟩ := Nat.exists_eq_add_of_le hle
      exact mem_clear.2 ⟨by omega, by omega, hrun off (by omega)⟩
    have hclr : ∀ b : BitmapAllocator, b.bitmap = ((List.range count).foldl
        (fun a off => a.setAllocated (lo + off) true) a).bitmap →
        b.clear = a.clear \ Finset.Ico lo (lo + count) := by
      intro b hb
      ext f
      have hbit := isAllocated_foldl_setAllocated a lo count f
      rw [isAllocated, ← hb] at hbit
      rw [mem_sdiff, mem_clear, mem_clear, isAllocated, hbit]
      split_ifs with hf
      · simp [hf]
      · simp [hf]
    refine ⟨hsub, hclr _ rfl, ⟨?_, ?_⟩, maxFrameIndex_foldl_setAllocated a lo count⟩
    · refine .trans ?_ (congrArg card (hclr _ rfl).symm)
      rw [card_sdiff_of_subset hsub, Nat.card_Ico, ← h.freeFrames_eq, Nat.add_sub_cancel_left]
    · exact (maxFrameIndex_foldl_setAllocated a lo count).trans_le h.maxFrameIndex_le

lemma Counted.allocateContiguousFrames_eq_none (h : a.Counted)
    (hbel : ∀ f ∈ a.clear, f < a.maxFrameIndex) {n : ℕ} (hpos : 0 < n)
    (hn : a.allocateContiguousFrames n = none) (si : ℕ) :
    ¬Finset.Ico si (si + n) ⊆ a.clear := by
  intro hsub
  have hfst := hsub (mem_Ico.2 ⟨le_rfl, by omega⟩)
  have hla := hbel _ (hsub (mem_Ico.2
    ⟨(by omega : si ≤ si + n - 1), by omega⟩))
  have hne := (mem_clear.1 hfst).2.1
  have hcard : n ≤ a.freeFrames := by
    have hle := card_le_card hsub
    rw [Nat.card_Ico] at hle
    rw [h.freeFrames_eq]
    omega
  simp only [BitmapAllocator.allocateContiguousFrames] at hn
  rw [if_neg (by omega), min_eq_left h.maxFrameIndex_le, if_neg (by omega)] at hn
  split at hn
  · next hfd =>
    refine List.find?_eq_none.1 hfd si (List.mem_range'_1.2 ⟨by omega, by omega⟩) ?_
    refine run_clear_iff.2 fun off hoff => ?_
    exact (mem_clear.1 (hsub (mem_Ico.2 ⟨by omega, by omega⟩))).2.2
  · cases hn

lemma Counted.freeFrame (h : a.Counted) (hne : frame ≠ 0) (hlt : frame < a.maxFrameIndex) :
    Freed a (a.freeFrame frame) frame := by
  have heq : a.freeFrame frame = a.release frame := by
    rw [BitmapAllocator.freeFrame, if_neg (by omega), BitmapAllocator.release]
  rw [heq]
  exact h.release hne (hlt.trans_le h.maxFrameIndex_le)

lemma Counted.freeContiguousFrames (h : a.Counted) (hne : startIndex ≠ 0)
    (hmax : startIndex + count ≤ a.maxFrameIndex) :
    (∀ f, f ∈ (a.freeContiguousFrames startIndex count).clear ↔
      (startIndex ≤ f ∧ f < startIndex + count) ∨ f ∈ a.clear) ∧
      (a.freeContiguousFrames startIndex count).Counted ∧
      (a.freeContiguousFrames startIndex count).maxFrameIndex = a.maxFrameIndex := by
  have hbd := h.maxFrameIndex_le
  have hsma : maxTrackedFrames < 2 ^ 64 := by decide
  rw [BitmapAllocator.freeContiguousFrames]
  by_cases hcnt : count = 0
  · rw [if_pos (.inr hcnt)]
    refine ⟨fun f => ?_, h, rfl⟩
    rw [iff_or_self]
    omega
  · rw [if_neg (by simp [hne, hcnt]), U64.saturatingAdd_of_lt (by omega), min_eq_left hmax]
    dsimp only
    rw [Nat.add_sub_cancel_left]
    have hfrs : ∀ f ∈ List.range' startIndex count, f ≠ 0 ∧ f < maxTrackedFrames := by
      intro f hf
      rw [List.mem_range'_1] at hf
      omega
    have hlp := h.foldl (fun h hne hlt => release h hne hlt) hfrs
    simpa only [List.mem_range'_1] using hlp

end BitmapAllocator

/-! ### Runs -/

open BitmapAllocator

/-- The allocator, the blocks it has handed out so far (first frame and number
of frames), and the frames that were handed out and not freed since. -/
structure FrameRun where
  allocator : BitmapAllocator
  returned : List (ℕ × ℕ)
  held : List ℕ

/-- A call: a block to free is named by its place among those handed out so
far, and can be named again after it was freed. -/
inductive FrameCall
  | allocateFrame
  | allocateContiguousFrames (count : ℕ)
  | freeFrame (block offset : ℕ)
  | freeContiguousFrames (block : ℕ)

namespace FrameRun

def start (regions : List MemoryRegion) : FrameRun :=
  { allocator := init regions, returned := [], held := [] }

def allocated (r : FrameRun) (count : ℕ) : Option (ℕ × BitmapAllocator) → FrameRun
  | none => r
  | some (first, allocator) =>
    { allocator := allocator
      returned := r.returned ++ [(first, count)]
      held := .range' first count ++ r.held }

def step (r : FrameRun) : FrameCall → FrameRun
  | .allocateFrame => r.allocated 1 r.allocator.allocateFrame
  | .allocateContiguousFrames count =>
    r.allocated count (r.allocator.allocateContiguousFrames count)
  | .freeFrame block offset =>
    match r.returned[block]? with
    | none => r
    | some (first, count) =>
      if offset < count then
        { r with
          allocator := r.allocator.freeFrame (first + offset)
          held := r.held.filter (· ≠ first + offset) }
      else r
  | .freeContiguousFrames block =>
    match r.returned[block]? with
    | none => r
    | some (first, count) =>
      { r with
        allocator := r.allocator.freeContiguousFrames first count
        held := r.held.filter fun f => ¬(first ≤ f ∧ f < first + count) }

/-- A frame that can be handed out: managed and not held. -/
def Free (regions : List MemoryRegion) (r : FrameRun) (f : ℕ) : Prop :=
  Usable regions f ∧ f ∉ r.held

structure Sound (regions : List MemoryRegion) (r : FrameRun) : Prop where
  counted : r.allocator.Counted
  clear_iff : ∀ f, f ∈ r.allocator.clear ↔ Free regions r f
  below : ∀ f, Usable regions f → f < r.allocator.maxFrameIndex
  returned : ∀ block ∈ r.returned, block.2 ≠ 0 ∧
    ∀ f, block.1 ≤ f → f < block.1 + block.2 → Usable regions f

variable {regions : List MemoryRegion} {r : FrameRun}

lemma sound_start (hal : PageAligned regions) : Sound regions (start regions) := by
  have hcov := covers_init hal
  refine ⟨hcov.counted, fun f => ?_, hcov.below, by simp [start]⟩
  rw [start, hcov.clear_iff]
  simp [Free]

section
variable (h : Sound regions r)
include h

lemma Sound.clear_lt {f : ℕ} (hf : f ∈ r.allocator.clear) : f < r.allocator.maxFrameIndex :=
  h.below f ((h.clear_iff f).1 hf).1

/-- What both ways of allocating have in common. -/
lemma Sound.allocated {first n : ℕ} {a' : BitmapAllocator}
    (hcnt : n ≠ 0) (hsub : Finset.Ico first (first + n) ⊆ r.allocator.clear)
    (hclr : a'.clear = r.allocator.clear \ Finset.Ico first (first + n))
    (hcd : a'.Counted) (hmax : a'.maxFrameIndex = r.allocator.maxFrameIndex) :
    Sound regions (r.allocated n (some (first, a'))) := by
  refine ⟨hcd, fun f => ?_, fun f hf => ?_, fun b hblo => ?_⟩
  · simp only [FrameRun.allocated, Free, hclr, mem_sdiff, mem_Ico, h.clear_iff,
      List.mem_append, List.mem_range'_1, not_or]
    tauto
  · exact hmax ▸ h.below f hf
  · simp only [FrameRun.allocated, List.mem_append, List.mem_singleton] at hblo
    rcases hblo with hblo | rfl
    · exact h.returned b hblo
    · refine ⟨hcnt, fun f hle hlt => ?_⟩
      exact ((h.clear_iff f).1 (hsub (mem_Ico.2 ⟨hle, hlt⟩))).1

lemma Sound.step (call : FrameCall) : Sound regions (r.step call) := by
  cases call with
  | allocateFrame =>
    rw [FrameRun.step]
    rcases hall : r.allocator.allocateFrame with _ | res
    · exact h
    obtain ⟨frame, a'⟩ := res
    obtain ⟨hmem, hclr, hcd, hmax⟩ := h.counted.allocateFrame hall
    have hIco : Finset.Ico frame (frame + 1) = {frame} := Nat.Ico_succ_singleton frame
    refine h.allocated (by decide) ?_ ?_ hcd hmax
    · rwa [hIco, singleton_subset_iff]
    · rw [hclr, hIco, sdiff_singleton_eq_erase]
  | allocateContiguousFrames count =>
    rw [FrameRun.step]
    rcases hall : r.allocator.allocateContiguousFrames count with _ | res
    · exact h
    obtain ⟨hsub, hclr, hcd, hmax⟩ := h.counted.allocateContiguousFrames hall
    refine h.allocated ?_ hsub hclr hcd hmax
    rintro rfl
    simp [allocateContiguousFrames] at hall
  | freeFrame b off =>
    rw [FrameRun.step]
    rcases hblo : r.returned[b]? with _ | res
    · exact h
    obtain ⟨first, count⟩ := res
    have husa := (h.returned _ (List.mem_of_getElem? hblo)).2
    dsimp only
    split_ifs with hoff
    · have hfr := husa (first + off) (by simp) (by simpa using hoff)
      have hfre := h.counted.freeFrame hfr.1 (h.below _ hfr)
      refine ⟨hfre.counted, fun f => ?_, fun f hf => ?_, h.returned⟩
      · rw [hfre.clear_eq, mem_insert, h.clear_iff, Free, Free]
        by_cases hf : f = first + off
        · simp [hf, hfr]
        · simp [hf]
      · exact hfre.maxFrameIndex_eq ▸ h.below f hf
    · exact h
  | freeContiguousFrames b =>
    rw [FrameRun.step]
    rcases hblo : r.returned[b]? with _ | res
    · exact h
    obtain ⟨first, count⟩ := res
    obtain ⟨hpos, husa⟩ := h.returned _ (List.mem_of_getElem? hblo)
    have hfst := husa first (by simp) (by simpa [Nat.pos_iff_ne_zero] using hpos)
    have hla := h.below _ (husa (first + count - 1) (by simp; omega) (by simp; omega))
    obtain ⟨hclr, hcd, hmax⟩ := h.counted.freeContiguousFrames hfst.1
      (show first + count ≤ r.allocator.maxFrameIndex by simp at hpos; omega)
    refine ⟨hcd, fun f => ?_, fun f hf => ?_, h.returned⟩
    · rw [hclr, h.clear_iff, Free, Free]
      by_cases hf : first ≤ f ∧ f < first + count
      · simp [hf, husa]
      · simp [hf]
    · exact hmax ▸ h.below f hf

end

/-- The frames below the highest one whose bit is clear. -/
def clearBits (a : BitmapAllocator) : Finset ℕ :=
  (Finset.Ico 1 a.maxFrameIndex).filter fun f => a.isAllocated f = false

lemma Sound.clearBits_eq (h : Sound regions r) : clearBits r.allocator = r.allocator.clear := by
  ext f
  rw [clearBits, mem_filter, mem_Ico, mem_clear]
  constructor
  · rintro ⟨⟨hpos, hlt⟩, hfree⟩
    exact ⟨hlt.trans_le h.counted.maxFrameIndex_le, by omega, hfree⟩
  · rintro ⟨hlt, hne, hfree⟩
    exact ⟨⟨by omega, h.clear_lt (mem_clear.2 ⟨hlt, hne, hfree⟩)⟩, hfree⟩

/-- After any calls the counter is right, an allocation hands out managed
frames that nobody holds, and it fails only when there are none. -/
theorem frames_sound (regions : List MemoryRegion) (haligned : PageAligned regions)
    (calls : List FrameCall) :
    let r := run step (start regions) calls
    r.allocator.freeFrames = (clearBits r.allocator).card ∧
      (∀ f, f ∈ clearBits r.allocator ↔ Free regions r f) ∧
      (∀ frame a', r.allocator.allocateFrame = some (frame, a') → Free regions r frame) ∧
      (∀ count first a', r.allocator.allocateContiguousFrames count = some (first, a') →
        ∀ f, first ≤ f → f < first + count → Free regions r f) ∧
      (r.allocator.allocateFrame = none → ∀ f, ¬Free regions r f) ∧
      ∀ count, 0 < count → r.allocator.allocateContiguousFrames count = none →
        ¬∃ first, ∀ f, first ≤ f → f < first + count → Free regions r f := by
  intro r
  have h : Sound regions r :=
    run_invariant_of_step (fun _ call h => h.step call) calls (sound_start haligned)
  refine ⟨?_, fun f => ?_, fun frame a' hall => ?_, fun count first a' hall f hle hlt => ?_,
    fun hn f hf => ?_, fun count hpos hn ⟨first, hrun⟩ => ?_⟩
  · rw [h.clearBits_eq, h.counted.freeFrames_eq]
  · rw [h.clearBits_eq, h.clear_iff]
  · exact (h.clear_iff _).1 (h.counted.allocateFrame hall).1
  · exact (h.clear_iff _).1 ((h.counted.allocateContiguousFrames hall).1 (mem_Ico.2 ⟨hle, hlt⟩))
  · have hemp := h.counted.allocateFrame_eq_none (fun f hf => h.clear_lt hf) hn
    have hmem := (h.clear_iff f).2 hf
    rw [hemp] at hmem
    exact absurd hmem (notMem_empty f)
  · refine h.counted.allocateContiguousFrames_eq_none (fun f hf => h.clear_lt hf) hpos hn
      first fun f hf => ?_
    obtain ⟨hle, hlt⟩ := mem_Ico.1 hf
    exact (h.clear_iff f).2 (hrun f hle hlt)

/-- Three usable pages, and a block that is freed twice. -/
theorem frames_sound_three :
    PageAligned [⟨0, 0x4000, .usable⟩] ∧
    let r := run step (start [⟨0, 0x4000, .usable⟩])
      [.allocateContiguousFrames 2, .freeContiguousFrames 0, .freeContiguousFrames 0]
    r.allocator.freeFrames = (clearBits r.allocator).card ∧
      (∀ f, f ∈ clearBits r.allocator ↔ Free [⟨0, 0x4000, .usable⟩] r f) ∧
      (∀ frame a', r.allocator.allocateFrame = some (frame, a') →
        Free [⟨0, 0x4000, .usable⟩] r frame) ∧
      (∀ count first a', r.allocator.allocateContiguousFrames count = some (first, a') →
        ∀ f, first ≤ f → f < first + count → Free [⟨0, 0x4000, .usable⟩] r f) ∧
      (r.allocator.allocateFrame = none → ∀ f, ¬Free [⟨0, 0x4000, .usable⟩] r f) ∧
      ∀ count, 0 < count → r.allocator.allocateContiguousFrames count = none →
        ¬∃ first, ∀ f, first ≤ f → f < first + count → Free [⟨0, 0x4000, .usable⟩] r f := by
  have hal : PageAligned [⟨0, 0x4000, .usable⟩] := by
    intro region hreg
    obtain rfl := List.mem_singleton.1 hreg
    decide
  exact ⟨hal, frames_sound _ hal _⟩

end FrameRun

end Waros.Kernel.Memory
