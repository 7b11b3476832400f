import Waros.Lib.Lookup
import Waros.Lib.Radix
import Waros.Kernel.Memory.Paging

/-!
A concrete mapper: four-level tables with 4 KiB pages only. The entries of the
last level are found through their index in the last table; of the levels
above it matters which tables exist, since `map_to` takes a frame for each one
that is missing.
-/

namespace Waros.Kernel.Memory

open Lib
open Prod (fst)

/-- `leaves` holds page, frame and flags of each 4 KiB entry, `present` level
and number of each table below the root, and `userSlots` the top-level entries
that are marked `USER_ACCESSIBLE`. -/
structure FourLevel where
  leaves : Radix (ℕ × ℕ × PageFlags)
  present : List (ℕ × ℕ)
  userSlots : List ℕ

namespace FourLevel

def empty : FourLevel := ⟨.empty, [], []⟩

/-- The top-level entry a table is reached through. -/
def topOf (table : ℕ × ℕ) : ℕ := topIndex (table.2 * 2 ^ (9 * table.1))

def topEntry (t : FourLevel) (slot : ℕ) : Option Bool :=
  if t.present.any fun table => topOf table = slot then some (decide (slot ∈ t.userSlots))
  else none

def copyTop (t : FourLevel) (keep : ℕ → Bool) : FourLevel where
  leaves := t.leaves.map (.filter fun entry => keep (topIndex entry.1))
  present := t.present.filter fun table => keep (topOf table)
  userSlots := t.userSlots.filter keep

def leaf (t : FourLevel) (page : ℕ) : Option (ℕ × PageFlags) :=
  (lookup fst page (t.leaves.get 9 page)).map .snd

/-- The tables on the way to a page, from the top. -/
def path (page : ℕ) : List (ℕ × ℕ) := [(3, page / 2 ^ 27), (2, page / 2 ^ 18), (1, page / 2 ^ 9)]

/-- Creates the missing tables among the given ones; `false` when the frames
run out. -/
def addTables : List (ℕ × ℕ) → FourLevel → BitmapAllocator →
    Bool × FourLevel × BitmapAllocator × List ℕ
  | [], t, a => (true, t, a, [])
  | table :: rest, t, a =>
    if table ∈ t.present then addTables rest t a
    else
      match a.allocateFrame with
      | none => (false, t, a, [])
      | some (frame, a') =>
        let r := addTables rest { t with present := table :: t.present } a'
        (r.1, r.2.1, r.2.2.1, frame :: r.2.2.2)

/-- Mapping a user page marks the top-level entry above it. -/
def markSlot (t : FourLevel) (page : ℕ) (flags : PageFlags) : List ℕ :=
  if flags.user then topIndex page :: t.userSlots else t.userSlots

def mapTo (t : FourLevel) (page frame : ℕ) (flags : PageFlags) (a : BitmapAllocator) :
    MapResult FourLevel :=
  let r := addTables (path page) t a
  if r.1 then
    match t.leaf page with
    | some (old, _) => ⟨.error (.pageAlreadyMapped old), r.2.1, r.2.2.1, r.2.2.2⟩
    | none =>
      ⟨.ok (), ⟨r.2.1.leaves.modify (.cons (page, frame, flags)) 9 page, r.2.1.present,
        t.markSlot page flags⟩, r.2.2.1, r.2.2.2⟩
  else ⟨.error .frameAllocationFailed, r.2.1, r.2.2.1, r.2.2.2⟩

def unmap (t : FourLevel) (page : ℕ) : Option (ℕ × FourLevel) :=
  (t.leaf page).map fun entry =>
    (entry.1, ⟨t.leaves.modify (.filter fun entry => entry.1 ≠ page) 9 page, t.present,
      t.userSlots⟩)

def updateFlags (t : FourLevel) (page : ℕ) (flags : PageFlags) : Option FourLevel :=
  (t.leaf page).map fun _ =>
    ⟨t.leaves.modify (modifyFirst fst page fun entry => (entry.1, entry.2.1, flags)) 9 page,
      t.present, t.userSlots⟩

variable (tables : List (ℕ × ℕ)) (t : FourLevel) (a : BitmapAllocator)

lemma addTables_leaves : (addTables tables t a).2.1.leaves = t.leaves := by
  induction tables generalizing t a with
  | nil => rfl
  | cons table _ ih =>
    simp only [addTables]
    split
    · exact ih t a
    · split
      · rfl
      · exact ih { t with present := table :: t.present } _

lemma addTables_takes : Takes a (addTables tables t a).2.2.2 (addTables tables t a).2.2.1 := by
  induction tables generalizing t a with
  | nil => exact .nil a
  | cons _ _ ih =>
    simp only [addTables]
    split
    · exact ih t a
    · split
      · exact .nil a
      · next hfr => exact .cons hfr (ih _ _)

lemma leaf_congr {t t' : FourLevel} (h : t'.leaves = t.leaves) (page : ℕ) :
    t'.leaf page = t.leaf page := by
  rw [leaf, leaf, h]

/-- A change of the entry of one page, within the list it is kept in. -/
lemma leaf_modify (page : ℕ) (slots : List ℕ)
    {f : List (ℕ × ℕ × PageFlags) → List (ℕ × ℕ × PageFlags)}
    {g : Option (ℕ × ℕ × PageFlags) → Option (ℕ × ℕ × PageFlags)}
    (hf : ∀ q entries, lookup fst q (f entries) =
      if q = page then g (lookup fst q entries) else lookup fst q entries) (q : ℕ) :
    leaf ⟨t.leaves.modify f 9 page, t.present, slots⟩ q =
      if q = page then (g (lookup fst q (t.leaves.get 9 q))).map .snd else t.leaf q := by
  simp only [leaf, Radix.get_modify]
  by_cases hq : q = page
  · rw [if_pos hq, if_pos (by rw [hq]), hf, if_pos hq]
  · split_ifs
    · rw [hf, if_neg hq]
    · rfl

lemma leaf_cons (page frame : ℕ) (fl : PageFlags) (slots : List ℕ) (q : ℕ) :
    leaf
        ⟨t.leaves.modify (.cons (page, frame, fl)) 9 page, t.present, slots⟩ q =
      if q = page then some (frame, fl) else t.leaf q := by
  refine leaf_modify t page slots (g := fun _ => some (page, frame, fl)) ?_ q
  intro q es
  by_cases hq : q = page
  · simp [lookup, hq]
  · simp [lookup, hq, Ne.symm]

lemma leaf_filter (page q : ℕ) :
    leaf
        ⟨t.leaves.modify (.filter fun entry => entry.1 ≠ page) 9 page, t.present, t.userSlots⟩ q =
      if q = page then none else t.leaf q := by
  refine leaf_modify t page t.userSlots (g := fun _ => none) ?_ q
  intro q es
  have hfilt := lookup_filter_key fst
    (fun q => decide (q ≠ page)) q es
  split_ifs <;> simp_all

lemma leaf_copyTop (keep : ℕ → Bool) (page : ℕ) :
    (t.copyTop keep).leaf page = if keep (topIndex page) then t.leaf page else none := by
  have hfilt := lookup_filter_key fst
    (fun page => keep (topIndex page)) page (t.leaves.get 9 page)
  rw [leaf, copyTop, Radix.get_map (by rfl), hfilt]
  split_ifs <;> rfl

lemma leaf_updateFlags (page : ℕ) (fl : PageFlags) (q : ℕ) :
    leaf
        ⟨t.leaves.modify (modifyFirst fst page fun entry => (entry.1, entry.2.1, fl)) 9
          page, t.present, t.userSlots⟩ q =
      if q = page then (t.leaf q).map fun entry => (entry.1, fl) else t.leaf q := by
  rw [leaf_modify t page t.userSlots fun q es => lookup_modifyFirst fst page
    (f := fun entry => (entry.1, entry.2.1, fl)) (fun _ => rfl) q es]
  simp [leaf, Function.comp_def]

end FourLevel

open FourLevel in
def fourLevel : Mapper where
  Tables := FourLevel
  topEntry := FourLevel.topEntry
  copyTop := FourLevel.copyTop
  lookup := leaf
  translate := fun t page => (t.leaf page).map Prod.snd
  mapTo := FourLevel.mapTo
  unmap := FourLevel.unmap
  updateFlags := FourLevel.updateFlags
  copyTop_lookup := leaf_copyTop
  copyTop_translate := by
    intro t keep page
    rw [leaf_copyTop]
    split_ifs <;> rfl
  translate_of_lookup := by
    intro t page frame flags h
    rw [h]
    rfl
  mapTo_ok := by
    intro t page frame flags a h
    have hleast := addTables_leaves (path page) t a
    simp only [FourLevel.mapTo] at h ⊢
    split_ifs at h ⊢ with hadd
    split at h
    · cases h
    · next hn =>
      refine ⟨hn, ?_, ?_⟩
      · intro q
        rw [leaf_cons, leaf_congr hleast]
      · intro q hq
        rw [leaf_cons, leaf_congr hleast, if_neg hq]
  mapTo_error := by
    intro t page frame flags a e h
    have hleast := addTables_leaves (path page) t a
    simp only [FourLevel.mapTo] at h ⊢
    split_ifs at h ⊢ with hadd
    · split at h
      · exact ⟨fun q => leaf_congr hleast q, fun q => by rw [leaf_congr hleast]⟩
      · cases h
    · exact ⟨fun q => leaf_congr hleast q, fun q => by rw [leaf_congr hleast]⟩
  mapTo_takes := by
    intro t page frame flags a
    have htaken := addTables_takes (path page) t a
    simp only [FourLevel.mapTo]
    split_ifs
    · split
      · exact htaken
      · exact htaken
    · exact htaken
  unmap_none := by
    intro t page h
    simpa [FourLevel.unmap] using h
  unmap_some := by
    intro t page frame t' h
    simp only [FourLevel.unmap, Option.map_eq_some_iff, Prod.mk.injEq] at h
    obtain ⟨⟨frame', flags⟩, hleaf, rfl, rfl⟩ := h
    refine ⟨⟨flags, hleaf⟩, fun q => leaf_filter t page q, ?_⟩
    intro q hq
    rw [leaf_filter, if_neg hq]
  updateFlags_none := by
    intro t page flags h
    simpa [FourLevel.updateFlags] using h
  updateFlags_some := by
    intro t page flags t' h
    simp only [FourLevel.updateFlags, Option.map_eq_some_iff] at h
    obtain ⟨⟨frame, old⟩, hleaf, rfl⟩ := h
    refine ⟨frame, old, hleaf, ?_, ?_⟩
    · intro q
      rw [leaf_updateFlags]
      split_ifs with hq
      · rw [hq, hleaf]
        rfl
      · rfl
    · intro q hq
      rw [leaf_updateFlags, if_neg hq]

/-- A machine with 1023 free frames and empty tables. -/
def smallMachine : Machine fourLevel where
  tables := .empty
  frames := ⟨1, 1024, 1023, 1, 1024⟩
  ready := true
  writeProtect := true
  stores := []
  history := .empty

end Waros.Kernel.Memory
