import Mathlib.Data.Finset.Union
import Waros.Kernel.Memory.FourLevel
import Waros.Kernel.Memory.FrameRuns
import Waros.Kernel.Memory.Ranges

/-!
When pages can be mapped. A page takes a frame of its own and one for each page
table on the way to it that does not exist yet, so a list of pages can be mapped
exactly when the pages are new and the frames suffice for all of them together.
-/

namespace Waros.Kernel.Memory

open Finset

namespace BitmapAllocator

/-- The frames that `allocate_frame` looks at and finds free. -/
def unused (a : BitmapAllocator) : Finset ℕ :=
  (range (min a.maxFrameIndex maxTrackedFrames)).filter fun frame =>
    frame ≠ 0 ∧ a.isAllocated frame = false

/-- How many frames can be allocated one after the other. -/
def available (a : BitmapAllocator) : ℕ := min a.freeFrames a.unused.card

variable {a b : BitmapAllocator} {frame : ℕ}

theorem allocateFrame_isSome_iff : a.allocateFrame.isSome ↔ 0 < a.available := by
  rw [available, lt_min_iff, card_pos]
  constructor
  · intro h
    obtain ⟨⟨frame, b⟩, hframe⟩ := Option.isSome_iff_exists.1 h
    simp only [allocateFrame] at hframe
    split_ifs at hframe with hzero
    split at hframe
    · cases hframe
    · next found hscan =>
      have hmax : 0 < min a.maxFrameIndex maxTrackedFrames := by
        by_contra hnot
        rw [Nat.eq_zero_of_not_pos hnot] at hscan
        cases hscan
      obtain ⟨hne, hlt, hfree⟩ := scan_eq_some hmax hscan
      exact ⟨Nat.pos_of_ne_zero hzero, found, mem_filter.2 ⟨mem_range.2 hlt, hne, hfree⟩⟩
  · rintro ⟨hpos, frame, hframe⟩
    obtain ⟨hlt, hne, hfree⟩ := mem_filter.1 hframe
    obtain ⟨i, hi, hoffset⟩ := exists_offset a.scanHint (mem_range.1 hlt)
    simp only [allocateFrame, if_neg hpos.ne']
    cases hscan : a.scan (min a.maxFrameIndex maxTrackedFrames)
      (min a.maxFrameIndex maxTrackedFrames) 0 with
    | some => rfl
    | none =>
      have hskipped := scan_eq_none hscan i hi
      rw [zero_add, hoffset] at hskipped
      simp [hne, hfree] at hskipped

theorem available_of_allocateFrame (h : a.allocateFrame = some (frame, b)) :
    b.available + 1 = a.available := by
  have hpos := allocateFrame_isSome_iff.1 (by rw [h]; rfl)
  obtain ⟨hne, -, hfree, hmax, hbits⟩ := allocateFrame_eq_some h
  have hcount : b.freeFrames + 1 = a.freeFrames ∧ frame < min a.maxFrameIndex maxTrackedFrames := by
    simp only [allocateFrame] at h
    split_ifs at h with hzero
    split at h
    · cases h
    · next found hscan =>
      have hbound : 0 < min a.maxFrameIndex maxTrackedFrames := by
        by_contra hnot
        rw [Nat.eq_zero_of_not_pos hnot] at hscan
        cases hscan
      cases h
      exact ⟨Nat.succ_pred_eq_of_ne_zero hzero, (scan_eq_some hbound hscan).2.1⟩
  have hunused : b.unused = a.unused.erase frame := by
    ext other
    simp only [unused, hmax, hbits, mem_filter, mem_erase, mem_range]
    by_cases hother : other = frame
    · simp [hother]
    · simp [hother]
  have hmem : frame ∈ a.unused := mem_filter.2 ⟨mem_range.2 hcount.2, hne, hfree⟩
  rw [available] at hpos
  rw [available, available, hunused, card_erase_of_mem hmem, ← hcount.1]
  omega

end BitmapAllocator

theorem Takes.available {a b : BitmapAllocator} {frames : List ℕ} (h : Takes a frames b) :
    b.available + frames.length = a.available := by
  induction h with
  | nil => rfl
  | cons hframe _ ih =>
    rw [List.length_cons, ← BitmapAllocator.available_of_allocateFrame hframe, ← ih]
    omega

/-- The page tables on the way to some pages. -/
def tablesOf (pages : List ℕ) : Finset (ℕ × ℕ) :=
  pages.toFinset.biUnion fun page => (FourLevel.path page).toFinset

/-- A mapper that says which page tables there are, each with its level and its
number, and which pages lie behind an entry of another kind, such as a huge page.
`map_to` fails only for the reasons that the crate documents, and takes a frame
for each table that is missing. -/
structure TableMapper extends Mapper where
  hasTable : Tables → ℕ × ℕ → Bool
  blocked : Tables → ℕ → Bool
  mapTo_ok_iff : ∀ {t page frame flags a}, (mapTo t page frame flags a).result = .ok () ↔
    lookup t page = none ∧ blocked t page = false ∧
      ((tablesOf [page]).filter fun table => hasTable t table = false).card ≤ a.available
  mapTo_taken : ∀ {t page frame flags a}, (mapTo t page frame flags a).result = .ok () →
    (mapTo t page frame flags a).taken.length =
      ((tablesOf [page]).filter fun table => hasTable t table = false).card
  mapTo_hasTable : ∀ {t page frame flags a}, (mapTo t page frame flags a).result = .ok () →
    ∀ table, hasTable (mapTo t page frame flags a).tables table =
      (hasTable t table || decide (table ∈ tablesOf [page]))
  mapTo_blocked : ∀ {t page frame flags a}, (mapTo t page frame flags a).result = .ok () →
    ∀ other, blocked (mapTo t page frame flags a).tables other = blocked t other
  updateFlags_hasTable : ∀ {t page flags t'}, updateFlags t page flags = some t' →
    ∀ table, hasTable t' table = hasTable t table
  updateFlags_blocked : ∀ {t page flags t'}, updateFlags t page flags = some t' →
    ∀ other, blocked t' other = blocked t other

namespace TableMapper

variable (M : TableMapper)

/-- The tables that mapping the pages has to create. -/
def missing (t : M.Tables) (pages : List ℕ) : Finset (ℕ × ℕ) :=
  (tablesOf pages).filter fun table => M.hasTable t table = false

variable {M} {t t' : M.Tables} {page : ℕ}

theorem card_missing_cons (h : ∀ table, M.hasTable t' table =
    (M.hasTable t table || decide (table ∈ tablesOf [page]))) (pages : List ℕ) :
    (M.missing t (page :: pages)).card =
      (M.missing t [page]).card + (M.missing t' pages).card := by
  have hdisjoint : Disjoint (M.missing t [page]) (M.missing t' pages) := by
    refine disjoint_left.2 fun table hleft hright => ?_
    have hmem := (mem_filter.1 hleft).1
    have hnot := (mem_filter.1 hright).2
    simp [h, hmem] at hnot
  have hunion : M.missing t (page :: pages) = M.missing t [page] ∪ M.missing t' pages := by
    ext table
    simp only [missing, mem_union, mem_filter, h, Bool.or_eq_false_iff, decide_eq_false_iff_not]
    simp only [tablesOf, List.toFinset_cons, List.toFinset_nil, mem_biUnion, mem_insert,
      exists_eq_or_imp, insert_empty_eq, mem_singleton, exists_eq_left]
    tauto
  rw [hunion, card_union_of_disjoint hdisjoint]

end TableMapper

namespace FourLevel

variable {t : FourLevel} {a : BitmapAllocator} {tables : List (ℕ × ℕ)}

theorem addTables_spec (hnodup : tables.Nodup) (t : FourLevel) (a : BitmapAllocator) :
    ((addTables tables t a).1 = true ↔
        (tables.filter fun table => table ∉ t.present).length ≤ a.available) ∧
      ((addTables tables t a).1 = true →
        (addTables tables t a).2.2.2.length =
            (tables.filter fun table => table ∉ t.present).length ∧
          ∀ table, table ∈ (addTables tables t a).2.1.present ↔
            table ∈ t.present ∨ table ∈ tables) := by
  induction tables generalizing t a with
  | nil => simp [addTables]
  | cons table rest ih =>
    obtain ⟨hnew, hrest⟩ := List.nodup_cons.1 hnodup
    rw [addTables]
    -- a table that is there costs nothing, a new one takes a frame
    split_ifs with hpresent
    · obtain ⟨hiff, hok⟩ := ih hrest t a
      have hfilter : ((table :: rest).filter fun table => table ∉ t.present) =
          rest.filter fun table => table ∉ t.present := by
        simp [hpresent]
      rw [hfilter]
      refine ⟨hiff, fun hadded => ⟨(hok hadded).1, fun other => ?_⟩⟩
      rw [(hok hadded).2, List.mem_cons]
      constructor
      · tauto
      · rintro (hother | rfl | hother)
        · exact .inl hother
        · exact .inl hpresent
        · exact .inr hother
    · have hsame : (rest.filter fun other => other ∉ table :: t.present) =
          rest.filter fun other => other ∉ t.present := by
        refine List.filter_congr fun other hother => ?_
        have hne : other ≠ table := fun heq => hnew (heq ▸ hother)
        simp [hne]
      have hfilter : ((table :: rest).filter fun table => table ∉ t.present).length =
          (rest.filter fun other => other ∉ table :: t.present).length + 1 := by
        rw [hsame, List.filter_cons_of_pos (by simpa using hpresent), List.length_cons]
      rw [hfilter]
      cases hframe : a.allocateFrame with
      | none =>
        have hzero : ¬ 0 < a.available := fun hpos => by
          have hsome := BitmapAllocator.allocateFrame_isSome_iff.2 hpos
          rw [hframe] at hsome
          cases hsome
        refine ⟨iff_of_false (by simp) (by omega), fun hadded => ?_⟩
        cases hadded
      | some pair =>
        obtain ⟨frame, b⟩ := pair
        have hleft := BitmapAllocator.available_of_allocateFrame hframe
        obtain ⟨hiff, hok⟩ := ih hrest { t with present := table :: t.present } b
        refine ⟨hiff.trans ?_, fun hadded => ⟨?_, fun other => ?_⟩⟩
        · dsimp only
          omega
        · exact congrArg (· + 1) (hok hadded).1
        · refine ((hok hadded).2 other).trans ?_
          simp only [List.mem_cons]
          tauto

theorem nodup_path (page : ℕ) : (path page).Nodup := by
  simp [path]

theorem card_missing (present : List (ℕ × ℕ)) (page : ℕ) :
    ((tablesOf [page]).filter fun table => present.contains table = false).card =
      ((path page).filter fun table => table ∉ present).length := by
  have htables : tablesOf [page] = (path page).toFinset := by simp [tablesOf]
  have hfilter : ((path page).toFinset.filter fun table => present.contains table = false) =
      ((path page).filter fun table => table ∉ present).toFinset := by
    ext table
    simp
  rw [htables, hfilter, List.toFinset_card_of_nodup ((nodup_path page).filter _)]

end FourLevel

open FourLevel in
/-- Four-level tables, which have no huge pages. -/
def fourLevelTables : TableMapper where
  toMapper := fourLevel
  hasTable := fun t table => (FourLevel.present t).contains table
  blocked := fun _ _ => false
  mapTo_ok_iff := by
    intro t page frame flags a
    obtain ⟨hiff, -⟩ := addTables_spec (nodup_path page) t a
    rw [card_missing]
    change (FourLevel.mapTo t page frame flags a).result = _ ↔ FourLevel.leaf t page = _ ∧ _
    simp only [FourLevel.mapTo]
    rw [← hiff]
    split_ifs with hadded
    · cases FourLevel.leaf t page <;> simp [hadded]
    · simp [hadded]
  mapTo_taken := by
    intro t page frame flags a h
    obtain ⟨-, hok⟩ := addTables_spec (nodup_path page) t a
    rw [card_missing]
    change (FourLevel.mapTo t page frame flags a).result = _ at h
    change (FourLevel.mapTo t page frame flags a).taken.length = _
    simp only [FourLevel.mapTo] at h ⊢
    split_ifs at h ⊢ with hadded
    cases hleaf : FourLevel.leaf t page with
    | some => rw [hleaf] at h; cases h
    | none => exact (hok hadded).1
  mapTo_hasTable := by
    intro t page frame flags a h table
    obtain ⟨-, hok⟩ := addTables_spec (nodup_path page) t a
    change (FourLevel.mapTo t page frame flags a).result = _ at h
    change (FourLevel.mapTo t page frame flags a).tables.present.contains table = _
    simp only [FourLevel.mapTo] at h ⊢
    split_ifs at h ⊢ with hadded
    cases hleaf : FourLevel.leaf t page with
    | some => rw [hleaf] at h; cases h
    | none =>
      have hpresent := (hok hadded).2 table
      simp [tablesOf, hpresent]
  mapTo_blocked := fun _ _ => rfl
  updateFlags_hasTable := by
    intro t page flags t' h table
    obtain ⟨entry, -, rfl⟩ := Option.map_eq_some_iff.1 h
    rfl
  updateFlags_blocked := fun _ _ => rfl

namespace Machine

variable {M : TableMapper} {m m' : Machine M.toMapper} {flags : PageFlags} {address page : ℕ}

/-- The pages can be mapped one after the other: they are all different, none is
mapped or blocked, and there are frames for them and for the tables they need. -/
structure Mappable (m : Machine M.toMapper) (pages : List ℕ) : Prop where
  nodup : pages.Nodup
  unmapped : ∀ page ∈ pages, M.lookup m.tables page = none ∧ M.blocked m.tables page = false
  frames : pages.length + (M.missing m.tables pages).card ≤ m.frames.available

theorem Mappable.nil (m : Machine M.toMapper) : m.Mappable [] := by
  refine ⟨List.nodup_nil, by simp, ?_⟩
  simp [TableMapper.missing, tablesOf]

/-- What mapping a page changes, as far as it matters for the next ones. -/
structure Mapped (page : ℕ) (m m' : Machine M.toMapper) : Prop where
  lookup : ∀ other, M.lookup m'.tables other = none ↔
    other ≠ page ∧ M.lookup m.tables other = none
  blocked : ∀ other, M.blocked m'.tables other = M.blocked m.tables other
  hasTable : ∀ table, M.hasTable m'.tables table =
    (M.hasTable m.tables table || decide (table ∈ tablesOf [page]))
  available : m'.frames.available + 1 + (M.missing m.tables [page]).card = m.frames.available

theorem Mapped.mappable_iff (h : Mapped page m m') (hpage : m.Mappable [page]) (pages : List ℕ) :
    m'.Mappable pages ↔ m.Mappable (page :: pages) := by
  have hcard := TableMapper.card_missing_cons h.hasTable pages
  have hleft := h.available
  constructor
  · intro hmappable
    have hnew : ∀ other ∈ pages, other ≠ page ∧ M.lookup m.tables other = none := fun other hmem =>
      (h.lookup other).1 (hmappable.unmapped other hmem).1
    refine ⟨List.nodup_cons.2 ⟨fun hmem => (hnew page hmem).1 rfl, hmappable.nodup⟩, ?_, ?_⟩
    · refine List.forall_mem_cons.2 ⟨hpage.unmapped page (by simp), fun other hmem => ?_⟩
      exact ⟨(hnew other hmem).2, h.blocked other ▸ (hmappable.unmapped other hmem).2⟩
    · have hframes := hmappable.frames
      rw [List.length_cons]
      omega
  · intro hmappable
    obtain ⟨hnew, hnodup⟩ := List.nodup_cons.1 hmappable.nodup
    refine ⟨hnodup, fun other hmem => ?_, ?_⟩
    · obtain ⟨hlookup, hblocked⟩ := hmappable.unmapped other (List.mem_cons_of_mem _ hmem)
      have hne : other ≠ page := fun heq => hnew (heq ▸ hmem)
      exact ⟨(h.lookup other).2 ⟨hne, hlookup⟩, (h.blocked other).trans hblocked⟩
    · have hframes := hmappable.frames
      rw [List.length_cons] at hframes
      omega

theorem mapPage_ok_iff {frame : ℕ} {frames : BitmapAllocator}
    (hframe : m.frames.allocateFrame = some (frame, frames)) :
    (mapPage { m with frames } page frame flags).1 = .ok () ↔ m.Mappable [page] := by
  have hleft := BitmapAllocator.available_of_allocateFrame hframe
  have hresult : (mapPage { m with frames } page frame flags).1 =
      (M.mapTo m.tables page frame flags frames).result := by
    simp only [mapPage]
    split <;> simp_all
  rw [hresult, M.mapTo_ok_iff]
  constructor
  · rintro ⟨hlookup, hblocked, hcard⟩
    refine ⟨List.nodup_singleton page, by simp [hlookup, hblocked], ?_⟩
    rw [TableMapper.missing, List.length_singleton]
    omega
  · rintro ⟨-, hunmapped, hframes⟩
    obtain ⟨hlookup, hblocked⟩ := hunmapped page (by simp)
    rw [TableMapper.missing, List.length_singleton] at hframes
    exact ⟨hlookup, hblocked, by omega⟩

theorem mapped_of_mapPage {frame : ℕ} {frames : BitmapAllocator}
    (hframe : m.frames.allocateFrame = some (frame, frames))
    (h : mapPage { m with frames } page frame flags = (.ok (), m')) : Mapped page m m' := by
  have hleft := BitmapAllocator.available_of_allocateFrame hframe
  simp only [mapPage] at h
  split at h
  · next hresult =>
    cases h
    have htakes := (M.mapTo_takes m.tables page frame flags frames).available
    rw [M.mapTo_taken hresult] at htakes
    refine ⟨fun other => ?_, M.mapTo_blocked hresult, M.mapTo_hasTable hresult, ?_⟩
    · dsimp only
      rw [(M.mapTo_ok hresult).2.1]
      by_cases heq : other = page <;> simp [heq]
    · rw [TableMapper.missing]
      dsimp only
      omega
  · cases h

/-- Whether the kernel can fill a page with these flags. -/
def fillable (m : Machine M.toMapper) (flags : PageFlags) : Bool :=
  flags.writable || !m.writeProtect

/-- One round of the mapping loop, at an address that `VirtAddr::new` accepts. -/
theorem mapZeroed_spec (hcanonical : isCanonical address) (haligned : address % 4096 = 0)
    (flags : PageFlags) :
    (m.Mappable [containingPage address] ∧ ∃ m', m.mapZeroed flags address =
          (if m.fillable flags then none else some .panicked, m') ∧
        Mapped (containingPage address) m m' ∧ m'.writeProtect = m.writeProtect ∧
        m'.history.mapped.map Prod.fst =
          containingPage address :: m.history.mapped.map Prod.fst) ∨
      ¬ m.Mappable [containingPage address] ∧ ∃ stop m', stop ≠ .panicked ∧
        m.mapZeroed flags address = (some stop, m') ∧
        m'.history.mapped = m.history.mapped := by
  cases hframe : m.frames.allocateFrame with
  | none =>
    refine .inr ⟨fun hmappable => ?_, .noFrame, m, by simp, ?_, rfl⟩
    · have hframes := hmappable.frames
      rw [List.length_singleton] at hframes
      have hsome : m.frames.allocateFrame.isSome :=
        BitmapAllocator.allocateFrame_isSome_iff.2 (by omega)
      rw [hframe] at hsome
      cases hsome
    · simp [mapZeroed, hcanonical, allocateFrame, hframe]
  | some pair =>
    obtain ⟨frame, frames⟩ := pair
    have hiff := @mapPage_ok_iff M m flags (containingPage address) frame frames hframe
    rcases hmap : mapPage { m with frames } (containingPage address) frame flags with
      ⟨error | _, m₁⟩
    · rw [hmap] at hiff
      refine .inr ⟨fun hmappable => ?_, .mapError error frame, m₁, by simp, ?_, ?_⟩
      · cases hiff.2 hmappable
      · simp [mapZeroed, hcanonical, allocateFrame, hframe, hmap]
      · simp only [mapPage] at hmap
        split at hmap
        · cases hmap
        · cases hmap
          rfl
    · rw [hmap] at hiff
      have hmapped := mapped_of_mapPage hframe hmap
      have hpages := mapPage_ok hmap
      obtain ⟨found, hlookup, -⟩ := hpages.lookup_mem _ (List.mem_singleton_self _)
      have hstorable : m₁.storable address = m.fillable flags := by
        rw [storable, hcanonical, M.translate_of_lookup hlookup, hpages.writeProtect]
        rfl
      rcases hzero : m₁.zeroFill address with ⟨stop, m₂⟩
      have hstop : stop = if m.fillable flags then none else some .panicked := by
        rw [← hstorable]
        split_ifs with hstore
        · have hfill := zeroFill_fst haligned hstore
          rwa [hzero] at hfill
        · rw [zeroFill] at hzero
          rcases hstored : m₁.store address 4096 fun _ => 0 with ⟨_ | _, m₃⟩
          · refine absurd (storable_of_store (by rw [hstored]) le_rfl (by omega) ?_) hstore
            simp only [isCanonical, Bool.or_eq_true, Bool.and_eq_true, decide_eq_true_eq]
              at hcanonical
            omega
          · rw [hstored] at hzero
            cases hzero
            rfl
      obtain ⟨-, stores, rfl⟩ := zeroFill_eq hzero
      refine .inl ⟨hiff.1 rfl, { m₁ with stores }, ?_, ?_, hpages.writeProtect, hpages.mapped⟩
      · rw [mapZeroed_of_canMap hcanonical hframe hmap, hzero, hstop]
      · exact ⟨hmapped.lookup, hmapped.blocked, hmapped.hasTable, hmapped.available⟩

theorem Mappable.of_append {pages pages' : List ℕ} (h : m.Mappable (pages ++ pages')) :
    m.Mappable pages := by
  refine ⟨h.nodup.of_append_left, fun page hmem => h.unmapped page (by simp [hmem]), ?_⟩
  have hsubset : M.missing m.tables pages ⊆ M.missing m.tables (pages ++ pages') := by
    refine filter_subset_filter _ ?_
    exact biUnion_subset_biUnion_of_subset_left _ (by simp)
  have hcard := card_le_card hsubset
  have hframes := h.frames
  rw [List.length_append] at hframes
  omega

/-- The mapping loop over a list of addresses. -/
def mapEach (flags : PageFlags) :
    List ℕ → Machine M.toMapper → Option MapStop × Machine M.toMapper
  | [], m => (none, m)
  | address :: addresses, m =>
    match m.mapZeroed flags address with
    | (some stop, m') => (some stop, m')
    | (none, m') => mapEach flags addresses m'

/-- The addresses that `(start..end).step_by(4096)` goes through. -/
def pageAddresses : ℕ → ℕ → List ℕ
  | 0, _ => []
  | pages + 1, address => address :: pageAddresses pages (address + 4096)

theorem mem_pageAddresses {pages other : ℕ} :
    other ∈ pageAddresses pages address ↔ ∃ i < pages, other = address + 4096 * i := by
  induction pages generalizing address with
  | zero => simp [pageAddresses]
  | succ pages ih =>
    rw [pageAddresses, List.mem_cons, ih]
    constructor
    · rintro (rfl | ⟨i, hi, rfl⟩)
      · exact ⟨0, by omega, by omega⟩
      · exact ⟨i + 1, by omega, by omega⟩
    · rintro ⟨i, hi, rfl⟩
      cases i with
      | zero => exact .inl (by omega)
      | succ i => exact .inr ⟨i, by omega, by omega⟩

theorem mapRange_eq_mapEach (flags : PageFlags) (pages address : ℕ) (m : Machine M.toMapper) :
    (m.mapRange flags pages address).1 = (mapEach flags (pageAddresses pages address) m).1 ∧
      (m.mapRange flags pages address).2.2 =
        (mapEach flags (pageAddresses pages address) m).2 := by
  induction pages generalizing address m with
  | zero => exact ⟨rfl, rfl⟩
  | succ pages ih =>
    rw [mapRange, pageAddresses, mapEach]
    rcases m.mapZeroed flags address with ⟨_ | stop, m'⟩
    · exact ih (address + 4096) m'
    · exact ⟨rfl, rfl⟩

theorem mapEach_append (flags : PageFlags) (left right : List ℕ) (m : Machine M.toMapper) :
    mapEach flags (left ++ right) m =
      match mapEach flags left m with
      | (some stop, m') => (some stop, m')
      | (none, m') => mapEach flags right m' := by
  induction left generalizing m with
  | nil => rfl
  | cons address left ih =>
    rw [List.cons_append, mapEach, mapEach]
    rcases m.mapZeroed flags address with ⟨_ | stop, m'⟩
    · exact ih m'
    · rfl

/-- How far the mapping loop comes: it maps the pages of `before`, and stops at the
first address after them, if there is one. -/
structure Stops (before after : List ℕ) (m : Machine M.toMapper)
    (r : Option MapStop × Machine M.toMapper) : Prop where
  canonical : ∀ address ∈ before, isCanonical address
  mappable : m.Mappable (before.map containingPage)
  mapped : r.2.history.mapped.map Prod.fst =
    (before.map containingPage).reverse ++ m.history.mapped.map Prod.fst
  of_none : r.1 = none → after = [] ∧
    ∀ pages, r.2.Mappable pages ↔ m.Mappable (before.map containingPage ++ pages)
  of_panicked : r.1 = some .panicked → ∃ address rest, after = address :: rest ∧
    isCanonical address = false
  of_error : ∀ stop, r.1 = some stop → stop ≠ .panicked → ∃ address rest,
    after = address :: rest ∧ isCanonical address ∧
      ¬ m.Mappable ((before ++ [address]).map containingPage)

theorem mapEach_stops {addresses : List ℕ} (haligned : ∀ a ∈ addresses, a % 4096 = 0)
    (hfill : m.fillable flags) : ∃ before after, addresses = before ++ after ∧
      Stops before after m (mapEach flags addresses m) := by
  induction addresses generalizing m with
  | nil =>
    exact ⟨[], [], rfl, by simp, .nil m, rfl, fun _ => ⟨rfl, fun _ => .rfl⟩, by simp [mapEach],
      by simp [mapEach]⟩
  | cons address addresses ih =>
    obtain ⟨hfirst, hrest⟩ := List.forall_mem_cons.1 haligned
    rw [mapEach]
    cases hcanonical : isCanonical address with
    | false =>
      -- the address itself panics, before any frame is taken
      have hstop : m.mapZeroed flags address = (some .panicked, m) := by
        simp [mapZeroed, hcanonical]
      rw [hstop]
      refine ⟨[], address :: addresses, rfl, by simp, .nil m, rfl, by simp, fun _ => ?_, by simp⟩
      exact ⟨address, addresses, rfl, hcanonical⟩
    | true =>
      rcases mapZeroed_spec hcanonical hfirst flags with
        ⟨hpage, m', hstep, hmapped, hprotect, hhistory⟩ | ⟨hnot, stop, m', hstop, hstep, hhistory⟩
      · rw [if_pos hfill] at hstep
        rw [hstep]
        have hfill' : m'.fillable flags := by rwa [fillable, hprotect]
        obtain ⟨before, after, rfl, hstops⟩ := ih hrest hfill'
        refine ⟨address :: before, after, rfl, ?_, ?_, ?_, fun hnone => ?_, hstops.of_panicked, ?_⟩
        · exact List.forall_mem_cons.2 ⟨hcanonical, hstops.canonical⟩
        · exact (hmapped.mappable_iff hpage _).1 hstops.mappable
        · rw [hstops.mapped, hhistory]
          simp
        · obtain ⟨hafter, hmappable⟩ := hstops.of_none hnone
          exact ⟨hafter, fun pages => (hmappable pages).trans (hmapped.mappable_iff hpage _)⟩
        · intro stop hstop hne
          obtain ⟨next, rest, hafter, hnext, hnot⟩ := hstops.of_error stop hstop hne
          refine ⟨next, rest, hafter, hnext, fun hmappable => hnot ?_⟩
          exact (hmapped.mappable_iff hpage _).2 hmappable
      · rw [hstep]
        refine ⟨[], address :: addresses, rfl, by simp, .nil m, by simp [hhistory], by simp,
          fun hpanicked => absurd (Option.some.inj hpanicked) hstop, fun _ _ _ => ?_⟩
        exact ⟨address, addresses, rfl, hcanonical, hnot⟩

/-- Over addresses that are all canonical the loop goes through exactly when the
pages can be mapped. -/
theorem mapEach_none_iff {addresses : List ℕ} (haligned : ∀ a ∈ addresses, a % 4096 = 0)
    (hcanonical : ∀ a ∈ addresses, isCanonical a) (hfill : m.fillable flags) :
    (mapEach flags addresses m).1 ≠ some .panicked ∧
      ((mapEach flags addresses m).1 = none ↔ m.Mappable (addresses.map containingPage)) := by
  obtain ⟨before, after, rfl, hstops⟩ := mapEach_stops haligned hfill
  refine ⟨fun hpanicked => ?_, fun hnone => ?_, fun hmappable => ?_⟩
  · obtain ⟨address, rest, rfl, hnot⟩ := hstops.of_panicked hpanicked
    rw [hcanonical address (by simp)] at hnot
    cases hnot
  · rw [(hstops.of_none hnone).1, List.append_nil]
    exact hstops.mappable
  · cases hstop : (mapEach flags (before ++ after) m).1 with
    | none => rfl
    | some stop =>
      by_cases hpanicked : stop = .panicked
      · obtain ⟨address, rest, rfl, hnot⟩ := hstops.of_panicked (hpanicked ▸ hstop)
        rw [hcanonical address (by simp)] at hnot
        cases hnot
      · obtain ⟨address, rest, rfl, -, hnot⟩ := hstops.of_error stop hstop hpanicked
        have happend : m.Mappable
            ((before ++ [address]).map containingPage ++ rest.map containingPage) := by
          rwa [← List.map_append, List.append_assoc]
        exact absurd happend.of_append hnot

end Machine

end Waros.Kernel.Memory
