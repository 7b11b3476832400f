import Mathlib.Data.List.Nodup
import Waros.Lib.Transition
import Waros.Kernel.Memory.Paging

/-!
What the mapping and unmapping loops do to the tables, page by page.
-/

namespace Waros.Kernel.Memory

open Lib List

/-- The pages a loop reaches before `VirtAddr::new` panics. -/
def reached : ℕ → ℕ → List ℕ
  | 0, _ => []
  | pages + 1, address =>
    if isCanonical address then containingPage address :: reached pages (address + 4096) else []

lemma containingPage_add (addr : ℕ) : containingPage (addr + 4096) = containingPage addr + 1 := by
  rw [containingPage, containingPage]
  omega

variable {address pages : ℕ}

lemma mem_reached {page : ℕ} (h : page ∈ reached pages address) :
    containingPage address ≤ page ∧ page < containingPage address + pages := by
  induction pages generalizing address with
  | zero => simp [reached] at h
  | succ _ ih =>
    simp only [reached] at h
    split_ifs at h
    · rcases mem_cons.1 h with rfl | h
      · omega
      · have := ih h
        rw [containingPage_add] at this
        omega
    · simp at h

/-- Without a panic the loop reaches every page of its range. -/
lemma mem_reached_iff
    (h : ∀ i < pages, isCanonical (address + 4096 * i)) (page : ℕ) :
    page ∈ reached pages address ↔
      containingPage address ≤ page ∧ page < containingPage address + pages := by
  refine ⟨mem_reached, fun hpg => ?_⟩
  induction pages generalizing address with
  | zero => omega
  | succ _ ih =>
    have hfst := h 0 (by omega)
    rw [Nat.add_zero] at hfst
    rw [reached, if_pos hfst, mem_cons]
    by_cases heq : page = containingPage address
    · exact .inl heq
    · refine .inr (ih (fun i hi => ?_) ?_)
      · have := h (i + 1) (by omega)
        rwa [show address + 4096 + 4096 * i = address + 4096 * (i + 1) by omega]
      · rw [containingPage_add]
        omega

namespace Machine

variable {M : Mapper}

/-- A store changes nothing but the record of stores. -/
lemma storePages_eq (ps addr len : ℕ) (data : ℕ → UInt8) (m : Machine M) :
    ∃ stores, (storePages ps addr len data m).2 = { m with stores } := by
  induction ps generalizing addr len data m with
  | zero => exact ⟨m.stores, rfl⟩
  | succ _ ih =>
    simp only [storePages]
    split_ifs
    · obtain ⟨stores, h⟩ := ih (U64.wrappingAdd addr (min len (4096 - addr % 4096))) _ _
        { m with stores := m.stores ++ [⟨addr, _, data, m.tables⟩] }
      exact ⟨stores, h⟩
    · exact ⟨m.stores, rfl⟩

variable (m : Machine M) (address length : ℕ) {a : ℕ} {flags : PageFlags} {page frame : ℕ}
  {stop : Option MapStop} (data : ℕ → UInt8)

lemma store_eq : ∃ stores, (m.store address length data).2 = { m with stores } := by
  rw [store]
  split_ifs
  · exact ⟨m.stores, rfl⟩
  · exact storePages_eq ..

variable {b pages f : ℕ}

lemma isCanonical_congr {a : ℕ} (h : a / 4096 = b / 4096) : isCanonical a = isCanonical b := by
  simp only [isCanonical]
  congr 1
  · rw [decide_eq_decide]
    omega
  · congr 1
    · rw [decide_eq_decide]
      omega
    · rw [decide_eq_decide]
      omega

/-- Whether a store faults depends on the page only. -/
lemma storable_congr {a : ℕ} (h : a / 4096 = b / 4096) : m.storable a = m.storable b := by
  rw [storable, storable, isCanonical_congr h, containingPage, containingPage, h]

lemma storable_stores (stores : List (Store M.Tables)) (a : ℕ) :
    storable { m with stores } a = m.storable a := rfl

variable {addr : ℕ} (fl : PageFlags)

/-- The bytes up to the end of a page share the fate of the first one. -/
lemma storable_of_page {m : Machine M} (h : m.storable addr) (hle : addr ≤ a)
    (hlt : a < addr + (4096 - addr % 4096)) : m.storable a := by
  rw [storable_congr m (show a / 4096 = addr / 4096 by omega), h]

lemma storePages_fst {addr len : ℕ} {data : ℕ → UInt8} {m : Machine M}
    (hpgs : pages = (addr % 4096 + len + 4095) / 4096) (hlen : 0 < len) (hend : addr + len ≤ 2 ^ 64)
    (h : ∀ a, addr ≤ a → a < addr + len → m.storable a) :
    (storePages pages addr len data m).1 = false := by
  induction pages generalizing addr len data m with
  | zero => rfl
  | succ pages ih =>
    simp only [storePages]
    rw [if_pos (h addr (by omega) (by omega))]
    by_cases hla : len ≤ 4096 - addr % 4096
    · obtain rfl : pages = 0 := by omega
      rfl
    · have hch : min len (4096 - addr % 4096) = 4096 - addr % 4096 := by omega
      rw [U64.wrappingAdd_of_lt (by omega)]
      exact ih (by omega) (by omega) (by omega) fun a hle hlt => h a (by omega) (by omega)

lemma storable_of_storePages {addr len : ℕ} {data : ℕ → UInt8} {m : Machine M}
    (hpgs : pages = (addr % 4096 + len + 4095) / 4096)
    (h : (storePages pages addr len data m).1 = false) (hle : addr ≤ a)
    (hlt : a < addr + len) (hend : a < 2 ^ 64) : m.storable a := by
  induction pages generalizing addr len data m with
  | zero => omega
  | succ _ ih =>
    simp only [storePages] at h
    split_ifs at h with hfst
    by_cases hpg : a < addr + (4096 - addr % 4096)
    · exact storable_of_page hfst hle hpg
    · have hch : min len (4096 - addr % 4096) = 4096 - addr % 4096 := by omega
      rw [U64.wrappingAdd_of_lt (by omega)] at h
      rw [← storable_stores]
      refine ih ?_ h ?_ ?_ <;> omega

/-- A store that stays in the address space succeeds when every byte of it can
be stored. -/
lemma store_fst {addr len : ℕ} {m : Machine M} (hend : 0 < len → addr + len ≤ 2 ^ 64)
    (h : ∀ a, addr ≤ a → a < addr + len → m.storable a) :
    (m.store addr len data).1 = false := by
  rw [store]
  split_ifs
  · rfl
  · exact storePages_fst rfl (by omega) (hend (by omega)) h

/-- A store that succeeds could store every byte. -/
lemma storable_of_store {addr len : ℕ} {data : ℕ → UInt8} {m : Machine M}
    (h : (m.store addr len data).1 = false) (hle : addr ≤ a) (hlt : a < addr + len)
    (hend : a < 2 ^ 64) : m.storable a := by
  rw [store, if_neg (by omega)] at h
  exact storable_of_storePages rfl h hle hlt hend

/-! ### Mapping -/

/-- From `m` to `m'` the given pages were mapped, in order and with these
flags, and nothing changed for any other page. -/
structure MapsPages (flags : PageFlags) (pages : List ℕ) (m m' : Machine M) : Prop where
  nodup : pages.Nodup
  unmapped : ∀ p ∈ pages, M.lookup m.tables p = none
  lookup_mem : ∀ p ∈ pages,
    ∃ f, M.lookup m'.tables p = some (f, flags) ∧ (p, f) ∈ m'.history.live
  lookup_notMem : ∀ p ∉ pages, M.lookup m'.tables p = M.lookup m.tables p
  translate_notMem : ∀ p ∉ pages, M.translate m'.tables p = M.translate m.tables p
  live_subset : m.history.live ⊆ m'.history.live
  tableFrames_subset : m.history.tableFrames ⊆ m'.history.tableFrames
  mapped : m'.history.mapped.map Prod.fst = pages.reverse ++ m.history.mapped.map Prod.fst
  ready : m'.ready = m.ready
  writeProtect : m'.writeProtect = m.writeProtect

lemma MapsPages.of_eq {m m' : Machine M} (htabs : m'.tables = m.tables)
    (hhist : m'.history = m.history) (hrdy : m'.ready = m.ready)
    (hprot : m'.writeProtect = m.writeProtect) : MapsPages fl [] m m' := by
  refine ⟨?_, ?_, ?_, ?_, ?_, ?_, ?_, ?_, hrdy, hprot⟩ <;> simp [htabs, hhist]

lemma MapsPages.refl (m : Machine M) : MapsPages fl [] m m := .of_eq fl rfl rfl rfl rfl

lemma MapsPages.trans {ps qs : List ℕ} {m m₁ m₂ : Machine M} (h : MapsPages flags ps m m₁)
    (h' : MapsPages flags qs m₁ m₂) : MapsPages flags (ps ++ qs) m m₂ := by
  have hdisj : ∀ p ∈ ps, p ∉ qs := by
    intro p hp hq
    obtain ⟨f, hl, -⟩ := h.lookup_mem p hp
    rw [h'.unmapped p hq] at hl
    cases hl
  refine ⟨nodup_append.2 ⟨h.nodup, h'.nodup, fun p hp q hq heq => ?_⟩,
    fun p hp => ?_, fun p hp => ?_, fun p hp => ?_, fun p hp => ?_,
    List.Subset.trans h.live_subset h'.live_subset,
    List.Subset.trans h.tableFrames_subset h'.tableFrames_subset, ?_, h'.ready.trans h.ready,
    h'.writeProtect.trans h.writeProtect⟩
  · exact hdisj p hp (heq ▸ hq)
  · rcases mem_append.1 hp with hp | hp
    · exact h.unmapped p hp
    · rw [← h.lookup_notMem p fun hps => hdisj p hps hp, h'.unmapped p hp]
  · rcases mem_append.1 hp with hp | hp
    · obtain ⟨f, hl, hlv⟩ := h.lookup_mem p hp
      exact ⟨f, (h'.lookup_notMem p (hdisj p hp)).trans hl, h'.live_subset hlv⟩
    · exact h'.lookup_mem p hp
  · rw [mem_append, not_or] at hp
    rw [h'.lookup_notMem p hp.2, h.lookup_notMem p hp.1]
  · rw [mem_append, not_or] at hp
    rw [h'.translate_notMem p hp.2, h.translate_notMem p hp.1]
  · rw [h'.mapped, h.mapped, reverse_append, append_assoc]

lemma mapPage_ok {m m' : Machine M} (h : m.mapPage page frame flags = (.ok (), m')) :
    MapsPages flags [page] m m' := by
  simp only [mapPage] at h
  split at h
  · next hok =>
    obtain ⟨hn, hl, htra⟩ := M.mapTo_ok hok
    cases h
    refine ⟨nodup_singleton _, by simpa using hn, ?_, ?_, ?_, subset_cons_self _ _,
      subset_append_left _ _, rfl, rfl, rfl⟩
    · intro p hp
      obtain rfl := mem_singleton.1 hp
      exact ⟨frame, by simp [hl], by simp⟩
    · intro p hp
      rw [mem_singleton] at hp
      exact (hl p).trans (if_neg hp)
    · intro p hp
      rw [mem_singleton] at hp
      exact htra p hp
  · cases h

lemma mapPage_error {m m' : Machine M} {e : MapToError}
    (h : m.mapPage page frame flags = (.error e, m')) : MapsPages flags [] m m' := by
  simp only [mapPage] at h
  split at h
  · cases h
  · next herr =>
    obtain ⟨hl, htra⟩ := M.mapTo_error herr
    cases h
    exact ⟨nodup_nil, by simp, by simp, fun p _ => hl p, fun p _ => htra p,
      .refl _, subset_append_left _ _, rfl, rfl, rfl⟩

lemma allocateFrame_eq_some {m m' : Machine M} {frame : ℕ}
    (h : m.allocateFrame = some (frame, m')) :
    ∃ frames, m.frames.allocateFrame = some (frame, frames) ∧ m' = { m with frames } := by
  rw [allocateFrame, Option.map_eq_some_iff] at h
  obtain ⟨⟨frame', frames⟩, hfr, heq⟩ := h
  obtain ⟨rfl, rfl⟩ := Prod.ext_iff.1 heq
  exact ⟨frames, hfr, rfl⟩

/-- A zero fill changes the record of stores, and stops only with a fault. -/
lemma zeroFill_eq {m m' : Machine M} (h : m.zeroFill addr = (stop, m')) :
    (stop = none ∨ stop = some .panicked) ∧ ∃ stores, m' = { m with stores } := by
  rw [zeroFill] at h
  obtain ⟨stores, hsts⟩ := store_eq m addr 4096 fun _ => 0
  cases hres : m.store addr 4096 fun _ => 0 with
  | mk fault =>
    rw [hres] at h hsts
    cases fault with
    | false =>
      obtain ⟨rfl, rfl⟩ := Prod.ext_iff.1 h
      exact ⟨.inl rfl, stores, hsts⟩
    | true =>
      obtain ⟨rfl, rfl⟩ := Prod.ext_iff.1 h
      exact ⟨.inr rfl, stores, hsts⟩

lemma mapZeroed_cases {m m' : Machine M} (h : m.mapZeroed flags addr = (stop, m')) :
    ((stop = some .panicked ∧ isCanonical addr = false ∨ stop = some .noFrame) ∧ m' = m) ∨
      ∃ frame frames, m.frames.allocateFrame = some (frame, frames) ∧ isCanonical addr ∧
        ((∃ e, stop = some (.mapError e frame) ∧
            mapPage { m with frames } (containingPage addr) frame flags = (.error e, m')) ∨
          ∃ m₁, mapPage { m with frames } (containingPage addr) frame flags = (.ok (), m₁) ∧
            m₁.zeroFill addr = (stop, m')) := by
  simp only [mapZeroed] at h
  split at h
  · next hcan =>
    obtain ⟨rfl, rfl⟩ := Prod.ext_iff.1 h
    exact .inl ⟨.inl ⟨rfl, by simpa using hcan⟩, rfl⟩
  · next hcan =>
    split at h
    · obtain ⟨rfl, rfl⟩ := Prod.ext_iff.1 h
      exact .inl ⟨.inr rfl, rfl⟩
    · next frame m₁ hfr =>
      obtain ⟨frames, hfrs, rfl⟩ := allocateFrame_eq_some hfr
      refine .inr ⟨frame, frames, hfrs, by simpa using hcan, ?_⟩
      split at h
      · next e m₂ hmap =>
        obtain ⟨rfl, rfl⟩ := Prod.ext_iff.1 h
        exact .inl ⟨e, rfl, hmap⟩
      · next m₂ hmap => exact .inr ⟨m₂, hmap, h⟩

/-- One round maps its page, or stops early without mapping it; only a fault
in the zero fill stops it with the page mapped. -/
lemma mapZeroed_mapsPages {m m' : Machine M} (h : m.mapZeroed flags addr = (stop, m')) :
    (isCanonical addr ∧ (stop = none ∨ stop = some .panicked) ∧
        MapsPages flags [containingPage addr] m m') ∨
      (stop ≠ none ∧ MapsPages flags [] m m') := by
  rcases mapZeroed_cases h with ⟨hstp, rfl⟩ | ⟨frame, frames, -, hcan, hcas⟩
  · exact .inr ⟨by rcases hstp with ⟨rfl, -⟩ | rfl <;> simp, .refl flags m'⟩
  · have hfst : MapsPages flags [] m { m with frames } := .of_eq flags rfl rfl rfl rfl
    rcases hcas with ⟨e, rfl, hmap⟩ | ⟨m₁, hmap, hfill⟩
    · exact .inr ⟨by simp, hfst.trans (mapPage_error hmap)⟩
    · obtain ⟨hstp, stores, rfl⟩ := zeroFill_eq hfill
      have hla : MapsPages flags [] m₁ { m₁ with stores } := .of_eq flags rfl rfl rfl rfl
      exact .inl ⟨hcan, hstp, (hfst.trans (mapPage_ok hmap)).trans hla⟩

/-- The loop maps a beginning of its range, all of it when it does not stop
early. -/
lemma mapRange_mapsPages {addr finish : ℕ} {m m' : Machine M}
    (h : m.mapRange flags pages addr = (stop, finish, m')) :
    ∃ mapped ≤ pages, MapsPages flags (reached mapped addr) m m' ∧
      (stop = none → mapped = pages ∧ ∀ i < pages, isCanonical (addr + 4096 * i)) ∧
      (stop ≠ some .panicked → finish = addr + 4096 * mapped) := by
  induction pages generalizing addr m with
  | zero =>
    simp only [mapRange, Prod.mk.injEq] at h
    obtain ⟨rfl, rfl, rfl⟩ := h
    exact ⟨0, le_rfl, .refl flags m, by simp⟩
  | succ _ ih =>
    simp only [mapRange] at h
    split at h
    · next stop' m₁ hrd =>
      obtain ⟨rfl, rfl, rfl⟩ := h
      rcases mapZeroed_mapsPages hrd with ⟨hcan, hstp, hm⟩ | ⟨-, hm⟩
      · refine ⟨1, by omega, by simpa [reached, hcan] using hm, by simp, ?_⟩
        intro hne
        rcases hstp with hstp | hstp
        · cases hstp
        · exact absurd hstp hne
      · exact ⟨0, by omega, hm, by simp⟩
    · next m₁ hrd =>
      obtain ⟨mapped, hle, hm, hall, hfinish⟩ := ih h
      rcases mapZeroed_mapsPages hrd with ⟨hcan, -, hfst⟩ | ⟨hstp, -⟩
      · refine ⟨mapped + 1, by omega, ?_, fun hstp => ⟨?_, fun i hi => ?_⟩, fun hstp => ?_⟩
        · rw [reached, if_pos hcan]
          exact hfst.trans hm
        · rw [(hall hstp).1]
        · cases i with
          | zero => simpa using hcan
          | succ i =>
            have := (hall hstp).2 i (by omega)
            rwa [show addr + 4096 * (i + 1) = addr + 4096 + 4096 * i by omega]
        · rw [hfinish hstp]
          omega
      · exact absurd rfl hstp

lemma storable_of_lookup {m : Machine M} {a fr : ℕ} (hcan : isCanonical a)
    (hl : M.lookup m.tables (containingPage a) = some (fr, flags))
    (hw : flags.writable ∨ m.writeProtect = false) : m.storable a := by
  rw [storable, hcan, M.translate_of_lookup hl]
  rcases hw with h | h <;> simp [h]

lemma zeroFill_fst {m : Machine M} (hal : addr % 4096 = 0) (hstor : m.storable addr) :
    (m.zeroFill addr).1 = none := by
  have hcan : isCanonical addr := by
    rw [storable, Bool.and_eq_true] at hstor
    exact hstor.1
  have hend : addr + 4096 ≤ 2 ^ 64 := by
    simp only [isCanonical, Bool.or_eq_true, Bool.and_eq_true, decide_eq_true_eq] at hcan
    omega
  have hsto := store_fst (fun _ => 0) (fun _ => hend) fun a hle hlt =>
    storable_of_page hstor hle (by omega)
  rw [zeroFill]
  generalize m.store addr 4096 (fun _ => 0) = result at hsto
  obtain ⟨fault, m'⟩ := result
  obtain rfl : fault = false := hsto
  rfl

/-- Releasing a page either finds it unmapped, or unmaps it and frees its
frame. -/
lemma release_cases (page : ℕ) :
    (M.lookup m.tables page = none ∧ m.release page = m) ∨
      ∃ frame flags tables, M.lookup m.tables page = some (frame, flags) ∧
        (∀ q, M.lookup tables q = if q = page then none else M.lookup m.tables q) ∧
        m.release page = freeFrame { m with
          tables
          history := { m.history with
            live := m.history.live.filter fun entry => entry.1 ≠ page } } frame := by
  rw [release, unmapPage]
  cases hunm : M.unmap m.tables page with
  | none => exact .inl ⟨M.unmap_none hunm, rfl⟩
  | some res =>
    obtain ⟨frame, tables⟩ := res
    obtain ⟨⟨flags, hl⟩, hots, -⟩ := M.unmap_some hunm
    exact .inr ⟨frame, flags, tables, hl, hots, rfl⟩

lemma release_lookup (page q : ℕ) :
    M.lookup (m.release page).tables q = if q = page then none else M.lookup m.tables q := by
  rcases release_cases m page with ⟨hn, heq⟩ | ⟨frame, flags, tables, -, hots, heq⟩
  · rw [heq]
    split_ifs with hq
    · rw [hq, hn]
    · rfl
  · rw [heq]
    exact hots q

@[simp] lemma release_ready (page : ℕ) : (m.release page).ready = m.ready := by
  rcases release_cases m page with ⟨-, heq⟩ | ⟨frame, flags, tables, -, -, heq⟩
  · rw [heq]
  · rw [heq]
    rfl

/-- Only the frame the page was mapped to can change its state. -/
lemma release_isAllocated {m : Machine M} {page : ℕ}
    (h : ∀ flags, M.lookup m.tables page ≠ some (f, flags)) :
    (m.release page).frames.isAllocated f = m.frames.isAllocated f := by
  rcases release_cases m page with ⟨-, heq⟩ | ⟨frame, flags, tables, hl, -, heq⟩
  · rw [heq]
  · have hne : f ≠ frame := by
      rintro rfl
      exact h flags hl
    rw [heq]
    exact BitmapAllocator.isAllocated_freeFrame_of_ne m.frames hne

/-- The loop releases the pages it reaches. -/
lemma unmapRange_eq_run (ps addr : ℕ) (m : Machine M) :
    (unmapRange ps addr m).2 = run release m (reached ps addr) := by
  induction ps generalizing addr m with
  | zero => rfl
  | succ _ ih =>
    simp only [unmapRange, reached]
    cases isCanonical addr with
    | false => rfl
    | true => exact ih _ _

lemma unmapRange_fst {m : Machine M} (h : ∀ i < pages, isCanonical (addr + 4096 * i)) :
    (unmapRange pages addr m).1 = false := by
  induction pages generalizing addr m with
  | zero => rfl
  | succ _ ih =>
    have hfst := h 0 (by omega)
    rw [Nat.add_zero] at hfst
    simp only [unmapRange, hfst]
    refine ih fun i hi => ?_
    have := h (i + 1) (by omega)
    rwa [show addr + 4096 + 4096 * i = addr + 4096 * (i + 1) by omega]

lemma run_release_lookup (ps : List ℕ) (q : ℕ) :
    M.lookup (run release m ps).tables q = if q ∈ ps then none else M.lookup m.tables q := by
  induction ps generalizing m with
  | nil => simp
  | cons page _ ih =>
    rw [run_cons, ih, release_lookup]
    by_cases hq : q = page <;> simp [hq]

/-- A frame whose state changes was the frame of one of the pages. -/
lemma run_release_isAllocated {m : Machine M} {ps : List ℕ}
    (h : ∀ page ∈ ps, ∀ flags, M.lookup m.tables page ≠ some (f, flags)) :
    (run release m ps).frames.isAllocated f = m.frames.isAllocated f := by
  induction ps generalizing m with
  | nil => rfl
  | cons page _ ih =>
    rw [run_cons, ih, release_isAllocated (h page (by simp))]
    intro q hq flags
    rw [release_lookup]
    split_ifs
    · simp
    · exact h q (by simp [hq]) flags

end Machine

/-!
## Stores

The record of the stores that the kernel makes through virtual addresses, and
whether they all go to pages that the user may write.
-/

namespace Machine

variable {M : Mapper}

def userWritable (t : M.Tables) (address : ℕ) : Bool :=
  match M.translate t (containingPage address) with
  | some flags => flags.user && flags.writable
  | none => false

/-- From `m` to `m'` the kernel stored only to pages that were user-accessible
and writable at that moment. -/
def Confined (m m' : Machine M) : Prop :=
  ∃ new, m'.stores = m.stores ++ new ∧
    ∀ store ∈ new, userWritable store.tables store.address = true

lemma confined_iff {m m' : Machine M} {new : List (Store M.Tables)}
    (h : m'.stores = m.stores ++ new) :
    Confined m m' ↔ ∀ store ∈ new, userWritable store.tables store.address := by
  constructor
  · rintro ⟨new', h', hnew'⟩
    rwa [append_cancel_left (h.symm.trans h')]
  · exact fun hnew => ⟨new, h, hnew⟩

lemma Confined.of_stores_eq {m m' : Machine M} (h : m'.stores = m.stores) : Confined m m' :=
  ⟨[], by simpa using h, by simp⟩

lemma Confined.trans {m m₁ m₂ : Machine M} (h₁ : Confined m m₁) (h₂ : Confined m₁ m₂) :
    Confined m m₂ := by
  obtain ⟨new₁, hsts₁, hnew₁⟩ := h₁
  obtain ⟨new₂, hsts₂, hnew₂⟩ := h₂
  refine ⟨new₁ ++ new₂, by rw [hsts₂, hsts₁, append_assoc], ?_⟩
  intro store hsto
  rcases mem_append.1 hsto with hsto | hsto
  · exact hnew₁ store hsto
  · exact hnew₂ store hsto

/-- Stores are only ever appended to the record. -/
def Extends (m m' : Machine M) : Prop := m.stores <+: m'.stores

lemma Extends.of_stores_eq {m m' : Machine M} (h : m'.stores = m.stores) : Extends m m' :=
  ⟨[], by simpa using h.symm⟩

lemma Extends.trans {m m₁ m₂ : Machine M} (h₁ : Extends m m₁) (h₂ : Extends m₁ m₂) : Extends m m₂ :=
  List.IsPrefix.trans h₁ h₂

lemma Confined.extends {m m' : Machine M} (h : Confined m m') : Extends m m' := by
  obtain ⟨new, hsts, -⟩ := h
  exact ⟨new, hsts.symm⟩

/-- Two stretches are confined exactly when each of them is. -/
lemma confined_trans_iff {m m₁ m₂ : Machine M} (h₁ : Extends m m₁) (h₂ : Extends m₁ m₂) :
    Confined m m₂ ↔ Confined m m₁ ∧ Confined m₁ m₂ := by
  refine ⟨fun h => ?_, fun h => h.1.trans h.2⟩
  obtain ⟨new₁, hnew₁⟩ := h₁
  obtain ⟨new₂, hnew₂⟩ := h₂
  have hall : m₂.stores = m.stores ++ (new₁ ++ new₂) := by rw [← hnew₂, ← hnew₁, append_assoc]
  have hconf := (confined_iff hall).1 h
  exact ⟨(confined_iff hnew₁.symm).2 fun store hsto =>
      hconf store (mem_append_left _ hsto),
    (confined_iff hnew₂.symm).2 fun store hsto => hconf store (mem_append_right _ hsto)⟩

/-! ### One store -/

/-- The addresses at which `storePages` begins the pieces it gets done before
a page faults. -/
def touchedPages : ℕ → ℕ → ℕ → Machine M → List ℕ
  | 0, _, _, _ => []
  | pages + 1, address, length, m =>
    let chunk := min length (4096 - address % 4096)
    if m.storable address then
      address :: touchedPages pages (U64.wrappingAdd address chunk) (length - chunk) m
    else []

/-- One address in each page that a store of `length` bytes writes to. -/
def touched (m : Machine M) (address length : ℕ) : List ℕ :=
  if length = 0 then []
  else touchedPages ((address % 4096 + length + 4095) / 4096) address length m

lemma touchedPages_stores (ps a len : ℕ) (m : Machine M) (stores : List (Store M.Tables)) :
    touchedPages ps a len { m with stores } = touchedPages ps a len m := by
  induction ps generalizing a len with
  | zero => rfl
  | succ _ ih => simp only [touchedPages, storable_stores, ih]

lemma storePages_stores (ps a len : ℕ) (data : ℕ → UInt8) (m : Machine M) :
    ∃ new, (storePages ps a len data m).2.stores = m.stores ++ new ∧
      new.map Store.address = touchedPages ps a len m ∧
      ∀ store ∈ new, store.tables = m.tables := by
  induction ps generalizing a len data m with
  | zero => exact ⟨[], by simp [storePages], rfl, by simp⟩
  | succ _ ih =>
    simp only [storePages, touchedPages]
    generalize min len (4096 - a % 4096) = chunk
    split_ifs
    · obtain ⟨new, hsts, haddr, htabs⟩ :=
        ih (U64.wrappingAdd a chunk) (len - chunk) (fun i => data (i + chunk))
          { m with stores := m.stores ++ [⟨a, chunk, data, m.tables⟩] }
      refine ⟨⟨a, chunk, data, m.tables⟩ :: new, ?_, ?_, ?_⟩
      · rw [hsts]
        simp
      · rw [map_cons, haddr, touchedPages_stores]
      · intro store hsto
        rcases mem_cons.1 hsto with rfl | hsto
        · rfl
        · exact htabs store hsto
    · exact ⟨[], by simp, rfl, by simp⟩

variable (m : Machine M) (stores : List (Store M.Tables)) (address length : ℕ) (flags : PageFlags)
  (data : ℕ → UInt8)

lemma store_stores :
    ∃ new, (m.store address length data).2.stores = m.stores ++ new ∧
      new.map Store.address = m.touched address length ∧
      ∀ store ∈ new, store.tables = m.tables := by
  rw [store, touched]
  split_ifs
  · exact ⟨[], by simp, rfl, by simp⟩
  · exact storePages_stores ..

lemma store_extends : Extends m (m.store address length data).2 := by
  obtain ⟨new, hsts, -⟩ := store_stores m address length data
  exact ⟨new, hsts.symm⟩

/-- A store is confined exactly when the user may write every page it gets
to. -/
lemma confined_store_iff :
    Confined m (m.store address length data).2 ↔
      ∀ a ∈ m.touched address length, userWritable m.tables a := by
  obtain ⟨new, hsts, haddr, htabs⟩ := store_stores m address length data
  rw [confined_iff hsts, ← haddr]
  constructor
  · intro h a ha
    obtain ⟨store, hsto, rfl⟩ := mem_map.1 ha
    rw [← htabs store hsto]
    exact h store hsto
  · intro h store hsto
    rw [htabs store hsto]
    exact h _ (mem_map_of_mem hsto)

lemma touched_stores : touched { m with stores } address length = m.touched address length := by
  rw [touched, touched, touchedPages_stores]

def faults : Bool := (m.store address length fun _ => 0).1

lemma storePages_fst_eq (ps a len : ℕ) (data data' : ℕ → UInt8) (m : Machine M)
    (stores : List (Store M.Tables)) :
    (storePages ps a len data { m with stores }).1 = (storePages ps a len data' m).1 := by
  induction ps generalizing a len data data' m stores with
  | zero => rfl
  | succ _ ih =>
    simp only [storePages]
    generalize min len (4096 - a % 4096) = chunk
    by_cases hstor : m.storable a
    · rw [if_pos (by rwa [storable_stores]), if_pos hstor]
      exact ih _ _ _ _ { m with stores := m.stores ++ [⟨a, chunk, data', m.tables⟩] } _
    · rw [if_neg (by rwa [storable_stores]), if_neg hstor]

/-- Whether a store faults does not depend on what is stored, nor on earlier
stores. -/
lemma store_fst_eq_faults :
    (store { m with stores } address length data).1 = m.faults address length := by
  rw [faults, store, store]
  split_ifs
  · rfl
  · exact storePages_fst_eq ..

variable {a : ℕ} {fl : PageFlags}

/-- An aligned page is written in one piece, if it can be stored to. -/
lemma touched_page {m : Machine M} (hal : a % 4096 = 0) :
    m.touched a 4096 = if m.storable a then [a] else [] := by
  rw [touched, hal]
  rfl

/-- Every page that a store inside the address space touches is one of its
bytes' pages, and can be stored to. -/
lemma mem_touchedPages {ps addr len : ℕ} {m : Machine M}
    (hpgs : ps = (addr % 4096 + len + 4095) / 4096) (hlen : 0 < len) (hend : addr + len ≤ 2 ^ 64)
    (h : a ∈ touchedPages ps addr len m) : addr ≤ a ∧ a < addr + len ∧ m.storable a := by
  induction ps generalizing addr len with
  | zero => simp [touchedPages] at h
  | succ ps ih =>
    simp only [touchedPages] at h
    split_ifs at h with hstor
    · rcases mem_cons.1 h with rfl | h
      · exact ⟨le_rfl, by omega, hstor⟩
      · by_cases hla : len ≤ 4096 - addr % 4096
        · obtain rfl : ps = 0 := by omega
          simp [touchedPages] at h
        · have hch : min len (4096 - addr % 4096) = 4096 - addr % 4096 := by omega
          rw [U64.wrappingAdd_of_lt (by omega)] at h
          have := ih (by omega) (by omega) (by omega) h
          exact ⟨by omega, by omega, this.2.2⟩
    · simp at h

lemma mem_touched {addr len : ℕ} {m : Machine M} (hend : addr + len ≤ 2 ^ 64)
    (h : a ∈ m.touched addr len) : addr ≤ a ∧ a < addr + len ∧ m.storable a := by
  rw [touched] at h
  split_ifs at h
  · simp at h
  · exact mem_touchedPages rfl (by omega) hend h

/-! ### Mapping loops -/

/-- The page of the address can be given a frame. -/
def canMap (address : ℕ) : Bool :=
  isCanonical address &&
    match m.allocateFrame with
    | none => false
    | some (frame, m₁) =>
      match (m₁.mapPage (containingPage address) frame flags).1 with
      | .ok () => true
      | .error _ => false

lemma mapPage_stores (page f : ℕ) (fl : PageFlags) : (m.mapPage page f fl).2.stores = m.stores := by
  simp only [mapPage]
  split <;> rfl

lemma canMap_iff {m : Machine M} :
    m.canMap fl a ↔ isCanonical a ∧ ∃ frame frames m₁,
        m.frames.allocateFrame = some (frame, frames) ∧
        mapPage { m with frames } (containingPage a) frame fl = (.ok (), m₁) := by
  simp only [canMap, allocateFrame]
  rcases m.frames.allocateFrame with _ | r
  · simp
  obtain ⟨frame, frames⟩ := r
  cases hmap : mapPage { m with frames } (containingPage a) frame fl with
  | mk res =>
    cases res with
    | ok | error => simp [hmap]

lemma mapZeroed_of_canMap {m m₁ : Machine M} {address f : ℕ} {frames : BitmapAllocator}
    (hcano : isCanonical address) (hfr : m.frames.allocateFrame = some (f, frames))
    (hmap : mapPage { m with frames } (containingPage address) f fl = (.ok (), m₁)) :
    m.mapZeroed fl address = m₁.zeroFill address := by
  simp [mapZeroed, hcano, allocateFrame, hfr, hmap]

lemma zeroFill_snd (a : ℕ) : (m.zeroFill a).2 = (m.store a 4096 fun _ => 0).2 := by
  rw [zeroFill]
  generalize m.store a 4096 (fun _ => 0) = r
  obtain ⟨fault, m'⟩ := r
  cases fault <;> rfl

/-- What one round stores: the page with its new flags, if the flags let the
kernel store. -/
lemma mapZeroed_stores (hal : a % 4096 = 0) (m : Machine M) :
    ∃ new, (m.mapZeroed flags a).2.stores = m.stores ++ new ∧
      (∀ store ∈ new, M.translate store.tables (containingPage store.address) = some flags ∧
        (flags.writable ∨ m.writeProtect = false)) ∧
      (new ≠ [] ↔ m.canMap flags a ∧ (flags.writable ∨ m.writeProtect = false)) := by
  by_cases hcan : m.canMap flags a
  · obtain ⟨hcano, frame, frames, m₁, hfr, hmap⟩ := canMap_iff.1 hcan
    have hm := mapPage_ok hmap
    obtain ⟨f, hl, -⟩ := hm.lookup_mem _ (mem_singleton_self _)
    have htra := M.translate_of_lookup hl
    have hprot : m₁.writeProtect = m.writeProtect := hm.writeProtect
    have hstor : m₁.storable a = true ↔ (flags.writable ∨ m.writeProtect = false) := by
      rw [storable, hcano, htra, hprot]
      simp
    obtain ⟨new, hsts, haddr, htabs⟩ := store_stores m₁ a 4096 fun _ => 0
    rw [touched_page hal] at haddr
    refine ⟨new, ?_, ?_, ?_⟩
    · rw [mapZeroed_of_canMap hcano hfr hmap, zeroFill_snd, hsts]
      have := mapPage_stores { m with frames } (containingPage a) frame flags
      rw [hmap] at this
      rw [show m₁.stores = m.stores from this]
    · intro store hsto
      have hmem := mem_map_of_mem (f := Store.address) hsto
      rw [haddr] at hmem
      split_ifs at hmem with hcan'
      · rw [mem_singleton] at hmem
        exact ⟨by rw [htabs store hsto, hmem, htra], hstor.1 hcan'⟩
      · simp at hmem
    · rw [ne_eq, ← map_eq_nil_iff, haddr, ← hstor]
      split_ifs with h <;> simp [h, hcan]
  · refine ⟨[], ?_, by simp, by simp [hcan]⟩
    rw [append_nil]
    cases hrd : m.mapZeroed flags a with
    | mk =>
      rcases mapZeroed_cases hrd with ⟨-, rfl⟩ | ⟨frame, frames, hfr, hcano, hcas⟩
      · rfl
      · rcases hcas with ⟨e, -, hmap⟩ | ⟨m₁, hmap, -⟩
        · have := mapPage_stores { m with frames } (containingPage a) frame flags
          rw [hmap] at this
          exact this
        · exact absurd (canMap_iff.2 ⟨hcano, frame, frames, m₁, hfr, hmap⟩) hcan

lemma mapZeroed_writeProtect (a : ℕ) : (m.mapZeroed flags a).2.writeProtect = m.writeProtect := by
  rcases mapZeroed_mapsPages (Prod.eta (m.mapZeroed flags a)).symm with ⟨-, -, h⟩ | ⟨-, h⟩
  · exact h.writeProtect
  · exact h.writeProtect

/-- What the loop stores: pages with their new flags, beginning with the first
one of the range. -/
lemma mapRange_stores (ps : ℕ) (hal : a % 4096 = 0) (m : Machine M) :
    ∃ new, (m.mapRange flags ps a).2.2.stores = m.stores ++ new ∧
      (∀ store ∈ new, M.translate store.tables (containingPage store.address) = some flags ∧
        (flags.writable ∨ m.writeProtect = false)) ∧
      (ps ≠ 0 → m.canMap flags a → (flags.writable ∨ m.writeProtect = false) → new ≠ []) ∧
      (ps ≠ 0 → m.canMap flags a = false → new = []) := by
  induction ps generalizing a m with
  | zero => exact ⟨[], by simp [mapRange], by simp, by simp, by simp⟩
  | succ _ ih =>
    obtain ⟨new₁, hsts₁, hnew₁, hne₁⟩ := mapZeroed_stores flags hal m
    have hprot := mapZeroed_writeProtect m flags a
    simp only [mapRange]
    cases hrd : m.mapZeroed flags a with
    | mk stop m₁ =>
      rw [hrd] at hsts₁ hprot
      cases stop with
      | some =>
        refine ⟨new₁, hsts₁, hnew₁, fun _ hcan hfl => hne₁.2 ⟨hcan, hfl⟩, ?_⟩
        intro _ hcan
        by_contra hne
        exact absurd (hne₁.1 hne).1 (by simp [hcan])
      | none =>
        obtain ⟨new₂, hsts₂, hnew₂, -⟩ := ih (show (a + 4096) % 4096 = 0 by omega) m₁
        refine ⟨new₁ ++ new₂, ?_, ?_, ?_, ?_⟩
        · rw [hsts₂, hsts₁, append_assoc]
        · intro store hsto
          rcases mem_append.1 hsto with hsto | hsto
          · exact hnew₁ store hsto
          · rw [← hprot]
            exact hnew₂ store hsto
        · intro _ hcan hfl hnil
          exact hne₁.2 ⟨hcan, hfl⟩ (append_eq_nil_iff.1 hnil).1
        · intro _ hcan
          -- without its first page the loop stops in its first round
          rcases mapZeroed_cases hrd with ⟨⟨hstp, -⟩ | hstp, -⟩ |
            ⟨frame, frames, hfr, hcano, ⟨_, hstp, -⟩ | ⟨m₂, hmap, -⟩⟩
          · simp at hstp
          · simp at hstp
          · simp at hstp
          · exact absurd (canMap_iff.2 ⟨hcano, frame, frames, m₂, hfr, hmap⟩) (by simp [hcan])

/-- Pages mapped for the user to write are filled within bounds. -/
lemma confined_mapRange (hu : fl.user) (hw : fl.writable) (ps : ℕ)
    (hal : a % 4096 = 0) (m : Machine M) : Confined m (m.mapRange fl ps a).2.2 := by
  obtain ⟨new, hsts, hnew, -⟩ := mapRange_stores fl ps hal m
  refine ⟨new, hsts, fun store hsto => ?_⟩
  rw [userWritable, (hnew store hsto).1]
  simp [hu, hw]

/-- Pages that the user may only read are filled too, when the kernel can: then
the first page already breaks the bounds. -/
lemma confined_mapRange_readOnly_iff (hw : fl.writable = false) (ps : ℕ) (hal : a % 4096 = 0)
    (m : Machine M) :
    Confined m (m.mapRange fl ps a).2.2 ↔ m.writeProtect ∨ ps = 0 ∨ m.canMap fl a = false := by
  obtain ⟨new, hsts, hnew, hne, hnil⟩ := mapRange_stores fl ps hal m
  have hbad : ∀ store ∈ new, userWritable store.tables store.address = false := by
    intro store hsto
    rw [userWritable, (hnew store hsto).1]
    simp [hw]
  rw [confined_iff hsts]
  constructor
  · intro h
    by_contra hnot
    simp only [not_or, Bool.not_eq_true, Bool.not_eq_false] at hnot
    obtain ⟨store, hsto⟩ := exists_mem_of_ne_nil _ (hne hnot.2.1 hnot.2.2 (.inr hnot.1))
    exact absurd (h store hsto) (by simp [hbad store hsto])
  · rintro (hprot | h0 | hcan) store hsto
    · exact absurd (hnew store hsto).2 (by simp [hw, hprot])
    · subst h0
      have : new = [] := by simpa [mapRange] using hsts
      simp [this] at hsto
    · by_cases hpgs : ps = 0
      · subst hpgs
        have : new = [] := by simpa [mapRange] using hsts
        simp [this] at hsto
      · simp [hnil hpgs hcan] at hsto

lemma release_stores (page : ℕ) : (m.release page).stores = m.stores := by
  rw [release, unmapPage]
  cases M.unmap m.tables page <;> rfl

lemma unmapRange_stores (ps a : ℕ) (m : Machine M) : (unmapRange ps a m).2.stores = m.stores := by
  induction ps generalizing a m with
  | zero => rfl
  | succ _ ih =>
    simp only [unmapRange]
    split
    · rfl
    · rw [ih, release_stores]

end Machine

end Waros.Kernel.Memory
