import Waros.Kernel.Exec.LoaderEffects
import Waros.Kernel.Memory.Supply

/-!
Where the loader maps pages, and when it panics, for the segments and
arguments of an arbitrary file.
-/

namespace Waros.Kernel.Exec.Loader

open Lib Memory AddressSpace Machine List U64 LoaderEnv Nat Bool
variable {M : Mapper}

/-- The page lies in the user slot of the top-level table, below
`USER_STACK_TOP`. -/
def InUserSlot (page : ℕ) : Prop := (page + 1) * 4096 ≤ userStackTop ∧ topIndex page = 0

/-- The page meets the memory of the segment, computed without wrap-around. -/
def Covers (segment : ElfSegment) (page : ℕ) : Prop :=
  segment.vaddr / 4096 ≤ page ∧ page * 4096 < segment.vaddr + segment.memsz

/-- The pages that were mapped from `m` to `m'`. -/
def newlyMapped (m m' : Machine M) : List ℕ :=
  (m'.history.mapped.map Prod.fst).take (m'.history.mapped.length - m.history.mapped.length)

/-- What a load that returns `Ok` must have done: it mapped pages of the user
slot only, each page of a segment once and with the permissions of the
segment, the stack apart from them, and no address of a segment wraps around,
neither its end nor the end rounded to a page, of which the heap base is the
greatest. -/
structure ImageSafe (env : LoaderEnv) (elf : ElfInfo) (m m' : Machine M) : Prop where
  inside : ∀ page ∈ newlyMapped m m', InUserSlot page
  once : ∀ segment ∈ elf.segments, ∀ page, Covers segment page →
    (newlyMapped m m').count page = 1 ∧ ∃ frame flags,
      finalSegmentPageFlags segment = .ok flags ∧
      M.lookup m'.tables page = some (frame, flags)
  disjoint : ∀ page, stackBottomOf env ≤ page * 4096 → page * 4096 < stackTopOf env →
    page ∈ newlyMapped m m' ∧ ∀ segment ∈ elf.segments, ¬ Covers segment page
  noWrap : ∀ segment ∈ elf.segments, segment.vaddr + segment.memsz + 0xFFF < 2 ^ 64

/-- The loader does its work, or returns an error without having mapped a page
outside the user slot; it does not panic. -/
structure LoadSafe (env : LoaderEnv) (pageTablePhys : ℕ) (elf : ElfInfo) (data : List UInt8)
    (args : List (List UInt8)) (m : Machine M) : Prop where
  ne_panicked : (mapProcessImage env pageTablePhys elf data args m).1 ≠ .panicked
  of_error : ∀ {error m'}, mapProcessImage env pageTablePhys elf data args m =
    (.returned (.error error), m') → ∀ page ∈ newlyMapped m m', InUserSlot page
  of_ok : ∀ {image m'}, mapProcessImage env pageTablePhys elf data args m =
    (.returned (.ok image), m') → ImageSafe env elf m m'

def Written (writes : List Write) (a : ℕ) : Prop :=
  ∃ write ∈ writes, write.1 ≤ a ∧ a < write.1 + write.2.length

variable (env : LoaderEnv) {m : Machine M}

/-- The byte lies in the stack, or in a segment that can be written. -/
def ArgumentByte (elf : ElfInfo) (writeProtect : Bool) (a : ℕ) : Prop :=
  (stackBottomOf env ≤ a ∧ a < stackTopOf env) ∨
    ∃ segment ∈ elf.segments, Covers segment (a / 4096) ∧
      (segment.flags.write = true ∨ writeProtect = false)

/-- An image fits: its segments end before the end of the address space, and below
`USER_STACK_TOP` if they have a page, and there is room for the arguments. -/
structure Fits (env : LoaderEnv) (elf : ElfInfo) (args : List (List UInt8))
    (writeProtect : Bool) : Prop where
  noWrap : ∀ segment ∈ elf.segments, segment.vaddr + segment.memsz + 0xFFF < 2 ^ 64
  below : ∀ segment ∈ elf.segments, 0 < segmentPageCount segment →
    (segmentPageRange segment).2 ≤ userStackTop
  arguments : ∀ a, Written (stackWrites (stackTopOf env) args).1 a →
    ArgumentByte env elf writeProtect a

/-! ### Pages of a segment -/

lemma segmentPageRange_fst (seg : ElfSegment) :
    (segmentPageRange seg).1 = seg.vaddr / 4096 * 4096 := rfl

variable {segment : ElfSegment} {flags : PageFlags} {pages address : ℕ}
  {stop : Option Machine.MapStop} {writes : List Write} {sp bound a : ℕ}

section
variable (h : segment.vaddr + segment.memsz + 0xFFF < 2 ^ 64)
include h

lemma segmentPageRange_snd :
    (segmentPageRange segment).2 = (segment.vaddr + segment.memsz + 4095) / 4096 * 4096 := by
  rw [segmentPageRange, saturatingAdd_of_lt (a := segment.vaddr) (by omega), saturatingAdd_of_lt h]
  rfl

lemma segmentPageCount_eq :
    segmentPageCount segment =
      (segment.vaddr + segment.memsz + 4095) / 4096 - segment.vaddr / 4096 := by
  rw [segmentPageCount, segmentPageRange_fst, segmentPageRange_snd h, stepCount]
  omega

end

lemma mem_segmentPages_iff (hwalk : Walkable segment)
    (h : segment.vaddr + segment.memsz + 0xFFF < 2 ^ 64) (page : ℕ) :
    page ∈ segmentPages segment ↔ Covers segment page := by
  rw [segmentPages, mem_reached_iff hwalk, segmentPageCount_eq h, segmentPageRange_fst, Covers,
    containingPage]
  omega

lemma mem_stackPages_iff (page : ℕ) :
    page ∈ stackPages env ↔ stackBottomOf env ≤ page * 4096 ∧ page * 4096 < stackTopOf env := by
  obtain ⟨hal, hlow, hhigh⟩ := stackTopOf_bounds env
  rw [stackPages, mem_reached_iff (stack_canonical env), containingPage, stepCount,
    stackBottomOf, userStackSize]
  omega

variable {page : ℕ} {args : List (List UInt8)}

lemma inUserSlot_of_lt (h : (page + 1) * 4096 ≤ userStackTop) : InUserSlot page := by
  refine ⟨h, ?_⟩
  rw [userStackTop] at h
  rw [topIndex]
  omega

lemma inUserSlot_of_mem_stackPages {env : LoaderEnv} (h : page ∈ stackPages env) :
    InUserSlot page := by
  obtain ⟨hal, -, hhigh⟩ := stackTopOf_bounds env
  rw [mem_stackPages_iff] at h
  refine inUserSlot_of_lt ?_
  rw [userStackTop]
  omega

section
variable {env : LoaderEnv} {elf : ElfInfo} {args : List (List UInt8)} {writeProtect : Bool}

lemma Fits.walkable (h : Fits env elf args writeProtect) {segment : ElfSegment}
    (hseg : segment ∈ elf.segments) : Walkable segment := by
  intro i hi
  have hbel := h.below segment hseg (by omega)
  rw [segmentPageCount, stepCount] at hi
  rw [userStackTop] at hbel
  simp only [isCanonical, or_eq_true, decide_eq_true_eq]
  omega

lemma Fits.inUserSlot (h : Fits env elf args writeProtect) {seg : ElfSegment}
    (hseg : seg ∈ elf.segments) {page : ℕ} (hpg : page ∈ segmentPages seg) :
    InUserSlot page := by
  have hmem := mem_reached hpg
  have hbel := h.below seg hseg (by omega)
  have hnoWrap := h.noWrap seg hseg
  rw [segmentPageCount_eq hnoWrap, segmentPageRange_fst, containingPage] at hmem
  rw [segmentPageRange_snd hnoWrap] at hbel
  refine inUserSlot_of_lt (le_trans (mul_le_mul_right 4096 ?_) hbel)
  omega

end

lemma newlyMapped_eq {m m' : Machine M} {pages : List ℕ}
    (h : m'.history.mapped.map Prod.fst = pages ++ m.history.mapped.map Prod.fst) :
    newlyMapped m m' = pages := by
  have hlen := congrArg length h
  rw [length_map, length_append, length_map] at hlen
  rw [newlyMapped, h, hlen, Nat.add_sub_cancel, take_left]

section
variable {env : LoaderEnv} {pageTablePhys : ℕ} {elf : ElfInfo} {data : List UInt8}
  {m m' : Machine M}

theorem loadSafe_of_error {error : ExecError}
    (h : mapProcessImage env pageTablePhys elf data args m = (.returned (.error error), m')) :
    LoadSafe env pageTablePhys elf data args m ↔ ∀ page ∈ newlyMapped m m', InUserSlot page := by
  refine ⟨fun hsafe => hsafe.of_error h, fun hpages => ⟨by simp [h], ?_, ?_⟩⟩
  · intro error' m'' h'
    cases h.symm.trans h'
    exact hpages
  · intro image m'' h'
    cases h.symm.trans h'

theorem loadSafe_of_ok {image : AddressSpace × CpuContext × ℕ}
    (h : mapProcessImage env pageTablePhys elf data args m = (.returned (.ok image), m')) :
    LoadSafe env pageTablePhys elf data args m ↔ ImageSafe env elf m m' := by
  refine ⟨fun hsafe => hsafe.of_ok h, fun himage => ⟨by simp [h], ?_, ?_⟩⟩
  · intro error m'' h'
    cases h.symm.trans h'
  · intro image' m'' h'
    cases h.symm.trans h'
    exact himage

end

section
variable {α : Type} {next : Machine M → LoadOutcome α × Machine M}
  {r : LoadOutcome Unit × Machine M} {m' : Machine M}

theorem andThen_of_ok (h : r = (.returned (.ok ()), m')) : andThen r next = next m' := by
  rw [h]
  rfl

theorem andThen_of_error {error : ExecError} (h : r = (.returned (.error error), m')) :
    andThen r next = (.returned (.error error), m') := by
  rw [h]
  rfl

theorem andThen_of_panicked (h : r.1 = .panicked) : (andThen r next).1 = .panicked := by
  obtain ⟨outcome, m'⟩ := r
  obtain rfl : outcome = .panicked := h
  rfl

end

/-- The page addresses of the segments, in the order in which they are mapped. -/
def segmentAddresses (segments : List ElfSegment) : List ℕ :=
  segments.flatMap fun segment =>
    pageAddresses (segmentPageCount segment) (segmentPageRange segment).1

/-- The pages of the segments, in this order. -/
def loadedPages (segments : List ElfSegment) : List ℕ :=
  (segmentAddresses segments).map containingPage

theorem segmentAddresses_aligned (segments : List ElfSegment) :
    ∀ a ∈ segmentAddresses segments, a % 4096 = 0 := by
  intro a ha
  obtain ⟨segment, -, ha⟩ := mem_flatMap.1 ha
  obtain ⟨i, -, rfl⟩ := mem_pageAddresses.1 ha
  rw [segmentPageRange_fst]
  omega

theorem reached_eq_map {pages address : ℕ} (h : ∀ a ∈ pageAddresses pages address, isCanonical a) :
    reached pages address = (pageAddresses pages address).map containingPage := by
  induction pages generalizing address with
  | zero => rfl
  | succ pages ih =>
    obtain ⟨hfirst, hrest⟩ := forall_mem_cons.1 h
    rw [reached, if_pos hfirst, ih hrest]
    rfl

/-- Addresses that are all canonical lead to the pages of the segments. -/
theorem flatMap_segmentPages {segments : List ElfSegment}
    (h : ∀ a ∈ segmentAddresses segments, isCanonical a) :
    segments.flatMap segmentPages = (segmentAddresses segments).map containingPage := by
  induction segments with
  | nil => rfl
  | cons segment segments ih =>
    obtain ⟨hfirst, hrest⟩ := forall_mem_append.1 h
    rw [flatMap_cons, ih hrest, segmentPages, reached_eq_map hfirst, segmentAddresses,
      segmentAddresses, flatMap_cons, map_append]

theorem forSegments_mapSegmentPages {M : TableMapper} (segments : List ElfSegment)
    (m : Machine M.toMapper) : forSegments mapSegmentPages segments m =
      (mapSegmentResult (mapEach temporarySegmentPageFlags (segmentAddresses segments) m).1,
        (mapEach temporarySegmentPageFlags (segmentAddresses segments) m).2) := by
  induction segments generalizing m with
  | nil => rfl
  | cons segment segments ih =>
    obtain ⟨hstop, hmachine⟩ := mapRange_eq_mapEach temporarySegmentPageFlags
      (segmentPageCount segment) (segmentPageRange segment).1 m
    have hfirst : mapSegmentPages segment m = (mapSegmentResult (mapEach temporarySegmentPageFlags
        (pageAddresses (segmentPageCount segment) (segmentPageRange segment).1) m).1,
        (mapEach temporarySegmentPageFlags
          (pageAddresses (segmentPageCount segment) (segmentPageRange segment).1) m).2) := by
      rw [← hstop, ← hmachine]
      rfl
    rw [forSegments, hfirst, segmentAddresses, flatMap_cons, mapEach_append, ← segmentAddresses]
    rcases mapEach temporarySegmentPageFlags
      (pageAddresses (segmentPageCount segment) (segmentPageRange segment).1) m with ⟨_ | stop, m'⟩
    · exact ih m'
    · rcases stop with _ | _ | ⟨_ | _ | _, _⟩ <;> rfl

/-! ### One store, byte by byte -/

/-- The addresses of the bytes from `address` on, as the kernel computes them. -/
def byteAddresses (address length : ℕ) : List ℕ := (range length).map (wrappingAdd address)

theorem byteAddresses_add (address length rest : ℕ) : byteAddresses address (length + rest) =
    byteAddresses address length ++ byteAddresses (wrappingAdd address length) rest := by
  rw [byteAddresses, range_add, map_append, map_map]
  congr 1
  refine map_congr_left fun i _ => ?_
  rw [Function.comp_apply, wrappingAdd, wrappingAdd, wrappingAdd, Nat.mod_add_mod, Nat.add_assoc]

/-- A property of the elements up to the first that fails a test. -/
theorem forall_takeWhile_append {α : Type} {test : α → Bool} {holds : α → Prop}
    (left right : List α) : (∀ a ∈ (left ++ right).takeWhile test, holds a) ↔
      (∀ a ∈ left.takeWhile test, holds a) ∧
        ((∀ a ∈ left, test a) → ∀ a ∈ right.takeWhile test, holds a) := by
  induction left with
  | nil => simp
  | cons first left ih =>
    rw [cons_append, takeWhile_cons, takeWhile_cons]
    cases htest : test first with
    | false => simp [htest]
    | true =>
      rw [if_pos rfl, if_pos rfl, forall_mem_cons, forall_mem_cons, forall_mem_cons, ih]
      simp only [htest]
      tauto

theorem userWritable_congr {t : M.Tables} {a b : ℕ} (h : containingPage a = containingPage b) :
    userWritable t a = userWritable t b := by
  rw [userWritable, userWritable, h]

theorem containingPage_of_chunk {address i : ℕ} (haddress : address < 2 ^ 64)
    (hi : i < 4096 - address % 4096) :
    containingPage (wrappingAdd address i) = containingPage address := by
  rw [wrappingAdd_of_lt (by omega), containingPage, containingPage]
  omega

/-- The pages of a store go through if all bytes do, and lie in pages that the user may
write if all bytes up to the first fault do. -/
theorem storePages_spec {pages address length : ℕ} {data : ℕ → UInt8} {m : Machine M}
    (hpages : pages = (address % 4096 + length + 4095) / 4096) (hpos : 0 < length)
    (haddress : address < 2 ^ 64) :
    ((storePages pages address length data m).1 = false ↔
        ∀ a ∈ byteAddresses address length, m.storable a) ∧
      ((∀ a ∈ touchedPages pages address length m, userWritable m.tables a) ↔
        ∀ a ∈ (byteAddresses address length).takeWhile m.storable, userWritable m.tables a) := by
  induction pages generalizing address length data m with
  | zero => omega
  | succ pages ih =>
    have hchunk : ∀ i < min length (4096 - address % 4096),
        containingPage (wrappingAdd address i) = containingPage address := fun i hi =>
      containingPage_of_chunk haddress (by omega)
    have hsplit := byteAddresses_add address (min length (4096 - address % 4096))
      (length - min length (4096 - address % 4096))
    rw [Nat.add_sub_cancel' (min_le_left ..)] at hsplit
    have hfirst : address ∈ byteAddresses address (min length (4096 - address % 4096)) :=
      mem_map.2 ⟨0, mem_range.2 (by omega), wrappingAdd_of_lt (by omega)⟩
    rw [storePages, touchedPages, hsplit, forall_takeWhile_append, forall_mem_append]
    by_cases hstorable : m.storable address
    · have hall : ∀ a ∈ byteAddresses address (min length (4096 - address % 4096)),
          m.storable a = true := by
        intro a ha
        obtain ⟨i, hi, rfl⟩ := mem_map.1 ha
        rw [storable_congr m (hchunk i (mem_range.1 hi)), hstorable]
      have hwritable : (∀ a ∈ byteAddresses address (min length (4096 - address % 4096)),
          userWritable m.tables a) ↔ userWritable m.tables address := by
        refine ⟨fun h => h address hfirst, fun h a ha => ?_⟩
        obtain ⟨i, hi, rfl⟩ := mem_map.1 ha
        rwa [userWritable_congr (hchunk i (mem_range.1 hi))]
      rw [if_pos hstorable, if_pos hstorable, forall_mem_cons, takeWhile_eq_self_iff.2 hall,
        hwritable, and_iff_right hall, forall_prop_of_true hall]
      by_cases hlast : length ≤ 4096 - address % 4096
      · obtain rfl : pages = 0 := by omega
        simp [storePages, touchedPages, min_eq_left hlast, byteAddresses]
      · rw [min_eq_right (by omega)]
        have hnext : pages = (wrappingAdd address (4096 - address % 4096) % 4096 +
            (length - (4096 - address % 4096)) + 4095) / 4096 := by
          rw [wrappingAdd]
          omega
        refine ⟨?_, and_congr_right fun _ => (@ih _ _ data m hnext (by omega)
          (Nat.mod_lt _ (by decide))).2⟩
        exact (ih hnext (by omega) (Nat.mod_lt _ (by decide))).1
    · rw [if_neg hstorable, if_neg hstorable]
      obtain ⟨rest, hrest⟩ : ∃ rest, byteAddresses address
          (min length (4096 - address % 4096)) = address :: rest := by
        obtain ⟨n, hn⟩ := Nat.exists_eq_add_of_lt (show 0 < min length (4096 - address % 4096) by
          omega)
        rw [hn, byteAddresses, Nat.zero_add, range_succ_eq_map, map_cons,
          wrappingAdd_of_lt (show address + 0 < 2 ^ 64 by omega)]
        exact ⟨_, rfl⟩
      rw [hrest, takeWhile_cons, if_neg hstorable]
      simp [hstorable]

/-- When a store goes through, and when it stays within the pages that the user may
write, byte by byte. -/
theorem store_spec {address : ℕ} (haddress : address < 2 ^ 64) (length : ℕ) (data : ℕ → UInt8)
    (m : Machine M) : Extends m (m.store address length data).2 ∧
      ((m.store address length data).1 = false ↔
        ∀ a ∈ byteAddresses address length, m.storable a) ∧
      (Confined m (m.store address length data).2 ↔
        ∀ a ∈ (byteAddresses address length).takeWhile m.storable, userWritable m.tables a) := by
  refine ⟨store_extends m address length data, ?_⟩
  rw [confined_store_iff, touched, store]
  split_ifs with hzero
  · simp [hzero, byteAddresses]
  · exact storePages_spec rfl (by omega) haddress

/-- The slice of the file with the contents of the segment is out of bounds. -/
def sliceFails (data : List UInt8) (segment : ElfSegment) : Bool :=
  let sourceEnd := wrappingAdd segment.offset segment.filesz
  decide (segment.offset > sourceEnd ∨ sourceEnd > data.length)

/-- What filling one segment returns, and when it stays within the pages that the
user may write. -/
theorem populateSegment_spec {data : List UInt8} {segment : ElfSegment}
    (hparsed : segment.Parsed data) (hslice : sliceFails data segment = false) (m : Machine M) :
    Extends m (populateSegment data segment m).2 ∧
      (((populateSegment data segment m).1 = .returned (.ok ()) ∧
          ∀ a ∈ byteAddresses segment.vaddr segment.memsz, m.storable a) ∨
        ((populateSegment data segment m).1 = .panicked ∧
          ¬ ∀ a ∈ byteAddresses segment.vaddr segment.memsz, m.storable a)) ∧
      (Confined m (populateSegment data segment m).2 ↔
        ∀ a ∈ (byteAddresses segment.vaddr segment.memsz).takeWhile m.storable,
          userWritable m.tables a) := by
  have hsource : ¬ (segment.offset > wrappingAdd segment.offset segment.filesz ∨
      wrappingAdd segment.offset segment.filesz > data.length) := of_decide_eq_false hslice
  have hsplit := byteAddresses_add segment.vaddr segment.filesz (segment.memsz - segment.filesz)
  rw [Nat.add_sub_cancel' hparsed.filesz_le] at hsplit
  obtain ⟨hextends, hfault, hconfined⟩ := store_spec hparsed.vaddr_lt segment.filesz
    (fun i => data.getD (segment.offset + i) 0) m
  obtain ⟨stores, hstores⟩ := store_eq m segment.vaddr segment.filesz
    fun i => data.getD (segment.offset + i) 0
  rw [populateSegment, hsplit, forall_takeWhile_append, forall_mem_append, ← hfault, ← hconfined]
  simp only [if_neg hsource]
  generalize m.store segment.vaddr segment.filesz _ = first at *
  obtain ⟨_ | _, m₁⟩ := first
  swap
  · simpa using hextends
  obtain rfl : m₁ = { m with stores } := hstores
  have hnext : wrappingAdd segment.vaddr segment.filesz < 2 ^ 64 := Nat.mod_lt _ (by decide)
  obtain ⟨hextends', hfault', hconfined'⟩ := store_spec hnext (segment.memsz - segment.filesz)
    (fun _ => 0) { m with stores }
  simp only [storable_stores] at hfault' hconfined'
  dsimp only
  rw [← hfault']
  have hboth := confined_trans_iff hextends hextends'
  rw [hconfined'] at hboth
  generalize store { m with stores } (wrappingAdd segment.vaddr segment.filesz)
    (segment.memsz - segment.filesz) (fun _ => 0) = second at *
  obtain ⟨_ | _, m₂⟩ := second
  · simpa using ⟨hextends.trans hextends', hboth⟩
  · simpa using ⟨hextends.trans hextends', hboth⟩

/-- The addresses at which the segments are filled, in this order, up to a segment
whose contents are not in the file. -/
def fillAddresses (data : List UInt8) (segments : List ElfSegment) : List ℕ :=
  (segments.takeWhile fun segment => !sliceFails data segment).flatMap fun segment =>
    byteAddresses segment.vaddr segment.memsz

/-- What filling the segments returns, and when it stays within the pages that the
user may write. -/
theorem populateSegments_spec {data : List UInt8} {segments : List ElfSegment}
    (hparsed : ∀ segment ∈ segments, segment.Parsed data) (m : Machine M) :
    Extends m (forSegments (populateSegment data) segments m).2 ∧
      (((forSegments (populateSegment data) segments m).1 = .returned (.ok ()) ∧
          ∀ segment ∈ segments, sliceFails data segment = false ∧
            ∀ a ∈ byteAddresses segment.vaddr segment.memsz, m.storable a) ∨
        ((forSegments (populateSegment data) segments m).1 = .panicked ∧
          ¬ ∀ segment ∈ segments, sliceFails data segment = false ∧
            ∀ a ∈ byteAddresses segment.vaddr segment.memsz, m.storable a)) ∧
      (Confined m (forSegments (populateSegment data) segments m).2 ↔
        ∀ a ∈ (fillAddresses data segments).takeWhile m.storable, userWritable m.tables a) := by
  induction segments generalizing m with
  | nil =>
    exact ⟨.of_stores_eq rfl, .inl ⟨rfl, by simp⟩,
      by simp [fillAddresses, forSegments, Confined.of_stores_eq]⟩
  | cons segment segments ih =>
    obtain ⟨hfirst, hrest⟩ := forall_mem_cons.1 hparsed
    rw [forall_mem_cons]
    cases hslice : sliceFails data segment with
    | true =>
      have hsource := of_decide_eq_true hslice
      have hrun : populateSegment data segment m = (.panicked, m) := by
        rw [populateSegment]
        exact if_pos hsource
      simp [forSegments, hrun, fillAddresses, hslice, Extends.of_stores_eq, Confined.of_stores_eq]
    | false =>
      obtain ⟨hextends, hresult, hconfined⟩ := populateSegment_spec hfirst hslice m
      have hsplit : fillAddresses data (segment :: segments) =
          byteAddresses segment.vaddr segment.memsz ++ fillAddresses data segments := by
        simp [fillAddresses, hslice]
      rw [hsplit, forall_takeWhile_append, ← hconfined, forSegments]
      cases hrun : populateSegment data segment m with
      | mk result m₁ =>
        rw [hrun] at hextends hresult hconfined
        obtain ⟨stores, rfl⟩ := populateSegment_eq hrun
        rcases hresult with ⟨rfl, hall⟩ | ⟨rfl, hnot⟩
        · obtain ⟨hextends', hresult', hconfined'⟩ := ih hrest { m with stores }
          change _ ↔ ∀ a ∈ (fillAddresses data segments).takeWhile m.storable, _ at hconfined'
          refine ⟨hextends.trans hextends', ?_, ?_⟩
          · have hsegment : false = false ∧ ∀ a ∈ byteAddresses segment.vaddr segment.memsz,
                m.storable a = true := ⟨rfl, hall⟩
            rw [and_iff_right hsegment]
            exact hresult'
          · rw [forall_prop_of_true hall, ← hconfined']
            exact confined_trans_iff hextends hextends'
        · exact ⟨hextends, .inr ⟨rfl, by simp [hnot]⟩, by simp [hnot]⟩

/-- The contents of the segments of a file are in the file: filling them goes through
exactly when all bytes can be stored to, and panics otherwise. -/
theorem populateSegments_cases {data : List UInt8} (hdata : data.length < 2 ^ 63)
    {segments : List ElfSegment} (hparsed : ∀ segment ∈ segments, segment.Parsed data)
    (m : Machine M) :
    ((∀ segment ∈ segments, ∀ i < segment.memsz, m.storable (wrappingAdd segment.vaddr i)) ∧
        ∃ stores, forSegments (populateSegment data) segments m =
          (.returned (.ok ()), { m with stores })) ∨
      (¬ ∀ segment ∈ segments, ∀ i < segment.memsz, m.storable (wrappingAdd segment.vaddr i)) ∧
        (forSegments (populateSegment data) segments m).1 = .panicked := by
  have hslice : ∀ segment ∈ segments, sliceFails data segment = false := by
    intro segment hsegment
    have hend := (hparsed segment hsegment).fileEnd_le
    rw [saturatingAdd] at hend
    rw [sliceFails, wrappingAdd_of_lt (by omega)]
    exact decide_eq_false (by omega)
  have hbytes : (∀ segment ∈ segments, sliceFails data segment = false ∧
      ∀ a ∈ byteAddresses segment.vaddr segment.memsz, m.storable a) ↔
        ∀ segment ∈ segments, ∀ i < segment.memsz, m.storable (wrappingAdd segment.vaddr i) := by
    refine forall₂_congr fun segment hsegment => ?_
    simp [hslice segment hsegment, byteAddresses]
  obtain ⟨-, hresult, -⟩ := populateSegments_spec hparsed m
  rw [hbytes] at hresult
  rcases hresult with ⟨hok, hall⟩ | ⟨hpanic, hnot⟩
  · obtain ⟨stores, hstores⟩ := populateSegments_eq (Prod.ext hok rfl)
    exact .inl ⟨hall, stores, Prod.ext hok hstores⟩
  · exact .inr ⟨hnot, hpanic⟩

/-! ### Final permissions -/

/-- The two tables have the same pages and tables, and the same frames are left. -/
structure SameSupply {M : TableMapper} (m m' : Machine M.toMapper) : Prop where
  lookup : ∀ page, M.lookup m'.tables page = none ↔ M.lookup m.tables page = none
  blocked : ∀ page, M.blocked m'.tables page = M.blocked m.tables page
  hasTable : ∀ table, M.hasTable m'.tables table = M.hasTable m.tables table
  frames : m'.frames = m.frames

theorem SameSupply.trans {M : TableMapper} {m m₁ m₂ : Machine M.toMapper} (h : SameSupply m m₁)
    (h' : SameSupply m₁ m₂) : SameSupply m m₂ :=
  ⟨fun page => (h'.lookup page).trans (h.lookup page),
    fun page => (h'.blocked page).trans (h.blocked page),
    fun table => (h'.hasTable table).trans (h.hasTable table), h'.frames.trans h.frames⟩

theorem SameSupply.mappable_iff {M : TableMapper} {m m' : Machine M.toMapper}
    (h : SameSupply m m') (pages : List ℕ) : m'.Mappable pages ↔ m.Mappable pages := by
  have hmissing : M.missing m'.tables pages = M.missing m.tables pages := by
    simp only [TableMapper.missing, h.hasTable]
  constructor
  · rintro ⟨hnodup, hunmapped, hframes⟩
    exact ⟨hnodup, by simpa only [h.lookup, h.blocked] using hunmapped, by
      rwa [hmissing, h.frames] at hframes⟩
  · rintro ⟨hnodup, hunmapped, hframes⟩
    exact ⟨hnodup, by simpa only [h.lookup, h.blocked] using hunmapped, by
      rwa [hmissing, h.frames]⟩

theorem updateRange_sameSupply {M : TableMapper} (flags : PageFlags) (pages address : ℕ)
    (m : Machine M.toMapper) : SameSupply m (updateRange flags pages address m).2 := by
  induction pages generalizing address m with
  | zero => exact ⟨fun _ => .rfl, fun _ => rfl, fun _ => rfl, rfl⟩
  | succ pages ih =>
    rw [updateRange]
    split
    · exact ⟨fun _ => .rfl, fun _ => rfl, fun _ => rfl, rfl⟩
    · split
      · exact ⟨fun _ => .rfl, fun _ => rfl, fun _ => rfl, rfl⟩
      · next tables hupdate =>
        obtain ⟨frame, old, hlookup, hothers, -⟩ := M.updateFlags_some hupdate
        have hstep : SameSupply m { m with tables } := by
          refine ⟨fun page => ?_, M.updateFlags_blocked hupdate, M.updateFlags_hasTable hupdate,
            rfl⟩
          dsimp only
          rw [hothers]
          split_ifs with hpage
          · simp [hpage, hlookup]
          · rfl
        exact hstep.trans (ih _ _)

theorem updateRange_of_mapped {flags : PageFlags} {pages address : ℕ} {m : Machine M}
    (hcanonical : ∀ i < pages, isCanonical (address + 4096 * i))
    (hmapped : ∀ i < pages, M.lookup m.tables (containingPage (address + 4096 * i)) ≠ none) :
    ∃ m', updateRange flags pages address m = (.returned (.ok ()), m') := by
  induction pages generalizing address m with
  | zero => exact ⟨m, rfl⟩
  | succ pages ih =>
    have hfirst := hcanonical 0 (by omega)
    have hpage := hmapped 0 (by omega)
    rw [mul_zero, add_zero] at hfirst hpage
    simp only [updateRange, hfirst, Bool.not_true, false_eq_true, if_false]
    cases hupdate : M.updateFlags m.tables (containingPage address) flags with
    | none => exact absurd (M.updateFlags_none hupdate) hpage
    | some tables =>
      obtain ⟨frame, old, -, hothers, -⟩ := M.updateFlags_some hupdate
      have hnext : ∀ i, address + 4096 + 4096 * i = address + 4096 * (i + 1) := fun i => by omega
      refine ih (fun i hi => ?_) fun i hi => ?_
      · rw [hnext]
        exact hcanonical (i + 1) (by omega)
      · dsimp only
        rw [hothers, hnext]
        split_ifs
        · simp
        · exact hmapped (i + 1) (by omega)

theorem applySegmentPermissions_sameSupply {M : TableMapper} (segment : ElfSegment)
    (m : Machine M.toMapper) : SameSupply m (applySegmentPermissions segment m).2 := by
  rw [applySegmentPermissions]
  split
  · exact ⟨fun _ => .rfl, fun _ => rfl, fun _ => rfl, rfl⟩
  · exact updateRange_sameSupply ..

/-- The segment asks for pages that can be both written and executed. -/
def WritesCode (segment : ElfSegment) : Prop :=
  (segment.flags.write && segment.flags.execute) = true

/-- With all pages mapped, the final permissions are refused exactly when a segment
can be both written and executed. -/
theorem applyPermissions_spec {M : TableMapper} {segments : List ElfSegment}
    {m : Machine M.toMapper} (hwalkable : ∀ segment ∈ segments, Walkable segment)
    (hmapped : ∀ segment ∈ segments, ∀ i < segmentPageCount segment,
      M.lookup m.tables (containingPage ((segmentPageRange segment).1 + 4096 * i)) ≠ none) :
    ∃ tables, SameSupply m { m with tables } ∧
      (((∀ segment ∈ segments, ¬ WritesCode segment) ∧
          forSegments applySegmentPermissions segments m =
            (.returned (.ok ()), { m with tables })) ∨
        (¬ ∀ segment ∈ segments, ¬ WritesCode segment) ∧ ∃ error,
          forSegments applySegmentPermissions segments m =
            (.returned (.error error), { m with tables })) := by
  induction segments generalizing m with
  | nil => exact ⟨m.tables, ⟨fun _ => .rfl, fun _ => rfl, fun _ => rfl, rfl⟩, .inl ⟨by simp, rfl⟩⟩
  | cons segment segments ih =>
    obtain ⟨hwalk, hwalks⟩ := forall_mem_cons.1 hwalkable
    obtain ⟨hpages, hrest⟩ := forall_mem_cons.1 hmapped
    have hsame := applySegmentPermissions_sameSupply segment m
    obtain ⟨tables, htables⟩ := applySegmentPermissions_eq segment m
    rw [forSegments]
    by_cases hcode : WritesCode segment
    · have hfail : applySegmentPermissions segment m = (.returned (.error .loadFailed), m) := by
        rw [WritesCode] at hcode
        rw [applySegmentPermissions, finalSegmentPageFlags, if_pos hcode]
      rw [hfail]
      refine ⟨m.tables, ⟨fun _ => .rfl, fun _ => rfl, fun _ => rfl, rfl⟩, .inr ⟨?_, _, rfl⟩⟩
      exact fun h => h segment (by simp) hcode
    · obtain ⟨m', hupdate⟩ : ∃ m', applySegmentPermissions segment m =
          (.returned (.ok ()), m') := by
        rw [WritesCode] at hcode
        rw [applySegmentPermissions, finalSegmentPageFlags, if_neg hcode]
        exact updateRange_of_mapped hwalk hpages
      rw [hupdate] at hsame htables ⊢
      obtain rfl : m' = { m with tables } := htables
      obtain ⟨tables', hsame', hcases⟩ := ih hwalks fun other hother i hi => by
        rw [Ne, hsame.lookup]
        exact hrest other hother i hi
      refine ⟨tables', hsame.trans hsame', ?_⟩
      simpa [hcode] using hcases

theorem verifyWx_imageSpace (pageTablePhys : ℕ) {segments : List ElfSegment}
    (h : ∀ segment ∈ segments, ¬ WritesCode segment) :
    verifyWx (imageSpace env pageTablePhys segments).segments := by
  have hfold : ∀ (rest : List ElfSegment) (space : AddressSpace),
      verifyWx space.segments → (∀ segment ∈ rest, ¬ WritesCode segment) →
      verifyWx (rest.foldl (fun (space : AddressSpace) segment =>
        space.registerSegment segment.vaddr segment.memsz segment.flags) space).segments := by
    intro rest
    induction rest with
    | nil => exact fun space hspace _ => hspace
    | cons segment rest ih =>
      intro space hspace hrest
      obtain ⟨hfirst, hrest⟩ := forall_mem_cons.1 hrest
      refine ih _ ?_ hrest
      rw [WritesCode, Bool.not_eq_true] at hfirst
      rw [verifyWx] at hspace ⊢
      simp only [registerSegment, all_append, hspace, all_cons, all_nil, Bool.and_true,
        hfirst, Bool.not_false]
  exact hfold segments (.new pageTablePhys) rfl h

theorem stackPages_eq_map : stackPages env =
    (pageAddresses (stepCount (stackBottomOf env) (stackTopOf env))
      (stackBottomOf env)).map containingPage :=
  reached_eq_map fun a ha => by
    obtain ⟨i, hi, rfl⟩ := mem_pageAddresses.1 ha
    exact stack_canonical env i hi

lemma stackBottomOf_aligned : stackBottomOf env % 4096 = 0 := by
  have hbds := stackTopOf_bounds env
  rw [stackBottomOf, userStackSize]
  omega

/-- The stack is mapped exactly when its pages can be; otherwise an error is
returned, with some of them mapped. -/
theorem mapStack_spec {M : TableMapper} (m : Machine M.toMapper) :
    (m.Mappable (stackPages env) ∧ ∃ m', mapStack env m = (.returned (.ok ()), m')) ∨
      ¬ m.Mappable (stackPages env) ∧ ∃ error m' pages,
        mapStack env m = (.returned (.error error), m') ∧ pages ⊆ stackPages env ∧
        m'.history.mapped.map Prod.fst = pages ++ m.history.mapped.map Prod.fst := by
  have haligned : ∀ a ∈ pageAddresses (stepCount (stackBottomOf env) (stackTopOf env))
      (stackBottomOf env), a % 4096 = 0 := fun a ha => by
    obtain ⟨i, -, rfl⟩ := mem_pageAddresses.1 ha
    have hbottom := stackBottomOf_aligned env
    omega
  have hcanonical : ∀ a ∈ pageAddresses (stepCount (stackBottomOf env) (stackTopOf env))
      (stackBottomOf env), isCanonical a := fun a ha => by
    obtain ⟨i, hi, rfl⟩ := mem_pageAddresses.1 ha
    exact stack_canonical env i hi
  obtain ⟨hstop, hmachine⟩ := mapRange_eq_mapEach (dataFlags true)
    (stepCount (stackBottomOf env) (stackTopOf env)) (stackBottomOf env) m
  have hfill : m.fillable (dataFlags true) := rfl
  obtain ⟨hpanicked, hnone⟩ := mapEach_none_iff haligned hcanonical hfill
  obtain ⟨before, after, haddresses, hstops⟩ := mapEach_stops haligned hfill
  rw [stackPages_eq_map, ← hnone, mapStack, hstop, hmachine]
  cases hresult : (mapEach (dataFlags true) (pageAddresses
      (stepCount (stackBottomOf env) (stackTopOf env)) (stackBottomOf env)) m).1 with
  | none => exact .inl ⟨rfl, _, rfl⟩
  | some stop =>
    have herror : ∃ error, mapStackResult (some stop) = .returned (.error error) := by
      cases stop with
      | panicked => exact absurd hresult hpanicked
      | noFrame | mapError => exact ⟨_, rfl⟩
    obtain ⟨error, herror⟩ := herror
    rw [herror]
    refine .inr ⟨by simp, error, _, _, rfl, ?_, hstops.mapped⟩
    intro page hpage
    rw [haddresses, map_append]
    exact mem_append_left _ (mem_reverse.1 hpage)

/-! ### The arguments -/

lemma storeAll_fst (hend : ∀ a, Written writes a → a < 2 ^ 64)
    (h : ∀ a, Written writes a → m.storable a) : (storeAll writes m).1 = false := by
  induction writes generalizing m with
  | nil => rfl
  | cons write _ ih =>
    have hfst : (m.store write.1 write.2.length fun i => write.2.getD i 0).1 = false :=
      store_fst _ (fun hlen => by
        have := hend (write.1 + write.2.length - 1) ⟨write, by simp, by omega, by omega⟩
        omega) fun a hle hlt => h a ⟨write, by simp, hle, hlt⟩
    obtain ⟨stores, hsts⟩ := store_eq m write.1 write.2.length
      fun i => write.2.getD i 0
    cases hsto : m.store write.1 write.2.length fun i => write.2.getD i 0 with
    | mk fault m₁ =>
      rw [hsto] at hfst hsts
      obtain rfl : fault = false := hfst
      obtain rfl : m₁ = { m with stores } := hsts
      simp only [storeAll, hsto]
      refine ih ?_ ?_
      · rintro a ⟨other, ho, hrng⟩
        exact hend a ⟨other, by simp [ho], hrng⟩
      · rintro a ⟨other, ho, hrng⟩
        exact h a ⟨other, by simp [ho], hrng⟩

lemma storable_of_storeAll (h : (storeAll writes m).1 = false) {a : ℕ} (ha : Written writes a)
    (hend : a < 2 ^ 64) : m.storable a := by
  induction writes generalizing m with
  | nil =>
    obtain ⟨write, hwr, -⟩ := ha
    simp at hwr
  | cons write _ ih =>
    obtain ⟨stores, hsts⟩ := store_eq m write.1 write.2.length
      fun i => write.2.getD i 0
    cases hsto : m.store write.1 write.2.length fun i => write.2.getD i 0 with
    | mk fault m₁ =>
      rw [hsto] at hsts
      obtain rfl : m₁ = { m with stores } := hsts
      simp only [storeAll, hsto] at h
      cases fault with
      | true => cases h
      | false =>
        obtain ⟨other, ho, hle, hlt⟩ := ha
        rcases mem_cons.1 ho with rfl | ho
        · exact storable_of_store (by rw [hsto]) hle hlt hend
        · exact ih (m := { m with stores }) h ⟨other, ho, hle, hlt⟩

section
variable {env : LoaderEnv} {elf : ElfInfo} {m m₁ m₂ m₃ : Machine M}

/-- A page of a segment is none of the stack, and has the flags of the segment
in the complete image. -/
lemma ImageMapped.lookup_segment (h : ImageMapped env elf m m₁ m₂ m₃) {seg : ElfSegment}
    (hseg : seg ∈ elf.segments) {page : ℕ} (hpg : page ∈ segmentPages seg) :
    page ∉ stackPages env ∧ ∃ frame flags, finalSegmentPageFlags seg = .ok flags ∧
      M.lookup m₃.tables page = some (frame, flags) := by
  obtain ⟨ss, hperm⟩ := h.permissions
  obtain ⟨flags, hfl, hpgs⟩ := hperm.lookup_mem h.segments.nodup seg hseg
  obtain ⟨frame, old, -, hl⟩ := hpgs page hpg
  have hstk : page ∉ stackPages env := fun hmem => by
    rw [h.stack.unmapped page hmem] at hl
    cases hl
  exact ⟨hstk, frame, flags, hfl, (h.stack.lookup_notMem page hstk).trans hl⟩

lemma finalSegmentPageFlags_writable {seg : ElfSegment} {fl : PageFlags}
    (h : finalSegmentPageFlags seg = .ok fl) :
    fl.writable = seg.flags.write := by
  rw [finalSegmentPageFlags] at h
  split_ifs at h
  cases h
  rfl

section
variable (h : ImageMapped env elf m m₁ m₂ m₃)
include h

lemma ImageMapped.writeProtect_eq : m₃.writeProtect = m.writeProtect := by
  obtain ⟨ss, hperm⟩ := h.permissions
  rw [h.stack.writeProtect, hperm.machine_eq]
  exact h.segments.writeProtect

/-- A byte of the stack or of a segment that can be written is storable. -/
lemma ImageMapped.storable_of_argumentByte
    (hnoWrap : ∀ segment ∈ elf.segments, segment.vaddr + segment.memsz + 0xFFF < 2 ^ 64)
    {a : ℕ} (hcan : isCanonical a) (ha : ArgumentByte env elf m.writeProtect a) :
    m₃.storable a := by
  rcases ha with ⟨hbot, htop⟩ | ⟨segment, hseg, hcov, hw⟩
  · have hpg : containingPage a ∈ stackPages env := by
      have hbds := stackTopOf_bounds env
      rw [mem_stackPages_iff, containingPage]
      rw [stackBottomOf, userStackSize] at hbot ⊢
      omega
    obtain ⟨f, hl, -⟩ := h.stack.lookup_mem _ hpg
    exact storable_of_lookup hcan hl (.inl rfl)
  · have hpg : containingPage a ∈ segmentPages segment :=
      (mem_segmentPages_iff (h.walkable segment hseg) (hnoWrap segment hseg) _).2 hcov
    obtain ⟨-, f, flags, hfl, hl⟩ := h.lookup_segment hseg hpg
    refine storable_of_lookup hcan hl ?_
    rwa [finalSegmentPageFlags_writable hfl, h.writeProtect_eq]

/-- In a table whose user slot was empty, no other byte of the slot is. -/
lemma ImageMapped.argumentByte_of_storable
    (hfs : ∀ page, topIndex page = 0 → M.translate m.tables page = none)
    (hnoWrap : ∀ segment ∈ elf.segments, segment.vaddr + segment.memsz + 0xFFF < 2 ^ 64)
    {a : ℕ} (hsl : topIndex (containingPage a) = 0) (ha : m₃.storable a) :
    ArgumentByte env elf m.writeProtect a := by
  obtain ⟨ss, hperm⟩ := h.permissions
  by_cases hstk : containingPage a ∈ stackPages env
  · have hbds := stackTopOf_bounds env
    rw [mem_stackPages_iff, containingPage] at hstk
    exact .inl (by omega)
  · by_cases hsegs : containingPage a ∈ elf.segments.flatMap segmentPages
    · obtain ⟨segment, hseg, hpg⟩ := mem_flatMap.1 hsegs
      obtain ⟨-, f, flags, hfl, hl⟩ := h.lookup_segment hseg hpg
      refine .inr ⟨segment, hseg, (mem_segmentPages_iff (h.walkable segment hseg)
        (hnoWrap segment hseg) _).1 hpg, ?_⟩
      rw [storable, M.translate_of_lookup hl, h.writeProtect_eq] at ha
      simp only [and_eq_true, finalSegmentPageFlags_writable hfl] at ha
      simpa using ha.2
    · rw [storable, h.stack.translate_notMem _ hstk, hperm.translate_notMem _ hsegs,
        h.segments.translate_notMem _ hsegs, hfs _ hsl] at ha
      simp at ha

lemma ImageMapped.newlyMapped_eq (stores : List (Store M.Tables)) :
    newlyMapped m { m₃ with stores } =
      (stackPages env).reverse ++ (elf.segments.flatMap segmentPages).reverse := by
  obtain ⟨stores', hperm⟩ := h.permissions
  have hhist : m₂.history = m₁.history := by rw [hperm.machine_eq]
  refine Loader.newlyMapped_eq ?_
  rw [h.stack.mapped, hhist, h.segments.mapped, append_assoc]

end

end

lemma placeStrings_le (args : List (List UInt8)) (sp : ℕ) : (placeStrings sp args).2.2 ≤ sp := by
  induction args generalizing sp with
  | nil => exact le_rfl
  | cons _ _ ih => exact le_trans (ih _) (sub_le ..)

/-- The strings leave no gap above the address they start from. -/
lemma written_of_placeStrings (hsp : sp ≤ bound)
    (ha : Written (placeStrings sp args).1 a) (hbd : bound ≤ a) :
    Written (placeStrings sp args).1 bound := by
  induction args generalizing sp with
  | nil =>
    obtain ⟨write, hwr, -⟩ := ha
    simp [placeStrings] at hwr
  | cons arg _ ih =>
    simp only [placeStrings] at ha ⊢
    obtain ⟨write, hwr, hle, hlt⟩ := ha
    rcases mem_cons.1 hwr with rfl | hwr
    · exact ⟨_, mem_cons_self, by dsimp only; omega, by dsimp only at hlt ⊢; omega⟩
    · rcases mem_cons.1 hwr with rfl | hwr
      · simp only [length_singleton] at hle hlt
        by_cases heq : bound = a
        · exact ⟨(sp - (arg.length + 1) + arg.length, [0]), by simp, by omega, by simp; omega⟩
        · exact ⟨(sp - (arg.length + 1), arg), by simp, by omega, by dsimp only; omega⟩
      · obtain ⟨write', hwr', hrng⟩ := ih (by omega) ⟨write, hwr, hle, hlt⟩
        exact ⟨write', by simp [hwr'], hrng⟩

/-- Nor do the words of the argument frame. -/
lemma written_of_words {words : List ℕ} (hsp : sp ≤ bound)
    (ha : Written (words.zipIdx.map fun word => (sp + word.2 * 8, toBytes word.1)) a)
    (hbd : bound ≤ a) :
    Written (words.zipIdx.map fun word => (sp + word.2 * 8, toBytes word.1)) bound := by
  obtain ⟨write, hwr, hle, hlt⟩ := ha
  obtain ⟨⟨word, i⟩, hword, rfl⟩ := mem_map.1 hwr
  simp only [toBytes, length_map, length_range] at hle hlt
  have hi := (mem_zipIdx' hword).1
  have hj : (bound - sp) / 8 < words.length := by omega
  refine ⟨_, mem_map.2 ⟨(words[(bound - sp) / 8], (bound - sp) / 8), ?_, rfl⟩, ?_, ?_⟩
  · exact mk_mem_zipIdx_iff_getElem?.2 (getElem?_eq_getElem hj)
  · omega
  · simp only [toBytes, length_map, length_range]
    omega

lemma written_of_stackWrites {top bound a : ℕ}
    (htop : top ≤ bound) (ha : Written (stackWrites top args).1 a)
    (hbd : bound ≤ a) : Written (stackWrites top args).1 bound := by
  have hle := placeStrings_le args.reverse top
  obtain ⟨write, hwr, hrng⟩ := ha
  rcases mem_append.1 hwr with hwr | hwr
  · obtain ⟨write', hwr', hrng'⟩ := written_of_placeStrings htop ⟨write, hwr, hrng⟩ hbd
    exact ⟨write', mem_append_left _ hwr', hrng'⟩
  · obtain ⟨write', hwr', hrng'⟩ := written_of_words (by omega) ⟨write, hwr, hrng⟩ hbd
    exact ⟨write', mem_append_right _ hwr', hrng'⟩

section
variable {env : LoaderEnv} {elf : ElfInfo} {args : List (List UInt8)} {data : List UInt8}
  {pageTablePhys : ℕ} {m m₁ m₂ m₃ : Machine M}

/-- Every byte of the arguments lies below the top of the user stack. -/
lemma Fits.argument_lt {writeProtect : Bool} (h : Fits env elf args writeProtect) {a : ℕ}
    (ha : Written (stackWrites (stackTopOf env) args).1 a) : a < userStackTop := by
  have hbds := stackTopOf_bounds env
  rcases h.arguments a ha with ⟨-, htop⟩ | ⟨segment, hseg, hcov, -⟩
  · rw [userStackTop]
    omega
  · have hsl := (h.inUserSlot hseg ((mem_segmentPages_iff (h.walkable hseg)
      (h.noWrap segment hseg) _).2 hcov)).1
    omega

section
variable (h : Fits env elf args m.writeProtect)
include h

/-- The arguments of an image that fits can be stored. -/
theorem Fits.storeAll_arguments (hmapped : ImageMapped env elf m m₁ m₂ m₃) :
    (storeAll (stackWrites (stackTopOf env) args).1 m₃).1 = false := by
  have hstor : ∀ a, Written (stackWrites (stackTopOf env) args).1 a → m₃.storable a := by
    intro a ha
    have hlt := h.argument_lt ha
    refine hmapped.storable_of_argumentByte h.noWrap ?_ (h.arguments a ha)
    rw [userStackTop] at hlt
    simp only [isCanonical, or_eq_true, decide_eq_true_eq]
    omega
  exact storeAll_fst (fun a ha => lt_trans (h.argument_lt ha) (by decide)) hstor

lemma Fits.imageSafe (hmapped : ImageMapped env elf m m₁ m₂ m₃) (stores : List (Store M.Tables)) :
    ImageSafe env elf m { m₃ with stores } := by
  have hnew := hmapped.newlyMapped_eq stores
  refine ⟨fun page hpg => ?_, fun segment hseg page hcov => ?_, fun page hbot htop => ?_, h.noWrap⟩
  · rw [hnew, mem_append, mem_reverse, mem_reverse] at hpg
    rcases hpg with hpg | hpg
    · exact inUserSlot_of_mem_stackPages hpg
    · obtain ⟨segment, hseg, hpg⟩ := mem_flatMap.1 hpg
      exact h.inUserSlot hseg hpg
  · have hpg := (mem_segmentPages_iff (h.walkable hseg) (h.noWrap segment hseg) _).2
      hcov
    obtain ⟨hstk, hl⟩ := hmapped.lookup_segment hseg hpg
    refine ⟨?_, hl⟩
    rw [hnew, count_append, count_reverse, count_reverse, count_eq_zero_of_not_mem hstk,
      count_eq_one_of_mem hmapped.segments.nodup (mem_flatMap.2 ⟨segment, hseg, hpg⟩)]
  · have hstk : page ∈ stackPages env := (mem_stackPages_iff env page).2 ⟨hbot, htop⟩
    refine ⟨by simp [hnew, hstk], fun segment hseg hcov => ?_⟩
    have hpg := (mem_segmentPages_iff (h.walkable hseg) (h.noWrap segment hseg) _).2
      hcov
    exact (hmapped.lookup_segment hseg hpg).1 hstk

end

lemma fits_of_imageSafe (hfs : ∀ page, topIndex page = 0 → M.translate m.tables page = none)
    (hmapped : ImageMapped env elf m m₁ m₂ m₃) {m' : Machine M}
    (hsts : storeAll (stackWrites (stackTopOf env) args).1 m₃ = (false, m'))
    (h : ImageSafe env elf m m') : Fits env elf args m.writeProtect := by
  obtain ⟨ss, rfl⟩ := storeAll_eq hsts
  have hnew := hmapped.newlyMapped_eq ss
  -- Every page of a segment was mapped, so it lies in the user slot.
  have hsl : ∀ segment ∈ elf.segments, ∀ page ∈ segmentPages segment, InUserSlot page := by
    intro segment hseg page hpg
    refine h.inside page ?_
    rw [hnew, mem_append, mem_reverse, mem_reverse]
    exact .inr (mem_flatMap.2 ⟨segment, hseg, hpg⟩)
  have hstor : ∀ a, Written (stackWrites (stackTopOf env) args).1 a →
      a ≤ userStackTop → ArgumentByte env elf m.writeProtect a := by
    intro a ha hle
    rw [userStackTop] at hle
    refine hmapped.argumentByte_of_storable hfs h.noWrap ?_
      (storable_of_storeAll (by rw [hsts]) ha (by omega))
    rw [topIndex, containingPage]
    omega
  refine ⟨h.noWrap, fun segment hseg hcnt => ?_, fun a ha => ?_⟩
  · have hnoWrap := h.noWrap segment hseg
    rw [segmentPageCount_eq hnoWrap] at hcnt
    have hla := (hsl segment hseg ((segment.vaddr + segment.memsz + 4095) / 4096 - 1)
      ((mem_segmentPages_iff (hmapped.walkable segment hseg) hnoWrap _).2
        ⟨by omega, by omega⟩)).1
    rwa [segmentPageRange_snd hnoWrap, ← Nat.sub_add_cancel (show
      1 ≤ (segment.vaddr + segment.memsz + 4095) / 4096 by omega)]
  · by_cases hle : a ≤ userStackTop
    · exact hstor a ha hle
    · -- The bytes have no gap, so the one at `USER_STACK_TOP` was stored too.
      have hbds := stackTopOf_bounds env
      have htop : Written (stackWrites (stackTopOf env) args).1 userStackTop :=
        written_of_stackWrites hbds.2.2 ha (Nat.le_of_not_le hle)
      rcases hstor _ htop le_rfl with ⟨-, hlt⟩ | ⟨segment, hseg, hcov, -⟩
      · exact absurd hlt (not_lt.2 hbds.2.2)
      · have := (hsl segment hseg _ ((mem_segmentPages_iff
          (hmapped.walkable segment hseg) (h.noWrap segment hseg) _).2 hcov)).1
        exact absurd this (by decide)

/-- The user slot of a new page table is empty. -/
lemma translate_createUserPageTable {m₀ : Machine M}
    (h : createUserPageTable m₀ = .ok (pageTablePhys, m)) {page : ℕ}
    (hsl : topIndex page = 0) : M.translate m.tables page = none := by
  obtain ⟨f, frames, -, -, rfl⟩ := createUserPageTable_ok h
  have hsha : sharedSlot m₀.tables (topIndex page) = false := by simp [sharedSlot, hsl]
  exact (M.copyTop_translate ..).trans (by simp [hsha])

/-! ### What a load needs -/

/-- What a load needs, on the segments, the arguments, the page tables and the free
frames before it. Along the page addresses of the segments, as long as the pages
before can be mapped, the next address is canonical and, if its page can be mapped
too, in the user slot. If all pages can be mapped, every byte of a segment is in one
of them or can be stored to anyway. If the stack can be mapped as well and no segment
is refused, no segment wraps around and there is room for the arguments. -/
structure LoadSound {M : TableMapper} (env : LoaderEnv) (elf : ElfInfo)
    (args : List (List UInt8)) (m : Machine M.toMapper) : Prop where
  pages : ∀ before address after, segmentAddresses elf.segments = before ++ address :: after →
    m.Mappable (before.map containingPage) → isCanonical address ∧
      (m.Mappable ((before ++ [address]).map containingPage) →
        InUserSlot (containingPage address))
  contents : m.Mappable (loadedPages elf.segments) →
    ∀ segment ∈ elf.segments, ∀ i < segment.memsz,
      containingPage (wrappingAdd segment.vaddr i) ∈
          loadedPages elf.segments ∨
        m.storable (wrappingAdd segment.vaddr i)
  image : m.Mappable (loadedPages elf.segments ++ stackPages env) →
    (∀ segment ∈ elf.segments, ¬ WritesCode segment) →
    (∀ segment ∈ elf.segments, segment.vaddr + segment.memsz + 0xFFF < 2 ^ 64) ∧
      ∀ a, Written (stackWrites (stackTopOf env) args).1 a →
        ArgumentByte env elf m.writeProtect a

section
variable {M : TableMapper} {m m₁ : Machine M.toMapper} {before after : List ℕ} {address : ℕ}

theorem mappable_of_append_map (after : List ℕ)
    (h : m.Mappable ((before ++ after).map containingPage)) :
    m.Mappable (before.map containingPage) := by
  rw [map_append] at h
  exact h.of_append

/-- When the mapping loop stops with an error, the condition speaks about the pages
before it only. -/
theorem loadSound_iff_of_stopped
    (haddresses : segmentAddresses elf.segments = before ++ address :: after)
    (hcanonical : ∀ a ∈ before, isCanonical a) (hmappable : m.Mappable (before.map containingPage))
    (haddress : isCanonical address)
    (hstopped : ¬ m.Mappable ((before ++ [address]).map containingPage)) :
    LoadSound env elf args m ↔ ∀ a ∈ before, InUserSlot (containingPage a) := by
  have hnot : ¬ m.Mappable (loadedPages elf.segments) := by
    rw [loadedPages, haddresses,
      show before ++ address :: after = (before ++ [address]) ++ after by simp]
    exact fun h => hstopped (mappable_of_append_map _ h)
  constructor
  · intro h a ha
    obtain ⟨left, right, rfl⟩ := append_of_mem ha
    have hleft : m.Mappable ((left ++ [a]).map containingPage) := by
      refine mappable_of_append_map right ?_
      rwa [append_assoc]
    refine (h.pages left a (right ++ address :: after) ?_ (mappable_of_append_map _ hleft)).2 hleft
    rw [haddresses, append_assoc, cons_append]
  · intro h
    refine ⟨fun left a right hsplit hleft => ?_, fun hall => absurd hall hnot,
      fun hall => absurd hall.of_append hnot⟩
    have hstop : a = address → left = before → isCanonical a ∧
        (m.Mappable ((left ++ [a]).map containingPage) → InUserSlot (containingPage a)) := by
      rintro rfl rfl
      exact ⟨haddress, fun hmore => absurd hmore hstopped⟩
    rcases append_eq_append_iff.1 (haddresses.symm.trans hsplit) with
      ⟨more, hmore, hrest⟩ | ⟨more, hmore, hrest⟩
    · cases more with
      | nil => exact hstop (cons.inj hrest).1.symm (by simpa using hmore)
      | cons next more =>
        obtain ⟨rfl, -⟩ := cons.inj hrest
        refine absurd (mappable_of_append_map more ?_) hstopped
        rwa [hmore, show before ++ address :: more = before ++ [address] ++ more by simp] at hleft
    · cases more with
      | nil => exact hstop (cons.inj hrest).1 (by simpa using hmore.symm)
      | cons next more =>
        obtain ⟨rfl, -⟩ := cons.inj hrest
        have hmem : a ∈ before := by simp [hmore]
        exact ⟨hcanonical a hmem, fun _ => h a hmem⟩

/-- When all pages can be mapped, they have to lie in the user slot. -/
theorem pages_iff_of_mappable
    (hmappable : m.Mappable (loadedPages elf.segments))
    (hcanonical : ∀ a ∈ segmentAddresses elf.segments, isCanonical a) :
    (∀ before address after, segmentAddresses elf.segments = before ++ address :: after →
        m.Mappable (before.map containingPage) → isCanonical address ∧
          (m.Mappable ((before ++ [address]).map containingPage) →
            InUserSlot (containingPage address))) ↔
      ∀ a ∈ segmentAddresses elf.segments, InUserSlot (containingPage a) := by
  constructor
  · intro h a ha
    obtain ⟨left, right, hsplit⟩ := append_of_mem ha
    have hleft : m.Mappable ((left ++ [a]).map containingPage) := by
      refine mappable_of_append_map right ?_
      rwa [append_assoc, singleton_append, ← hsplit]
    exact (h left a right hsplit (mappable_of_append_map _ hleft)).2 hleft
  · intro h left a right hsplit _
    have hmem : a ∈ segmentAddresses elf.segments := by simp [hsplit]
    exact ⟨hcanonical a hmem, fun _ => h a hmem⟩

/-- After the segments are mapped, a byte can be stored to if it lies in one of them
or could be before. -/
theorem storable_iff_of_mapsPages {addresses : List ℕ}
    (h : m.MapsPages (dataFlags true) (addresses.map containingPage) m₁)
    (hcanonical : ∀ a ∈ addresses, isCanonical a) (a : ℕ) :
    m₁.storable a ↔ containingPage a ∈ addresses.map containingPage ∨ m.storable a := by
  by_cases hpage : containingPage a ∈ addresses.map containingPage
  · obtain ⟨frame, hlookup, -⟩ := h.lookup_mem _ hpage
    refine iff_of_true (storable_of_lookup ?_ hlookup (.inl rfl)) (.inl hpage)
    obtain ⟨address, haddress, hsame⟩ := mem_map.1 hpage
    rw [← isCanonical_congr hsame]
    exact hcanonical address haddress
  · rw [storable, storable, h.translate_notMem _ hpage, h.writeProtect]
    simp [hpage]

end

section
variable {M : TableMapper} {m m₁ m₂ m₃ : Machine M.toMapper}

/-- With everything mapped, the load is safe exactly when the image fits. -/
theorem loadSafe_iff_fits (hfs : ∀ page, topIndex page = 0 → M.translate m.tables page = none)
    (hmapped : ImageMapped env elf m m₁ m₂ m₃)
    (hrun : mapProcessImage env pageTablePhys elf data args m =
      finishImage env pageTablePhys elf args m₃) :
    LoadSafe env pageTablePhys elf data args m ↔ Fits env elf args m.writeProtect := by
  rw [finishImage, setupUserStack,
    show (imageSpace env pageTablePhys elf.segments).stackTop = stackTopOf env from rfl] at hrun
  rcases hstore : storeAll (stackWrites (stackTopOf env) args).1 m₃ with ⟨_ | _, m'⟩
  · rw [hstore] at hrun
    obtain ⟨image, hok⟩ : ∃ image, mapProcessImage env pageTablePhys elf data args m =
        (.returned (.ok image), m') := ⟨_, hrun⟩
    rw [loadSafe_of_ok hok]
    refine ⟨fits_of_imageSafe hfs hmapped hstore, fun h => ?_⟩
    obtain ⟨stores, rfl⟩ := storeAll_eq hstore
    exact h.imageSafe hmapped stores
  · rw [hstore] at hrun
    refine iff_of_false (fun hsafe => hsafe.ne_panicked (by rw [hrun])) fun h => ?_
    have hstored := h.storeAll_arguments hmapped
    rw [hstore] at hstored
    cases hstored

/-- An image fits when its pages lie in the user slot, nothing wraps around and there
is room for the arguments. -/
theorem fits_of_inUserSlot
    (hslot : ∀ a ∈ segmentAddresses elf.segments, InUserSlot (containingPage a))
    (hnoWrap : ∀ segment ∈ elf.segments, segment.vaddr + segment.memsz + 0xFFF < 2 ^ 64)
    {writeProtect : Bool} (harguments : ∀ a, Written (stackWrites (stackTopOf env) args).1 a →
      ArgumentByte env elf writeProtect a) : Fits env elf args writeProtect := by
  refine ⟨hnoWrap, fun segment hsegment hpages => ?_, harguments⟩
  have hlast : (segmentPageRange segment).1 + 4096 * (segmentPageCount segment - 1) ∈
      segmentAddresses elf.segments :=
    mem_flatMap.2 ⟨segment, hsegment, mem_pageAddresses.2 ⟨_, by omega, rfl⟩⟩
  have hbelow := (hslot _ hlast).1
  rw [segmentPageCount_eq (hnoWrap segment hsegment)] at hpages hbelow
  have hpage : containingPage (segment.vaddr / 4096 * 4096 + 4096 *
      ((segment.vaddr + segment.memsz + 4095) / 4096 - segment.vaddr / 4096 - 1)) + 1 =
        (segment.vaddr + segment.memsz + 4095) / 4096 := by
    rw [containingPage]
    omega
  rwa [segmentPageRange_fst, hpage, ← segmentPageRange_snd (hnoWrap segment hsegment)] at hbelow

end

/-- The load after the segments are mapped. -/
theorem loadSafe_iff_of_mapped {M : TableMapper} {m m₁ : Machine M.toMapper}
    (hfs : ∀ page, topIndex page = 0 → M.translate m.tables page = none)
    (hparsed : ∀ segment ∈ elf.segments, segment.Parsed data) (hdata : data.length < 2 ^ 63)
    (hrun : mapProcessImage env pageTablePhys elf data args m =
      andThen (loadSegments data elf.segments m) fun m₁ =>
        if verifyWx (imageSpace env pageTablePhys elf.segments).segments then
          andThen (mapStack env m₁) fun m₂ => finishImage env pageTablePhys elf args m₂
        else (.returned (.error .loadFailed), m₁))
    (hmap : forSegments mapSegmentPages elf.segments m = (.returned (.ok ()), m₁))
    (hstops : Stops (segmentAddresses elf.segments) [] m (none, m₁)) :
    LoadSafe env pageTablePhys elf data args m ↔ LoadSound env elf args m := by
  obtain ⟨-, hmore⟩ := hstops.of_none rfl
  obtain ⟨hmaps, hwalkable, -⟩ := mapSegments_ok hmap
  rw [flatMap_segmentPages hstops.canonical] at hmaps
  have hpages := pages_iff_of_mappable hstops.mappable hstops.canonical
  have hstorable := storable_iff_of_mapsPages hmaps hstops.canonical
  rcases populateSegments_cases hdata hparsed m₁ with ⟨hcontents, stores, hfill⟩ | ⟨hnot, hpanic⟩
  swap
  · -- a byte of a segment cannot be stored to: the kernel faults
    have hres : (mapProcessImage env pageTablePhys elf data args m).1 = .panicked := by
      rw [hrun, loadSegments, andThen_of_ok hmap]
      exact andThen_of_panicked (andThen_of_panicked hpanic)
    refine iff_of_false (fun hsafe => hsafe.ne_panicked hres) fun hsound => hnot ?_
    intro segment hsegment i hi
    exact (hstorable _).2 (hsound.contents hstops.mappable segment hsegment i hi)
  have hcontents' : ∀ segment ∈ elf.segments, ∀ i < segment.memsz, _ :=
    fun segment hsegment i hi => (hstorable _).1 (hcontents segment hsegment i hi)
  have hlookup : ∀ segment ∈ elf.segments, ∀ i < segmentPageCount segment,
      M.lookup m₁.tables (containingPage ((segmentPageRange segment).1 + 4096 * i)) ≠ none := by
    intro segment hsegment i hi
    obtain ⟨frame, hframe, -⟩ := hmaps.lookup_mem _ (mem_map_of_mem
      (mem_flatMap.2 ⟨segment, hsegment, mem_pageAddresses.2 ⟨i, hi, rfl⟩⟩))
    rw [hframe]
    simp
  obtain ⟨tables, hsame, hcases⟩ :=
    applyPermissions_spec (m := { m₁ with stores }) hwalkable hlookup
  have hstack : ∀ pages, Mappable { m₁ with stores, tables } pages ↔
      m.Mappable (loadedPages elf.segments ++ pages) := fun pages =>
    (hsame.mappable_iff pages).trans
      ((Iff.intro (fun h => ⟨h.1, h.2, h.3⟩) fun h => ⟨h.1, h.2, h.3⟩).trans (hmore pages))
  rcases hcases with ⟨hcode, hpermits⟩ | ⟨hcode, error, hrefused⟩
  swap
  · -- a segment can be both written and executed
    have hres : mapProcessImage env pageTablePhys elf data args m =
        (.returned (.error error), { m₁ with stores, tables }) := by
      rw [hrun, loadSegments, andThen_of_ok hmap, andThen_of_ok hfill]
      exact andThen_of_error hrefused
    have hmapped : newlyMapped m { m₁ with stores, tables } = _ := newlyMapped_eq hstops.mapped
    rw [loadSafe_of_error hres, hmapped]
    constructor
    · intro h
      refine ⟨hpages.2 fun a ha => h _ ?_, fun _ => hcontents', fun _ hnone => absurd hnone hcode⟩
      exact mem_reverse.2 (mem_map_of_mem ha)
    · intro h page hpage
      obtain ⟨a, ha, rfl⟩ := mem_map.1 (mem_reverse.1 hpage)
      exact hpages.1 h.pages a ha
  have hsegments : loadSegments data elf.segments m =
      (.returned (.ok ()), { m₁ with stores, tables }) := by
    rw [loadSegments, andThen_of_ok hmap, andThen_of_ok hfill, hpermits]
  have hverified := verifyWx_imageSpace env pageTablePhys hcode
  rcases mapStack_spec env { m₁ with stores, tables } with
    ⟨hmappable, m₃, hmapped⟩ | ⟨hnot, error, m₃, pages, hrefused, hsubset, hhistory⟩
  · have hres : mapProcessImage env pageTablePhys elf data args m =
        finishImage env pageTablePhys elf args m₃ := by
      rw [hrun, andThen_of_ok hsegments, if_pos hverified, andThen_of_ok hmapped]
    obtain ⟨m₁', hmpd⟩ := imageMapped_of_ok hsegments hmapped
    rw [loadSafe_iff_fits hfs hmpd hres]
    constructor
    · intro h
      refine ⟨hpages.2 fun a ha => ?_, fun _ => hcontents', fun _ _ => ⟨h.noWrap, h.arguments⟩⟩
      have hpage : containingPage a ∈ elf.segments.flatMap segmentPages := by
        rw [flatMap_segmentPages hstops.canonical]
        exact mem_map_of_mem ha
      obtain ⟨segment, hsegment, hpage⟩ := mem_flatMap.1 hpage
      exact h.inUserSlot hsegment hpage
    · intro h
      obtain ⟨hnoWrap, harguments⟩ := h.image ((hstack _).1 hmappable) hcode
      exact fits_of_inUserSlot (hpages.1 h.pages) hnoWrap harguments
  · -- no room for the stack
    have hres : mapProcessImage env pageTablePhys elf data args m =
        (.returned (.error error), m₃) := by
      rw [hrun, andThen_of_ok hsegments, if_pos hverified, andThen_of_error hrefused]
    have hmapped : m₃.history.mapped.map Prod.fst = (pages ++ ((segmentAddresses
        elf.segments).map containingPage).reverse) ++ m.history.mapped.map Prod.fst := by
      rw [hhistory, append_assoc, ← hstops.mapped]
    rw [loadSafe_of_error hres, newlyMapped_eq hmapped]
    constructor
    · intro h
      refine ⟨hpages.2 fun a ha => h _ ?_, fun _ => hcontents',
        fun hall => absurd ((hstack _).2 hall) hnot⟩
      exact mem_append_right _ (mem_reverse.2 (mem_map_of_mem ha))
    · intro h page hpage
      rcases mem_append.1 hpage with hpage | hpage
      · exact inUserSlot_of_mem_stackPages (hsubset hpage)
      · obtain ⟨a, ha, rfl⟩ := mem_map.1 (mem_reverse.1 hpage)
        exact hpages.1 h.pages a ha

theorem loadSafe_iff_of_ready {M : TableMapper} {m : Machine M.toMapper}
    (hfs : ∀ page, topIndex page = 0 → M.translate m.tables page = none)
    (hparsed : ∀ segment ∈ elf.segments, segment.Parsed data) (hdata : data.length < 2 ^ 63)
    (hready : m.ready) :
    LoadSafe env pageTablePhys elf data args m ↔ LoadSound env elf args m := by
  have hrun : mapProcessImage env pageTablePhys elf data args m =
      andThen (loadSegments data elf.segments m) fun m₁ =>
        if verifyWx (imageSpace env pageTablePhys elf.segments).segments then
          andThen (mapStack env m₁) fun m₂ => finishImage env pageTablePhys elf args m₂
        else (.returned (.error .loadFailed), m₁) := by
    rw [mapProcessImage, hready]
    rfl
  have hmapping := forSegments_mapSegmentPages elf.segments m
  have hfill : m.fillable temporarySegmentPageFlags := rfl
  obtain ⟨before, after, haddresses, hstops⟩ :=
    mapEach_stops (segmentAddresses_aligned elf.segments) hfill
  -- by the end of the loop over the pages: all mapped, a panic, an error
  rcases hloop : mapEach temporarySegmentPageFlags (segmentAddresses elf.segments) m with
    ⟨_ | stop, m₁⟩
  · rw [hloop] at hmapping hstops
    obtain ⟨rfl, -⟩ := hstops.of_none rfl
    rw [append_nil] at haddresses
    subst haddresses
    exact loadSafe_iff_of_mapped hfs hparsed hdata hrun hmapping hstops
  rw [hloop] at hmapping hstops
  by_cases hpanicked : stop = .panicked
  · subst hpanicked
    obtain ⟨address, rest, rfl, haddress⟩ := hstops.of_panicked rfl
    have hres : (mapProcessImage env pageTablePhys elf data args m).1 = .panicked := by
      rw [hrun, loadSegments, hmapping]
      rfl
    refine iff_of_false (fun hsafe => hsafe.ne_panicked hres) fun hsound => ?_
    have hcanonical := (hsound.pages before address rest haddresses hstops.mappable).1
    rw [haddress] at hcanonical
    cases hcanonical
  · obtain ⟨address, rest, rfl, haddress, hstopped⟩ := hstops.of_error stop rfl hpanicked
    obtain ⟨error, herror⟩ : ∃ error, mapSegmentResult (some stop) = .returned (.error error) := by
      rcases stop with _ | _ | ⟨_ | _ | _, _⟩
      · exact absurd rfl hpanicked
      all_goals exact ⟨_, rfl⟩
    have hres : mapProcessImage env pageTablePhys elf data args m =
        (.returned (.error error), m₁) := by
      rw [hrun, loadSegments, hmapping, herror]
      rfl
    rw [loadSafe_of_error hres, newlyMapped_eq hstops.mapped,
      loadSound_iff_of_stopped haddresses hstops.canonical hstops.mappable haddress hstopped]
    simp

/-- A load into a new page table is safe exactly when it has what it needs. -/
theorem loadSafe_iff {M : TableMapper} {m₀ m : Machine M.toMapper}
    (hcreate : createUserPageTable m₀ = .ok (pageTablePhys, m)) (hparse : parseElf data = .ok elf)
    (hdata : data.length < 2 ^ 63) (env : LoaderEnv) (args : List (List UInt8)) :
    LoadSafe env pageTablePhys elf data args m ↔ (m.ready → LoadSound env elf args m) := by
  cases hready : m.ready with
  | false =>
    have hrun : mapProcessImage env pageTablePhys elf data args m =
        (.returned (.error .pageTableError), m) := by
      rw [mapProcessImage, hready]
      rfl
    refine iff_of_true ((loadSafe_of_error hrun).2 ?_) (by simp)
    rw [newlyMapped_eq (show _ = [] ++ _ from rfl)]
    simp
  | true =>
    refine Iff.trans ?_ ⟨fun h _ => h, fun h => h rfl⟩
    exact loadSafe_iff_of_ready (fun page => translate_createUserPageTable hcreate)
      (fun segment hsegment => parseElf_parsed hparse hsegment) hdata hready

end

def newTableMachine : Machine fourLevel :=
  { smallMachine with
    tables := fourLevel.copyTop smallMachine.tables (sharedSlot smallMachine.tables)
    frames := ⟨3, 1024, 1022, 2, 1024⟩
    history := { History.empty with tableFrames := [1] } }

lemma createUserPageTable_smallMachine :
    createUserPageTable smallMachine = .ok (4096, newTableMachine) := by
  rfl

/-- A file of one page has what it needs. -/
theorem loadSound_onePage :
    LoadSound (M := fourLevelTables) .fixed (elfFileInfo 0x400000 1) [] newTableMachine := by
  have haddresses : segmentAddresses (elfFileInfo 0x400000 1).segments = [0x400000] := by decide
  refine ⟨fun before address after hsplit _ => ?_, fun _ segment hsegment i hi => ?_,
    fun _ _ => ⟨by decide, ?_⟩⟩
  · rw [haddresses] at hsplit
    obtain ⟨rfl, rfl, rfl⟩ : before = [] ∧ address = 0x400000 ∧ after = [] := by
      cases before with
      | nil => simpa using hsplit.symm
      | cons => simp at hsplit
    exact ⟨by decide, fun _ => ⟨by decide, by decide⟩⟩
  · obtain rfl : segment = ⟨0x400000, 1, 0, 0, ⟨true, false, true⟩, 4096⟩ :=
      mem_singleton.1 hsegment
    obtain rfl : i = 0 := by simpa using hi
    exact .inl (by decide)
  · rintro a ⟨write, hwrite, hle, hlt⟩
    have hcases : write = (0x7FFFEFF0, toBytes 0) ∨ write = (0x7FFFEFF8, toBytes 0) := by
      simpa [stackWrites, placeStrings, stackTopOf, fixed, randomizeStackOffset, userStackTop]
        using hwrite
    refine .inl ?_
    rcases hcases with rfl | rfl <;>
      simp [toBytes, stackTopOf, stackBottomOf, fixed, randomizeStackOffset, userStackTop,
        userStackSize] at hle hlt ⊢ <;> omega

theorem loadSafe_iff_onePage :
    LoadSafe .fixed 4096 (elfFileInfo 0x400000 1) (elfFile 0x400000 1) [] newTableMachine := by
  have hlen : (elfFile 0x400000 1).length < 2 ^ 63 := by decide
  exact (loadSafe_iff (M := fourLevelTables) createUserPageTable_smallMachine parseElf_elfFile hlen
    .fixed []).2 fun _ => loadSound_onePage

/-- A segment at an address that is not canonical: the kernel panics. -/
theorem nonCanonical_segment_panics :
    createUserPageTable smallMachine = .ok (4096, newTableMachine) ∧
      parseElf (elfFile 0x800000000000 1) = .ok (elfFileInfo 0x800000000000 1) ∧
      ¬ LoadSafe .fixed 4096 (elfFileInfo 0x800000000000 1) (elfFile 0x800000000000 1) []
        newTableMachine :=
  ⟨createUserPageTable_smallMachine, by decide,
    fun h => h.ne_panicked (Outcome.eq_panicked (by decide))⟩

end Waros.Kernel.Exec.Loader
