import Waros.Kernel.Memory.Ranges
import Waros.Kernel.Exec.LoaderSafety

/-!
Where the loader stores. It fills pages that it has just mapped for the user to
write, and it copies the arguments into the stack that it has just mapped. Only
the copy of a segment can leave these pages: rounding up the end of a segment
saturates, so the last page of the address space is never mapped for it.
-/

namespace Waros.Kernel.Exec.Loader

open Lib Memory Machine AddressSpace List U64 Bool
variable {M : Mapper}

theorem confined_mapSegmentPages (segment : ElfSegment) (m : Machine M) :
    Confined m (mapSegmentPages segment m).2 :=
  confined_mapRange rfl rfl _ (Nat.mul_mod_left ..) m

theorem mapStack_snd {env : LoaderEnv} {m : Machine M} {r : Option MapStop × ℕ × Machine M}
    (hr : m.mapRange (dataFlags true) (stepCount (stackBottomOf env) (stackTopOf env))
      (stackBottomOf env) = r) : (mapStack env m).2 = r.2.2 := by
  rw [mapStack, hr]

theorem confined_mapStack (env : LoaderEnv) (m : Machine M) : Confined m (mapStack env m).2 := by
  rw [mapStack_snd rfl]
  exact confined_mapRange rfl rfl _ (stackBottomOf_aligned env) m

theorem confined_applySegmentPermissions (segment : ElfSegment) (m : Machine M) :
    Confined m (applySegmentPermissions segment m).2 := by
  obtain ⟨ts, h⟩ := applySegmentPermissions_eq segment m
  rw [h]
  exact .of_stores_eq rfl

/-- The bytes that the argument strings take, with their terminators. -/
def argumentBytes (args : List (List UInt8)) : ℕ := (args.map fun arg => arg.length + 1).sum

theorem argumentBytes_le {args : List (List UInt8)} {bound : ℕ}
    (h : ∀ arg ∈ args, arg.length < bound) :
    argumentBytes args ≤ args.length * bound := by
  induction args with
  | nil => exact Nat.zero_le _
  | cons arg _ ih =>
    have hfst := h arg (by simp)
    have hrs := ih fun other ho => h other (by simp [ho])
    rw [argumentBytes] at hrs
    rw [argumentBytes, map_cons, sum_cons, length_cons, Nat.succ_mul]
    omega

theorem placeStrings_spec (args : List (List UInt8)) (sp : ℕ) :
    (placeStrings sp args).2.2 = sp - argumentBytes args ∧
      (placeStrings sp args).2.1.length = args.length := by
  induction args generalizing sp with
  | nil => exact ⟨rfl, rfl⟩
  | cons arg _ ih =>
    obtain ⟨hsp, hlen⟩ := ih (sp - (arg.length + 1))
    refine ⟨?_, by simp [placeStrings, hlen]⟩
    rw [placeStrings, hsp, argumentBytes, argumentBytes, map_cons, sum_cons]
    omega

theorem written_placeStrings {args : List (List UInt8)} {sp a : ℕ}
    (hrm : argumentBytes args ≤ sp)
    (ha : Written (placeStrings sp args).1 a) : sp - argumentBytes args ≤ a ∧ a < sp := by
  induction args generalizing sp with
  | nil =>
    obtain ⟨write, hwr, -⟩ := ha
    simp [placeStrings] at hwr
  | cons arg args ih =>
    have hbs : argumentBytes (arg :: args) = arg.length + 1 + argumentBytes args := by rfl
    obtain ⟨write, hwr, hrng⟩ := ha
    simp only [placeStrings, mem_cons] at hwr
    rcases hwr with rfl | rfl | hwr
    · simp only at hrng
      omega
    · simp only [length_singleton] at hrng
      omega
    · have := ih (by omega) ⟨write, hwr, hrng⟩
      omega

/-- Arguments that leave room are written right below the top of the stack. -/
theorem written_stackWrites {args : List (List UInt8)} {stackTop a : ℕ}
    (hrm : argumentBytes args + (args.length + 2) * 8 + 15 ≤ stackTop)
    (ha : Written (stackWrites stackTop args).1 a) :
    stackTop - (argumentBytes args + (args.length + 2) * 8 + 15) ≤ a ∧ a < stackTop := by
  have hreve : argumentBytes args.reverse = argumentBytes args := by simp [argumentBytes]
  obtain ⟨hsp, hlen⟩ := placeStrings_spec args.reverse stackTop
  obtain ⟨write, hwr, hrng⟩ := ha
  simp only [stackWrites, mem_append, mem_map] at hwr
  rcases hwr with hwr | ⟨word, hword, rfl⟩
  · have := written_placeStrings (by omega) ⟨write, hwr, hrng⟩
    omega
  · have hidx := snd_lt_of_mem_zipIdx hword
    simp only [length_append, length_cons, length_reverse, hlen,
      length_nil, toBytes, length_map, length_range] at hrng hidx
    omega

theorem confined_storeAll {ws : List Write} {m : Machine M} (hend : ∀ a, Written ws a → a < 2 ^ 64)
    (h : ∀ a, Written ws a → userWritable m.tables a) :
    Confined m (storeAll ws m).2 := by
  induction ws generalizing m with
  | nil => exact .of_stores_eq rfl
  | cons write _ ih =>
    have hfst := (confined_store_iff m write.1 write.2.length fun i => write.2.getD i 0).2 <| by
      intro a ha
      rcases Nat.eq_zero_or_pos write.2.length with h0 | hpos
      · simp [touched, h0] at ha
      · have hla := hend (write.1 + write.2.length - 1) ⟨write, by simp, by omega, by omega⟩
        obtain ⟨hle, hlt, -⟩ := mem_touched (by omega) ha
        exact h a ⟨write, by simp, hle, hlt⟩
    obtain ⟨stores, hsts⟩ := store_eq m write.1 write.2.length fun i => write.2.getD i 0
    simp only [storeAll]
    generalize m.store write.1 write.2.length _ = r at hfst hsts ⊢
    obtain ⟨fault, m₁⟩ := r
    obtain rfl : m₁ = { m with stores } := hsts
    cases fault with
    | true => exact hfst
    | false =>
      refine hfst.trans (ih ?_ ?_)
      · rintro a ⟨other, ho, hrng⟩
        exact hend a ⟨other, by simp [ho], hrng⟩
      · rintro a ⟨other, ho, hrng⟩
        exact h a ⟨other, by simp [ho], hrng⟩

/-! ### The whole image -/

theorem confined_andThen_iff {α : Type} {r : LoadOutcome Unit × Machine M} {m : Machine M}
    {next : Machine M → LoadOutcome α × Machine M} (h : Extends m r.2)
    (hnx : ∀ m₁, r = (.returned (.ok ()), m₁) → Extends m₁ (next m₁).2) :
    Confined m (andThen r next).2 ↔
      Confined m r.2 ∧ ∀ m₁, r = (.returned (.ok ()), m₁) → Confined m₁ (next m₁).2 := by
  obtain ⟨o, m₁⟩ := r
  match o with
  | .returned (.ok ()) =>
    rw [andThen, confined_trans_iff h (hnx m₁ rfl)]
    simp
  | .returned (.error _) | .panicked => simp [andThen]

theorem mapSegments_ok_iff {M : TableMapper} (segments : List ElfSegment)
    (m : Machine M.toMapper) : (forSegments mapSegmentPages segments m).1 = .returned (.ok ()) ↔
      (∀ a ∈ segmentAddresses segments, isCanonical a) ∧ m.Mappable (loadedPages segments) := by
  have haligned := segmentAddresses_aligned segments
  have hresult : (forSegments mapSegmentPages segments m).1 = .returned (.ok ()) ↔
      (mapEach temporarySegmentPageFlags (segmentAddresses segments) m).1 = none := by
    rw [forSegments_mapSegmentPages]
    exact ⟨mapSegmentResult_ok, fun h => by rw [h]; rfl⟩
  rw [hresult]
  constructor
  · intro hnone
    obtain ⟨before, after, hsplit, hstops⟩ :=
      @mapEach_stops M m temporarySegmentPageFlags _ haligned rfl
    obtain rfl := (hstops.of_none hnone).1
    rw [append_nil] at hsplit
    rw [loadedPages, hsplit]
    exact ⟨hstops.canonical, hstops.mappable⟩
  · rintro ⟨hcanonical, hmappable⟩
    exact (mapEach_none_iff haligned hcanonical rfl).2.2 hmappable

/-- Every byte that filling the segments gets to, once they are mapped, lies in their
pages or in a page that the user could write before. -/
def FillsImage {M : TableMapper} (data : List UInt8) (segments : List ElfSegment)
    (m : Machine M.toMapper) : Prop :=
  ∀ a ∈ (fillAddresses data segments).takeWhile fun a =>
      decide (containingPage a ∈ loadedPages segments) || m.storable a,
    containingPage a ∈ loadedPages segments ∨ userWritable m.tables a

theorem confined_loadSegments_iff {M : TableMapper} {data : List UInt8}
    {segments : List ElfSegment} (hparsed : ∀ segment ∈ segments, segment.Parsed data)
    (m : Machine M.toMapper) : Extends m (loadSegments data segments m).2 ∧
      (Confined m (loadSegments data segments m).2 ↔
        (∀ a ∈ segmentAddresses segments, isCanonical a) → m.Mappable (loadedPages segments) →
          FillsImage data segments m) := by
  have hkeeps := fun {f} => forSegments_keeps (f := f) (R := Confined (M := M.toMapper))
    (fun _ => .of_stores_eq rfl) .trans
  have hmap := hkeeps confined_mapSegmentPages segments m
  have hpermissions := hkeeps confined_applySegmentPermissions segments
  have hfill := populateSegments_spec (M := M.toMapper) hparsed
  have hrest : ∀ m₁ : Machine M.toMapper, Extends m₁ (andThen
      (forSegments (populateSegment data) segments m₁)
      fun m₂ => forSegments applySegmentPermissions segments m₂).2 := fun m₁ =>
    andThen_keeps .trans (hfill m₁).1 fun m₂ => (hpermissions m₂).extends
  refine ⟨andThen_keeps .trans hmap.extends hrest, ?_⟩
  rw [loadSegments, confined_andThen_iff hmap.extends fun m₁ _ => hrest m₁, and_iff_right hmap]
  -- once the pages are mapped, all depends on what fills them
  have hmapped : ∀ m₁, forSegments mapSegmentPages segments m = (.returned (.ok ()), m₁) →
      (Confined m₁ (andThen (forSegments (populateSegment data) segments m₁)
        fun m₂ => forSegments applySegmentPermissions segments m₂).2 ↔
          FillsImage data segments m) := by
    intro m₁ hrun
    have hcanonical := ((mapSegments_ok_iff segments m).1 (by rw [hrun])).1
    obtain ⟨hmaps, -⟩ := mapSegments_ok hrun
    rw [flatMap_segmentPages hcanonical] at hmaps
    have hstorable : m₁.storable = fun a =>
        decide (containingPage a ∈ loadedPages segments) || m.storable a := by
      funext a
      rw [Bool.eq_iff_iff, storable_iff_of_mapsPages hmaps hcanonical]
      simp [loadedPages]
    -- the temporary flags make the pages of the segments user-writable
    have hwritable : ∀ a, userWritable m₁.tables a ↔
        containingPage a ∈ loadedPages segments ∨ userWritable m.tables a := by
      intro a
      by_cases hpage : containingPage a ∈ loadedPages segments
      · obtain ⟨frame, hlookup, -⟩ := hmaps.lookup_mem _ hpage
        refine iff_of_true ?_ (.inl hpage)
        rw [userWritable, M.translate_of_lookup hlookup]
        rfl
      · rw [userWritable, userWritable, hmaps.translate_notMem _ hpage]
        simp [hpage]
    rw [confined_andThen_iff (hfill m₁).1 fun m₂ _ => (hpermissions m₂).extends, (hfill m₁).2.2,
      hstorable, and_iff_left fun m₂ _ => hpermissions m₂]
    exact forall₂_congr fun a _ => hwritable a
  constructor
  · intro h hcanonical hmappable
    have hresult := (mapSegments_ok_iff segments m).2 ⟨hcanonical, hmappable⟩
    have hrun : forSegments mapSegmentPages segments m = (.returned (.ok ()),
        (forSegments mapSegmentPages segments m).2) := Prod.ext hresult rfl
    exact (hmapped _ hrun).1 (h _ hrun)
  · intro h m₁ hrun
    obtain ⟨hcanonical, hmappable⟩ := (mapSegments_ok_iff segments m).1 (by rw [hrun])
    exact (hmapped m₁ hrun).2 (h hcanonical hmappable)

/-- The machine with the page table of a new process, before a frame is taken for it. -/
def withUserTable (m : Machine M) : Machine M :=
  { m with tables := M.copyTop m.tables (sharedSlot m.tables) }

/-- Before the load: the segments have canonical page addresses, their pages are
distinct and free in a new page table, and there are frames for the table, for the
pages and for the tables they need. -/
structure ImageMappable {M : TableMapper} (segments : List ElfSegment)
    (m : Machine M.toMapper) : Prop where
  ready : m.ready
  canonical : ∀ a ∈ segmentAddresses segments, isCanonical a
  nodup : (loadedPages segments).Nodup
  unmapped : ∀ page ∈ loadedPages segments, M.lookup (withUserTable m).tables page = none ∧
    M.blocked (withUserTable m).tables page = false
  frames : (loadedPages segments).length +
    (M.missing (withUserTable m).tables (loadedPages segments)).card < m.frames.available

/-- If the segments can be mapped in a new page table, filling them writes only where
the user may. -/
def FillsUserPages {M : TableMapper} (data : List UInt8) (segments : List ElfSegment)
    (m : Machine M.toMapper) : Prop :=
  ImageMappable segments m → FillsImage data segments (withUserTable m)

/-- Segments that end before the last page of the address space are filled in their
own pages. -/
theorem fillsUserPages_of_noWrap {M : TableMapper} {segments : List ElfSegment}
    (h : ∀ segment ∈ segments, segment.vaddr + segment.memsz + 0xFFF < 2 ^ 64)
    (data : List UInt8) (m : Machine M.toMapper) : FillsUserPages data segments m := by
  intro _ a ha
  obtain ⟨segment, htaken, hbyte⟩ := mem_flatMap.1 ((takeWhile_sublist _).subset ha)
  have hsegment := (takeWhile_sublist _).subset htaken
  obtain ⟨i, hi, rfl⟩ := mem_map.1 hbyte
  have hend := h segment hsegment
  rw [mem_range] at hi
  left
  rw [wrappingAdd_of_lt (by omega)]
  refine mem_map.2 ⟨(segmentPageRange segment).1 +
    4096 * ((segment.vaddr + i) / 4096 - segment.vaddr / 4096), ?_, ?_⟩
  · refine mem_flatMap.2 ⟨segment, hsegment, mem_pageAddresses.2 ⟨_, ?_, rfl⟩⟩
    rw [segmentPageCount_eq hend]
    omega
  · rw [segmentPageRange_fst, containingPage, containingPage]
    omega

theorem mappable_of_createUserPageTable {M : TableMapper} {pageTablePhys : ℕ}
    {m m' : Machine M.toMapper}
    (h : createUserPageTable m = .ok (pageTablePhys, m')) (segments : List ElfSegment) :
    (∀ a ∈ segmentAddresses segments, isCanonical a) ∧ m'.Mappable (loadedPages segments) ↔
      ImageMappable segments m := by
  have hready : m.ready := by
    by_contra hnot
    rw [not_eq_true] at hnot
    simp [createUserPageTable, hnot] at h
  obtain ⟨frame, frames, hframe, -, rfl⟩ := createUserPageTable_ok h
  have hleft := BitmapAllocator.available_of_allocateFrame hframe
  constructor
  · rintro ⟨hcanonical, hnodup, hunmapped, hframes⟩
    refine ⟨hready, hcanonical, hnodup, hunmapped, ?_⟩
    change _ + _ ≤ frames.available at hframes
    rw [withUserTable]
    dsimp only at hframes ⊢
    omega
  · rintro ⟨-, hcanonical, hnodup, hunmapped, hframes⟩
    refine ⟨hcanonical, hnodup, hunmapped, ?_⟩
    change _ + _ ≤ frames.available
    rw [withUserTable] at hframes
    dsimp only at hframes ⊢
    omega

theorem fillsUserPages_iff {M : TableMapper} {pageTablePhys : ℕ} {m m' : Machine M.toMapper}
    (h : createUserPageTable m = .ok (pageTablePhys, m')) (data : List UInt8)
    (segments : List ElfSegment) : FillsUserPages data segments m ↔
      ((∀ a ∈ segmentAddresses segments, isCanonical a) → m'.Mappable (loadedPages segments) →
        FillsImage data segments m') := by
  rw [FillsUserPages, ← mappable_of_createUserPageTable h, and_imp]
  obtain ⟨frame, frames, -, -, rfl⟩ := createUserPageTable_ok h
  rfl

/-- Without a new page table nothing is loaded. -/
theorem fillsUserPages_of_error {M : TableMapper} {m : Machine M.toMapper} {error : ExecError}
    (h : createUserPageTable m = .error error) (data : List UInt8) (segments : List ElfSegment) :
    FillsUserPages data segments m := by
  intro hmappable
  have hsome := BitmapAllocator.allocateFrame_isSome_iff.2
    (Nat.lt_of_le_of_lt (Nat.zero_le _) hmappable.frames)
  obtain ⟨⟨frame, frames⟩, hframe⟩ := Option.isSome_iff_exists.1 hsome
  simp [createUserPageTable, hmappable.ready, allocateFrame, hframe] at h

theorem createUserPageTable_stores {pageTablePhys : ℕ} {m m' : Machine M}
    (h : createUserPageTable m = .ok (pageTablePhys, m')) :
    m'.ready ∧ m'.stores = m.stores := by
  have hrdy : m.ready := by
    by_contra hnot
    rw [not_eq_true] at hnot
    simp [createUserPageTable, hnot] at h
  obtain ⟨f, frames, -, -, rfl⟩ := createUserPageTable_ok h
  exact ⟨hrdy, rfl⟩

def ArgumentsFit (args : List (List UInt8)) : Prop :=
  argumentBytes args + (args.length + 2) * 8 + 15 ≤ userStackSize

theorem confined_finishImage {env : LoaderEnv} {pageTablePhys : ℕ} {elf : ElfInfo}
    {args : List (List UInt8)} (hfit : ArgumentsFit args) {m₂ m₃ : Machine M}
    (hstk : m₂.MapsPages (dataFlags true) (stackPages env) m₃) :
    Confined m₃ (finishImage env pageTablePhys elf args m₃).2 := by
  obtain ⟨-, hlow, hhigh⟩ := stackTopOf_bounds env
  rw [ArgumentsFit, userStackSize] at hfit
  have hwn : ∀ a, Written (stackWrites (stackTopOf env) args).1 a →
      stackBottomOf env ≤ a ∧ a < stackTopOf env := by
    intro a ha
    have := written_stackWrites (by omega) ha
    rw [stackBottomOf, userStackSize]
    omega
  have hsts : Confined m₃ (storeAll (stackWrites (stackTopOf env) args).1 m₃).2 := by
    refine confined_storeAll (fun a ha => ?_) fun a ha => ?_
    · have := hwn a ha
      omega
    · have hal := stackBottomOf_aligned env
      have := hwn a ha
      have hpg : containingPage a ∈ stackPages env := by
        rw [mem_stackPages_iff, containingPage]
        omega
      obtain ⟨f, hl, -⟩ := hstk.lookup_mem _ hpg
      rw [userWritable, M.translate_of_lookup hl]
      rfl
  simp only [finishImage, setupUserStack]
  rw [show (imageSpace env pageTablePhys elf.segments).stackTop = stackTopOf env from rfl]
  generalize storeAll (stackWrites (stackTopOf env) args).1 m₃ = r at hsts ⊢
  obtain ⟨fault, m'⟩ := r
  cases fault <;> exact hsts

/-- Loading an image stays within the pages that the user may write exactly
when filling the segments does. -/
theorem confined_mapProcessImage_iff {M : TableMapper} {env : LoaderEnv} {pageTablePhys : ℕ}
    {elf : ElfInfo} {data : List UInt8} {args : List (List UInt8)}
    (hfit : ArgumentsFit args) (hparsed : ∀ segment ∈ elf.segments, segment.Parsed data)
    {m m' : Machine M.toMapper} (hcreate : createUserPageTable m = .ok (pageTablePhys, m')) :
    Confined m' (mapProcessImage env pageTablePhys elf data args m').2 ↔
      FillsUserPages data elf.segments m := by
  have hrdy := (createUserPageTable_stores hcreate).1
  obtain ⟨hext, hconf⟩ := confined_loadSegments_iff hparsed m'
  have hstk : ∀ m₁ : Machine M.toMapper, Confined m₁ (andThen (mapStack env m₁) fun m₂ =>
      finishImage env pageTablePhys elf args m₂).2 := by
    intro m₁
    have hfinish : ∀ m₂, mapStack env m₁ = (.returned (.ok ()), m₂) →
        Confined m₂ (finishImage env pageTablePhys elf args m₂).2 := by
      intro m₂ hmap
      obtain ⟨finish, hrng⟩ := mapStack_ok hmap
      obtain ⟨mp, -, hmapped, hall, -⟩ := mapRange_mapsPages hrng
      obtain ⟨rfl, -⟩ := hall rfl
      exact confined_finishImage hfit hmapped
    exact (confined_andThen_iff (confined_mapStack env m₁).extends
      fun m₂ hmap => (hfinish m₂ hmap).extends).2 ⟨confined_mapStack env m₁, hfinish⟩
  have hrs : ∀ m₁ : Machine M.toMapper, Confined m₁
      (if verifyWx (imageSpace env pageTablePhys elf.segments).segments then
        andThen (mapStack env m₁) fun m₂ => finishImage env pageTablePhys elf args m₂
      else (.returned (.error .loadFailed), m₁)).2 := by
    intro m₁
    split_ifs
    · exact hstk m₁
    · exact .of_stores_eq rfl
  rw [mapProcessImage, if_neg (by simp [hrdy]),
    confined_andThen_iff hext fun m₁ _ => (hrs m₁).extends, hconf, fillsUserPages_iff hcreate]
  exact and_iff_left fun m₁ _ => hrs m₁

end Waros.Kernel.Exec.Loader
