import Waros.Kernel.Memory.Accounting
import Waros.Kernel.Exec.Loader

/-!
What the stages of the loader do to the page table and to the account of
frames, when they return `Ok`.
-/

namespace Waros.Kernel.Exec.Loader

open Lib Memory Machine List
variable {M : Mapper}

/-! ### Pages of an image -/

def segmentPageCount (segment : ElfSegment) : ℕ :=
  stepCount (segmentPageRange segment).1 (segmentPageRange segment).2

def segmentPages (segment : ElfSegment) : List ℕ :=
  reached (segmentPageCount segment) (segmentPageRange segment).1

def stackPages (env : LoaderEnv) : List ℕ :=
  reached (stepCount (stackBottomOf env) (stackTopOf env)) (stackBottomOf env)

/-- `VirtAddr::new` accepts every page address of the segment. -/
def Walkable (segment : ElfSegment) : Prop :=
  ∀ i < segmentPageCount segment, isCanonical ((segmentPageRange segment).1 + 4096 * i) = true

lemma stackTopOf_bounds (env : LoaderEnv) :
    stackTopOf env % 4096 = 0 ∧ 0x7FEFF000 < stackTopOf env ∧ stackTopOf env ≤ 0x7FFFF000 := by
  rw [stackTopOf, LoaderEnv.randomizeStackOffset, AddressSpace.userStackTop]
  split_ifs <;> omega

lemma stack_canonical (env : LoaderEnv) :
    ∀ i < stepCount (stackBottomOf env) (stackTopOf env),
      isCanonical (stackBottomOf env + 4096 * i) := by
  intro i hi
  obtain ⟨-, -, hhigh⟩ := stackTopOf_bounds env
  rw [stepCount] at hi
  simp only [isCanonical, Bool.or_eq_true, decide_eq_true_eq]
  omega

lemma temporaryFlags_eq : temporarySegmentPageFlags = dataFlags true := rfl

variable {α : Type} {next : Machine M → LoadOutcome α × Machine M} {ps : ℕ}

lemma andThen_ok {r : LoadOutcome Unit × Machine M} {a : α} {m' : Machine M}
    (h : andThen r next = (.returned (.ok a), m')) :
    ∃ m, r = (.returned (.ok ()), m) ∧ next m = (.returned (.ok a), m') := by
  obtain ⟨o, m⟩ := r
  match o with
  | .returned (.ok ()) => exact ⟨m, rfl, h⟩
  | .returned (.error error) => exact absurd (congrArg Prod.fst h) (by simp [andThen])
  | .panicked => exact absurd (congrArg Prod.fst h) (by simp [andThen])

variable {segments : List ElfSegment} {m m' : Machine M} {pageTablePhys : ℕ}
  {stop : Option Machine.MapStop} {segment : ElfSegment} {env : LoaderEnv} {data : List UInt8}
  {r : LoadOutcome Unit} {flags : PageFlags} {pages : List ℕ} {elf : ElfInfo}
  {args : List (List UInt8)} {space : AddressSpace} {context : CpuContext}
  {f : ElfSegment → Machine M → LoadOutcome Unit × Machine M} {R : Machine M → Machine M → Prop}

/-- A relation between the machines before and after one segment extends to
all of them. -/
lemma forSegments_ok {R : List ElfSegment → Machine M → Machine M → Prop} (hnil : ∀ m, R [] m m)
    (hco : ∀ {segment segments m m₁ m₂}, f segment m = (.returned (.ok ()), m₁) →
      R segments m₁ m₂ → R (segment :: segments) m m₂)
    (h : forSegments f segments m = (.returned (.ok ()), m')) : R segments m m' := by
  induction segments generalizing m with
  | nil =>
    obtain rfl := (Prod.ext_iff.1 h).2
    exact hnil m
  | cons _ _ ih =>
    simp only [forSegments] at h
    split at h
    · next hfst => exact hco hfst (ih h)
    · next hnot => exact absurd h (hnot m')

/-- A relation that every round keeps holds across the loop, wherever it stops. -/
lemma forSegments_keeps (hrefl : ∀ m, R m m) (htra : ∀ {m m₁ m₂}, R m m₁ → R m₁ m₂ → R m m₂)
    (hf : ∀ segment m, R m (f segment m).2) (segs : List ElfSegment) (m : Machine M) :
    R m (forSegments f segs m).2 := by
  induction segs generalizing m with
  | nil => exact hrefl m
  | cons segment _ ih =>
    have hfst := hf segment m
    simp only [forSegments]
    split
    · next m₁ heq =>
      rw [heq] at hfst
      exact htra hfst (ih m₁)
    · exact hfst

lemma andThen_keeps (htra : ∀ {m m₁ m₂}, R m m₁ → R m₁ m₂ → R m m₂)
    {r : LoadOutcome Unit × Machine M} (h : R m r.2) (hnx : ∀ m₁, R m₁ (next m₁).2) :
    R m (andThen r next).2 := by
  obtain ⟨o, m₁⟩ := r
  match o with
  | .returned (.ok ()) => exact htra h (hnx m₁)
  | .returned (.error _) | .panicked => exact h

lemma createUserPageTable_ok (h : createUserPageTable m = .ok (pageTablePhys, m')) :
    ∃ frame frames, m.frames.allocateFrame = some (frame, frames) ∧ pageTablePhys = frame * 4096 ∧
      m' = { m with
        tables := M.copyTop m.tables (sharedSlot m.tables)
        frames
        history := { m.history with tableFrames := m.history.tableFrames ++ [frame] } } := by
  rw [createUserPageTable] at h
  split at h
  · cases h
  · split at h
    · cases h
    · next frame m₁ hfr =>
      obtain ⟨frames, hfrs, rfl⟩ := allocateFrame_eq_some hfr
      obtain ⟨rfl, rfl⟩ := h
      exact ⟨frame, frames, hfrs, rfl, rfl⟩

lemma mapSegmentResult_ok (h : mapSegmentResult stop = .returned (.ok ())) : stop = none := by
  match stop with
  | none => rfl
  | some .panicked | some .noFrame => exact absurd h (by simp [mapSegmentResult])
  | some (.mapError e _) => cases e <;> exact absurd h (by simp [mapSegmentResult])

lemma mapStackResult_ok (h : mapStackResult stop = .returned (.ok ())) : stop = none := by
  match stop with
  | none => rfl
  | some .panicked | some .noFrame | some (.mapError _ _) =>
    exact absurd h (by simp [mapStackResult])

lemma mapSegmentPages_ok (h : mapSegmentPages segment m = (.returned (.ok ()), m')) :
    ∃ finish, m.mapRange (dataFlags true) (segmentPageCount segment)
      (segmentPageRange segment).1 = (none, finish, m') := by
  rw [mapSegmentPages, temporaryFlags_eq, ← segmentPageCount] at h
  generalize m.mapRange (dataFlags true) (segmentPageCount segment)
    (segmentPageRange segment).1 = r at h
  obtain ⟨stop, finish, m₁⟩ := r
  obtain ⟨hstp, hmach⟩ := Prod.ext_iff.1 h
  obtain rfl : m₁ = m' := hmach
  obtain rfl := mapSegmentResult_ok hstp
  exact ⟨finish, rfl⟩

lemma mapStack_ok (h : mapStack env m = (.returned (.ok ()), m')) :
    ∃ finish, m.mapRange (dataFlags true) (stepCount (stackBottomOf env) (stackTopOf env))
      (stackBottomOf env) = (none, finish, m') := by
  rw [mapStack] at h
  generalize m.mapRange (dataFlags true) (stepCount (stackBottomOf env) (stackTopOf env))
    (stackBottomOf env) = r at h
  obtain ⟨stop, finish, m₁⟩ := r
  obtain ⟨hstp, hmach⟩ := Prod.ext_iff.1 h
  obtain rfl : m₁ = m' := hmach
  obtain rfl := mapStackResult_ok hstp
  exact ⟨finish, rfl⟩

lemma mapSegments_ok (h : forSegments mapSegmentPages segments m = (.returned (.ok ()), m')) :
    m.MapsPages (dataFlags true) (segments.flatMap segmentPages) m' ∧
      (∀ segment ∈ segments, Walkable segment) ∧
      ∀ held, m.Accounted held → m'.Accounted held := by
  refine forSegments_ok (R := fun segments m m' =>
    m.MapsPages (dataFlags true) (segments.flatMap segmentPages) m' ∧
      (∀ segment ∈ segments, Walkable segment) ∧
      ∀ held, m.Accounted held → m'.Accounted held) ?_ ?_ h
  · exact fun m => ⟨.refl _ m, by simp, fun held h => h⟩
  · rintro segment segments m m₁ m₂ hfst ⟨hm, hwalk, hacct⟩
    obtain ⟨finish, hrng⟩ := mapSegmentPages_ok hfst
    obtain ⟨mp, -, hmapped, hall, -⟩ := mapRange_mapsPages hrng
    obtain ⟨rfl, hcan⟩ := hall rfl
    refine ⟨?_, ?_, fun held h => hacct held (h.mapRange hrng)⟩
    · exact hmapped.trans hm
    · intro other ho
      rcases mem_cons.1 ho with rfl | ho
      · exact hcan
      · exact hwalk other ho

lemma populateSegment_eq (h : populateSegment data segment m = (r, m')) :
    ∃ stores, m' = { m with stores } := by
  simp only [populateSegment] at h
  split at h
  · cases h
    exact ⟨m.stores, rfl⟩
  · obtain ⟨stores, hsts⟩ := store_eq m segment.vaddr segment.filesz
      fun i => data.getD (segment.offset + i) 0
    split at h
    · next hsto =>
      rw [hsto] at hsts
      cases h
      exact ⟨stores, hsts⟩
    · next m₁ hsto =>
      rw [hsto] at hsts
      obtain ⟨stores', hsts'⟩ := store_eq m₁
        (U64.wrappingAdd segment.vaddr segment.filesz) (segment.memsz - segment.filesz) fun _ => 0
      split at h <;> next hsto' =>
        rw [hsto'] at hsts'
        cases h
        exact ⟨stores', hsts'.trans (by rw [show m₁ = { m with stores } from hsts])⟩

lemma populateSegments_eq (h : forSegments (populateSegment data) segments m = (r, m')) :
    ∃ stores, m' = { m with stores } := by
  have hkp := forSegments_keeps (f := populateSegment data)
    (R := fun m m' => ∃ stores, m' = { m with stores }) (fun m => ⟨m.stores, rfl⟩)
    (by rintro _ _ _ ⟨_, rfl⟩ ⟨stores, rfl⟩; exact ⟨stores, rfl⟩)
    (fun _ _ => populateSegment_eq rfl) segments m
  rwa [h] at hkp

/-! ### Final permissions -/

/-- From `m` to `m'` the given pages got new flags and nothing else changed. -/
structure UpdatesFlags (flags : PageFlags) (pages : List ℕ) (m m' : Machine M) : Prop where
  machine_eq : m' = { m with tables := m'.tables }
  lookup_mem : ∀ p ∈ pages, ∃ f old, M.lookup m.tables p = some (f, old) ∧
    M.lookup m'.tables p = some (f, flags)
  lookup_notMem : ∀ p ∉ pages, M.lookup m'.tables p = M.lookup m.tables p
  translate_notMem : ∀ p ∉ pages, M.translate m'.tables p = M.translate m.tables p

lemma UpdatesFlags.cons {page : ℕ} {tables : M.Tables}
    (hupd : M.updateFlags m.tables page flags = some tables) (hpg : page ∉ pages)
    (h : UpdatesFlags flags pages { m with tables } m') :
    UpdatesFlags flags (page :: pages) m m' := by
  obtain ⟨fr, old, hl, hots, htran⟩ := M.updateFlags_some hupd
  refine ⟨h.machine_eq, fun p hp => ?_, fun p hp => ?_, fun p hp => ?_⟩
  · rcases mem_cons.1 hp with rfl | hp
    · refine ⟨fr, old, hl, ?_⟩
      rw [h.lookup_notMem p hpg]
      exact (hots p).trans (if_pos rfl)
    · obtain ⟨f, old', hbef, haft⟩ := h.lookup_mem p hp
      refine ⟨f, old', ?_, haft⟩
      rw [← hbef]
      exact ((hots p).trans (if_neg fun heq : p = page => hpg (heq ▸ hp))).symm
  · rw [mem_cons, not_or] at hp
    rw [h.lookup_notMem p hp.2]
    exact (hots p).trans (if_neg hp.1)
  · rw [mem_cons, not_or] at hp
    rw [h.translate_notMem p hp.2]
    exact htran p hp.1

lemma updateRange_ok {ps a : ℕ} (h : updateRange flags ps a m = (.returned (.ok ()), m')) :
    UpdatesFlags flags (reached ps a) m m' := by
  induction ps generalizing a m with
  | zero =>
    cases h
    exact ⟨rfl, by simp [reached], fun _ _ => rfl, fun _ _ => rfl⟩
  | succ _ ih =>
    simp only [updateRange] at h
    split at h
    · cases h
    · next hcan =>
      have hcan : isCanonical a := by simpa using hcan
      split at h
      · cases h
      · next ts hupd =>
        rw [reached, if_pos hcan]
        refine (ih h).cons hupd fun hmem => ?_
        have := mem_reached hmem
        rw [containingPage_add] at this
        omega

lemma updateRange_eq (fl : PageFlags) (ps a : ℕ) (m : Machine M) :
    ∃ tables, (updateRange fl ps a m).2 = { m with tables } := by
  induction ps generalizing a m with
  | zero => exact ⟨m.tables, rfl⟩
  | succ _ ih =>
    rw [updateRange]
    split
    · exact ⟨m.tables, rfl⟩
    · split
      · exact ⟨m.tables, rfl⟩
      · next tables _ => exact ih (a + 4096) { m with tables }

lemma applySegmentPermissions_eq (seg : ElfSegment) (m : Machine M) :
    ∃ tables, (applySegmentPermissions seg m).2 = { m with tables } := by
  rw [applySegmentPermissions]
  split
  · exact ⟨m.tables, rfl⟩
  · exact updateRange_eq _ _ _ m

lemma applySegmentPermissions_ok
    (h : applySegmentPermissions segment m = (.returned (.ok ()), m')) :
    ∃ flags, finalSegmentPageFlags segment = .ok flags ∧
      UpdatesFlags flags (segmentPages segment) m m' := by
  rw [applySegmentPermissions] at h
  split at h
  · cases h
  · next flags hfl => exact ⟨flags, hfl, updateRange_ok h⟩

/-- After the last stage each page of a segment has the flags of that segment
and the frame it had before. -/
structure Permits (segments : List ElfSegment) (m m' : Machine M) : Prop where
  machine_eq : m' = { m with tables := m'.tables }
  lookup_mem : (segments.flatMap segmentPages).Nodup → ∀ segment ∈ segments,
    ∃ flags, finalSegmentPageFlags segment = .ok flags ∧ ∀ p ∈ segmentPages segment,
      ∃ f old, M.lookup m.tables p = some (f, old) ∧ M.lookup m'.tables p = some (f, flags)
  lookup_notMem : ∀ p ∉ segments.flatMap segmentPages,
    M.lookup m'.tables p = M.lookup m.tables p
  translate_notMem : ∀ p ∉ segments.flatMap segmentPages,
    M.translate m'.tables p = M.translate m.tables p
  frame_eq : ∀ {p f flags}, M.lookup m.tables p = some (f, flags) →
    ∃ flags', M.lookup m'.tables p = some (f, flags')

lemma UpdatesFlags.frame_eq {flags old : PageFlags} (h : UpdatesFlags flags pages m m')
    {p f : ℕ} (hl : M.lookup m.tables p = some (f, old)) :
    ∃ flags', M.lookup m'.tables p = some (f, flags') := by
  by_cases hp : p ∈ pages
  · obtain ⟨f', old', hbef, haft⟩ := h.lookup_mem p hp
    rw [hl] at hbef
    obtain ⟨rfl, -⟩ := Prod.ext_iff.1 (Option.some.inj hbef)
    exact ⟨flags, haft⟩
  · exact ⟨old, (h.lookup_notMem p hp).trans hl⟩

lemma applyPermissions_ok
    (h : forSegments applySegmentPermissions segments m = (.returned (.ok ()), m')) :
    Permits segments m m' := by
  refine forSegments_ok (R := Permits) ?_ ?_ h
  · exact fun m => ⟨rfl, by simp, fun _ _ => rfl, fun _ _ => rfl, fun h => ⟨_, h⟩⟩
  · intro segment segments m m₁ m₂ hfst hr
    obtain ⟨flags, hfl, hupd⟩ := applySegmentPermissions_ok hfst
    refine ⟨?_, fun hnd => ?_, fun p hp => ?_, fun p hp => ?_, fun hl => ?_⟩
    · rw [hr.machine_eq, hupd.machine_eq]
    · rw [flatMap_cons, nodup_append] at hnd
      obtain ⟨-, hnd, hdisj⟩ := hnd
      intro other ho
      rcases mem_cons.1 ho with rfl | ho
      · refine ⟨flags, hfl, fun p hp => ?_⟩
        obtain ⟨f, old, hbef, haft⟩ := hupd.lookup_mem p hp
        refine ⟨f, old, hbef, (hr.lookup_notMem p fun hp' => ?_).trans haft⟩
        exact hdisj p hp p hp' rfl
      · obtain ⟨flags', hfl', hpgs⟩ := hr.lookup_mem hnd other ho
        refine ⟨flags', hfl', fun p hp => ?_⟩
        obtain ⟨f, old, hbef, haft⟩ := hpgs p hp
        have hp' : p ∉ segmentPages segment := fun hp' =>
          hdisj p hp' p (mem_flatMap.2 ⟨other, ho, hp⟩) rfl
        exact ⟨f, old, (hupd.lookup_notMem p hp').symm.trans hbef, haft⟩
    · rw [flatMap_cons, mem_append, not_or] at hp
      rw [hr.lookup_notMem p hp.2, hupd.lookup_notMem p hp.1]
    · rw [flatMap_cons, mem_append, not_or] at hp
      rw [hr.translate_notMem p hp.2, hupd.translate_notMem p hp.1]
    · obtain ⟨flags', hl'⟩ := hupd.frame_eq hl
      exact hr.frame_eq hl'

lemma Permits.accounted {held : List ℕ} (h : Permits segments m m')
    (hacct : m.Accounted held) : m'.Accounted held := by
  rw [h.machine_eq]
  refine ⟨fun e hent => ?_, hacct.live_subset, hacct.nodup, hacct.allocated,
    hacct.returned, hacct.frees_allocated⟩
  obtain ⟨flags, hl⟩ := hacct.lookup_live e hent
  exact h.frame_eq hl

lemma storeAll_eq {ws : List Write} {fault : Bool} (h : storeAll ws m = (fault, m')) :
    ∃ stores, m' = { m with stores } := by
  induction ws generalizing m with
  | nil =>
    obtain rfl := (Prod.ext_iff.1 h).2
    exact ⟨m.stores, rfl⟩
  | cons write _ ih =>
    obtain ⟨stores, hsts⟩ := store_eq m write.1 write.2.length
      fun i => write.2.getD i 0
    simp only [storeAll] at h
    split at h
    · next hsto =>
      rw [hsto] at hsts
      cases h
      exact ⟨stores, hsts⟩
    · next m₁ hsto =>
      rw [hsto] at hsts
      obtain rfl : m₁ = { m with stores } := hsts
      obtain ⟨stores', rfl⟩ := ih h
      exact ⟨stores', rfl⟩

/-- The stages of an image that is complete but for the arguments: `m₁` has the
segments mapped, `m₂` their contents and final permissions, `m₃` the stack. -/
structure ImageMapped (env : LoaderEnv) (elf : ElfInfo) (m m₁ m₂ m₃ : Machine M) : Prop where
  segments : m.MapsPages (dataFlags true) (elf.segments.flatMap segmentPages) m₁
  walkable : ∀ segment ∈ elf.segments, Walkable segment
  permissions : ∃ stores, Permits elf.segments { m₁ with stores } m₂
  stack : m₂.MapsPages (dataFlags true) (stackPages env) m₃
  accounted : ∀ held, m.Accounted held → m₃.Accounted held

lemma loadSegments_ok (h : loadSegments data segments m = (.returned (.ok ()), m')) :
    ∃ m₁ stores, forSegments mapSegmentPages segments m = (.returned (.ok ()), m₁) ∧
      Permits segments { m₁ with stores } m' := by
  obtain ⟨m₁, hmap, h⟩ := andThen_ok h
  obtain ⟨m₂, hpop, h⟩ := andThen_ok h
  obtain ⟨stores, rfl⟩ := populateSegments_eq hpop
  exact ⟨m₁, stores, hmap, applyPermissions_ok h⟩

lemma imageMapped_of_ok {m m₂ m₃ : Machine M}
    (hsegs : loadSegments data elf.segments m = (.returned (.ok ()), m₂))
    (hstk : mapStack env m₂ = (.returned (.ok ()), m₃)) :
    ∃ m₁, ImageMapped env elf m m₁ m₂ m₃ := by
  obtain ⟨m₁, stores, hmap, hperm⟩ := loadSegments_ok hsegs
  obtain ⟨hm, hwalk, hacct⟩ := mapSegments_ok hmap
  obtain ⟨finish, hrng⟩ := mapStack_ok hstk
  obtain ⟨mp, -, hmapped, hall, -⟩ := mapRange_mapsPages hrng
  obtain ⟨rfl, -⟩ := hall rfl
  refine ⟨m₁, hm, hwalk, ⟨stores, hperm⟩, hmapped, fun held h => ?_⟩
  have hpopu : Machine.Accounted { m₁ with stores } held := (hacct held h).of_eq rfl rfl rfl
  exact (hperm.accounted hpopu).mapRange hrng

lemma finishImage_ok
    (h : finishImage env pageTablePhys elf args m = (.returned (.ok (space, context, ps)), m')) :
    space = imageSpace env pageTablePhys elf.segments ∧
      storeAll (stackWrites (stackTopOf env) args).1 m = (false, m') := by
  simp only [finishImage, setupUserStack] at h
  generalize hsts : storeAll (stackWrites (stackTopOf env) args).1 m = r
  rw [show (imageSpace env pageTablePhys elf.segments).stackTop = stackTopOf env from rfl,
    hsts] at h
  obtain ⟨fault, m₁⟩ := r
  cases fault with
  | true => cases h
  | false =>
    obtain ⟨⟨rfl, -, -⟩, rfl⟩ := h
    exact ⟨rfl, rfl⟩

lemma mapProcessImage_ok
    (h : mapProcessImage env pageTablePhys elf data args m =
      (.returned (.ok (space, context, ps)), m')) :
    m.ready ∧ space = imageSpace env pageTablePhys elf.segments ∧
      ∃ m₁ m₂ m₃, ImageMapped env elf m m₁ m₂ m₃ ∧
        storeAll (stackWrites (stackTopOf env) args).1 m₃ = (false, m') := by
  rw [mapProcessImage] at h
  split at h
  · cases h
  · next hrdy =>
    obtain ⟨m₂, hsegs, h⟩ := andThen_ok h
    split at h
    · obtain ⟨m₃, hstk, h⟩ := andThen_ok h
      obtain ⟨m₁, hmapped⟩ := imageMapped_of_ok hsegs hstk
      obtain ⟨rfl, hsts⟩ := finishImage_ok h
      exact ⟨by simpa using hrdy, rfl, m₁, m₂, m₃, hmapped, hsts⟩
    · cases h

end Waros.Kernel.Exec.Loader
