import Waros.Kernel.Exec.LoaderEffects

/-!
The frames of a user process from its load to its teardown. Between the two
the process grows: it calls `sys_brk` and `sys_mmap`.
-/

namespace Waros.Kernel.Exec

open Lib Memory AddressSpace Machine List UserMemory History U64

inductive GrowCall
  | brk (address : UInt64)
  | mmap (len : UInt64) (prot flags : UInt32)

variable {M : Mapper}

def UserMemory.grow (s : UserMemory M) : GrowCall → UserMemory M
  | .brk address => (s.sysBrk address).2
  | .mmap len prot flags => (s.sysMmap len prot flags).2

def AddressSpace.image (space : AddressSpace) : List MemorySegment × ℕ × ℕ × ℕ :=
  (space.segments, space.stackBottom, space.stackTop, space.pageTablePhys)

/-- From `m` to `m'` the account was kept and no live page was lost. -/
structure Keeps (m m' : Machine M) : Prop where
  accounted : m'.Accounted []
  live_subset : m.history.live ⊆ m'.history.live
  tableFrames_subset : m.history.tableFrames ⊆ m'.history.tableFrames
  ready : m'.ready = m.ready

lemma Keeps.refl {m : Machine M} (h : m.Accounted []) : Keeps m m := ⟨h, .refl _, .refl _, rfl⟩

lemma Keeps.trans {m m₁ m₂ : Machine M} (h : Keeps m m₁) (h' : Keeps m₁ m₂) : Keeps m m₂ :=
  ⟨h'.accounted, List.Subset.trans h.live_subset h'.live_subset,
    List.Subset.trans h.tableFrames_subset h'.tableFrames_subset, h'.ready.trans h.ready⟩

/-- A mapping loop that stops early leaves a frame to its caller, who frees
it. -/
def freeHeld (m : Machine M) : Option Machine.MapStop → Machine M
  | some (.mapError _ frame) => m.freeFrame frame
  | _ => m

variable {m m' : Machine M} {flags : PageFlags} {pages address finish : ℕ}
  {stop : Option Machine.MapStop}

lemma freeHeld_keeps (h : m.Accounted [])
    (hrng : m.mapRange flags pages address = (stop, finish, m')) :
    Keeps m (freeHeld m' stop) := by
  obtain ⟨mp, -, hm, -⟩ := mapRange_mapsPages hrng
  have hacct := h.mapRange hrng
  match stop with
  | none | some .panicked | some .noFrame =>
    exact ⟨hacct, hm.live_subset, hm.tableFrames_subset, hm.ready⟩
  | some (.mapError _ frame) =>
    exact ⟨hacct.freeFrame, hm.live_subset, hm.tableFrames_subset, hm.ready⟩

lemma stepCount_add (lo pages : ℕ) : stepCount lo (lo + 4096 * pages) = pages := by
  rw [stepCount]
  omega

/-- Taking back what the loop has just mapped loses no page from before. -/
lemma rollback_keeps (h : m.Accounted [])
    (hrng : m.mapRange flags pages address = (stop, finish, m')) (hstp : stop ≠ some .panicked) :
    Keeps m ((freeHeld m' stop).unmapRange (stepCount address finish) address).2 := by
  obtain ⟨mp, -, hm, -, hfinish⟩ := mapRange_mapsPages hrng
  have hkp := freeHeld_keeps h hrng
  have hlv : (freeHeld m' stop).history.live = m'.history.live := by
    match stop with
    | none | some .panicked | some .noFrame | some (.mapError _ _) => rfl
  rw [hfinish hstp, stepCount_add, unmapRange_eq_run]
  obtain ⟨hacct, hrs, -, htabs, hrdy⟩ :=
    hkp.accounted.run_release (reached mp address) fun p hp => by
      obtain ⟨f, -, hf⟩ := hm.lookup_mem p hp
      exact .inr ⟨f, by rwa [hlv]⟩
  refine ⟨hacct, fun e hent => ?_, ?_, hrdy.trans hkp.ready⟩
  · refine (hrs e).2 ⟨hkp.live_subset hent, fun hp => ?_⟩
    -- A page that was live before the loop cannot have been mapped by it.
    obtain ⟨flags', hl⟩ := h.lookup_live e hent
    rw [hm.unmapped e.1 hp] at hl
    cases hl
  · rw [htabs]
    exact hkp.tableFrames_subset

namespace UserMemory

/-- What every call does: the account is kept, no page is lost, and the record
of the image stays as it is. -/
def Grows (s s' : UserMemory M) : Prop :=
  Keeps s.machine s'.machine ∧
    s'.space.map image = s.space.map image

variable {s : UserMemory M}

lemma Grows.refl (h : s.machine.Accounted []) : Grows s s := ⟨.refl h, rfl⟩

lemma mmapPages_grows (base al : ℕ) (prot : UInt32) (h : s.machine.Accounted []) :
    Grows s (mmapPages s base al prot).2 := by
  rw [mmapPages]
  split_ifs
  · exact .refl h
  · generalize hrng : s.machine.mapRange _ _ _ = r
    obtain ⟨stop, finish, m'⟩ := r
    have hkp := freeHeld_keeps h hrng
    match stop with
    | none | some .panicked | some .noFrame | some (.mapError _ _) => exact ⟨hkp, rfl⟩

lemma sysMmap_grows (len : UInt64) (prot fl : UInt32) (h : s.machine.Accounted []) :
    Grows s (s.sysMmap len prot fl).2 := by
  rw [sysMmap]
  split_ifs
  · exact .refl h
  · exact .refl h
  · split
    · exact .refl h
    · next space hspc =>
      split
      · exact .refl h
      · split_ifs
        · exact .refl h
        · obtain ⟨hkp, himg⟩ := mmapPages_grows
            (s := { s with space := some { space with mmapTop := _, heapLimit := _ } }) _
            (alignUp len.toNat) prot h
          exact ⟨hkp, himg.trans (by rw [hspc]; rfl)⟩

lemma rollbackHeapGrowth_machine (s : UserMemory M) (oldBrk lo fin : ℕ) :
    (rollbackHeapGrowth s oldBrk lo fin).2 =
      { s with machine := (s.machine.unmapRange (stepCount lo fin) lo).2 } := by
  rw [rollbackHeapGrowth]
  generalize s.machine.unmapRange (stepCount lo fin) lo = r
  obtain ⟨fault, m⟩ := r
  cases fault <;> rfl

lemma growHeap_grows {sp : AddressSpace} (hspc : s.space = some sp) (a : ℕ)
    (h : s.machine.Accounted []) : Grows s (growHeap s sp a).2 := by
  rw [growHeap]
  split_ifs
  · exact .refl h
  · generalize hrng : s.machine.mapRange _ _ _ = r
    obtain ⟨stop, finish, m'⟩ := r
    have hkp := freeHeld_keeps h hrng
    match stop with
    | none => exact ⟨hkp, by rw [hspc]; rfl⟩
    | some .panicked => exact ⟨hkp, rfl⟩
    | some .noFrame | some (.mapError _ _) =>
      have hrb := rollback_keeps h hrng (by simp)
      rw [growResult, rollbackHeapGrowth_machine]
      exact ⟨hrb, rfl⟩

lemma sysBrk_grows (a : UInt64) (h : s.machine.Accounted []) : Grows s (s.sysBrk a).2 := by
  rw [sysBrk]
  split
  · exact .refl h
  · next space hspc =>
    simp only
    split_ifs
    · exact .refl h
    · exact .refl h
    · exact .refl h
    · exact growHeap_grows hspc _ h

lemma grow_grows (s : UserMemory M) (c : GrowCall) (h : s.machine.Accounted []) :
    Grows s (s.grow c) := by
  cases c with
  | brk address => exact sysBrk_grows address h
  | mmap len prot flags => exact sysMmap_grows len prot flags h

lemma run_grows (cs : List GrowCall) (h : s.machine.Accounted []) : Grows s (run grow s cs) := by
  refine @run_invariant_of_step _ _ _ (Grows s) (fun s' c hs => ?_) _ cs (.refl h)
  obtain ⟨hkp, himg⟩ := grow_grows s' c hs.1.accounted
  exact ⟨hs.1.trans hkp, himg.trans hs.2⟩

end UserMemory

namespace Loader

variable {m : Machine M} {elf : ElfInfo} {space : AddressSpace} (env : LoaderEnv)
  (pageTablePhys : ℕ)

lemma accounted_of_empty (h : m.history = empty) : m.Accounted [] := by
  refine ⟨?_, ?_, ?_, ?_, ?_, ?_⟩ <;> simp [h, empty, owned]

/-- The state a process starts in: the account holds, its page table and all
pages of its image are there. -/
structure Starts (env : LoaderEnv) (elf : ElfInfo) (space : AddressSpace) (m : Machine M) :
    Prop where
  accounted : m.Accounted []
  ready : m.ready = true
  live : ∀ p ∈ elf.segments.flatMap segmentPages ++ stackPages env,
    ∃ f, (p, f) ∈ m.history.live
  walkable : ∀ segment ∈ elf.segments, Walkable segment
  space_eq : ∃ frame ∈ m.history.tableFrames,
    space = imageSpace env (frame * 4096) elf.segments

lemma buildImage_starts {env : LoaderEnv} {data : List UInt8} {args : List (List UInt8)}
    {m m' : Machine M} {context : CpuContext} {ps : ℕ} (hemp : m.history = empty)
    (h : buildImage env elf data args m = (.returned (.ok (space, context, ps)), m')) :
    Starts env elf space m' := by
  rw [buildImage] at h
  split at h
  · cases h
  · next pageTablePhys m₀ hcre =>
    obtain ⟨fr, frames, hfr, rfl, rfl⟩ := createUserPageTable_ok hcre
    obtain ⟨hrdy, rfl, m₁, m₂, m₃, hmapped, hsts⟩ := mapProcessImage_ok h
    obtain ⟨stores, hperm⟩ := hmapped.permissions
    obtain ⟨stores', rfl⟩ := storeAll_eq hsts
    have hhist : m₂.history = m₁.history := by rw [hperm.machine_eq]
    refine ⟨(hmapped.accounted [] ?_).of_eq rfl rfl rfl, ?_, fun p hp => ?_, hmapped.walkable,
      fr, ?_, rfl⟩
    · refine (accounted_of_empty hemp).take (takes_singleton hfr) ?_ ?_ ?_ ?_ rfl
      · simp [owned, hemp, empty]
      · simp [hemp, empty]
      · simp [hemp, empty]
      · exact fun e hent => .inl hent
    · rw [hmapped.stack.ready, hperm.machine_eq]
      exact hmapped.segments.ready.trans hrdy
    · rcases mem_append.1 hp with hp | hp
      · obtain ⟨f, -, hf⟩ := hmapped.segments.lookup_mem p hp
        exact ⟨f, hmapped.stack.live_subset (hhist ▸ hf)⟩
      · obtain ⟨f, -, hf⟩ := hmapped.stack.lookup_mem p hp
        exact ⟨f, hf⟩
    · refine hmapped.stack.tableFrames_subset ?_
      rw [hhist]
      exact hmapped.segments.tableFrames_subset (by simp)

/-! ### The teardown -/

def rangePages (range : ℕ × ℕ) : List ℕ :=
  reached (stepCount (alignDown range.1) (alignDown (saturatingAdd range.2 0xFFF)))
    (alignDown range.1)

def teardownPages (space : AddressSpace) : List ℕ := (teardownRanges space).flatMap rangePages

lemma teardownRanges_congr {space space' : AddressSpace} (h : space'.image = space.image) :
    teardownRanges space' = teardownRanges space := by
  simp only [image, Prod.mk.injEq] at h
  obtain ⟨hsegs, hbot, htop, -⟩ := h
  rw [teardownRanges, teardownRanges, hsegs, hbot, htop]

variable (segments : List ElfSegment)

lemma foldl_registerSegment (sp : AddressSpace) :
    segments.foldl (fun (sp : AddressSpace) segment =>
      sp.registerSegment segment.vaddr segment.memsz segment.flags) sp =
      { sp with segments := sp.segments ++ segments.map fun segment =>
          ⟨segment.vaddr, segment.memsz, segment.flags⟩ } := by
  induction segments generalizing sp with
  | nil => simp
  | cons _ _ ih =>
    rw [foldl_cons, ih]
    simp [registerSegment]

lemma imageSpace_image :
    (imageSpace env pageTablePhys segments).image =
      (segments.map fun segment => ⟨segment.vaddr, segment.memsz, segment.flags⟩,
        stackBottomOf env, stackTopOf env, pageTablePhys) := by
  simp [imageSpace, foldl_registerSegment, image, finalizeHeapLayout, new]

lemma rangePages_segment (segment : ElfSegment) :
    rangePages (segment.vaddr, saturatingAdd segment.vaddr segment.memsz) =
      segmentPages segment := rfl

lemma alignDown_stackBottomOf : alignDown (stackBottomOf env) = stackBottomOf env := by
  have hbds := stackTopOf_bounds env
  rw [alignDown, stackBottomOf, userStackSize]
  omega

lemma alignDown_stackTopOf : alignDown (saturatingAdd (stackTopOf env) 0xFFF) = stackTopOf env := by
  have hbds := stackTopOf_bounds env
  rw [saturatingAdd_of_lt (by omega), alignDown]
  omega

lemma rangePages_stack : rangePages (stackBottomOf env, stackTopOf env) = stackPages env := by
  simp only [rangePages, alignDown_stackBottomOf, alignDown_stackTopOf, stackPages]

lemma teardownPages_imageSpace :
    teardownPages (imageSpace env pageTablePhys segments) =
      segments.flatMap segmentPages ++ stackPages env := by
  have himg := imageSpace_image env pageTablePhys segments
  simp only [image, Prod.mk.injEq] at himg
  obtain ⟨hsegs, hbot, htop, -⟩ := himg
  simp [teardownPages, teardownRanges, hsegs, hbot, htop, rangePages_stack,
    flatMap_map, rangePages_segment]

def RangeWalkable (range : ℕ × ℕ) : Prop :=
  ∀ i < stepCount (alignDown range.1) (alignDown (saturatingAdd range.2 0xFFF)),
    isCanonical (alignDown range.1 + 4096 * i) = true

lemma unmapRanges_eq {rs : List (ℕ × ℕ)} (h : ∀ range ∈ rs, RangeWalkable range) (m : Machine M) :
    unmapRanges rs m = (false, run release m (rs.flatMap rangePages)) := by
  induction rs generalizing m with
  | nil => rfl
  | cons range _ ih =>
    have hfst : unmapRange range.1 range.2 m = (false, run release m (rangePages range)) :=
      Prod.ext (unmapRange_fst (h range (by simp))) (unmapRange_eq_run ..)
    simp only [unmapRanges, hfst, flatMap_cons]
    rw [run_append]
    exact ih (fun r hr => h r (by simp [hr])) _

lemma teardownRanges_walkable {env : LoaderEnv} {pt : ℕ}
    {segs : List ElfSegment} (h : ∀ segment ∈ segs, Walkable segment) :
    ∀ range ∈ teardownRanges (imageSpace env pt segs), RangeWalkable range := by
  have himg := imageSpace_image env pt segs
  simp only [image, Prod.mk.injEq] at himg
  obtain ⟨hsegs, hbot, htop, -⟩ := himg
  rw [teardownRanges, hsegs, hbot, htop]
  intro range hrng
  rcases mem_append.1 hrng with hrng | hrng
  · obtain ⟨segment, hseg, rfl⟩ := mem_map.1 hrng
    obtain ⟨elfSegment, helf, rfl⟩ := mem_map.1 hseg
    exact h elfSegment helf
  · obtain rfl := mem_singleton.1 hrng
    simp only [RangeWalkable, alignDown_stackBottomOf, alignDown_stackTopOf]
    exact stack_canonical env

/-- Every frame that was mapped as a user page is free again, unless it serves
as a page table now, and every frame that was freed was in use. -/
def Reclaimed (m : Machine M) : Prop :=
  (∀ entry ∈ m.history.mapped,
    m.frames.isAllocated entry.2 = false ∨ entry.2 ∈ m.history.tableFrames) ∧
  ∀ entry ∈ m.history.frees, entry.2 = true

/-- Freeing the top-level table at the end does not touch the other frames. -/
lemma reclaimed_freeFrame_iff {f : ℕ} (h : m.Accounted [])
    (hfr : f ∈ m.history.tableFrames) : Reclaimed (m.freeFrame f) ↔ Reclaimed m := by
  obtain ⟨hne, hlt, hall⟩ := h.allocated f (by simp [owned, hfr])
  have hst := BitmapAllocator.isAllocated_freeFrame hne hlt
  simp only [Reclaimed, freeFrame, hst, mem_append, mem_singleton]
  refine and_congr (forall₂_congr fun en _ => ?_) ⟨fun hf e he => hf e (.inl he), ?_⟩
  · by_cases heq : en.2 = f
    · simp [heq, hfr]
    · simp [heq]
  · rintro hf e (he | rfl)
    · exact hf e he
    · exact hall

lemma reclaimed_iff (h : m.Accounted []) : Reclaimed m ↔ m.history.live = [] := by
  constructor
  · intro hrecl
    refine eq_nil_iff_forall_not_mem.2 fun e hent => ?_
    have hown : e.2 ∈ m.history.live.map Prod.snd := mem_map_of_mem hent
    have hall := h.allocated e.2 (by simp only [owned, mem_append, hown, true_or])
    rcases hrecl.1 e (h.live_subset hent) with hfree | htab
    · rw [hall.2.2] at hfree
      cases hfree
    · have hdisj := (nodup_append.1 h.nodup).2.2
      exact hdisj e.2 hown e.2 (by simp [htab]) rfl
  · intro hlv
    refine ⟨fun e hent => ?_, h.frees_allocated⟩
    cases hst : m.frames.isAllocated e.2 with
    | false => exact .inl rfl
    | true =>
      have := h.returned e hent hst
      exact .inr (by simpa [owned, hlv] using this)

/-- The machine after the teardown of the image a process has at the end of
its run. -/
def tearDown (kernelCr3 : ℕ) (s : UserMemory M) : Machine M :=
  match s.space with
  | none => s.machine
  | some space => (teardownProcessImage kernelCr3 space.pageTablePhys space s.machine).2

/-- The pages that teardown will go through. -/
def walkedPages (s : UserMemory M) : List ℕ :=
  match s.space with
  | none => []
  | some space => teardownPages space

lemma tearDown_reclaimed_iff {env : LoaderEnv} {s : UserMemory M}
    (hsta : Starts env elf space m) (hgro : UserMemory.Grows ⟨some space, m⟩ s) (cr3 : ℕ) :
    Reclaimed (tearDown cr3 s) ↔ ∀ entry ∈ s.machine.history.live, entry.1 ∈ walkedPages s := by
  obtain ⟨hkp, himg⟩ := hgro
  obtain ⟨fr, hfr, rfl⟩ := hsta.space_eq
  obtain ⟨space', hspc, himg⟩ := Option.map_eq_some_iff.1 himg
  have hrngs := teardownRanges_congr himg
  have hphys : space'.pageTablePhys = fr * 4096 := by
    have := congrArg (fun image => image.2.2.2) himg
    rwa [imageSpace_image] at this
  have hpgs : teardownPages space' = elf.segments.flatMap segmentPages ++ stackPages env := by
    rw [teardownPages, hrngs]
    exact teardownPages_imageSpace ..
  -- Every page teardown goes through is live, so the account holds to the end.
  obtain ⟨hacct, hlv, -, htabs, -⟩ :=
    hkp.accounted.run_release (teardownPages space') fun p hp => by
      obtain ⟨f, hf⟩ := hsta.live p (hpgs ▸ hp)
      exact .inr ⟨f, hkp.live_subset hf⟩
  have hfina : (run release s.machine (teardownPages space')).history.live = [] ↔
      ∀ entry ∈ s.machine.history.live, entry.1 ∈ teardownPages space' := by
    rw [eq_nil_iff_forall_not_mem]
    refine forall_congr' fun entry => ?_
    rw [hlv]
    tauto
  simp only [walkedPages, tearDown, hspc]
  rw [← hfina, ← reclaimed_iff hacct, teardownProcessImage, hkp.ready, hsta.ready,
    unmapRanges_eq (by rw [hrngs]; exact teardownRanges_walkable hsta.walkable), ← teardownPages]
  simp only [Bool.not_true, Bool.false_eq_true, if_false]
  split_ifs
  · rw [hphys, Nat.mul_div_cancel _ (by decide)]
    refine reclaimed_freeFrame_iff hacct ?_
    rw [htabs]
    exact hkp.tableFrames_subset hfr
  · rfl

/-- In every run of a load, growth and teardown, every user frame is free at
the end and none was freed twice exactly when, before the teardown, every live
page lies in a segment or in the stack. -/
theorem lifetime_reclaimed_iff {env : LoaderEnv} {elf : ElfInfo} {data : List UInt8}
    {args : List (List UInt8)} {m m' : Machine M} {space : AddressSpace} {context : CpuContext}
    {pages : ℕ} (hempty : m.history = empty)
    (hload : buildImage env elf data args m = (.returned (.ok (space, context, pages)), m'))
    (calls : List GrowCall) (kernelCr3 : ℕ) :
    Reclaimed (tearDown kernelCr3 (run grow ⟨some space, m'⟩ calls)) ↔
      ∀ entry ∈ (run grow ⟨some space, m'⟩ calls).machine.history.live,
        entry.1 ∈ walkedPages (run grow ⟨some space, m'⟩ calls) := by
  have hsta := buildImage_starts hempty hload
  refine tearDown_reclaimed_iff hsta ?_ kernelCr3
  exact run_grows (s := ⟨some space, m'⟩) calls hsta.accounted

def loadedMemory (r : LoadOutcome (AddressSpace × CpuContext × ℕ) × Machine M) :
    Option (UserMemory M) :=
  match r.1 with
  | .returned (.ok (space, _, _)) => some ⟨some space, r.2⟩
  | _ => none

lemma exists_of_loadedMemory {r : LoadOutcome (AddressSpace × CpuContext × ℕ) × Machine M}
    {p : UserMemory M → Bool} (h : (loadedMemory r).any p) :
    ∃ space context pages m', r = (.returned (.ok (space, context, pages)), m') ∧
      p ⟨some space, m'⟩ := by
  obtain ⟨o, m'⟩ := r
  match o with
  | .returned (.ok (space, context, pages)) => exact ⟨space, context, pages, m', rfl, h⟩
  | .returned (.error _) | .panicked => exact absurd h (by simp [loadedMemory])

/-- A program of one executable page. -/
def smallElf : ElfInfo := ⟨0x400000, [⟨0x400000, 1, 0, 0, ⟨true, false, true⟩, 0x1000⟩], false⟩

/-- The live pages of the program are the ones that a teardown walks, and a page
from `sys_mmap` is not among those. -/
lemma smallElf_live :
    (loadedMemory (buildImage .fixed smallElf [] [] smallMachine)).any (fun s =>
      decide ((run grow s [.brk 0]).machine.history.live.map Prod.fst =
        (walkedPages (run grow s [.brk 0])).reverse) &&
      (run grow s [.mmap 4096 3 0x22]).machine.history.live.head?.any fun entry =>
        decide (entry.1 ∉ walkedPages (run grow s [.mmap 4096 3 0x22]))) = true := by
  decide +kernel

theorem lifetime_reclaimed_small :
    ∃ space context pages m', buildImage .fixed smallElf [] [] smallMachine =
        (.returned (.ok (space, context, pages)), m') ∧
      Reclaimed (tearDown 0 (run grow ⟨some space, m'⟩ [.brk 0])) := by
  obtain ⟨space, context, pages, m', hld, hlv⟩ := exists_of_loadedMemory smallElf_live
  have hpgs := of_decide_eq_true (Bool.and_eq_true_iff.1 hlv).1
  refine ⟨space, context, pages, m', hld, ?_⟩
  refine (lifetime_reclaimed_iff rfl hld [.brk 0] 0).2 fun e hent => ?_
  rw [← mem_reverse, ← hpgs]
  exact mem_map_of_mem hent

/-- One page from `sys_mmap`: its frame is still in use after the teardown. -/
theorem mmap_frame_leaks :
    ∃ space context pages m', buildImage .fixed smallElf [] [] smallMachine =
        (.returned (.ok (space, context, pages)), m') ∧
      ¬ Reclaimed (tearDown 0 (run grow ⟨some space, m'⟩ [.mmap 4096 3 0x22])) := by
  obtain ⟨space, context, pages, m', hld, hlv⟩ := exists_of_loadedMemory smallElf_live
  obtain ⟨e, hent, hpg⟩ := (Option.any_eq_true _ _).1 (Bool.and_eq_true_iff.1 hlv).2
  have hsta := buildImage_starts rfl hld
  refine ⟨space, context, pages, m', hld, fun hrecl => of_decide_eq_true hpg ?_⟩
  exact (tearDown_reclaimed_iff hsta
    (run_grows (s := ⟨some space, m'⟩) _ hsta.accounted) 0).1 hrecl e
    (mem_of_mem_head? hent)

end Loader

end Waros.Kernel.Exec
