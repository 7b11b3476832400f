import Mathlib.Order.CompletePartialOrder
import Mathlib.Data.Set.Lattice
import Waros.Kernel.Exec.ImageLifetime
import Waros.Kernel.Exec.WriteConfinement
import Waros.Kernel.Exec.MmapOutcome

/-!
The regions of a user process: its segments and its stack, which the loader
maps, the heap that `sys_brk` grows upwards from the end of the segments, and
the area that `sys_mmap` grows downwards from `USER_MMAP_TOP`. The two growing
regions share one limit, and each call checks it with its own comparison.
-/

namespace Waros.Kernel.Exec

open Lib Memory AddressSpace UserMemory U64
variable {M : Mapper}

/-! ### What one call does to the record -/

/-- The three ways in which `sys_brk` and `sys_mmap` leave the record. -/
inductive LayoutStep (space : AddressSpace) : AddressSpace → Prop
  | unchanged : LayoutStep space space
  | reserved {alignedLen base : ℕ} (hal : alignedLen % 4096 = 0)
      (hbs : base + alignedLen = space.mmapTop) (hbrk : space.brk ≤ base) :
      LayoutStep space { space with mmapTop := base, heapLimit := base }
  | grown {address : ℕ} (hbrk : space.brk < address) (hlim : address ≤ space.heapLimit) :
      LayoutStep space { space with brk := address }

namespace UserMemory

lemma mmapPages_space (s : UserMemory M) (base al : ℕ) (prot : UInt32) :
    (s.mmapPages base al prot).2.space = s.space := by
  rw [mmapPages]
  split_ifs
  · rfl
  · generalize s.machine.mapRange _ _ _ = r
    obtain ⟨stop, finish, m⟩ := r
    rcases stop with _ | _ | _ | _ <;> rfl

variable {s : UserMemory M} {space : AddressSpace}

lemma sysMmap_layoutStep (hspc : s.space = some space) (len : UInt64) (prot fl : UInt32) :
    ∃ next, (s.sysMmap len prot fl).2.space = some next ∧ LayoutStep space next := by
  have hs : ∃ next, s.space = some next ∧ LayoutStep space next := ⟨space, hspc, .unchanged⟩
  rw [sysMmap]
  split
  · exact hs
  split
  · exact hs
  rw [hspc]
  dsimp only
  split
  · exact hs
  next base hbs =>
    split
    · exact hs
    next hbrk =>
      refine ⟨_, mmapPages_space _ _ _ _, ?_⟩
      rw [checkedSub] at hbs
      split_ifs at hbs
      cases hbs
      exact .reserved (alignUp_aligned len.toNat) (by omega) (by omega)

lemma rollbackHeapGrowth_space (s : UserMemory M) (oldBrk lo fin : ℕ) :
    (s.rollbackHeapGrowth oldBrk lo fin).2.space = s.space := by
  rw [rollbackHeapGrowth]
  split <;> rfl

section
variable (hspc : s.space = some space)
include hspc

lemma growHeap_layoutStep {a : ℕ} (hbrk : space.brk < a) (hlim : a ≤ space.heapLimit) :
    ∃ next, (s.growHeap space a).2.space = some next ∧ LayoutStep space next := by
  rw [growHeap]
  split_ifs
  · exact ⟨space, hspc, .unchanged⟩
  · generalize s.machine.mapRange _ _ _ = r
    obtain ⟨stop, finish, m⟩ := r
    rcases stop with _ | _ | _ | _
    · exact ⟨_, rfl, .grown hbrk hlim⟩
    · exact ⟨space, hspc, .unchanged⟩
    · exact ⟨space, (rollbackHeapGrowth_space _ _ _ _).trans hspc, .unchanged⟩
    · exact ⟨space, (rollbackHeapGrowth_space _ _ _ _).trans hspc, .unchanged⟩

lemma sysBrk_layoutStep (a : UInt64) :
    ∃ next, (s.sysBrk a).2.space = some next ∧ LayoutStep space next := by
  have hs : ∃ next, s.space = some next ∧ LayoutStep space next := ⟨space, hspc, .unchanged⟩
  rw [sysBrk, hspc]
  dsimp only
  split
  · exact hs
  split
  · exact hs
  split
  · exact hs
  next hrng hne =>
    exact growHeap_layoutStep hspc (by omega) (by omega)

lemma grow_layoutStep (call : GrowCall) :
    ∃ next, (s.grow call).space = some next ∧ LayoutStep space next := by
  cases call with
  | brk a => exact sysBrk_layoutStep hspc a
  | mmap len prot fl => exact sysMmap_layoutStep hspc len prot fl

end

end UserMemory

variable {space next : AddressSpace} {initialBrk : ℕ}

lemma LayoutStep.brk_le (h : LayoutStep space next) : space.brk ≤ next.brk := by
  cases h with
  | unchanged | reserved => exact le_rfl
  | grown hbrk => exact hbrk.le

/-- The heap and the mmap area meet in one page-aligned limit. Either of them may
start beyond it (an image can end above `USER_MMAP_TOP`), but then it is still
as the loader left it. -/
structure Layout (initialBrk : ℕ) (space : AddressSpace) : Prop where
  initialBrk_eq : space.initialBrk = initialBrk
  heapLimit_eq : space.heapLimit = space.mmapTop
  mmapTop_aligned : space.mmapTop % 4096 = 0
  mmapTop_le : space.mmapTop ≤ userMmapTop
  initialBrk_le : initialBrk ≤ space.brk
  heap : space.brk = initialBrk ∨ space.brk ≤ space.mmapTop
  mmap : space.mmapTop = userMmapTop ∨ space.brk ≤ space.mmapTop

lemma Layout.step (h : Layout initialBrk space) (hstp : LayoutStep space next) :
    Layout initialBrk next := by
  obtain ⟨hinit, hlim, hal, htop, hle, hheap, hmmap⟩ := h
  cases hstp with
  | unchanged => exact ⟨hinit, hlim, hal, htop, hle, hheap, hmmap⟩
  | reserved _ _ hbrk =>
    exact ⟨hinit, rfl, by dsimp only; omega, by dsimp only; omega, hle, .inr hbrk, .inr hbrk⟩
  | grown =>
    refine ⟨hinit, hlim, hal, htop, by dsimp only; omega, ?_, ?_⟩
    all_goals exact .inr (by dsimp only; omega)

lemma UserMemory.run_layout {s : UserMemory M}
    (h : ∃ space, s.space = some space ∧ Layout initialBrk space) (cs : List GrowCall) :
    ∃ space, (run grow s cs).space = some space ∧ Layout initialBrk space := by
  induction cs generalizing s with
  | nil => exact h
  | cons call _ ih =>
    obtain ⟨space, hspc, hlay⟩ := h
    obtain ⟨next, hnx, hstp⟩ := grow_layoutStep hspc call
    exact ih ⟨next, hnx, hlay.step hstp⟩

namespace Loader

lemma imageSpace_heapLayout (env : LoaderEnv) (pt : ℕ) (segs : List ElfSegment) :
    let space := imageSpace env pt segs
    space.mmapTop = userMmapTop ∧ space.brk = space.initialBrk ∧
      space.heapLimit = min userMmapTop (stackBottomOf env) ∧
      space.initialBrk = max (alignDown (wrappingAdd ((segs.map fun segment =>
        wrappingAdd segment.vaddr segment.memsz).max?.getD userHeapBase) 0xFFF))
        userHeapBase := by
  simp only [imageSpace, foldl_registerSegment, finalizeHeapLayout,
    new, List.nil_append, List.map_map]
  exact ⟨trivial, trivial, trivial, rfl⟩

lemma imageSpace_layout (env : LoaderEnv) (pt : ℕ) (segs : List ElfSegment) :
    Layout (imageSpace env pt segs).initialBrk
      (imageSpace env pt segs) := by
  obtain ⟨htop, hbrk, hlim, -⟩ := imageSpace_heapLayout env pt segs
  obtain ⟨-, hlow, -⟩ := stackTopOf_bounds env
  refine ⟨rfl, ?_, ?_, htop.le, hbrk.ge, .inl hbrk, .inl htop⟩
  · rw [hlim, htop, stackBottomOf, userMmapTop, userStackSize]
    omega
  · rw [htop, userMmapTop]

/-- A process whose image was loaded and then grown, by whatever calls, keeps its mmap
area at a page. -/
theorem mmapAligned_of_grown {s : SyscallState M} (h : ∀ process ∈ s.currentProcess,
    ∃ env pageTablePhys segments m calls, (run UserMemory.grow
      (⟨some (imageSpace env pageTablePhys segments), m⟩ : UserMemory M) calls).space =
        some process.addressSpace) : s.MmapAligned := by
  intro process hprocess
  obtain ⟨env, pageTablePhys, segments, m, calls, hgrown⟩ := h process hprocess
  obtain ⟨space, hspace, hlayout⟩ := UserMemory.run_layout (s := ⟨some _, m⟩)
    ⟨_, rfl, imageSpace_layout env pageTablePhys segments⟩ calls
  obtain rfl : space = process.addressSpace := Option.some.inj (hspace.symm.trans hgrown)
  exact hlayout.mmapTop_aligned

variable {env : LoaderEnv} {space : AddressSpace} {elf : ElfInfo}

/-- A segment that ends below 2^47 lies below the heap, with its last page. -/
lemma segmentPages_lt_initialBrk {pt : ℕ} {segs : List ElfSegment}
    (hends : ∀ segment ∈ segs, segment.vaddr + segment.memsz < 2 ^ 47)
    (hwalk : ∀ segment ∈ segs, Walkable segment) {page : ℕ}
    (hpg : page ∈ segs.flatMap segmentPages) :
    page * 4096 < (imageSpace env pt segs).initialBrk := by
  obtain ⟨segment, hsegm, hpg⟩ := List.mem_flatMap.1 hpg
  have hend := hends segment hsegm
  rw [mem_segmentPages_iff (hwalk segment hsegm) (by omega), Covers] at hpg
  obtain ⟨-, -, -, hinit⟩ := imageSpace_heapLayout env pt segs
  rw [hinit]
  generalize hli : (segs.map fun segment => wrappingAdd segment.vaddr segment.memsz) = ends
  have hmem : segment.vaddr + segment.memsz ∈ ends := by
    rw [← hli]
    refine List.mem_map.2 ⟨segment, hsegm, ?_⟩
    rw [wrappingAdd]
    omega
  have hbd : ∀ e ∈ ends, e < 2 ^ 47 := by
    rw [← hli]
    intro e he
    obtain ⟨other, ho, rfl⟩ := List.mem_map.1 he
    have := hends other ho
    rw [wrappingAdd]
    omega
  obtain ⟨heapBase, hbs⟩ : ∃ heapBase, ends.max? = some heapBase := by
    cases hmax : ends.max? with
    | none => simp [List.max?_eq_none_iff.1 hmax] at hmem
    | some heapBase => exact ⟨heapBase, rfl⟩
  obtain ⟨hbaseMem, hle⟩ := List.max?_eq_some_iff.1 hbs
  have hseg := hle _ hmem
  have hlt := hbd _ hbaseMem
  rw [hbs, Option.getD_some, wrappingAdd, alignDown]
  omega

/-- The pages of `[initial_brk, align_up(brk))`. -/
def heapPages (space : AddressSpace) : Set ℕ :=
  { page | space.initialBrk ≤ page * 4096 ∧ page * 4096 < alignUp space.brk }

/-- The pages of `[mmap_top, USER_MMAP_TOP)`. -/
def mmapArea (space : AddressSpace) : Set ℕ :=
  { page | space.mmapTop ≤ page * 4096 ∧ page * 4096 < userMmapTop }

/-- The heap, the mmap area, the pages of the segments and those of the stack. -/
def regions (env : LoaderEnv) (elf : ElfInfo) (space : AddressSpace) : List (Set ℕ) :=
  [heapPages space, mmapArea space, { page | page ∈ elf.segments.flatMap segmentPages },
    { page | page ∈ stackPages env }]

lemma mem_heapPages {page : ℕ} (h : page ∈ heapPages space) :
    space.initialBrk ≤ page * 4096 ∧ page * 4096 < space.brk := by
  obtain ⟨hlow, hhigh⟩ := h
  rw [alignUp, wrappingMul] at hhigh
  omega

/-- What separates the regions: no page of a segment reaches the heap, and the
loader found no page of the stack mapped already. -/
structure Separated (env : LoaderEnv) (elf : ElfInfo) (initialBrk : ℕ) : Prop where
  below : ∀ page ∈ elf.segments.flatMap segmentPages, page * 4096 < initialBrk
  stack : ∀ page ∈ elf.segments.flatMap segmentPages, page ∉ stackPages env

lemma buildImage_separated {data : List UInt8} {args : List (List UInt8)} {m m' : Machine M}
    {context : CpuContext} {ps : ℕ}
    (hends : ∀ segment ∈ elf.segments, segment.vaddr + segment.memsz < 2 ^ 47)
    (h : buildImage env elf data args m = (.returned (.ok (space, context, ps)), m')) :
    (∃ pageTablePhys, space = imageSpace env pageTablePhys elf.segments) ∧
      Separated env elf space.initialBrk := by
  rw [buildImage] at h
  split at h
  · cases h
  · next pageTablePhys m₀ hcre =>
    obtain ⟨-, rfl, m₁, m₂, m₃, hmapped, -⟩ := mapProcessImage_ok h
    refine ⟨⟨pageTablePhys, rfl⟩, fun page hpg => ?_, fun page hpg => ?_⟩
    · exact segmentPages_lt_initialBrk hends hmapped.walkable hpg
    · obtain ⟨segment, hsegm, hpg⟩ := List.mem_flatMap.1 hpg
      exact (hmapped.lookup_segment hsegm hpg).1

lemma regions_disjoint_of_layout {initialBrk : ℕ} (h : Layout initialBrk space)
    (hsep : Separated env elf initialBrk) : (regions env elf space).Pairwise Disjoint := by
  obtain ⟨rfl, -, -, htop, hle, hheap, hmmap⟩ := h
  have hstk : ∀ page ∈ stackPages env, userMmapTop ≤ page * 4096 := by
    intro page hpg
    obtain ⟨-, hlow, -⟩ := stackTopOf_bounds env
    have hbot := ((mem_stackPages_iff env page).1 hpg).1
    rw [stackBottomOf, userStackSize] at hbot
    rw [userMmapTop]
    omega
  simp only [regions, List.pairwise_cons, List.mem_cons, List.not_mem_nil, or_false,
    forall_eq_or_imp, forall_eq, List.Pairwise.nil, Set.disjoint_left]
  refine ⟨⟨?_, ?_, ?_⟩, ⟨?_, ?_⟩, ?_, by simp, trivial⟩
  · rintro page hpg ⟨hlow, hhigh⟩
    have := mem_heapPages hpg
    omega
  · intro page hpg hsegm
    have := mem_heapPages hpg
    have := hsep.below page hsegm
    omega
  · intro page hpg hmem
    have := mem_heapPages hpg
    have := hstk page hmem
    omega
  · rintro page ⟨hlow, hhigh⟩ hsegm
    have := hsep.below page hsegm
    omega
  · rintro page ⟨hlow, hhigh⟩ hmem
    have := hstk page hmem
    omega
  · exact fun page hsegm => hsep.stack page hsegm

/-- After any calls of `sys_brk` and `sys_mmap` the regions of a loaded process
share no page, the break has not moved back and does not do so in the next call,
and a heap that has grown ends at most at the limit it shares with the mmap
area. -/
theorem grown_regions_disjoint {env : LoaderEnv} {elf : ElfInfo} {data : List UInt8}
    {args : List (List UInt8)} {m m' : Machine M} {space : AddressSpace} {context : CpuContext}
    {pages : ℕ}
    (hload : buildImage env elf data args m = (.returned (.ok (space, context, pages)), m'))
    (hends : ∀ segment ∈ elf.segments, segment.vaddr + segment.memsz < 2 ^ 47)
    (calls : List GrowCall) :
    ∃ now, (run UserMemory.grow ⟨some space, m'⟩ calls).space = some now ∧
      (regions env elf now).Pairwise Disjoint ∧
      (∀ call, ∃ next, ((run UserMemory.grow ⟨some space, m'⟩ calls).grow call).space = some next ∧
        now.brk ≤ next.brk) ∧
      (now.initialBrk < now.brk → now.brk ≤ now.heapLimit ∧ now.heapLimit = now.mmapTop) := by
  obtain ⟨⟨pageTablePhys, rfl⟩, hsep⟩ := buildImage_separated hends hload
  obtain ⟨now, hnow, hlay⟩ := run_layout (s := ⟨some _, m'⟩)
    ⟨_, rfl, imageSpace_layout env pageTablePhys elf.segments⟩ calls
  refine ⟨now, hnow, regions_disjoint_of_layout hlay hsep, fun call => ?_, fun hgro => ?_⟩
  · obtain ⟨next, hnx, hstp⟩ := grow_layoutStep hnow call
    exact ⟨next, hnx, hstp.brk_le⟩
  · have hinit := hlay.initialBrk_eq
    have hlim := hlay.heapLimit_eq
    have hheap := hlay.heap
    omega

/-- A program of one page that takes a page from each side. -/
theorem grown_regions_disjoint_small :
    ∃ space context pages m' now, buildImage .fixed smallElf [] [] smallMachine =
        (.returned (.ok (space, context, pages)), m') ∧
      (run UserMemory.grow ⟨some space, m'⟩ [.brk 0x10000001, .mmap 4096 3 0x22]).space =
        some now ∧ (regions .fixed smallElf now).Pairwise Disjoint := by
  obtain ⟨space, context, pages, m', hld, -⟩ := exists_of_loadedMemory smallElf_live
  obtain ⟨now, hnow, hregs, -⟩ :=
    grown_regions_disjoint hld (by decide) [.brk 0x10000001, .mmap 4096 3 0x22]
  exact ⟨space, context, pages, m', now, hld, hnow, hregs⟩

end Loader

/-!
## Memory that the check accepts

Which of the memory that a process obtains from `sys_brk` and `sys_mmap` the
check of user pointers accepts (`contains_user_range` of
`kernel/src/exec/address_space.rs`). The check knows the stack, the heap and the
registered segments, and `sys_mmap` registers none.
-/

open Loader

/-- A process with the results of its calls of `sys_mmap`, each with the length
that was asked for. -/
structure RegionRun (M : Mapper) where
  memory : UserMemory M
  mmapped : List (ℕ × ℕ)

namespace RegionRun

/-- What a call adds to the results: a call that succeeds returns no error
number. -/
def newRegions (s : UserMemory M) : GrowCall → List (ℕ × ℕ)
  | .brk _ => []
  | .mmap len prot flags =>
    match (s.sysMmap len prot flags).1 with
    | .returned (.ofNat base) => [(base, len.toNat)]
    | _ => []

def step (r : RegionRun M) (call : GrowCall) : RegionRun M :=
  ⟨r.memory.grow call, r.mmapped ++ newRegions r.memory call⟩

/-- The bytes from `start` on lie in the heap or in the result of one call. -/
def Obtained (r : RegionRun M) (space : AddressSpace) (start len : ℕ) : Prop :=
  space.initialBrk ≤ start ∧ start + len ≤ space.brk ∨
    ∃ region ∈ r.mmapped, region.1 ≤ start ∧ start + len ≤ region.1 + region.2

/-- Every range that the process has obtained passes the check. -/
def AcceptsObtained (r : RegionRun M) : Prop :=
  ∀ space, r.memory.space = some space → ∀ start len, 0 < len → r.Obtained space start len →
    space.containsUserRange start len = true

lemma sysMmap_ok {s : UserMemory M} {sp : AddressSpace} {len : UInt64} {prot fl : UInt32}
    {base : ℕ} (hspc : s.space = some sp)
    (h : (s.sysMmap len prot fl).1 = .returned (.ofNat base)) :
    0 < len.toNat ∧ base + alignUp len.toNat = sp.mmapTop ∧ sp.brk ≤ base ∧
      (s.sysMmap len prot fl).2.space = some { sp with mmapTop := base, heapLimit := base } := by
  rw [sysMmap] at h ⊢
  split_ifs at h ⊢ with hfl hlen
  · cases h
  · cases h
  rw [hspc] at h ⊢
  dsimp only at h ⊢
  cases hbs : checkedSub sp.mmapTop (alignUp len.toNat) with
  | none =>
    rw [hbs] at h
    cases h
  | some found =>
    rw [hbs] at h
    dsimp only at h ⊢
    split_ifs at h ⊢
    · cases h
    obtain rfl : found = base := by
      rw [mmapPages] at h
      split_ifs at h
      · cases h
      · generalize s.machine.mapRange _ _ _ = r at h
        obtain ⟨_ | _ | _ | _, finish, m⟩ := r
        · exact Int.ofNat.inj (Outcome.returned.inj h)
        all_goals cases h
    rw [checkedSub] at hbs
    split_ifs at hbs
    cases hbs
    refine ⟨?_, by omega, by omega, mmapPages_space ..⟩
    exact pos_of_ne_zero fun h0 => hlen (UInt64.toNat_inj.1 h0)

/-- What the run keeps: the record has the segments and the stack of the image,
and each result lies above the heap and, unless it runs past the last address,
starts below the stack. -/
structure Grown (env : LoaderEnv) (pageTablePhys : ℕ) (segments : List ElfSegment)
    (r : RegionRun M) (space : AddressSpace) : Prop where
  space_eq : r.memory.space = some space
  layout : Layout (imageSpace env pageTablePhys segments).initialBrk space
  segments_eq : space.segments = (imageSpace env pageTablePhys segments).segments
  stackBottom_eq : space.stackBottom = stackBottomOf env
  mmapped : ∀ region ∈ r.mmapped, 0 < region.2 ∧ space.mmapTop ≤ region.1 ∧
    space.brk ≤ region.1 ∧ (region.1 < userMmapTop ∨ 2 ^ 64 ≤ region.1 + region.2)

variable {env : LoaderEnv} {pageTablePhys : ℕ} {segments : List ElfSegment} {r : RegionRun M}
  {space : AddressSpace}

lemma initialBrk_bounds (env : LoaderEnv) (pt : ℕ) (segs : List ElfSegment) :
    userHeapBase ≤ (imageSpace env pt segs).initialBrk ∧
      (imageSpace env pt segs).initialBrk < 2 ^ 64 := by
  obtain ⟨-, -, -, hinit⟩ := imageSpace_heapLayout env pt segs
  rw [hinit, alignDown, wrappingAdd, userHeapBase]
  omega

lemma Grown.step (h : Grown env pageTablePhys segments r space) (call : GrowCall) :
    ∃ next, Grown env pageTablePhys segments (r.step call) next := by
  obtain ⟨hspc, hlay, hsegs, hstk, hmma⟩ := h
  obtain ⟨next, hnx, hs⟩ := grow_layoutStep hspc call
  have hlow := (initialBrk_bounds env pageTablePhys segments).1
  refine ⟨next, hnx, hlay.step hs, ?_, ?_, fun reg hmem => ?_⟩
  · cases hs <;> exact hsegs
  · cases hs <;> exact hstk
  rcases List.mem_append.1 hmem with hold | hnew
  · obtain ⟨hpos, htop, hbrk, hend⟩ := hmma reg hold
    have hlim := hlay.heapLimit_eq
    cases hs with
    | unchanged => exact ⟨hpos, htop, hbrk, hend⟩
    | reserved _ hbs => exact ⟨hpos, by dsimp only; omega, hbrk, hend⟩
    | grown _ hle => exact ⟨hpos, htop, by dsimp only; omega, hend⟩
  · cases call with
    | brk => cases hnew
    | mmap len prot fl =>
      rw [newRegions] at hnew
      split at hnew
      · next base hok =>
        obtain rfl := List.mem_singleton.1 hnew
        obtain ⟨hpos, hbs, hbrk, hspace⟩ := sysMmap_ok hspc hok
        obtain rfl := Option.some.inj (hspace.symm.trans hnx)
        refine ⟨hpos, le_rfl, hbrk, ?_⟩
        have htop := hlay.mmapTop_le
        have hle := hlay.initialBrk_le
        rw [alignUp, wrappingMul] at hbs
        rw [userHeapBase] at hlow
        omega
      · cases hnew

lemma grown_run (env : LoaderEnv) (pt : ℕ) (segs : List ElfSegment)
    (m : Machine M) (cs : List GrowCall) :
    ∃ space, Grown env pt segs
      (run step ⟨⟨some (imageSpace env pt segs), m⟩, []⟩ cs) space := by
  refine run_invariant_of_step (fun r call (h : ∃ space, Grown env pt segs r space) =>
    h.elim fun _ h => h.step call) cs ⟨_, rfl, imageSpace_layout .., rfl, ?_, by simp⟩
  rfl

/-- One of the image's segments has the whole region. -/
def InSegment (segments : List ElfSegment) (region : ℕ × ℕ) : Prop :=
  ∃ segment ∈ segments, segment.vaddr ≤ region.1 ∧
    region.1 + region.2 ≤ segment.vaddr + segment.memsz ∧
    segment.vaddr + segment.memsz < 2 ^ 64

lemma rangeWithinRegion_iff {lo len low high : ℕ} (hlen : 0 < len) :
    rangeWithinRegion lo (lo + len) low high ↔ low ≤ lo ∧ lo + len ≤ high := by
  simp only [rangeWithinRegion, Bool.and_eq_true, decide_eq_true_eq]
  omega

lemma containsUserRange_iff {lo len : ℕ} (hlen : 0 < len) :
    space.containsUserRange lo len ↔ lo + len < 2 ^ 64 ∧ lo ≠ 0 ∧
      ((space.stackBottom ≤ lo ∧ lo + len ≤ space.stackTop ∨
        space.initialBrk ≤ lo ∧ lo + len ≤ space.brk) ∨
        ∃ segment ∈ space.segments, segment.vaddr ≤ lo ∧ lo + len ≤ segment.vaddr + segment.size ∧
          segment.vaddr + segment.size < 2 ^ 64) := by
  rw [containsUserRange, if_neg hlen.ne', checkedAdd]
  by_cases hlt : lo + len < 2 ^ 64
  · rw [if_pos hlt, and_iff_right hlt]
    dsimp only
    by_cases h0 : lo = 0
    · simp [h0]
    rw [if_neg (by omega), and_iff_right h0, Bool.or_eq_true, Bool.or_eq_true,
      rangeWithinRegion_iff hlen, rangeWithinRegion_iff hlen, List.any_eq_true]
    refine or_congr_right (exists_congr fun segment => and_congr_right fun _ => ?_)
    rw [checkedAdd]
    split_ifs with hend
    · rw [rangeWithinRegion_iff hlen]
      tauto
    · exact iff_of_false not_false fun h => hend h.2.2
  · rw [if_neg hlt]
    exact iff_of_false Bool.false_ne_true fun h => hlt h.1

/-- The memory that a process obtains passes the check of user pointers exactly
when each result of `sys_mmap` lies in a segment of its image. -/
theorem acceptsObtained_iff (env : LoaderEnv) (pageTablePhys : ℕ) (segments : List ElfSegment)
    (m : Machine M) (calls : List GrowCall) :
    let r := run step ⟨⟨some (imageSpace env pageTablePhys segments), m⟩, []⟩ calls
    r.AcceptsObtained ↔ ∀ region ∈ r.mmapped, InSegment segments region := by
  obtain ⟨space, hspc, hlay, hsegs, hstk, hmma⟩ := grown_run env pageTablePhys segments m calls
  obtain ⟨hlow, hhigh⟩ := initialBrk_bounds env pageTablePhys segments
  obtain ⟨-, hstackTop, -⟩ := stackTopOf_bounds env
  have hinit := hlay.initialBrk_eq
  have htop := hlay.mmapTop_le
  rw [userHeapBase] at hlow
  rw [userMmapTop] at htop
  have hima : ∀ region, InSegment segments region ↔ ∃ seg ∈ space.segments,
      seg.vaddr ≤ region.1 ∧ region.1 + region.2 ≤ seg.vaddr + seg.size ∧
        seg.vaddr + seg.size < 2 ^ 64 := by
    rw [hsegs]
    simp [InSegment, imageSpace, foldl_registerSegment, finalizeHeapLayout, new]
  constructor
  · intro h region hmem
    obtain ⟨hpos, -, hbrk, hend⟩ := hmma region hmem
    have hacc := h space hspc region.1 region.2 hpos (.inr ⟨region, hmem, le_rfl, le_rfl⟩)
    rw [containsUserRange_iff hpos] at hacc
    obtain ⟨hlt, -, (hbot | hheap) | hseg⟩ := hacc
    · rw [hstk, stackBottomOf, userStackSize] at hbot
      rw [userMmapTop] at hend
      omega
    · omega
    · exact (hima region).2 hseg
  · intro h found hfd lo len hpos hobt
    obtain rfl := Option.some.inj (hspc.symm.trans hfd)
    rw [containsUserRange_iff hpos]
    rcases hobt with ⟨hst, hend⟩ | ⟨region, hmem, hst, hend⟩
    · have hheap := hlay.heap
      omega
    · obtain ⟨seg, hseg, hvad, hle, hlt⟩ := (hima region).1 (h region hmem)
      have hbrk := (hmma region hmem).2.2.1
      have hle' := hlay.initialBrk_le
      refine ⟨by omega, by omega, .inr ⟨seg, hseg, ?_, ?_, hlt⟩⟩
      · exact hvad.trans hst
      · exact hend.trans hle

def pageRun : RegionRun fourLevel :=
  run step ⟨⟨some (imageSpace .fixed 0x1000 smallElf.segments),
    (buildImage .fixed smallElf [] [] smallMachine).2⟩, []⟩ [.mmap 4096 3 0x20]

theorem not_acceptsObtained_pageRun : ¬ pageRun.AcceptsObtained := by
  intro h
  have href : pageRun.memory.space.map (·.containsUserRange 0x5FFFF000 4096) =
      some false := by
    decide +kernel
  obtain ⟨space, hspc, hfal⟩ := Option.map_eq_some_iff.1 href
  have hobt : pageRun.Obtained space 0x5FFFF000 4096 :=
    .inr ⟨(0x5FFFF000, 4096), by decide +kernel, le_rfl, le_rfl⟩
  cases (h space hspc _ _ (by decide) hobt).symm.trans hfal

end RegionRun

end Waros.Kernel.Exec
