import Waros.Kernel.Exec.WriteConfinement
import Waros.Kernel.Memory.Supply

/-!
What a call of `sys_mmap` leaves behind. The call moves the lower end of the
mmap area before it maps the pages one by one, and takes nothing back when a
page cannot be mapped. Which pages can be is known before the call, from the page
tables and the free frames. A length within a page of `2 ^ 64` is rounded up to
zero, and the call then succeeds without mapping anything.
-/

namespace Waros.Kernel.Memory.Machine

variable {M : Mapper}

/-- From `m` to `m'` the byte was overwritten with zero and with nothing else. -/
def ZeroFilled (m m' : Machine M) (address : ℕ) : Prop :=
  ∃ new, m'.stores = m.stores ++ new ∧
    (∃ store ∈ new, store.address ≤ address ∧ address < store.address + store.length) ∧
    ∀ store ∈ new, ∀ i, store.data i = 0

variable {m : Machine M} {address : ℕ} {flags : PageFlags}

lemma store_page (hal : address % 4096 = 0) (data : ℕ → UInt8) : m.store address 4096 data =
      if m.storable address then
        (false, { m with stores := m.stores ++ [⟨address, 4096, data, m.tables⟩] })
      else (true, m) := by
  have hpgs : (address % 4096 + 4096 + 4095) / 4096 = 1 := by omega
  rw [store, hpgs, storePages, hal]
  rfl

/-- A round that does not stop early stores one page of zeros. -/
lemma mapZeroed_stores_of_none (hal : address % 4096 = 0) {m m' : Machine M}
    (h : m.mapZeroed flags address = (none, m')) :
    ∃ tables, m'.stores = m.stores ++ [⟨address, 4096, fun _ => 0, tables⟩] := by
  rcases mapZeroed_cases h with ⟨hstp, -⟩ | ⟨f, frames, -, -, hcas⟩
  · rcases hstp with ⟨hstp, -⟩ | hstp <;> cases hstp
  rcases hcas with ⟨e, hstp, -⟩ | ⟨m₁, hmap, hfill⟩
  · cases hstp
  have hsts := mapPage_stores { m with frames } (containingPage address) f flags
  rw [hmap] at hsts
  rw [zeroFill, store_page hal] at hfill
  split_ifs at hfill
  · obtain rfl := (Prod.mk.inj hfill).2
    exact ⟨m₁.tables, by rw [show m₁.stores = m.stores from hsts]⟩
  · cases hfill

/-- A loop that does not stop early stores zeros to all bytes of its range. -/
lemma mapRange_stores_of_none {ps addr : ℕ} (hal : addr % 4096 = 0)
    (h : (m.mapRange flags ps addr).1 = none) :
    ∃ new, (m.mapRange flags ps addr).2.2.stores = m.stores ++ new ∧
      (∀ a, addr ≤ a → a < addr + 4096 * ps →
        ∃ store ∈ new, store.address ≤ a ∧ a < store.address + store.length) ∧
      ∀ store ∈ new, ∀ i, store.data i = 0 := by
  induction ps generalizing addr m with
  | zero => exact ⟨[], by simp [mapRange], fun a hle hlt => by omega, by simp⟩
  | succ _ ih =>
    simp only [mapRange] at h ⊢
    cases hrd : m.mapZeroed flags addr with
    | mk stop =>
      cases stop with
      | some =>
        rw [hrd] at h
        cases h
      | none =>
        rw [hrd] at h
        obtain ⟨ts, hfst⟩ := mapZeroed_stores_of_none hal hrd
        obtain ⟨new, hsts, hcov, h0⟩ := ih (by omega) h
        refine ⟨⟨addr, 4096, fun _ => 0, ts⟩ :: new, ?_, fun a hle hlt => ?_, ?_⟩
        · rw [hsts, hfst, List.append_assoc]
          rfl
        · by_cases hpg : a < addr + 4096
          · exact ⟨_, List.mem_cons_self, hle, hpg⟩
          · obtain ⟨store, hmem, hin⟩ := hcov a (by omega) (by omega)
            exact ⟨store, List.mem_cons_of_mem _ hmem, hin⟩
        · intro store hmem i
          rcases List.mem_cons.1 hmem with rfl | hmem
          · rfl
          · exact h0 store hmem i

theorem map_containingPage_pageAddresses (pages address : ℕ) :
    (pageAddresses pages address).map containingPage =
      List.range' (containingPage address) pages := by
  induction pages generalizing address with
  | zero => rfl
  | succ pages ih =>
    rw [pageAddresses, List.map_cons, ih, List.range'_succ, containingPage_add]

/-- The loop over user addresses ends without an error exactly when its pages can be
mapped or, if the kernel may not fill them, when the first one can. -/
theorem mapRange_completes_iff {M : TableMapper} {m : Machine M.toMapper} {base pages : ℕ}
    (haligned : base % 4096 = 0) (htop : base + 4096 * pages ≤ 2 ^ 47) (hpos : 0 < pages)
    (flags : PageFlags) :
    ((m.mapRange flags pages base).1 = none ∨ (m.mapRange flags pages base).1 = some .panicked) ↔
      m.Mappable (if m.fillable flags then List.range' (containingPage base) pages
        else [containingPage base]) := by
  have hcanonical : ∀ a ∈ pageAddresses pages base, isCanonical a := fun a ha => by
    obtain ⟨i, hi, rfl⟩ := mem_pageAddresses.1 ha
    simp only [isCanonical, Bool.or_eq_true, decide_eq_true_eq]
    omega
  split_ifs with hfill
  · have hpages : ∀ a ∈ pageAddresses pages base, a % 4096 = 0 := fun a ha => by
      obtain ⟨i, -, rfl⟩ := mem_pageAddresses.1 ha
      omega
    obtain ⟨hpanicked, hnone⟩ := mapEach_none_iff hpages hcanonical hfill
    rw [(mapRange_eq_mapEach flags pages base m).1, or_iff_left hpanicked, hnone,
      map_containingPage_pageAddresses]
  · obtain ⟨count, rfl⟩ : ∃ count, pages = count + 1 := ⟨pages - 1, by omega⟩
    rw [mapRange]
    rcases mapZeroed_spec (hcanonical base (by simp [pageAddresses])) haligned flags with
      ⟨hpage, m', hstep, -⟩ | ⟨hnot, stop, m', hstop, hstep, -⟩
    · rw [if_neg hfill] at hstep
      rw [hstep]
      simp [hpage]
    · rw [hstep]
      simp [hnot, hstop]

end Waros.Kernel.Memory.Machine

namespace Waros.Kernel.Exec.UserMemory

open Lib Memory AddressSpace U64
variable {M : Mapper}

/-- The record, the mappings and the frames for user pages are as before. New
page-table frames do not count. -/
structure Unchanged (u u' : UserMemory M) : Prop where
  space : u'.space = u.space
  lookup : ∀ page, M.lookup u'.machine.tables page = M.lookup u.machine.tables page
  frames : ∀ frame ∉ u'.machine.history.tableFrames,
    u'.machine.frames.isAllocated frame = u.machine.frames.isAllocated frame

/-- The byte was not mapped before, and is now mapped for the user, not
executable and zero. -/
structure Provided (u u' : UserMemory M) (address : ℕ) : Prop where
  before : M.lookup u.machine.tables (containingPage address) = none
  after : ∃ frame flags, M.lookup u'.machine.tables (containingPage address) = some (frame, flags) ∧
    flags.user = true ∧ flags.noExecute = true
  zero : u.machine.ZeroFilled u'.machine address

/-- An error changes nothing, and success provides all bytes asked for. -/
def MmapContract (u : UserMemory M) (len : UInt64) (prot flags : UInt32) : Prop :=
  ∀ value, (u.sysMmap len prot flags).1 = .returned value →
    (value < 0 → Unchanged u (u.sysMmap len prot flags).2) ∧
    (0 ≤ value → ∀ address, value.toNat ≤ address → address < value.toNat + len.toNat →
      Provided u (u.sysMmap len prot flags).2 address)

/-- The mmap area as the kernel makes it for every process: page-aligned and not
above `USER_MMAP_TOP`. -/
def MmapArea (u : UserMemory M) : Prop :=
  ∀ space ∈ u.space, space.mmapTop % 4096 = 0 ∧ space.mmapTop ≤ userMmapTop

lemma Unchanged.refl (u : UserMemory M) : Unchanged u u := ⟨rfl, fun _ => rfl, fun _ _ => rfl⟩

/-- The contract of a call for `len` bytes, by its result. -/
def Keeps (u : UserMemory M) (len : ℕ) (r : Outcome ℤ × UserMemory M) : Prop :=
  ∀ value, r.1 = .returned value → (value < 0 → Unchanged u r.2) ∧
    (0 ≤ value → ∀ address, value.toNat ≤ address → address < value.toNat + len →
      Provided u r.2 address)

lemma keeps_of_error {u u' : UserMemory M} {value : ℤ} {len : ℕ} (hu : u' = u)
    (hval : value < 0) : Keeps u len (.returned value, u') := by
  rintro _ ⟨⟩
  exact ⟨fun _ => hu ▸ .refl u, fun hle => absurd hle (not_le.2 hval)⟩

variable {len : UInt64} {u : UserMemory M} {space : AddressSpace}

lemma alignUp_eq_of_ne_zero (h : alignUp len.toNat ≠ 0) :
    len.toNat ≤ alignUp len.toNat ∧ alignUp len.toNat % 4096 = 0 := by
  have hlt := len.toNat_lt
  rw [alignUp, wrappingMul] at h ⊢
  omega

theorem mul_stepCount_wrappingAdd (base alignedLen : ℕ) (hlt : base + alignedLen < 2 ^ 64)
    (hal : alignedLen % 4096 = 0) :
    4096 * stepCount base (wrappingAdd base alignedLen) = alignedLen := by
  rw [wrappingAdd_of_lt hlt, stepCount]
  omega

def reserve (u : UserMemory M) (space : AddressSpace) (base : ℕ) : UserMemory M :=
  { u with space := some { space with mmapTop := base, heapLimit := base } }

lemma reserve_space_eq_iff {base : ℕ} (hspc : u.space = some space) :
    (u.reserve space base).space = u.space ↔ base = space.mmapTop ∧ base = space.heapLimit := by
  rw [hspc, reserve, Option.some.injEq]
  constructor
  · intro h
    exact ⟨congrArg mmapTop h, congrArg heapLimit h⟩
  · intro h
    obtain ⟨segments, brk, initialBrk, heapLimit, stackTop, stackBottom, mmapTop, phys⟩ := space
    obtain ⟨rfl, rfl⟩ : base = mmapTop ∧ base = heapLimit := h
    rfl

lemma provided_of_mapRange {base len ps : ℕ} {writable : Bool} (sp : Option AddressSpace)
    (hal : base % 4096 = 0) (hlen : len ≤ 4096 * ps)
    (hstp : (u.machine.mapRange (dataFlags writable) ps base).1 = none) {address : ℕ}
    (hle : base ≤ address) (hlt : address < base + len) :
    Provided u ⟨sp, (u.machine.mapRange (dataFlags writable) ps base).2.2⟩ address := by
  obtain ⟨new, hsts, hcov, h0⟩ := Machine.mapRange_stores_of_none hal hstp
  have hrun : u.machine.mapRange (dataFlags writable) ps base =
      (none, (u.machine.mapRange (dataFlags writable) ps base).2) := by
    rw [← hstp]
  obtain ⟨mp, -, hmp, hall, -⟩ := Machine.mapRange_mapsPages hrun
  obtain ⟨rfl, hcan⟩ := hall rfl
  have hpg : containingPage address ∈ reached mp base := by
    rw [mem_reached_iff hcan, containingPage, containingPage]
    omega
  obtain ⟨f, hl, -⟩ := hmp.lookup_mem _ hpg
  exact ⟨hmp.unmapped _ hpg, ⟨f, _, hl, rfl, rfl⟩, new, hsts, hcov address hle (by omega), h0⟩

variable {M : TableMapper} {len : UInt64} {u : UserMemory M.toMapper} {space : AddressSpace}

/-- The range at `base`, once it is reserved, is not empty and its pages can be
mapped; if the kernel may not fill them it faults at the first one, which then has to
be mappable. Before memory management is initialised, the reservation must be none. -/
def MmapCompletes (m : Machine M.toMapper) (space : AddressSpace) (base alignedLen : ℕ)
    (prot : UInt32) : Prop :=
  if m.ready then
    alignedLen ≠ 0 ∧
      m.Mappable (if m.fillable (dataFlags (decide (prot &&& protWrite ≠ 0))) then
        List.range' (containingPage base) (alignedLen / 4096) else [containingPage base])
  else base = space.mmapTop ∧ base = space.heapLimit

/-- What the call needs to keep its contract: a range that it reserves it can
also map. -/
def MmapSound (u : UserMemory M.toMapper) (len : UInt64) (prot flags : UInt32) : Prop :=
  flags &&& mapAnonymous ≠ 0 → len ≠ 0 → ∀ space, u.space = some space →
    ∀ base, checkedSub space.mmapTop (alignUp len.toNat) = some base → space.brk ≤ base →
      MmapCompletes u.machine space base (alignUp len.toNat) prot

/-- After the reservation, the contract is kept exactly when the call completes. -/
lemma mmapPages_contract_iff {base : ℕ} (hspc : u.space = some space) (harea : u.MmapArea)
    (hlen : len ≠ 0) (hbs : checkedSub space.mmapTop (alignUp len.toNat) = some base)
    (prot : UInt32) :
    Keeps u len.toNat ((u.reserve space base).mmapPages base (alignUp len.toNat) prot) ↔
      MmapCompletes u.machine space base (alignUp len.toNat) prot := by
  obtain ⟨hal, htop⟩ := harea space hspc
  have hsub : base + alignUp len.toNat = space.mmapTop := by
    rw [checkedSub] at hbs
    split_ifs at hbs
    cases hbs
    omega
  have hlengthAligned := alignUp_aligned len.toNat
  have hbaseAligned : base % 4096 = 0 := by omega
  have hchg : alignUp len.toNat ≠ 0 → (u.reserve space base).space ≠ u.space := by
    intro hne heq
    obtain ⟨hmmap, -⟩ := (reserve_space_eq_iff hspc).1 heq
    omega
  rw [mmapPages, MmapCompletes, show (u.reserve space base).machine = u.machine from rfl]
  by_cases hrdy : u.machine.ready
  swap
  · -- memory management is not initialised
    have hfal : u.machine.ready = false := Bool.eq_false_iff.2 hrdy
    rw [if_pos (by rw [hfal]; rfl), if_neg hrdy, ← reserve_space_eq_iff hspc]
    constructor
    · intro h
      exact ((h eperm rfl).1 (by decide)).space
    · rintro heq _ ⟨⟩
      exact ⟨fun _ => ⟨heq, fun _ => rfl, fun _ _ => rfl⟩, fun hle => absurd hle (by decide)⟩
  rw [if_neg (by rw [hrdy]; decide), if_pos hrdy]
  have hword : userMmapTop < 2 ^ 64 := by decide
  have hcnt := mul_stepCount_wrappingAdd base (alignUp len.toNat) (by omega) hlengthAligned
  have hpages : alignUp len.toNat / 4096 =
      stepCount base (wrappingAdd base (alignUp len.toNat)) := by
    omega
  have hbelow : base + 4096 * stepCount base (wrappingAdd base (alignUp len.toNat)) ≤ 2 ^ 47 := by
    rw [hcnt, hsub]
    exact htop.trans (by decide)
  rw [hpages, and_congr_right fun hne => (Machine.mapRange_completes_iff hbaseAligned hbelow
    (by omega) (dataFlags (decide (prot &&& protWrite ≠ 0)))).symm]
  -- an empty range maps nothing and does not stop
  have hemp : alignUp len.toNat = 0 →
      u.machine.mapRange (dataFlags (decide (prot &&& protWrite ≠ 0)))
        (stepCount base (wrappingAdd base (alignUp len.toNat))) base =
        (none, base, u.machine) := by
    intro h0
    rw [h0] at hcnt ⊢
    rw [show stepCount base (wrappingAdd base 0) = 0 by omega]
    rfl
  have hfai : ∀ {value : ℤ} {m : Machine M.toMapper}, alignUp len.toNat ≠ 0 → value < 0 →
      ¬ Keeps u len.toNat (.returned value, { u.reserve space base with machine := m }) := by
    intro value m hne hval h
    exact hchg hne ((h value rfl).1 hval).space
  generalize hr : u.machine.mapRange (dataFlags (decide (prot &&& protWrite ≠ 0)))
    (stepCount base (wrappingAdd base (alignUp len.toNat))) base = r at hemp ⊢
  have hnonz : r.1 ≠ none → alignUp len.toNat ≠ 0 := fun hstp h0 => hstp (by rw [hemp h0])
  obtain ⟨stop, finish, m⟩ := r
  cases stop with
  | none =>
    rw [mmapResult]
    by_cases h0 : alignUp len.toNat = 0
    · have hm : m = u.machine := (Prod.mk.inj (Prod.mk.inj (hemp h0)).2).2
      have hpos : 0 < len.toNat := by
        rcases eq_zero_or_pos len.toNat with h | h
        · exact absurd (UInt64.toNat_inj.1 h) hlen
        · exact h
      refine iff_of_false (fun h => ?_) fun h => h.1 h0
      obtain ⟨hbef, ⟨f, flags, haft, -⟩, -⟩ :=
        (h base rfl).2 (Int.natCast_nonneg base) base (by simp) (by simpa using hpos)
      rw [hm, hbef] at haft
      cases haft
    · refine iff_of_true ?_ ⟨h0, .inl rfl⟩
      rintro _ ⟨⟩
      refine ⟨fun hneg => absurd hneg (not_lt.2 (Int.natCast_nonneg base)), ?_⟩
      intro _ address hle hlt
      have hlength := (alignUp_eq_of_ne_zero h0).1
      have hprov := provided_of_mapRange (u := u) (u.reserve space base).space
        hbaseAligned (hcnt.symm ▸ hlength) (by rw [hr]) hle hlt
      rw [hr] at hprov
      exact hprov
  | some stop =>
    have hne := hnonz (by simp)
    cases stop with
    | panicked =>
      refine iff_of_true ?_ ⟨hne, .inr rfl⟩
      rintro _ ⟨⟩
    | noFrame | mapError =>
      refine iff_of_false (hfai hne (by decide)) ?_
      rintro ⟨-, h | h⟩ <;> cases h

/-- The contract of `sys_mmap` holds exactly when the call can map every range
that it reserves. -/
theorem mmapContract_iff (u : UserMemory M.toMapper) (harea : u.MmapArea) (len : UInt64)
    (prot flags : UInt32) : u.MmapContract len prot flags ↔ u.MmapSound len prot flags := by
  rw [MmapContract, MmapSound, sysMmap]
  by_cases hfl : flags &&& mapAnonymous = 0
  · rw [if_pos hfl]
    exact iff_of_true (keeps_of_error rfl (by decide)) fun hne => absurd hfl hne
  by_cases hlen : len = 0
  · rw [if_neg hfl, if_pos hlen]
    exact iff_of_true (keeps_of_error rfl (by decide)) fun _ hne => absurd hlen hne
  rw [if_neg hfl, if_neg hlen]
  cases hspc : u.space with
  | none =>
    refine iff_of_true (keeps_of_error rfl (by decide)) ?_
    rintro _ _ _ ⟨⟩
  | some space =>
    dsimp only
    cases hbs : checkedSub space.mmapTop (alignUp len.toNat) with
    | none =>
      refine iff_of_true (keeps_of_error rfl (by decide)) ?_
      rintro _ _ _ ⟨⟩ base hbs'
      rw [hbs] at hbs'
      cases hbs'
    | some base =>
      dsimp only
      by_cases hbrk : base < space.brk
      · rw [if_pos hbrk]
        refine iff_of_true (keeps_of_error rfl (by decide)) ?_
        rintro _ _ _ ⟨⟩ base' hbs' hle
        obtain rfl := Option.some.inj (hbs.symm.trans hbs')
        omega
      · rw [if_neg hbrk]
        refine (mmapPages_contract_iff hspc harea hlen hbs prot).trans ?_
        constructor
        · rintro h _ _ _ ⟨⟩ base' hbs' -
          obtain rfl := Option.some.inj (hbs.symm.trans hbs')
          exact h
        · intro h
          exact h hfl hlen space rfl base hbs (not_lt.1 hbrk)

/-- A process with an empty page table and a new address space, and this many
free frames. -/
def emptyProcess (freeFrames : ℕ) : UserMemory fourLevelTables.toMapper where
  space := some (.new 0x2000)
  machine :=
    { tables := ⟨.empty, [], []⟩
      frames := ⟨0x3F, 64, freeFrames, 6, 64⟩
      ready := true
      writeProtect := true
      stores := []
      history := .empty }

lemma emptyProcess_mmapArea (freeFrames : ℕ) : (emptyProcess freeFrames).MmapArea := by
  rintro _ ⟨⟩
  decide

/-- With frames to spare, a writable page is mapped as promised. -/
theorem mmapContract_one_page : (emptyProcess 58).MmapContract 100 3 0x20 := by
  refine (mmapContract_iff (emptyProcess 58) (emptyProcess_mmapArea 58) 100 3 0x20).2 ?_
  have hpl : checkedSub (new 0x2000).mmapTop (alignUp (100 : UInt64).toNat) =
      some 0x5FFFF000 := by
    decide
  rintro - - _ ⟨⟩ base hbs -
  obtain rfl := Option.some.inj (hpl.symm.trans hbs)
  exact ⟨by decide, by decide, by decide, by decide⟩

/-- Without a free frame the call fails, and the mmap area has moved down. -/
theorem mmap_error_moves_area :
    (((emptyProcess 0).sysMmap 100 3 0x20).1 = .returned enomem ∧
      ((emptyProcess 0).sysMmap 100 3 0x20).2.space.map mmapTop =
        some (userMmapTop - 4096)) ∧
      ¬ (emptyProcess 0).MmapContract 100 3 0x20 := by
  have hres : ((emptyProcess 0).sysMmap 100 3 0x20).1 = .returned enomem := by decide
  have hspc : ((emptyProcess 0).sysMmap 100 3 0x20).2.space.map mmapTop =
      some (userMmapTop - 4096) := by
    decide
  refine ⟨⟨hres, hspc⟩, fun h => ?_⟩
  rw [((h enomem hres).1 (by decide)).space] at hspc
  cases hspc

end Waros.Kernel.Exec.UserMemory
