import Waros.Lib.U64
import Mathlib.Data.Nat.Bitwise

/-!
The bitmap allocator for physical 4 KiB frames
(`kernel/src/memory/physical.rs`). The bitmap is a number whose bit `i` says
that frame `i` is in use; a frame is named by its index, its physical address
divided by 4096.
-/

namespace Waros.Kernel.Memory
def maxTrackedFrames : ℕ := 4 * 1024 * 1024 * 1024 / 4096

structure BitmapAllocator where
  bitmap : ℕ
  totalFrames : ℕ
  freeFrames : ℕ
  scanHint : ℕ
  maxFrameIndex : ℕ
  deriving DecidableEq

namespace BitmapAllocator

def isAllocated (a : BitmapAllocator) (frame : ℕ) : Bool := a.bitmap.testBit frame

def setAllocated (a : BitmapAllocator) (frame : ℕ) (allocated : Bool) : BitmapAllocator :=
  if a.isAllocated frame = allocated then a else { a with bitmap := a.bitmap ^^^ 2 ^ frame }

/-- The scan of `allocate_frame`, with the number of offsets left and the next
offset. -/
def scan (a : BitmapAllocator) (max : ℕ) : ℕ → ℕ → Option ℕ
  | 0, _ => none
  | left + 1, offset =>
    let frame := (a.scanHint + offset) % max
    if frame = 0 ∨ a.isAllocated frame then a.scan max left (offset + 1) else some frame

def allocateFrame (a : BitmapAllocator) : Option (ℕ × BitmapAllocator) :=
  if a.freeFrames = 0 then none
  else
    let max := min a.maxFrameIndex maxTrackedFrames
    match a.scan max max 0 with
    | none => none
    | some frame =>
      some (frame, { a.setAllocated frame true with
          freeFrames := a.freeFrames - 1
          scanHint := frame + 1 })

/-- `free_frame` ignores frame 0, frames beyond the tracked ones and frames
that are free already. -/
def freeFrame (a : BitmapAllocator) (frame : ℕ) : BitmapAllocator :=
  if frame = 0 ∨ frame ≥ a.maxFrameIndex then a
  else if a.isAllocated frame then
    { a.setAllocated frame false with freeFrames := a.freeFrames + 1 }
  else a

variable (a : BitmapAllocator) (frame : ℕ) (allocated : Bool)

lemma isAllocated_setAllocated (f : ℕ) :
    (a.setAllocated frame allocated).isAllocated f =
      if f = frame then allocated else a.isAllocated f := by
  rw [setAllocated]
  split_ifs with hs hf hf
  · rw [hf, hs]
  · rfl
  · cases allocated <;> simp_all [isAllocated]
  · simp [isAllocated, Ne.symm hf]

@[simp] lemma setAllocated_maxFrameIndex :
    (a.setAllocated frame allocated).maxFrameIndex = a.maxFrameIndex := by
  rw [setAllocated]
  split_ifs <;> rfl

lemma scan_eq_some {a : BitmapAllocator} {max left off f : ℕ} (hmax : 0 < max)
    (h : a.scan max left off = some f) :
    f ≠ 0 ∧ f < max ∧ a.isAllocated f = false := by
  induction left generalizing off with
  | zero => exact absurd h (by simp [scan])
  | succ _ ih =>
    simp only [scan] at h
    split_ifs at h with hskip
    · exact ih h
    · cases h
      rw [not_or] at hskip
      exact ⟨hskip.1, Nat.mod_lt _ hmax, by simpa using hskip.2⟩

/-- An allocated frame was free, is in the tracked range, and is the only one
whose state changes. -/
lemma allocateFrame_eq_some {a a' : BitmapAllocator} {frame : ℕ}
    (h : a.allocateFrame = some (frame, a')) :
    frame ≠ 0 ∧ frame < a.maxFrameIndex ∧ a.isAllocated frame = false ∧
      a'.maxFrameIndex = a.maxFrameIndex ∧
      ∀ f, a'.isAllocated f = if f = frame then true else a.isAllocated f := by
  simp only [allocateFrame] at h
  split_ifs at h
  split at h
  · cases h
  · next frame' hsc =>
    simp only [Option.some.injEq, Prod.mk.injEq] at h
    obtain ⟨rfl, rfl⟩ := h
    have hmax : 0 < min a.maxFrameIndex maxTrackedFrames := by
      rcases eq_zero_or_pos (min a.maxFrameIndex maxTrackedFrames) with h0 | hpos
      · rw [h0] at hsc
        exact absurd hsc (by simp [scan])
      · exact hpos
    obtain ⟨hne, hlt, hfr'⟩ := scan_eq_some hmax hsc
    refine ⟨hne, lt_of_lt_of_le hlt (min_le_left _ _), hfr', by simp, ?_⟩
    intro f
    exact isAllocated_setAllocated a frame' true f

/-- Freeing a tracked frame clears it and changes no other. -/
lemma isAllocated_freeFrame {a : BitmapAllocator} {fr : ℕ} (hne : fr ≠ 0)
    (hlt : fr < a.maxFrameIndex) (f : ℕ) :
    (a.freeFrame fr).isAllocated f = if f = fr then false else a.isAllocated f := by
  rw [freeFrame, if_neg (by omega)]
  split_ifs with hall hf hf
  · exact (isAllocated_setAllocated a fr false f).trans (if_pos hf)
  · exact (isAllocated_setAllocated a fr false f).trans (if_neg hf)
  · rw [hf]
    simpa using hall
  · rfl

lemma isAllocated_freeFrame_of_ne {fr f : ℕ} (h : f ≠ fr) :
    (a.freeFrame fr).isAllocated f = a.isAllocated f := by
  rw [freeFrame]
  split_ifs
  · rfl
  · exact (isAllocated_setAllocated a fr false f).trans (if_neg h)
  · rfl

@[simp] lemma freeFrame_maxFrameIndex : (a.freeFrame frame).maxFrameIndex = a.maxFrameIndex := by
  rw [freeFrame]
  split_ifs <;> simp

end BitmapAllocator

/-!
## Page tables

Page tables and the machine the kernel works on
(`kernel/src/memory/paging.rs` and the mapping loops built on it).

The page tables are those of the `x86_64` crate. They are a parameter: a
`Mapper` is a type of tables with `map_to`, `unmap` and `update_flags` and
with the documented behaviour of these functions. `lookup` is the 4 KiB entry
of a page and `translate` what the processor makes of an access to the page,
through an entry of any size.

A `Machine` is the active table, the frame allocator and a record of what was
done with them: every store the kernel made through a virtual address, every
user page it mapped, and every frame it freed.
-/

open Lib

/-- `WRITABLE`, `USER_ACCESSIBLE` and `NO_EXECUTE`; every entry the kernel
makes is `PRESENT`. -/
structure PageFlags where
  writable : Bool
  user : Bool
  noExecute : Bool
  deriving DecidableEq

inductive MapToError
  | frameAllocationFailed
  | parentEntryHugePage
  | pageAlreadyMapped (frame : ℕ)

/-- What `map_to` returns and leaves behind; `taken` are the frames it took
from the allocator for page tables. -/
structure MapResult (T : Type) where
  result : Except MapToError Unit
  tables : T
  frames : BitmapAllocator
  taken : List ℕ

/-- The frames `fs` were allocated one after the other. -/
inductive Takes : BitmapAllocator → List ℕ → BitmapAllocator → Prop
  | nil (a : BitmapAllocator) : Takes a [] a
  | cons {a b c : BitmapAllocator} {f : ℕ} {fs : List ℕ} (h : a.allocateFrame = some (f, b))
      (hs : Takes b fs c) : Takes a (f :: fs) c

def topIndex (page : ℕ) : ℕ := page / 2 ^ 27 % 512

/-- The page tables of the `x86_64` crate. `topEntry` is the entry of the
top-level table, if present, with its `USER_ACCESSIBLE` bit, and `copyTop` a
new top-level table that holds the chosen entries of another one. -/
structure Mapper where
  Tables : Type
  topEntry : Tables → ℕ → Option Bool
  copyTop : Tables → (ℕ → Bool) → Tables
  lookup : Tables → ℕ → Option (ℕ × PageFlags)
  translate : Tables → ℕ → Option PageFlags
  mapTo : Tables → ℕ → ℕ → PageFlags → BitmapAllocator → MapResult Tables
  unmap : Tables → ℕ → Option (ℕ × Tables)
  updateFlags : Tables → ℕ → PageFlags → Option Tables
  copyTop_lookup : ∀ t keep page, lookup (copyTop t keep) page =
    if keep (topIndex page) then lookup t page else none
  copyTop_translate : ∀ t keep page, translate (copyTop t keep) page =
    if keep (topIndex page) then translate t page else none
  translate_of_lookup : ∀ {t page frame flags},
    lookup t page = some (frame, flags) → translate t page = some flags
  mapTo_ok : ∀ {t page frame flags a}, (mapTo t page frame flags a).result = .ok () →
    lookup t page = none ∧
      (∀ q, lookup (mapTo t page frame flags a).tables q =
        if q = page then some (frame, flags) else lookup t q) ∧
      ∀ q, q ≠ page → translate (mapTo t page frame flags a).tables q = translate t q
  mapTo_error : ∀ {t page frame flags a e}, (mapTo t page frame flags a).result = .error e →
    (∀ q, lookup (mapTo t page frame flags a).tables q = lookup t q) ∧
      ∀ q, translate (mapTo t page frame flags a).tables q = translate t q
  mapTo_takes : ∀ t page frame flags a,
    Takes a (mapTo t page frame flags a).taken (mapTo t page frame flags a).frames
  unmap_none : ∀ {t page}, unmap t page = none → lookup t page = none
  unmap_some : ∀ {t page frame t'}, unmap t page = some (frame, t') →
    (∃ flags, lookup t page = some (frame, flags)) ∧
      (∀ q, lookup t' q = if q = page then none else lookup t q) ∧
      ∀ q, q ≠ page → translate t' q = translate t q
  updateFlags_none : ∀ {t page flags}, updateFlags t page flags = none → lookup t page = none
  updateFlags_some : ∀ {t page flags t'}, updateFlags t page flags = some t' →
    ∃ frame old, lookup t page = some (frame, old) ∧
      (∀ q, lookup t' q = if q = page then some (frame, flags) else lookup t q) ∧
      ∀ q, q ≠ page → translate t' q = translate t q

/-- A store the kernel made through a virtual address, inside one page, with
the tables that were active. -/
structure Store (T : Type) where
  address : ℕ
  length : ℕ
  data : ℕ → UInt8
  tables : T

/-- What was done with user pages and frames so far. `live` are the user pages
mapped now, `mapped` all that ever were, with their frames; `frees` are the
calls of `free_frame`, each with the state its frame was in. -/
structure History where
  mapped : List (ℕ × ℕ)
  live : List (ℕ × ℕ)
  tableFrames : List ℕ
  frees : List (ℕ × Bool)

def History.empty : History := ⟨[], [], [], []⟩

/-- `ready` says that memory management is initialised, `writeProtect` that
the kernel respects read-only pages (`CR0.WP`). -/
structure Machine (M : Mapper) where
  tables : M.Tables
  frames : BitmapAllocator
  ready : Bool
  writeProtect : Bool
  stores : List (Store M.Tables)
  history : History

/-- `VirtAddr::new` accepts the address; it panics on all others. -/
def isCanonical (address : ℕ) : Bool :=
  decide (address < 2 ^ 47) || (decide (2 ^ 64 - 2 ^ 47 ≤ address) && decide (address < 2 ^ 64))

/-- `Page::containing_address`, as a page number. -/
def containingPage (address : ℕ) : ℕ := address / 4096

namespace Machine

variable {M : Mapper}

def allocateFrame (m : Machine M) : Option (ℕ × Machine M) :=
  m.frames.allocateFrame.map fun (frame, frames) => (frame, { m with frames })

def freeFrame (m : Machine M) (frame : ℕ) : Machine M :=
  { m with
    frames := m.frames.freeFrame frame
    history := { m.history with
      frees := m.history.frees ++ [(frame, m.frames.isAllocated frame)] } }

variable (m : Machine M) (address : ℕ)

def mapPage (page frame : ℕ) (flags : PageFlags) : Except MapToError Unit × Machine M :=
  let r := M.mapTo m.tables page frame flags m.frames
  let history := { m.history with tableFrames := m.history.tableFrames ++ r.taken }
  match r.result with
  | .ok () =>
    (.ok (), { m with
      tables := r.tables
      frames := r.frames
      history := { history with
        mapped := (page, frame) :: history.mapped
        live := (page, frame) :: history.live } })
  | .error error => (.error error, { m with tables := r.tables, frames := r.frames, history })

def unmapPage (page : ℕ) : Option (ℕ × Machine M) :=
  (M.unmap m.tables page).map fun (frame, tables) =>
    (frame, { m with
      tables
      history := { m.history with
        live := m.history.live.filter fun entry => entry.1 ≠ page } })

/-- A store to the address does not fault. -/
def storable : Bool :=
  isCanonical address &&
    match M.translate m.tables (containingPage address) with
    | some flags => flags.writable || !m.writeProtect
    | none => false

/-- Stores page by page; `true` means that a page faulted. -/
def storePages : ℕ → ℕ → ℕ → (ℕ → UInt8) → Machine M → Bool × Machine M
  | 0, _, _, _, m => (false, m)
  | pages + 1, address, length, data, m =>
    let chunk := min length (4096 - address % 4096)
    if m.storable address then
      storePages pages (U64.wrappingAdd address chunk) (length - chunk)
        (fun i => data (i + chunk))
        { m with stores := m.stores ++ [⟨address, chunk, data, m.tables⟩] }
    else (true, m)

/-- A store of `length` bytes. A page fault in the kernel is a panic. -/
def store (address length : ℕ) (data : ℕ → UInt8) : Bool × Machine M :=
  if length = 0 then (false, m)
  else storePages ((address % 4096 + length + 4095) / 4096) address length data m

/-- Why a mapping loop stopped early. -/
inductive MapStop
  | panicked
  | noFrame
  | mapError (error : MapToError) (frame : ℕ)

def zeroFill : Option MapStop × Machine M :=
  match m.store address 4096 fun _ => 0 with
  | (true, m') => (some .panicked, m')
  | (false, m') => (none, m')

/-- One round of the loop shared by the loader, `sys_mmap` and `sys_brk`: the
page of the address gets a new frame and is filled with zeros. -/
def mapZeroed (flags : PageFlags) (address : ℕ) (m : Machine M) : Option MapStop × Machine M :=
  if !isCanonical address then (some .panicked, m)
  else
    match m.allocateFrame with
    | none => (some .noFrame, m)
    | some (frame, m₁) =>
      match m₁.mapPage (containingPage address) frame flags with
      | (.error error, m₂) => (some (.mapError error frame), m₂)
      | (.ok (), m₂) => m₂.zeroFill address

/-- The loop itself. It returns why it stopped early, if it did, and the end
of what it mapped. -/
def mapRange (flags : PageFlags) : ℕ → ℕ → Machine M → Option MapStop × ℕ × Machine M
  | 0, address, m => (none, address, m)
  | pages + 1, address, m =>
    match m.mapZeroed flags address with
    | (some stop, m') => (some stop, address, m')
    | (none, m') => mapRange flags pages (address + 4096) m'

/-- One round of the loop shared by `sys_munmap`, the rollback of `sys_brk` and
the teardown of an image: a mapped page is unmapped and its frame freed. -/
def release (page : ℕ) : Machine M :=
  match m.unmapPage page with
  | none => m
  | some (frame, m') => m'.freeFrame frame

/-- The loop itself; `true` means that `VirtAddr::new` panicked. -/
def unmapRange : ℕ → ℕ → Machine M → Bool × Machine M
  | 0, _, m => (false, m)
  | pages + 1, address, m =>
    if !isCanonical address then (true, m)
    else unmapRange pages (address + 4096) (m.release (containingPage address))

end Machine

def stepCount (start finish : ℕ) : ℕ := (finish - start + 4095) / 4096

end Waros.Kernel.Memory
