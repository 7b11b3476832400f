import Waros.Kernel.Exec.Syscalls.Memory

/-!
The ELF parser (`kernel/src/exec/elf.rs`). A file is a list of bytes; header
fields are read at the offsets of `Elf64Header` and `Elf64ProgramHeader`.
-/

namespace Waros.Kernel.Exec

open Lib U64

/-- The little-endian field of `size` bytes at `offset`. -/
def readField (data : List UInt8) (offset size : ℕ) : ℕ := ofBytes ((data.drop offset).take size)

def elfHeaderSize : ℕ := 64
def programHeaderSize : ℕ := 56
def ptLoad : ℕ := 1

structure ElfSegment where
  vaddr : ℕ
  memsz : ℕ
  filesz : ℕ
  offset : ℕ
  flags : SegmentFlags
  align : ℕ
  deriving DecidableEq

structure ElfInfo where
  entryPoint : ℕ
  segments : List ElfSegment
  isPie : Bool
  deriving DecidableEq

/-- The segment of the program header at `offset`. -/
def readSegment (data : List UInt8) (offset : ℕ) : ElfSegment :=
  let flags := readField data (offset + 4) 4
  { vaddr := readField data (offset + 16) 8
    memsz := readField data (offset + 40) 8
    filesz := readField data (offset + 32) 8
    offset := readField data (offset + 8) 8
    flags := ⟨flags.testBit 2, flags.testBit 1, flags.testBit 0⟩
    align := readField data (offset + 48) 8 }

/-- The loop over the program headers, with the number of headers left and the
index of the next one. -/
def parseSegments (data : List UInt8) (phOffset phSize : ℕ) :
    ℕ → ℕ → Except ExecError (List ElfSegment)
  | 0, _ => .ok []
  | left + 1, index =>
    let offset := wrappingAdd phOffset (saturatingMul index phSize)
    if saturatingAdd offset programHeaderSize > data.length then
      .error .invalidProgramHeader
    else if readField data offset 4 ≠ ptLoad then parseSegments data phOffset phSize left
    (index + 1)
    else
      let segment := readSegment data offset
      if segment.memsz < segment.filesz then .error .segmentOverflow
      else if saturatingAdd segment.offset segment.filesz > data.length then
        .error .segmentOverflow
      else do
        let segments ← parseSegments data phOffset phSize left (index + 1)
        return segment :: segments

def parseElf (data : List UInt8) : Except ExecError ElfInfo :=
  let elfType := readField data 16 2
  let phSize := readField data 54 2
  if data.length < elfHeaderSize then .error .tooSmall
  else if data.take 4 ≠ [0x7f, 0x45, 0x4c, 0x46] then .error .notElf
  else if readField data 4 1 ≠ 2 then .error .not64Bit
  else if readField data 5 1 ≠ 1 then .error .notLittleEndian
  else if readField data 18 2 ≠ 0x3E then .error .wrongArchitecture
  else if elfType ≠ 2 ∧ elfType ≠ 3 then .error .notExecutable
  else if phSize ≠ programHeaderSize then .error .invalidProgramHeader
  else do
    let segments ← parseSegments data (readField data 32 8) phSize (readField data 56 2) 0
    if segments = [] then .error .noLoadableSegments
    else .ok ⟨readField data 24 8, segments, decide (elfType = 3)⟩

lemma readField_lt (data : List UInt8) (off size : ℕ) : readField data off size < 256 ^ size := by
  refine lt_of_lt_of_le (ofBytes_lt _) (Nat.pow_le_pow_right (by omega) ?_)
  simp

/-- What a segment of a parsed file meets: its fields are words and its
contents lie in the file. -/
structure ElfSegment.Parsed (data : List UInt8) (segment : ElfSegment) : Prop where
  vaddr_lt : segment.vaddr < 2 ^ 64
  memsz_lt : segment.memsz < 2 ^ 64
  filesz_le : segment.filesz ≤ segment.memsz
  fileEnd_le : saturatingAdd segment.offset segment.filesz ≤ data.length

variable {data : List UInt8} {segment : ElfSegment}

lemma parseSegments_parsed {phOffset phSize left i : ℕ} {segs : List ElfSegment}
    (h : parseSegments data phOffset phSize left i = .ok segs) (hmem : segment ∈ segs) :
    segment.Parsed data := by
  induction left generalizing i segs with
  | zero =>
    cases h
    simp at hmem
  | succ left ih =>
    simp only [parseSegments] at h
    split_ifs at h
    · exact ih h hmem
    · cases hr : parseSegments data phOffset phSize left (i + 1) with
      | error =>
        rw [hr] at h
        exact absurd h (by simp)
      | ok =>
        rw [hr] at h
        cases h
        rcases List.mem_cons.1 hmem with rfl | hmem
        · exact ⟨readField_lt .., readField_lt .., by omega, by omega⟩
        · exact ih hr hmem

/-- The header that a parsed file has, and its segments from the loop. -/
lemma parseElf_ok {elf : ElfInfo} (h : parseElf data = .ok elf) :
    readField data 54 2 = programHeaderSize ∧ elf.segments ≠ [] ∧
      parseSegments data (readField data 32 8) (readField data 54 2) (readField data 56 2) 0 =
        .ok elf.segments := by
  simp only [parseElf] at h
  split_ifs at h with _ _ _ _ _ _ hsz
  cases hsegs : parseSegments data (readField data 32 8) (readField data 54 2)
      (readField data 56 2) 0 with
  | error =>
    rw [hsegs] at h
    cases h
  | ok segments =>
    rw [hsegs] at h
    simp only [bind, Except.bind] at h
    split_ifs at h with hnil
    cases h
    exact ⟨not_not.1 hsz, hnil, rfl⟩

lemma parseElf_parsed {elf : ElfInfo} (h : parseElf data = .ok elf)
    (hmem : segment ∈ elf.segments) : segment.Parsed data :=
  parseSegments_parsed (parseElf_ok h).2.2 hmem

/-!
## The loader

The program loader (`kernel/src/exec/loader.rs`): building the page table, the
image and the stack of a user process, and taking an image down again.

`kernel_cr3` and the table of the process are different tables; the loader
works on the one it builds, which is the `tables` of the machine from
`createUserPageTable` on. Log lines are left out.
-/

open Memory AddressSpace

/-- What the loader takes from the rest of the kernel: the entropy for the
stack offset and the segment selectors of the GDT. -/
structure LoaderEnv where
  aslrEnabled : Bool
  entropy : ℕ
  userCode : ℕ
  userData : ℕ

def LoaderEnv.randomizeStackOffset (env : LoaderEnv) : ℕ :=
  if env.aslrEnabled then env.entropy % 256 * 0x1000 else 0

/-- No randomisation. -/
def LoaderEnv.fixed : LoaderEnv := ⟨false, 0, 0x23, 0x1B⟩

/-- A loader function returns `Ok`, returns an error, or panics. -/
abbrev LoadOutcome (α : Type) := Outcome (Except ExecError α)

namespace Loader

variable {M : Mapper}

/-- The top-level entries a process shares with the kernel: all that are
present and not marked for user access, but the user slot 0. -/
def sharedSlot (t : M.Tables) (slot : ℕ) : Bool :=
  decide (slot ≠ 0) && decide (M.topEntry t slot = some false)

def createUserPageTable (m : Machine M) : Except ExecError (ℕ × Machine M) :=
  if !m.ready then .error .pageTableError
  else
    match m.allocateFrame with
    | none => .error .memoryAllocationFailed
    | some (frame, m₁) =>
      .ok (frame * 4096, { m₁ with
          tables := M.copyTop m.tables (sharedSlot m.tables)
          history := { m₁.history with
            tableFrames := m₁.history.tableFrames ++ [frame] } })

/-! ### Segments -/

variable (segment : ElfSegment) (data : List UInt8) (env : LoaderEnv) (stackTop : ℕ)
  (args : List (List UInt8)) (pageTablePhys : ℕ) (segments : List ElfSegment) (elf : ElfInfo)

def segmentPageRange : ℕ × ℕ :=
  (alignDown segment.vaddr,
    alignDown (saturatingAdd (saturatingAdd segment.vaddr segment.memsz) 0xFFF))

def alignedPageCount (size : ℕ) : ℕ := (size + 4095) / 4096

def temporarySegmentPageFlags : PageFlags := ⟨true, true, true⟩

def finalSegmentPageFlags : Except ExecError PageFlags :=
  if segment.flags.write && segment.flags.execute then .error .loadFailed
  else .ok ⟨segment.flags.write, true, !segment.flags.execute⟩

def mapSegmentResult : Option Machine.MapStop → LoadOutcome Unit
  | none => .returned (.ok ())
  | some .panicked => .panicked
  | some .noFrame => .returned (.error .memoryAllocationFailed)
  | some (.mapError (.pageAlreadyMapped _) _) => .returned (.error .loadFailed)
  | some (.mapError _ _) => .returned (.error .pageTableError)

variable (m : Machine M)

def mapSegmentPages : LoadOutcome Unit × Machine M :=
  let range := segmentPageRange segment
  let r := m.mapRange temporarySegmentPageFlags (stepCount range.1 range.2) range.1
  (mapSegmentResult r.1, r.2.2)

/-- Runs a loader function over the segments, up to the first one that does
not return `Ok`. -/
def forSegments (f : ElfSegment → Machine M → LoadOutcome Unit × Machine M) :
    List ElfSegment → Machine M → LoadOutcome Unit × Machine M
  | [], m => (.returned (.ok ()), m)
  | segment :: segments, m =>
    match f segment m with
    | (.returned (.ok ()), m') => forSegments f segments m'
    | r => r

/-- Copies the contents of the segment and clears the rest of its memory. The
slice of the file panics when it is out of bounds, the stores when a page
faults. -/
def populateSegment (segment : ElfSegment) (m : Machine M) : LoadOutcome Unit × Machine M :=
  let sourceEnd := wrappingAdd segment.offset segment.filesz
  if segment.offset > sourceEnd ∨ sourceEnd > data.length then (.panicked, m)
  else
    match m.store segment.vaddr segment.filesz fun i => data.getD (segment.offset + i) 0 with
    | (true, m₁) => (.panicked, m₁)
    | (false, m₁) =>
      match m₁.store (wrappingAdd segment.vaddr segment.filesz)
          (segment.memsz - segment.filesz) fun _ => 0 with
      | (true, m₂) => (.panicked, m₂)
      | (false, m₂) => (.returned (.ok ()), m₂)

def updateRange (flags : PageFlags) : ℕ → ℕ → Machine M → LoadOutcome Unit × Machine M
  | 0, _, m => (.returned (.ok ()), m)
  | pages + 1, address, m =>
    if !isCanonical address then (.panicked, m)
    else
      match M.updateFlags m.tables (containingPage address) flags with
      | none => (.returned (.error .pageTableError), m)
      | some tables => updateRange flags pages (address + 4096) { m with tables }

def applySegmentPermissions : LoadOutcome Unit × Machine M :=
  match finalSegmentPageFlags segment with
  | .error error => (.returned (.error error), m)
  | .ok flags =>
    let range := segmentPageRange segment
    updateRange flags (stepCount range.1 range.2) range.1 m

def verifyWx (segments : List MemorySegment) : Bool :=
  segments.all fun segment => !(segment.flags.write && segment.flags.execute)

def stackTopOf : ℕ := userStackTop - env.randomizeStackOffset

def stackBottomOf : ℕ := stackTopOf env - userStackSize

def mapStackResult : Option Machine.MapStop → LoadOutcome Unit
  | none => .returned (.ok ())
  | some .panicked => .panicked
  | some .noFrame => .returned (.error .memoryAllocationFailed)
  | some (.mapError _ _) => .returned (.error .pageTableError)

def mapStack : LoadOutcome Unit × Machine M :=
  let r := m.mapRange (dataFlags true) (stepCount (stackBottomOf env) (stackTopOf env))
    (stackBottomOf env)
  (mapStackResult r.1, r.2.2)

/-- A piece of memory the loader fills: its address and its bytes. -/
abbrev Write := ℕ × List UInt8

/-- Places the strings below `sp`, the last argument first; returns the writes,
the addresses of the strings and the new stack pointer. -/
def placeStrings (sp : ℕ) : List (List UInt8) → List Write × List ℕ × ℕ
  | [] => ([], [], sp)
  | arg :: rest =>
    let sp' := sp - (arg.length + 1)
    let r := placeStrings sp' rest
    ((sp', arg) :: (sp' + arg.length, [0]) :: r.1, sp' :: r.2.1, r.2.2)

/-- The writes of `setup_user_stack` in order, and the stack pointer it
returns: the strings, then argc, the argument pointers and a null word. -/
def stackWrites : List Write × ℕ :=
  let strings := placeStrings stackTop args.reverse
  let words := args.length :: strings.2.1.reverse ++ [0]
  let sp := (strings.2.2 - words.length * 8) / 16 * 16
  (strings.1 ++ words.zipIdx.map fun word => (sp + word.2 * 8, toBytes word.1), sp)

/-- Makes the writes in order; `true` means that one faulted. -/
def storeAll : List Write → Machine M → Bool × Machine M
  | [], m => (false, m)
  | write :: writes, m =>
    match m.store write.1 write.2.length fun i => write.2.getD i 0 with
    | (true, m') => (true, m')
    | (false, m') => storeAll writes m'

def setupUserStack : Outcome ℕ × Machine M :=
  match storeAll (stackWrites stackTop args).1 m with
  | (true, m') => (.panicked, m')
  | (false, m') => (.returned (stackWrites stackTop args).2, m')

def imageSpace : AddressSpace :=
  let space := segments.foldl (fun (space : AddressSpace) segment =>
    space.registerSegment segment.vaddr segment.memsz segment.flags) (.new pageTablePhys)
  { space with stackTop := stackTopOf env, stackBottom := stackBottomOf env }.finalizeHeapLayout

def imagePages : ℕ :=
  (segments.map fun segment => alignedPageCount segment.memsz).foldl saturatingAdd 0

/-- Applies a step to the machine if the one before returned `Ok`. -/
def andThen {α : Type} (r : LoadOutcome Unit × Machine M)
    (next : Machine M → LoadOutcome α × Machine M) : LoadOutcome α × Machine M :=
  match r with
  | (.returned (.ok ()), m) => next m
  | (.returned (.error error), m) => (.returned (.error error), m)
  | (.panicked, m) => (.panicked, m)

/-- The segments: mapped, filled, and given their final permissions. -/
def loadSegments : LoadOutcome Unit × Machine M :=
  andThen (forSegments mapSegmentPages segments m) fun m₁ =>
    andThen (forSegments (populateSegment data) segments m₁) fun m₂ =>
      forSegments applySegmentPermissions segments m₂

/-- The stack with the arguments, and the result of the load. -/
def finishImage (args : List (List UInt8)) (m : Machine M) :
    LoadOutcome (AddressSpace × CpuContext × ℕ) × Machine M :=
  let space := imageSpace env pageTablePhys elf.segments
  let pages := saturatingAdd (imagePages elf.segments)
    (alignedPageCount userStackSize)
  match setupUserStack space.stackTop args m with
  | (.panicked, m') => (.panicked, m')
  | (.returned sp, m') =>
    let context := { CpuContext.forUser elf.entryPoint sp pageTablePhys with
      cs := env.userCode, ss := env.userData }
    (.returned (.ok (space, context, pages)), m')

def mapProcessImage (data : List UInt8) (args : List (List UInt8)) (m : Machine M) :
    LoadOutcome (AddressSpace × CpuContext × ℕ) × Machine M :=
  if !m.ready then (.returned (.error .pageTableError), m)
  else
    andThen (loadSegments data elf.segments m) fun m₁ =>
      if verifyWx (imageSpace env pageTablePhys elf.segments).segments then
        andThen (mapStack env m₁) fun m₂ => finishImage env pageTablePhys elf args m₂
      else (.returned (.error .loadFailed), m₁)

/-- A new page table with the image in it: what `spawn_process` and
`sys_execve` do with a parsed file. -/
def buildImage (data : List UInt8) (args : List (List UInt8)) (m : Machine M) :
    LoadOutcome (AddressSpace × CpuContext × ℕ) × Machine M :=
  match createUserPageTable m with
  | .error error => (.returned (.error error), m)
  | .ok (pageTablePhys, m₁) => mapProcessImage env pageTablePhys elf data args m₁

def unmapRange (start finish : ℕ) (m : Machine M) : Bool × Machine M :=
  let alignedStart := alignDown start
  let alignedEnd := alignDown (saturatingAdd finish 0xFFF)
  m.unmapRange (stepCount alignedStart alignedEnd) alignedStart

/-- Unmaps the ranges in order; `true` means that the kernel panicked. -/
def unmapRanges : List (ℕ × ℕ) → Machine M → Bool × Machine M
  | [], m => (false, m)
  | range :: ranges, m =>
    match unmapRange range.1 range.2 m with
    | (true, m') => (true, m')
    | (false, m') => unmapRanges ranges m'

/-- The ranges that teardown walks: the segments, then the stack. -/
def teardownRanges (space : AddressSpace) : List (ℕ × ℕ) :=
  (space.segments.map fun segment =>
    (segment.vaddr, saturatingAdd segment.vaddr segment.size)) ++
    [(space.stackBottom, space.stackTop)]

def teardownProcessImage (kernelCr3 pageTablePhys : ℕ) (space : AddressSpace) (m : Machine M) :
    LoadOutcome Unit × Machine M :=
  if !m.ready then (.returned (.error .pageTableError), m)
  else
    match unmapRanges (teardownRanges space) m with
    | (true, m') => (.panicked, m')
    | (false, m') =>
      if pageTablePhys ≠ 0 ∧ pageTablePhys ≠ kernelCr3 then
        (.returned (.ok ()), m'.freeFrame (pageTablePhys / 4096))
      else (.returned (.ok ()), m')

end Loader

/-!
## Reads of the parser

The memory that the ELF parser reads (`parse_elf` of `kernel/src/exec/elf.rs`)
and the slice of the file that `populate_segment` takes. A slice of bytes is
shorter than `2 ^ 63`, so once the first program header lies in the file, the
sums of the loop are far from wrapping around.
-/

open List

variable {data : List UInt8} {phOffset left index : ℕ}

lemma le_of_saturatingAdd_le {a b : ℕ} (hd : data.length < 2 ^ 63)
    (h : saturatingAdd a b ≤ data.length) : a + b ≤ data.length := by
  unfold saturatingAdd at h
  omega

/-- What keeps the loop from wrapping around: past the first program header,
that header is known to lie in the file. -/
structure LoopBounds (data : List UInt8) (phOffset left index : ℕ) : Prop where
  data_lt : data.length < 2 ^ 63
  phOffset_lt : phOffset < 2 ^ 64
  first : index = 0 ∨ phOffset + programHeaderSize ≤ data.length
  count_le : index + left ≤ 2 ^ 16

section
variable (h : LoopBounds data phOffset (left + 1) index)
include h

lemma LoopBounds.next
    (hrd : saturatingAdd (phOffset + index * programHeaderSize) programHeaderSize ≤ data.length) :
    LoopBounds data phOffset left (index + 1) := by
  have hle := le_of_saturatingAdd_le h.data_lt hrd
  refine ⟨h.data_lt, h.phOffset_lt, .inr ?_, by have := h.count_le; omega⟩
  omega

end

def elfFile (vaddr memsz : ℕ) : List UInt8 :=
  [0x7f, 0x45, 0x4c, 0x46, 2, 1, 1, 0, 0, 0, 0, 0, 0, 0, 0, 0, 2, 0, 0x3e, 0, 1, 0, 0, 0] ++
    toBytes vaddr ++ toBytes 64 ++ toBytes 0 ++
    [0, 0, 0, 0, 64, 0, 56, 0, 1, 0, 0, 0, 0, 0, 0, 0] ++
    [1, 0, 0, 0, 5, 0, 0, 0] ++ toBytes 0 ++ toBytes vaddr ++ toBytes vaddr ++
    toBytes 0 ++ toBytes memsz ++ toBytes 4096

/-- What the parser makes of it. -/
def elfFileInfo (vaddr memsz : ℕ) : ElfInfo :=
  ⟨vaddr, [⟨vaddr, memsz, 0, 0, ⟨true, false, true⟩, 4096⟩], false⟩

theorem parseElf_elfFile : parseElf (elfFile 0x400000 1) = .ok (elfFileInfo 0x400000 1) := by
  decide +kernel

end Waros.Kernel.Exec
