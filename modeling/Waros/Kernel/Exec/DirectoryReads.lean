import Waros.Kernel.Exec.StagedWrites

/-!
Reading a directory entry by entry (`sys_readdir` of
`kernel/src/exec/syscalls/file.rs`). The cursor of the descriptor moves on before
the entry is encoded and copied to the process, and stays there when that fails.
What a call delivers is read off the memory at its output pointer.
-/

namespace Waros.Kernel.Memory.Machine

open Lib List

variable {M : Mapper} {m m' : Machine M} {address len : ℕ} {data : ℕ → UInt8}

def Covers (store : Store M.Tables) (address : ℕ) : Prop :=
  store.address ≤ address ∧ address < store.address + store.length
  deriving Decidable

/-- The byte that some stores leave at an address: that of the last one there. -/
def storedAt (stores : List (Store M.Tables)) (address : ℕ) : Option UInt8 :=
  (stores.reverse.find? fun store => Covers store address).map fun store =>
    store.data (address - store.address)

theorem storedAt_cons_of_covers {store : Store M.Tables} {stores : List (Store M.Tables)}
    (hcovers : Covers store address) (hafter : ∀ other ∈ stores, address < other.address) :
    storedAt (store :: stores) address = some (store.data (address - store.address)) := by
  have hnone : (stores.reverse.find? fun other => Covers other address) = none := by
    refine find?_eq_none.2 fun other hother hfound => ?_
    exact absurd (of_decide_eq_true hfound).1 (not_le.2 (hafter other (mem_reverse.1 hother)))
  simp [storedAt, hnone, hcovers]

theorem storedAt_cons_of_some {store : Store M.Tables} {stores : List (Store M.Tables)}
    {byte : UInt8} (h : storedAt stores address = some byte) :
    storedAt (store :: stores) address = some byte := by
  obtain ⟨last, hlast, rfl⟩ := Option.map_eq_some_iff.1 h
  simp [storedAt, hlast]

theorem storePages_storedAt {pages : ℕ} (h : storePages pages address len data m = (false, m'))
    (hpages : pages = (address % 4096 + len + 4095) / 4096) (hpos : 0 < len)
    (hend : address + len ≤ 2 ^ 64) :
    ∃ new, m'.stores = m.stores ++ new ∧ (∀ store ∈ new, address ≤ store.address) ∧
      ∀ i < len, storedAt new (address + i) = some (data i) := by
  induction pages generalizing address len data m with
  | zero => omega
  | succ pages ih =>
    simp only [storePages] at h
    split_ifs at h with hstorable
    swap
    · cases h
    by_cases hlast : len ≤ 4096 - address % 4096
    · obtain rfl : pages = 0 := by omega
      cases h
      refine ⟨[⟨address, len, data, m.tables⟩], by rw [min_eq_left hlast], by simp, fun i hi => ?_⟩
      rw [storedAt_cons_of_covers ⟨by simp, by simpa using hi⟩ (by simp)]
      simp
    · rw [min_eq_right (by omega), U64.wrappingAdd_of_lt (by omega)] at h
      obtain ⟨new, hstores, hafter, hbytes⟩ := ih h (by omega) (by omega) (by omega)
      refine ⟨⟨address, _, data, m.tables⟩ :: new, by rw [hstores]; simp; rfl, ?_, fun i hi => ?_⟩
      · simp only [forall_mem_cons, le_refl, true_and]
        exact fun store hstore => (Nat.le_add_right _ _).trans (hafter store hstore)
      · by_cases hchunk : i < 4096 - address % 4096
        · rw [storedAt_cons_of_covers ⟨by simp, by simpa using hchunk⟩ fun store hstore =>
            lt_of_lt_of_le (by omega) (hafter store hstore)]
          simp
        · refine storedAt_cons_of_some ?_
          have hbyte := hbytes (i - (4096 - address % 4096)) (by omega)
          rwa [Nat.sub_add_cancel (by omega),
            show address + (4096 - address % 4096) + (i - (4096 - address % 4096)) = address + i by
              omega] at hbyte

theorem mapM_eq_some_map {α β : Type} {xs : List α} {f : α → Option β} {g : α → β}
    (h : ∀ x ∈ xs, f x = some (g x)) : xs.mapM f = some (xs.map g) := by
  induction xs with
  | nil => rfl
  | cons x xs ih =>
    obtain ⟨hx, hxs⟩ := forall_mem_cons.1 h
    simp [mapM_cons, hx, ih hxs]

/-- The bytes that a call has left at an address. -/
def bytesAt (m m' : Machine M) (address len : ℕ) : Option (List UInt8) :=
  (range len).mapM fun i => storedAt (m'.stores.drop m.stores.length) (address + i)

theorem bytesAt_store {bytes : List UInt8} (hpos : 0 < bytes.length)
    (hend : address + bytes.length ≤ 2 ^ 64)
    (h : m.store address bytes.length (fun i => bytes.getD i 0) = (false, m')) :
    bytesAt m m' address bytes.length = some bytes := by
  rw [store, if_neg hpos.ne'] at h
  obtain ⟨new, hstores, -, hbytes⟩ := storePages_storedAt h rfl hpos hend
  rw [bytesAt, hstores, drop_left]
  rw [mapM_eq_some_map fun i hi => hbytes i (mem_range.1 hi)]
  congr 1
  refine ext_getElem (by simp) fun i hi hi' => ?_
  rw [getElem_map, getElem_range, getD_eq_getElem]

end Waros.Kernel.Memory.Machine

namespace Waros.Kernel.Exec

open Lib Memory List

/-- The size of a `WarExecDirEntry`. -/
def direntSize : ℕ := 8 + warexecDirentNameCapacity

def decodeDirEntry (bytes : List UInt8) : Option DirectoryEntryHandle := do
  let fileType ← bytes[0]?
  let nameLen ← bytes[1]?
  let name ← Str.ofUtf8 ((bytes.drop 8).take nameLen.toNat)
  return ⟨name, decide (fileType = warexecFileTypeDirectory)⟩

theorem length_dirEntryBytes {name : List UInt8} (h : name.length ≤ warexecDirentNameCapacity)
    (isDir : Bool) : (dirEntryBytes name isDir).length = direntSize := by
  simp only [dirEntryBytes, length_append, length_replicate, length_cons, length_nil, direntSize]
  omega

theorem decodeDirEntry_dirEntryBytes {entry : DirectoryEntryHandle}
    (h : (Str.toUtf8 entry.name).length ≤ warexecDirentNameCapacity) :
    decodeDirEntry (dirEntryBytes (Str.toUtf8 entry.name) entry.isDir) = some entry := by
  have hlen : (UInt8.ofNat (Str.toUtf8 entry.name).length).toNat =
      (Str.toUtf8 entry.name).length := by
    exact UInt8.toNat_ofNat_of_lt' (h.trans_lt (by decide))
  have hname : ((dirEntryBytes (Str.toUtf8 entry.name) entry.isDir).drop 8).take
      (Str.toUtf8 entry.name).length = Str.toUtf8 entry.name := by
    simp [dirEntryBytes]
  rw [decodeDirEntry]
  simp only [dirEntryBytes, cons_append, nil_append] at hname ⊢
  simp only [getElem?_cons_zero, getElem?_cons_succ, Option.bind_eq_bind, Option.bind_some, hlen,
    hname, Str.ofUtf8_toUtf8]
  obtain ⟨name, _ | _⟩ := entry <;> rfl

/-- An answer of `sys_readdir`: the value returned, the entry that it has left at
the output pointer, and whether the descriptor has changed. -/
structure DirAnswer where
  value : ℤ
  entry : Option DirectoryEntryHandle
  consumed : Bool
  deriving DecidableEq

/-- The answers hand out the successive entries of the snapshot, all of them
before the end is reported, and an error uses up none. -/
structure Iterates (entries : List DirectoryEntryHandle) (answers : List DirAnswer) : Prop where
  successive : answers.filterMap DirAnswer.entry <+: entries
  complete : ∀ a ∈ answers, a.value = 0 → answers.filterMap DirAnswer.entry = entries
  delivered : ∀ a ∈ answers, a.value = 1 → a.entry.isSome
  kept : ∀ a ∈ answers, a.value < 0 → a.consumed = false

/-- As long as entries are left and no store faults, the names fit into an entry
and the process may write to the output pointers. -/
def EntriesFit (accepts faults : ℕ → Prop) : List DirectoryEntryHandle → List ℕ → Prop
  | entry :: entries, out :: outs =>
    (Str.toUtf8 entry.name).length ≤ warexecDirentNameCapacity ∧ accepts out ∧
      (¬ faults out → EntriesFit accepts faults entries outs)
  | _, _ => True

namespace SyscallState

variable {M : Mapper}

/-- The answers to calls with these output pointers, up to a call that faults. -/
def dirAnswers (fd : UInt32) : SyscallState M → List ℕ → List DirAnswer
  | _, [] => []
  | s, entryOut :: outs =>
    match s.sysReaddir fd entryOut with
    | (.panicked, _) => []
    | (.returned value, s') =>
      { value
        entry :=
          if value = 1 then (s.machine.bytesAt s'.machine entryOut direntSize).bind decodeDirEntry
          else none
        consumed := decide (s'.descriptorTarget fd ≠ s.descriptorTarget fd) } ::
        dirAnswers fd s' outs

/-- The entries fit and the pointers are good, for the process and the page tables
of the state. -/
def CanDeliver (s : SyscallState M) : List DirectoryEntryHandle → List ℕ → Prop :=
  EntriesFit (fun out => s.validateUserRange out direntSize = .ok ())
    fun out => s.machine.faults out direntSize

variable {s : SyscallState M} {fd : UInt32} {path : Str} {entries : List DirectoryEntryHandle}
  {cursor : ℕ} {entry : DirectoryEntryHandle}

theorem validateUserRange_setTarget (s : SyscallState M) (fd : UInt32) (target : DescriptorTarget) :
    (s.setTarget fd target).validateUserRange = s.validateUserRange := by
  funext address len
  rw [validateUserRange, validateUserRange, setTarget,
    currentProcess_modifyTable s fun table => table.setTarget fd target]
  cases s.currentProcess <;> rfl

theorem add_lt_of_validateUserRange {address len : ℕ} (hpos : len ≠ 0)
    (h : s.validateUserRange address len = .ok ()) : address + len < 2 ^ 64 := by
  rw [validateUserRange, if_neg hpos] at h
  split at h
  · cases h
  split_ifs at h with hrange
  rw [AddressSpace.containsUserRange, if_neg hpos, U64.checkedAdd] at hrange
  by_contra hlt
  rw [if_neg hlt] at hrange
  cases hrange

/-- Copying out a value: the pointer is refused, or the store faults, or the bytes
stand at the pointer. -/
theorem replyStruct_cases (s : SyscallState M) (out : ℕ) {bytes : List UInt8} {len : ℕ}
    (hlength : bytes.length = len) (hpos : 0 < len) (result : ℤ) :
    let r := s.replyStruct out bytes result
    (s.validateUserRange out len ≠ .ok () ∧ ∃ error < 0, r = (.returned error, s)) ∨
      s.validateUserRange out len = .ok () ∧
        (s.machine.faults out len ∧ r.1 = .panicked ∨
          ¬ s.machine.faults out len ∧ r.1 = .returned result ∧
            s.machine.bytesAt r.2.machine out len = some bytes) := by
  subst hlength
  have hfaults := Machine.store_fst_eq_faults s.machine s.machine.stores out bytes.length
    fun i => bytes.getD i 0
  simp only [replyStruct, writeStructToUserChecked, storeUser]
  cases hvalid : s.validateUserRange out bytes.length with
  | error error => exact .inl ⟨by simp, error, validateUserRange_error_neg hvalid, rfl⟩
  | ok =>
    refine .inr ⟨rfl, ?_⟩
    have hend := add_lt_of_validateUserRange hpos.ne' hvalid
    rw [← hfaults]
    rcases hstore : s.machine.store out bytes.length (fun i => bytes.getD i 0) with
      ⟨_ | _, machine⟩
    · exact .inr ⟨by simp, rfl, Machine.bytesAt_store hpos hend.le hstore⟩
    · exact .inl ⟨rfl, rfl⟩

section
variable (h : s.descriptorTarget fd = .ok (.directory ⟨path, entries, cursor⟩))
include h

theorem sysReaddir_end (hentry : entries[cursor]? = none) (out : ℕ) :
    s.sysReaddir fd out = (.returned 0, s) := by
  simp [sysReaddir, readdirPlan, h, hentry]

/-- A call that has an entry left moves on to the next one and delivers the entry,
unless the name is too long, the pointer is refused or the store faults. -/
theorem sysReaddir_next (hlen : entries.length < 2 ^ 64) (hentry : entries[cursor]? = some entry)
    (out : ℕ) :
    let r := s.sysReaddir fd out
    r.2.descriptorTarget fd = .ok (.directory ⟨path, entries, cursor + 1⟩) ∧
      r.2.CanDeliver = s.CanDeliver ∧
      (¬ ((Str.toUtf8 entry.name).length ≤ warexecDirentNameCapacity ∧
          s.validateUserRange out direntSize = .ok ()) ∧ (∃ error < 0, r.1 = .returned error) ∨
        ((Str.toUtf8 entry.name).length ≤ warexecDirentNameCapacity ∧
          s.validateUserRange out direntSize = .ok ()) ∧
          (s.machine.faults out direntSize ∧ r.1 = .panicked ∨
            ¬ s.machine.faults out direntSize ∧ r.1 = .returned 1 ∧
              (s.machine.bytesAt r.2.machine out direntSize).bind decodeDirEntry =
                some entry)) := by
  have hcursor : U64.saturatingAdd cursor 1 = cursor + 1 := by
    obtain ⟨hlt, -⟩ := List.getElem?_eq_some_iff.1 hentry
    exact U64.saturatingAdd_of_lt (by omega)
  have hplan : s.readdirPlan fd = .ok (entry, ⟨path, entries, cursor + 1⟩) := by
    simp [readdirPlan, h, hentry, hcursor]
  have htarget := descriptorTarget_setTarget_self h (.directory ⟨path, entries, cursor + 1⟩)
  have hmachine : (s.setTarget fd (.directory ⟨path, entries, cursor + 1⟩)).machine = s.machine :=
    modifyCurrent_machine _ _
  have hvalid := validateUserRange_setTarget s fd (.directory ⟨path, entries, cursor + 1⟩)
  simp only [sysReaddir, hplan]
  generalize s.setTarget fd (.directory ⟨path, entries, cursor + 1⟩) = s₁ at *
  by_cases hname : (Str.toUtf8 entry.name).length ≤ warexecDirentNameCapacity
  · rw [if_neg (not_lt.2 hname)]
    obtain ⟨stores, hreply⟩ := s₁.replyStruct_eq out
      (dirEntryBytes (Str.toUtf8 entry.name) entry.isDir) 1
    refine ⟨by rw [hreply]; exact htarget, ?_, ?_⟩
    · rw [hreply, CanDeliver, CanDeliver, ← hvalid, ← hmachine]
      congr 1
      funext address
      exact propext (by rw [Machine.faults, Machine.store_fst_eq_faults])
    · have hcases := s₁.replyStruct_cases out (length_dirEntryBytes hname entry.isDir)
        (by decide) 1
      rw [hvalid, hmachine] at hcases
      rcases hcases with
        ⟨hrefused, error, hneg, hr⟩ | ⟨haccepted, hfault | ⟨hstored, hone, hbytes⟩⟩
      · exact .inl ⟨fun hboth => hrefused hboth.2, error, hneg, by rw [hr]⟩
      · exact .inr ⟨⟨hname, haccepted⟩, .inl hfault⟩
      · refine .inr ⟨⟨hname, haccepted⟩, .inr ⟨hstored, hone, ?_⟩⟩
        rw [hbytes, Option.bind_some, decodeDirEntry_dirEntryBytes hname]
  · rw [if_pos (not_le.1 hname)]
    refine ⟨htarget, by rw [CanDeliver, CanDeliver, hvalid, hmachine], .inl ⟨?_, einval, ?_, rfl⟩⟩
    · exact fun hboth => hname hboth.1
    · decide

/-- If the entries can be delivered, the answers go through the snapshot; if not,
an error uses up an entry. -/
theorem dirAnswers_spec (hlen : entries.length < 2 ^ 64) (outs : List ℕ) :
    (s.CanDeliver (entries.drop cursor) outs →
      (∀ a ∈ s.dirAnswers fd outs, 0 ≤ a.value ∧ (a.value = 1 → a.entry.isSome)) ∧
        (s.dirAnswers fd outs).filterMap DirAnswer.entry <+: entries.drop cursor ∧
          ((∃ a ∈ s.dirAnswers fd outs, a.value = 0) →
            (s.dirAnswers fd outs).filterMap DirAnswer.entry = entries.drop cursor)) ∧
      (¬ s.CanDeliver (entries.drop cursor) outs →
        ∃ a ∈ s.dirAnswers fd outs, a.value < 0 ∧ a.consumed) := by
  induction outs generalizing s cursor with
  | nil => cases entries.drop cursor <;> simp [dirAnswers, CanDeliver, EntriesFit]
  | cons out outs ih =>
    cases hentry : entries[cursor]? with
    | none =>
      have hnil : entries.drop cursor = [] := drop_eq_nil_of_le (by simpa using hentry)
      obtain ⟨hok, -⟩ := ih h
      rw [hnil] at hok ⊢
      obtain ⟨hvalues, hbegins, -⟩ := hok trivial
      refine ⟨fun _ => ?_, fun hnot => absurd trivial hnot⟩
      rw [dirAnswers, sysReaddir_end h hentry]
      simp only [forall_mem_cons]
      exact ⟨⟨by simp, hvalues⟩, by simpa using hbegins, fun _ => by simpa using hbegins⟩
    | some entry =>
      obtain ⟨hlt, hget⟩ := List.getElem?_eq_some_iff.1 hentry
      have hdrop : entries.drop cursor = entry :: entries.drop (cursor + 1) := by
        rw [drop_eq_getElem_cons hlt, hget]
      obtain ⟨hnext, hsame, hcases⟩ := sysReaddir_next h hlen hentry out
      obtain ⟨hok, hbad⟩ := ih hnext
      rw [hsame] at hok hbad
      rw [hdrop, CanDeliver, EntriesFit, ← CanDeliver, dirAnswers]
      generalize s.sysReaddir fd out = r at *
      obtain ⟨outcome, s'⟩ := r
      dsimp only at hcases hnext hok hbad
      rcases hcases with ⟨hrefused, error, hneg, rfl⟩ |
        ⟨haccepted, ⟨hfault, rfl⟩ | ⟨hstored, rfl, hbytes⟩⟩
      · refine ⟨fun hcan => absurd ⟨hcan.1, hcan.2.1⟩ hrefused, fun _ => ?_⟩
        exact ⟨_, mem_cons_self, hneg, by simp [h, hnext]⟩
      · refine ⟨fun _ => by simp, fun hnot => absurd ⟨haccepted.1, haccepted.2, ?_⟩ hnot⟩
        exact fun hno => absurd hfault hno
      · dsimp only
        rw [hbytes]
        constructor
        · rintro ⟨-, -, hrest⟩
          obtain ⟨hvalues, hbegins, hend⟩ := hok (hrest hstored)
          simp only [forall_mem_cons, exists_mem_cons_iff]
          refine ⟨⟨by simp, hvalues⟩, (prefix_cons_inj entry).2 hbegins, ?_⟩
          rintro (hzero | hzero)
          · cases hzero
          · exact congrArg _ (hend hzero)
        · intro hnot
          obtain ⟨a, ha, hneg⟩ := hbad fun hrest =>
            hnot ⟨haccepted.1, haccepted.2, fun _ => hrest⟩
          exact ⟨a, mem_cons_of_mem _ ha, hneg⟩

end

/-- A snapshot is in the order of the names. -/
lemma openTarget_sorted {handle : DirectoryHandle}
    (h : s.openTarget path warexecOpenDirectory = .ok (.directory handle)) :
    handle.entries.Pairwise fun a b => a.name ≤ b.name := by
  rw [openTarget, if_pos rfl, Fs.listEntriesCurrent] at h
  split_ifs at h
  cases h
  rw [pairwise_map]
  refine (pairwise_mergeSort ?_ ?_ _).imp fun hle => by simpa using hle
  · intro a b c hab hbc
    simp only [decide_eq_true_eq] at hab hbc ⊢
    exact hab.trans hbc
  · intro a b
    simpa using le_total a.1 b.1

/-- A snapshot is in the order of the names, and reading it goes as it should
exactly when the entries that the calls come to fit and the pointers are good. -/
theorem readdir_iterates_iff {s : SyscallState M} {fd : UInt32} {path : Str}
    {entries : List DirectoryEntryHandle}
    (h : s.descriptorTarget fd = .ok (.directory ⟨path, entries, 0⟩))
    (hlen : entries.length < 2 ^ 64) (outs : List ℕ) :
    (∀ (s₀ : SyscallState M) name, s₀.openTarget name warexecOpenDirectory =
        .ok (.directory ⟨path, entries, 0⟩) → entries.Pairwise fun a b => a.name ≤ b.name) ∧
      (Iterates entries (s.dirAnswers fd outs) ↔ s.CanDeliver entries outs) := by
  refine ⟨fun _ _ hop => openTarget_sorted hop, ?_⟩
  obtain ⟨hok, hbad⟩ := dirAnswers_spec h hlen outs
  rw [drop_zero] at hok hbad
  constructor
  · intro hiterates
    by_contra hnot
    obtain ⟨a, ha, hneg, hconsumed⟩ := hbad hnot
    cases (hiterates.kept a ha hneg).symm.trans hconsumed
  · intro hcan
    obtain ⟨hvalues, hbegins, hend⟩ := hok hcan
    exact ⟨hbegins, fun a ha hzero => hend ⟨a, ha, hzero⟩, fun a ha => (hvalues a ha).2,
      fun a ha hneg => absurd (hvalues a ha).1 (not_le.2 hneg)⟩

/-- A process with a page of stack that has opened a directory with two entries. -/
def listing : SyscallState fourLevel :=
  (oneFile (smallMachine.mapPage 0x7FDFF 1 (dataFlags true)).2 ⟨[], 1000⟩ none 1000 0).setTarget 0
    (.directory ⟨['/'], [⟨['a'], false⟩, ⟨['b'], true⟩], 0⟩)

/-- Two entries and the end. -/
theorem readdir_iterates_listing :
    let outs := [0x7FDFF000, 0x7FDFF100, 0x7FDFF000]
    listing.CanDeliver [⟨['a'], false⟩, ⟨['b'], true⟩] outs ∧
      Iterates [⟨['a'], false⟩, ⟨['b'], true⟩] (listing.dirAnswers 0 outs) := by
  intro outs
  have hcan : listing.CanDeliver [⟨['a'], false⟩, ⟨['b'], true⟩] outs :=
    ⟨by decide, by decide, fun _ => ⟨by decide, by decide, fun _ => trivial⟩⟩
  have hopened : listing.descriptorTarget 0 =
      .ok (.directory ⟨['/'], [⟨['a'], false⟩, ⟨['b'], true⟩], 0⟩) := rfl
  exact ⟨hcan, (readdir_iterates_iff hopened (by decide) outs).2.2 hcan⟩

/-- A null pointer is refused, and the entry is gone. -/
theorem not_readdir_iterates_null :
    ¬ Iterates [⟨['a'], false⟩, ⟨['b'], true⟩] (listing.dirAnswers 0 [0, 0x7FDFF000]) := by
  have hans : listing.dirAnswers 0 [0, 0x7FDFF000] =
      [⟨efault, none, true⟩, ⟨1, some ⟨['b'], true⟩, true⟩] := by
    decide
  intro h
  rw [hans] at h
  cases h.kept ⟨efault, none, true⟩ (by simp) (by decide)

end SyscallState

end Waros.Kernel.Exec
