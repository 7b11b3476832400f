import Mathlib.Algebra.Order.BigOperators.Group.List
import Waros.Kernel.Fs.WarFS

/-!
The operations that change WarFS, and what each of them can do.

Every operation that succeeds puts one value under one canonical path: it
replaces the entry there, inserts one, or removes it. `perform_cases` says so
once for all of them; an operation that fails changes nothing, except for
`chmod_as`, which applies the mode string before it rejects it.
-/

namespace Waros.Kernel.Fs

open Lib Auth WarFS Option
open FilePermissions (system isReadLetter isDash isWriteLetter)

/-- The mutating calls. `write` stands for `write_internal_owned`, which
`write_as`, `touch_as` and `write_system` are cases of. -/
inductive FsOp
  | write (name : Str) (data : List UInt8) (uid : UInt16) (role : UserRole)
      (permissions : FilePermissions) (readonly : Bool)
  | seed (name : Str) (data : List UInt8) (readonly : Bool)
  | create (name : Str) (data : List UInt8) (ownerUid : UInt16) (permissions : FilePermissions)
      (readonly : Bool)
  | load (name : Str) (data : List UInt8) (ownerUid : UInt16) (permissions : FilePermissions)
      (readonly : Bool) (createdAt modifiedAt : ℕ)
  | chmod (name : Str) (uid : UInt16) (role : UserRole) (mode : Str)
  | delete (name : Str) (uid : UInt16) (role : UserRole)

namespace FsOp

def perform (now : ℕ) (fs : WarFS) : FsOp → Except FsError Unit × WarFS
  | .write name data uid role permissions readonly =>
    fs.writeInternalOwned name data uid role permissions readonly now
  | .seed name data readonly => fs.seedSystem name data readonly now
  | .create name data ownerUid permissions readonly =>
    fs.createNewAs name data ownerUid permissions readonly now
  | .load name data ownerUid permissions readonly createdAt modifiedAt =>
    fs.loadFileFromDisk name data ownerUid permissions readonly createdAt modifiedAt
  | .chmod name uid role mode => fs.chmodAs name uid role mode
  | .delete name uid role => fs.deleteAs name uid role

def name : FsOp → Str
  | .write name _ _ _ _ _ | .seed name _ _ | .create name _ _ _ _ | .load name _ _ _ _ _ _
  | .chmod name _ _ _ | .delete name _ _ => name

/-- The value the operation puts under the canonical path, given the one that
is there. -/
def update (now : ℕ) (canonical : Str) : FsOp → Option FileEntry → Option FileEntry
  | .write _ data _ _ permissions readonly, old =>
    some <| match old with
      | some entry => { entry with data, modifiedAt := now, readonly }
      | none => newEntry canonical data permissions readonly now
  | .seed _ data readonly, old =>
    some <| match old with
      | some entry =>
        { entry with
          data, modifiedAt := now, readonly, ownerUid := 0
          permissions := system }
      | none => newEntry canonical data system readonly now
  | .create _ data ownerUid permissions readonly, _ =>
    some { newEntry canonical data permissions readonly now with ownerUid }
  | .load _ data ownerUid permissions readonly createdAt modifiedAt, old =>
    some <| match old with
      | some entry =>
        { entry with
          data, createdAt, modifiedAt, readonly, ownerUid
          permissions := { permissions with ownerUid } }
      | none =>
        ⟨canonical, data, createdAt, modifiedAt, readonly, ownerUid, { permissions with ownerUid }⟩
  | .chmod _ _ _ mode, old =>
    old.map fun entry => { entry with permissions := (entry.permissions.applyModeString mode).2 }
  | .delete _ _ _, _ => none

end FsOp

namespace WarFS

variable (fs : WarFS) (canonical : Str)

/-- The entries with a value put under a canonical path. -/
def place (value : Option FileEntry) : WarFS :=
  match value with
  | none => { fs with files := fs.files.eraseP fun entry => entry.name = canonical }
  | some entry =>
    if (fs.find canonical).isSome then
      { fs with files := modifyFirst FileEntry.name canonical (fun _ => entry) fs.files }
    else { fs with files := sortByName (fs.files ++ [entry]) }

lemma place_of_find {fs : WarFS} {can : Str} {old : FileEntry}
    (h : fs.find can = some old) (f : FileEntry → FileEntry) :
    { fs with files := modifyFirst FileEntry.name can f fs.files } =
      fs.place can (some (f old)) := by
  have hso : (fs.find can).isSome := by rw [h]; rfl
  simp only [place, hso, if_true]
  rw [modifyFirst_congr FileEntry.name (g := fun _ => f old) h rfl]

lemma place_of_new {fs : WarFS} {e : FileEntry} (h : fs.find e.name = none) :
    { fs with files := sortByName (fs.files ++ [e]) } = fs.place e.name (some e) := by
  simp [place, h]

/-- What is known about a value that an operation puts under a canonical path:
a new one keeps the limits, a changed one keeps the data and the owner, and
only what is there is removed. -/
def Admits : Option FileEntry → Prop
  | none => (fs.find canonical).isSome = true
  | some entry =>
    entry.name = canonical ∧
      ((canonical ≠ ['/'] ∧ entry.data.length ≤ maxFileSize ∧
          fs.usedWithout canonical + entry.data.length ≤ totalCapacity ∧
          (fs.find canonical = none → fs.files.length < fs.maxFiles)) ∨
        ∃ old, fs.find canonical = some old ∧ entry.data = old.data)

end WarFS

namespace FsOp

variable (now : ℕ) (fs : WarFS) (op : FsOp)

/-- The operation fails and changes nothing. -/
def Refused : Prop := ∃ error, op.perform now fs = (.error error, fs)

/-- The operation puts its value under the canonical path. -/
def Done : Prop :=
  ∃ canonical, canonicalPath op.name = .ok canonical ∧
    fs.Admits canonical (op.update now canonical (fs.find canonical)) ∧
    op.perform now fs = (.ok (), fs.place canonical (op.update now canonical (fs.find canonical)))

end FsOp

namespace WarFS

variable (fs : WarFS)

/-- The checks that a write, a seed and a load begin with. -/
def checked (name : Str) (data : List UInt8) (rest : Str → Except FsError Unit × WarFS) :
    Except FsError Unit × WarFS :=
  if data.length > maxFileSize then (.error .fileTooLarge, fs)
  else
    match canonicalPath name with
    | .error error => (.error error, fs)
    | .ok canonical =>
      if canonical = ['/'] then (.error .invalidFilename, fs)
      else if U64.saturatingAdd (fs.usedWithout canonical) data.length > totalCapacity then
        (.error .filesystemFull, fs)
      else rest canonical

lemma add_le_of_saturatingAdd_le {used len : ℕ}
    (h : ¬ U64.saturatingAdd used len > totalCapacity) : used + len ≤ totalCapacity := by
  simp only [U64.saturatingAdd, totalCapacity] at *
  omega

lemma usedWithout_le (can : Str) : fs.usedWithout can ≤ fs.usedSpace :=
  (List.filter_sublist.map _).sum_le_sum fun _ _ => Nat.zero_le _

lemma checked_cases (name : Str) (data : List UInt8) (rest : Str → Except FsError Unit × WarFS) :
    (∃ error, fs.checked name data rest = (.error error, fs)) ∨
      ∃ canonical, canonicalPath name = .ok canonical ∧ canonical ≠ ['/'] ∧
        data.length ≤ maxFileSize ∧ fs.usedWithout canonical + data.length ≤ totalCapacity ∧
        fs.checked name data rest = rest canonical := by
  by_cases hsz : data.length > maxFileSize
  · exact .inl ⟨_, by rw [checked, if_pos hsz]⟩
  rw [checked, if_neg hsz]
  rcases hcan : canonicalPath name with error | canonical
  · exact .inl ⟨error, rfl⟩
  by_cases hrt : canonical = ['/']
  · exact .inl ⟨_, if_pos hrt⟩
  by_cases hfu : U64.saturatingAdd (fs.usedWithout canonical) data.length > totalCapacity
  · exact .inl ⟨.filesystemFull, by simp only [if_neg hrt, if_pos hfu]⟩
  · exact .inr ⟨canonical, rfl, hrt, not_lt.1 hsz, add_le_of_saturatingAdd_le hfu,
      by simp only [if_neg hrt, if_neg hfu]⟩

/-- The end of a write, a seed and a load: the entry that is there is changed,
or a new one is inserted if there is room. -/
def put (canonical : Str) (change : FileEntry → FileEntry) (entry : FileEntry) :
    Except FsError Unit × WarFS :=
  match fs.find canonical with
  | some _ => (.ok (), { fs with files := modifyFirst FileEntry.name canonical change fs.files })
  | none =>
    if fs.files.length ≥ fs.maxFiles then (.error .filesystemFull, fs)
    else (.ok (), { fs with files := sortByName (fs.files ++ [entry]) })

lemma put_cases {can : Str} {ch : FileEntry → FileEntry} {e : FileEntry} {data : List UInt8}
    (hrt : can ≠ ['/']) (hsz : data.length ≤ maxFileSize)
    (htot : fs.usedWithout can + data.length ≤ totalCapacity)
    (hchg : ∀ old, (ch old).name = old.name ∧ (ch old).data = data)
    (hent : e.name = can ∧ e.data = data) :
    (∃ error, fs.put can ch e = (.error error, fs)) ∨
      (fs.Admits can (some ((fs.find can).elim e ch)) ∧
        fs.put can ch e = (.ok (), fs.place can (some ((fs.find can).elim e ch)))) := by
  cases hf : fs.find can with
  | some old =>
    refine .inr ⟨⟨(hchg old).1.trans (lookup_key hf), .inl ⟨hrt, ?_, ?_, ?_⟩⟩, ?_⟩
    · simpa only [elim_some, (hchg old).2] using hsz
    · simpa only [elim_some, (hchg old).2] using htot
    · simp [hf]
    · simp only [put, hf, place_of_find hf, elim_some]
  | none =>
    by_cases hrm : fs.files.length ≥ fs.maxFiles
    · exact .inl ⟨.filesystemFull, by simp only [put, hf, if_pos hrm]⟩
    refine .inr ⟨⟨hent.1, .inl ⟨hrt, ?_, ?_, fun _ => not_le.1 hrm⟩⟩, ?_⟩
    · simpa only [elim_none, hent.2] using hsz
    · simpa only [elim_none, hent.2] using htot
    · obtain ⟨rfl, -⟩ := hent
      simp only [put, hf, if_neg hrm, place_of_new, elim_none]

/-- The user may write the bytes under the canonical path: they fit, and a file
that is there may be written, or there is room for one more. -/
structure Accepts (canonical : Str) (data : List UInt8) (uid : UInt16) (role : UserRole) :
    Prop where
  ne_root : canonical ≠ ['/']
  size : data.length ≤ maxFileSize
  room : U64.saturatingAdd (fs.usedWithout canonical) data.length ≤ totalCapacity
  writable : ∀ old, fs.find canonical = some old → old.readonly = false ∧
    old.permissions.canWrite uid role = true
  slot : fs.find canonical = none → fs.files.length < fs.maxFiles

variable {fs} {name canonical : Str} {data : List UInt8} {uid : UInt16} {role : UserRole}
  {permissions : FilePermissions} {readonly : Bool} {now : ℕ}

theorem Accepts.write (h : fs.Accepts canonical data uid role)
    (hpath : canonicalPath name = .ok canonical) :
    fs.writeInternalOwned name data uid role permissions readonly now =
      (.ok (), fs.place canonical (some (match fs.find canonical with
        | some old => { old with data, modifiedAt := now, readonly }
        | none => newEntry canonical data permissions readonly now))) := by
  rw [writeInternalOwned, if_neg (not_lt.2 h.size), hpath]
  dsimp only
  rw [if_neg h.ne_root, if_neg (not_lt.2 h.room), storeEntry]
  cases hfound : fs.find canonical with
  | some old =>
    obtain ⟨hreadonly, hwrite⟩ := h.writable old hfound
    simp only [hreadonly, hwrite, Bool.not_true, Bool.false_eq_true, if_false]
    rw [place_of_find hfound]
  | none =>
    dsimp only
    rw [if_neg (not_le.2 (h.slot hfound))]
    exact congrArg (Prod.mk _) (place_of_new hfound)

theorem accepts_of_write {fs' : WarFS}
    (h : fs.writeInternalOwned name data uid role permissions readonly now = (.ok (), fs')) :
    ∃ canonical, canonicalPath name = .ok canonical ∧ fs.Accepts canonical data uid role := by
  rw [writeInternalOwned] at h
  split_ifs at h with hsize
  · cases h
  split at h
  · cases h
  next canonical hpath =>
    split_ifs at h with hroot hroom
    · cases h
    · cases h
    refine ⟨canonical, hpath, hroot, not_lt.1 hsize, not_lt.1 hroom, ?_, ?_⟩
    · intro old hfound
      rw [storeEntry, hfound] at h
      dsimp only at h
      split_ifs at h with hreadonly hwrite
      · cases h
      · cases h
      exact ⟨by simpa using hreadonly, by simpa using hwrite⟩
    · intro hfound
      rw [storeEntry, hfound] at h
      dsimp only at h
      split_ifs at h with hslot
      · cases h
      exact not_le.1 hslot

end WarFS

/-! ### The operations one by one -/

namespace FsOp

variable {now : ℕ} {fs : WarFS} {op : FsOp} {canonical : Str} (name : Str) (data : List UInt8)
  (uid : UInt16) (role : UserRole) (ownerUid : UInt16) {old : FileEntry}

lemma cases_of_put {ch : FileEntry → FileEntry} {e : FileEntry} {data : List UInt8}
    (hperf : op.perform now fs = fs.put canonical ch e)
    (hcan : canonicalPath op.name = .ok canonical) (hrt : canonical ≠ ['/'])
    (hsz : data.length ≤ maxFileSize)
    (htot : fs.usedWithout canonical + data.length ≤ totalCapacity)
    (hchg : ∀ old, (ch old).name = old.name ∧ (ch old).data = data)
    (hent : e.name = canonical ∧ e.data = data)
    (hupd : ∀ old, op.update now canonical old = some (old.elim e ch)) :
    Refused now fs op ∨ Done now fs op := by
  rcases fs.put_cases hrt hsz htot hchg hent with ⟨error, hput⟩ | ⟨hadm, hput⟩
  · exact .inl ⟨error, hperf.trans hput⟩
  · rw [← hupd] at hadm hput
    exact .inr ⟨canonical, hcan, hadm, hperf.trans hput⟩

variable (permissions : FilePermissions) (readonly : Bool)

lemma write_cases :
    Refused now fs (.write name data uid role permissions readonly) ∨
      Done now fs (.write name data uid role permissions readonly) := by
  rcases fs.checked_cases name data
      (fs.storeEntry · data uid role permissions readonly now) with
    href | ⟨canonical, hcan, hrt, hsz, htot, hchec⟩
  · exact .inl href
  have hsto : (∃ error, fs.storeEntry canonical data uid role permissions readonly now =
        (.error error, fs)) ∨
      fs.storeEntry canonical data uid role permissions readonly now =
        fs.put canonical (fun e => { e with data, modifiedAt := now, readonly })
          (newEntry canonical data permissions readonly now) := by
    rw [storeEntry, put]
    cases fs.find canonical with
    | some old =>
      cases hro : old.readonly
      · cases hwr : old.permissions.canWrite uid role
        · exact .inl ⟨.permissionDenied, by simp [hro, hwr]⟩
        · exact .inr (by simp [hro, hwr])
      · exact .inl ⟨.readOnly, by simp [hro]⟩
    | none => exact .inr rfl
  rcases hsto with ⟨error, hsto⟩ | hsto
  · exact .inl ⟨error, hchec.trans hsto⟩
  · refine cases_of_put (hchec.trans hsto) hcan hrt hsz htot (fun _ => ⟨rfl, rfl⟩) ⟨rfl, rfl⟩ ?_
    rintro (_ | old) <;> rfl

lemma seed_cases :
    Refused now fs (.seed name data readonly) ∨ Done now fs (.seed name data readonly) := by
  rcases fs.checked_cases name data fun canonical =>
      fs.put canonical (fun e =>
        { e with
          data, modifiedAt := now, readonly, ownerUid := 0
          permissions := system })
        (newEntry canonical data system readonly now) with
    href | ⟨canonical, hcan, hrt, hsz, htot, hchec⟩
  · exact .inl href
  · refine cases_of_put hchec hcan hrt hsz htot (fun _ => ⟨rfl, rfl⟩) ⟨rfl, rfl⟩ ?_
    rintro (_ | old) <;> rfl

lemma load_cases (createdAt modifiedAt : ℕ) :
    Refused now fs (.load name data ownerUid permissions readonly createdAt modifiedAt) ∨
      Done now fs (.load name data ownerUid permissions readonly createdAt modifiedAt) := by
  rcases fs.checked_cases name data fun canonical =>
      fs.put canonical (fun e =>
        { e with
          data, createdAt, modifiedAt, readonly, ownerUid
          permissions := { permissions with ownerUid } })
        ⟨canonical, data, createdAt, modifiedAt, readonly, ownerUid,
          { permissions with ownerUid }⟩ with
    href | ⟨canonical, hcan, hrt, hsz, htot, hchec⟩
  · exact .inl href
  · refine cases_of_put hchec hcan hrt hsz htot (fun _ => ⟨rfl, rfl⟩) ⟨rfl, rfl⟩ ?_
    rintro (_ | old) <;> rfl

lemma create_cases :
    Refused now fs (.create name data ownerUid permissions readonly) ∨
      Done now fs (.create name data ownerUid permissions readonly) := by
  by_cases hsz : data.length > maxFileSize
  · exact .inl ⟨.fileTooLarge, by rw [perform, createNewAs, if_pos hsz]⟩
  cases hcan : canonicalPath name with
  | error error => exact .inl ⟨error, by simp [perform, createNewAs, hsz, hcan]⟩
  | ok canonical =>
    by_cases hrt : canonical = ['/']
    · exact .inl ⟨.invalidFilename, by simp [perform, createNewAs, hsz, hcan, hrt]⟩
    cases hf : fs.find canonical with
    | some => exact .inl ⟨.alreadyExists, by simp [perform, createNewAs, hsz, hcan, hrt, hf]⟩
    | none =>
      have hperf : perform now fs (.create name data ownerUid permissions readonly) =
          if !fs.directoryExistsCanonical (parentDirectory canonical) then
            (.error .fileNotFound, fs)
          else if fs.files.length ≥ fs.maxFiles then (.error .filesystemFull, fs)
          else if U64.saturatingAdd fs.usedSpace data.length > totalCapacity then
            (.error .filesystemFull, fs)
          else
            (.ok (), fs.place canonical
              (some { newEntry canonical data permissions readonly now with
                ownerUid })) := by
        simp [perform, createNewAs, hsz, hcan, hrt, hf, place]
      split_ifs at hperf with hpar hrm hfu
      · exact .inl ⟨_, hperf⟩
      · exact .inl ⟨_, hperf⟩
      · exact .inl ⟨_, hperf⟩
      · refine .inr ⟨canonical, hcan, ?_, hperf⟩
        refine ⟨rfl, .inl ⟨hrt, not_lt.1 hsz, ?_, fun _ => not_le.1 hrm⟩⟩
        exact (Nat.add_le_add_right (fs.usedWithout_le canonical) _).trans
          (add_le_of_saturatingAdd_le hfu)

/-- The caller may change the mode of the file or delete it. -/
def Reaches (fs : WarFS) (name : Str) (uid : UInt16) (role : UserRole) (canonical : Str)
    (old : FileEntry) : Prop :=
  canonicalPath name = .ok canonical ∧ fs.find canonical = some old ∧ old.readonly = false ∧
    (role = .admin ∨ old.ownerUid = uid)

lemma deleteAs_cases (fs : WarFS) (name : Str) (uid : UInt16) (role : UserRole) :
    (∃ canonical entry, Reaches fs name uid role canonical entry ∧
        fs.deleteAs name uid role = (.ok (), fs.place canonical none)) ∨
      (¬ ∃ canonical entry, Reaches fs name uid role canonical entry) ∧
        ∃ error, fs.deleteAs name uid role = (.error error, fs) := by
  rw [deleteAs]
  by_cases hrea : ∃ canonical entry, Reaches fs name uid role canonical entry
  · obtain ⟨canonical, entry, hcan, hf, hro, hown⟩ := id hrea
    have hallw : ¬ (role ≠ .admin ∧ entry.ownerUid ≠ uid) := by rwa [not_and_or, not_not, not_not]
    refine .inl ⟨canonical, entry, ⟨hcan, hf, hro, hown⟩, ?_⟩
    simp [hcan, hf, hro, if_neg hallw, place]
  · refine .inr ⟨hrea, ?_⟩
    split
    · exact ⟨_, rfl⟩
    · next canonical hcan =>
      split
      · exact ⟨_, rfl⟩
      · next entry hf =>
        split_ifs with hro href
        · exact ⟨_, rfl⟩
        · exact ⟨_, rfl⟩
        · rw [not_and_or, not_not, not_not] at href
          exact absurd ⟨canonical, entry, hcan, hf, by simpa using hro, href⟩ hrea

lemma delete_cases :
    Refused now fs (.delete name uid role) ∨ Done now fs (.delete name uid role) := by
  rcases deleteAs_cases fs name uid role with ⟨canonical, entry, hrea, h⟩ | ⟨-, error, h⟩
  · exact .inr ⟨canonical, hrea.1, by simp [update, WarFS.Admits, hrea.2.1], h⟩
  · exact .inl ⟨error, h⟩

lemma Reaches.perform (now : ℕ) {name : Str} {uid : UInt16} {role : UserRole}
    (h : Reaches fs name uid role canonical old) (mode : Str) :
    perform now fs (.chmod name uid role mode) =
      (if (old.permissions.applyModeString mode).1 then .ok () else .error .invalidFilename,
        fs.place canonical (update now canonical (.chmod name uid role mode)
          (fs.find canonical))) := by
  obtain ⟨hcan, hf, hro, hown⟩ := h
  have hw : ¬ old.readonly := by simp [hro]
  have hallw : ¬ (role ≠ .admin ∧ old.ownerUid ≠ uid) := by rwa [not_and_or, not_not, not_not]
  simp only [FsOp.perform, chmodAs, hcan, hf, if_neg hw, if_neg hallw, place_of_find hf]
  rfl

lemma chmod_cases (mode : Str) :
    Refused now fs (.chmod name uid role mode) ∨
      ∃ canonical old, Reaches fs name uid role canonical old := by
  rcases hcan : canonicalPath name with error | canonical
  · exact .inl ⟨error, by simp [perform, chmodAs, hcan]⟩
  rcases hf : fs.find canonical with _ | old
  · exact .inl ⟨.fileNotFound, by simp [perform, chmodAs, hcan, hf]⟩
  by_cases hro : old.readonly
  · exact .inl ⟨.readOnly, by simp [perform, chmodAs, hcan, hf, hro]⟩
  by_cases hown : role ≠ .admin ∧ old.ownerUid ≠ uid
  · exact .inl ⟨.permissionDenied, by simp [perform, chmodAs, hcan, hf, hro, hown]⟩
  refine .inr ⟨canonical, old, hcan, hf, by simpa using hro, ?_⟩
  simpa only [not_and_or, not_not] using hown

/-- What an operation can do: it fails and changes nothing, it puts its value
under the canonical path, or it is a `chmod_as` whose mode string is rejected
after it has been applied. -/
lemma perform_cases (now : ℕ) (fs : WarFS) (op : FsOp) :
    Refused now fs op ∨ Done now fs op ∨
      ∃ name uid role mode canonical old, op = .chmod name uid role mode ∧
        Reaches fs name uid role canonical old ∧
        (old.permissions.applyModeString mode).1 = false ∧
        op.perform now fs = (.error .invalidFilename,
          fs.place canonical (op.update now canonical (fs.find canonical))) := by
  cases op with
  | write name data uid role permissions readonly =>
    exact (write_cases name data uid role permissions readonly).imp_right .inl
  | seed name data readonly => exact (seed_cases name data readonly).imp_right .inl
  | create name data ownerUid permissions readonly =>
    exact (create_cases name data ownerUid permissions readonly).imp_right .inl
  | load name data ownerUid permissions readonly createdAt modifiedAt =>
    exact (load_cases name data ownerUid permissions readonly createdAt modifiedAt).imp_right .inl
  | chmod name uid role mode =>
    rcases chmod_cases name uid role mode with href | ⟨canonical, old, hrch⟩
    · exact .inl href
    have hperf := hrch.perform now mode
    cases hacce : (old.permissions.applyModeString mode).1 with
    | true =>
      refine .inr (.inl ⟨canonical, hrch.1, ?_, by rw [hperf, hacce]; rfl⟩)
      rw [hrch.2.1]
      exact ⟨show old.name = canonical from lookup_key hrch.2.1, .inr ⟨old, hrch.2.1, rfl⟩⟩
    | false =>
      refine .inr (.inr ⟨name, uid, role, mode, canonical, old, rfl, hrch, hacce, ?_⟩)
      rw [hperf, hacce]
      rfl
  | delete name uid role => exact (delete_cases name uid role).imp_right .inl

def modeLetters (b₀ b₁ b₂ b₃ : UInt8) : Bool :=
  (isReadLetter b₀ || isDash b₀) &&
    (isWriteLetter b₁ || isDash b₁) &&
    (isReadLetter b₂ || isDash b₂) &&
    (isWriteLetter b₃ || isDash b₃)

variable (p : FilePermissions)

/-- The four bytes spell the bits that are set, any other byte standing for a
bit that is not. -/
def Spells (b₀ b₁ b₂ b₃ : UInt8) : Prop :=
  p.ownerRead = isReadLetter b₀ ∧
    p.ownerWrite = isWriteLetter b₁ ∧
    p.othersRead = isReadLetter b₂ ∧
    p.othersWrite = isWriteLetter b₃

/-- A `chmod_as` that is let through has a mode string of letters, or one that
spells what is there. -/
def Harmless (fs : WarFS) : FsOp → Prop
  | .chmod name uid role mode =>
    ∀ canonical old, Reaches fs name uid role canonical old →
      ∀ b₀ b₁ b₂ b₃, Str.toUtf8 mode = [b₀, b₁, b₂, b₃] →
        modeLetters b₀ b₁ b₂ b₃ = true ∨ Spells old.permissions b₀ b₁ b₂ b₃
  | _ => True

lemma applyModeString_harmless (mode : Str) :
    ((p.applyModeString mode).1 = false → (p.applyModeString mode).2 = p) ↔
      ∀ b₀ b₁ b₂ b₃, Str.toUtf8 mode = [b₀, b₁, b₂, b₃] →
        modeLetters b₀ b₁ b₂ b₃ ∨ Spells p b₀ b₁ b₂ b₃ := by
  by_cases hfour : ∃ b₀ b₁ b₂ b₃, Str.toUtf8 mode = [b₀, b₁, b₂, b₃]
  · obtain ⟨b₀, b₁, b₂, b₃, hmo⟩ := hfour
    have happ : p.applyModeString mode =
        (modeLetters b₀ b₁ b₂ b₃, ⟨p.ownerUid, isReadLetter b₀, isWriteLetter b₁, isReadLetter b₂,
          isWriteLetter b₃⟩) := by
      rw [FilePermissions.applyModeString, hmo]
      rfl
    have hspe : (p.applyModeString mode).2 = p ↔ Spells p b₀ b₁ b₂ b₃ := by
      rw [happ, Spells]
      cases p
      simp [eq_comm]
    rw [hspe, happ]
    constructor
    · rintro h c₀ c₁ c₂ c₃ hc
      obtain ⟨rfl, rfl, rfl, rfl⟩ : b₀ = c₀ ∧ b₁ = c₁ ∧ b₂ = c₂ ∧ b₃ = c₃ := by
        simpa using hmo.symm.trans hc
      cases hlett : modeLetters b₀ b₁ b₂ b₃
      · exact .inr (h hlett)
      · exact .inl rfl
    · intro h hlett
      rcases h b₀ b₁ b₂ b₃ hmo with hkno | hspel
      · cases hkno.symm.trans hlett
      · exact hspel
  · have happ : (p.applyModeString mode).2 = p := by
      rw [FilePermissions.applyModeString]
      split
      · next b₀ b₁ b₂ b₃ hmo => exact absurd ⟨b₀, b₁, b₂, b₃, hmo⟩ hfour
      · rfl
    refine ⟨fun _ b₀ b₁ b₂ b₃ hmo => absurd ⟨b₀, b₁, b₂, b₃, hmo⟩ hfour, fun _ _ => happ⟩

/-- Placing what `chmod_as` computes changes nothing exactly when the
permissions stay the same. -/
lemma place_chmod_eq_self_iff {name : Str} {uid : UInt16} {role : UserRole} {mode : Str}
    (hf : fs.find canonical = some old) :
    (fs.place canonical (update now canonical (.chmod name uid role mode) (some old))).files =
        fs.files ↔
      (old.permissions.applyModeString mode).2 = old.permissions := by
  have hpl := place_of_find hf fun e =>
    { e with permissions := (e.permissions.applyModeString mode).2 }
  have hself := modifyFirst_eq_self_iff FileEntry.name
    (f := fun e : FileEntry => { e with permissions := (e.permissions.applyModeString mode).2 })
    (fun _ => rfl) hf
  rw [update, map_some, ← hpl, hself]
  cases old
  simp

/-- A failing operation leaves all entries as they are, unless it is a
`chmod_as` that rejects a four-byte mode string after applying it. -/
theorem perform_error_keeps_iff (now : ℕ) (fs : WarFS) (op : FsOp) :
    (∀ error fs', op.perform now fs = (.error error, fs') → fs'.files = fs.files) ↔
      Harmless fs op := by
  constructor
  · intro hkp
    cases op with
    | chmod _ _ _ mode =>
      intro canonical old hrch
      rw [← applyModeString_harmless]
      intro hrej
      have hperf := hrch.perform now mode
      rw [hrej, hrch.2.1] at hperf
      exact (place_chmod_eq_self_iff hrch.2.1).1 (hkp _ _ hperf)
    | _ => trivial
  · intro hharm error fs' herr
    rcases perform_cases now fs op with
      ⟨error', href⟩ | ⟨canonical, -, -, hdone⟩ |
      ⟨name, uid, role, mode, canonical, old, rfl, hrch, hrej, hperf⟩
    · rw [href] at herr
      exact congrArg files (Prod.mk.inj herr).2.symm
    · rw [hdone] at herr
      cases herr
    · rw [hperf, hrch.2.1] at herr
      rw [← (Prod.mk.inj herr).2, place_chmod_eq_self_iff hrch.2.1]
      exact (applyModeString_harmless _ _).2 (hharm canonical old hrch) hrej

/-- The owner of a private file asks for `r-xx`: the call fails, and the file
is no longer writable by its owner. -/
theorem chmod_rejected_clears_write :
    ∃ (fs fs' : WarFS) (entry entry' : FileEntry),
      perform 0 fs (.chmod ['a'] 1000 .user ['r', '-', 'x', 'x']) =
          (.error .invalidFilename, fs') ∧
        fs.files = [entry] ∧ entry.permissions.ownerWrite = true ∧
        fs'.files = [entry'] ∧ entry'.permissions.ownerWrite = false := by
  refine ⟨⟨[⟨['/', 'a'], [], 0, 0, false, 1000, ⟨1000, true, true, false, false⟩⟩], maxFiles⟩,
    ⟨[⟨['/', 'a'], [], 0, 0, false, 1000, ⟨1000, true, false, false, false⟩⟩], maxFiles⟩,
    _, _, ?_, rfl, rfl, rfl, rfl⟩
  decide

end FsOp

end Waros.Kernel.Fs
