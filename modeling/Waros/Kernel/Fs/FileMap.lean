import Waros.Kernel.Fs.FsRuns
import Waros.Kernel.Fs.Current
import Mathlib.Data.Set.Finite.Basic

/-!
What WarFS is for: a finite map from canonical paths to files. The names that
the calls take only matter through `canonical_path`, and a call that succeeds
changes the map at one path.
-/

namespace Waros.Kernel.Fs

open Lib Auth WarFS

/-- A file of the map. -/
structure Stored where
  data : List UInt8
  ownerUid : UInt16
  permissions : FilePermissions
  readonly : Bool

abbrev FileMap := Str → Option Stored

def FileMap.Finite (files : FileMap) : Prop := {path | files path ≠ none}.Finite

def FileEntry.stored (entry : FileEntry) : Stored :=
  ⟨entry.data, entry.ownerUid, entry.permissions, entry.readonly⟩

namespace FileMap

variable (files : FileMap) (name : Str)

def readAs (uid : UInt16) (role : UserRole) : Except FsError (List UInt8) :=
  match canonicalPath name with
  | .error error => .error error
  | .ok canonical =>
    match files canonical with
    | none => .error .fileNotFound
    | some file =>
      if file.permissions.canRead uid role then .ok file.data else .error .permissionDenied

def contains : Bool :=
  match canonicalPath name with
  | .error _ => false
  | .ok canonical => (files canonical).isSome

end FileMap

/-- The map that the entries stand for. -/
def WarFS.contents (fs : WarFS) : FileMap := fun canonical =>
  (fs.find canonical).map FileEntry.stored

namespace FsOp

/-- What the operation does to the file under its path. -/
def effect : FsOp → Option Stored → Option Stored
  | .write _ data _ _ permissions readonly, old =>
    some <| match old with
      | some file => { file with data, readonly }
      | none => ⟨data, permissions.ownerUid, permissions, readonly⟩
  | .seed _ data readonly, _ => some ⟨data, 0, .system, readonly⟩
  | .create _ data ownerUid permissions readonly, _ => some ⟨data, ownerUid, permissions, readonly⟩
  | .load _ data ownerUid permissions readonly _ _, _ =>
    some ⟨data, ownerUid, { permissions with ownerUid }, readonly⟩
  | .chmod _ _ _ mode, old =>
    old.map fun file => { file with permissions := (file.permissions.applyModeString mode).2 }
  | .delete _ _ _, _ => none

def written : FsOp → Option (List UInt8)
  | .write _ data _ _ _ _ | .seed _ data _ | .create _ data _ _ _ | .load _ data _ _ _ _ _ =>
    some data
  | .chmod _ _ _ _ | .delete _ _ _ => none

lemma update_stored (now : ℕ) (can : Str) (op : FsOp) (old : Option FileEntry) :
    (op.update now can old).map FileEntry.stored = op.effect (old.map FileEntry.stored) := by
  cases op <;> cases old <;> rfl

lemma effect_written {op : FsOp} {data : List UInt8} (h : op.written = some data)
    (old : Option Stored) : ∃ file, op.effect old = some file ∧ file.data = data := by
  cases op <;> cases old <;> cases h <;> exact ⟨_, rfl, rfl⟩

end FsOp

namespace WarFS

variable (fs : WarFS) (name : Str)

/-- The readers see the map and nothing else. -/
lemma readAs_contents (uid : UInt16) (role : UserRole) :
    fs.readAs name uid role = fs.contents.readAs name uid role := by
  rw [readAs, FileMap.readAs]
  rcases canonicalPath name with error | canonical
  · rfl
  simp only [contents]
  cases fs.find canonical with
  | none => rfl
  | some e =>
    simp only [Option.map_some, FileEntry.stored]
    cases e.permissions.canRead uid role <;> rfl

lemma contains_contents : fs.contains name = fs.contents.contains name := by
  rw [contains, FileMap.contains]
  cases canonicalPath name with
  | error => rfl
  | ok => simp [contents]

lemma contents_place {fs : WarFS} {can : Str} {v : Option FileEntry}
    (hfs : fs.WellFormed) (hadm : fs.Admits can v) :
    (fs.place can v).contents = Function.update fs.contents can (v.map FileEntry.stored) := by
  funext n
  rw [contents, find_place hfs.names_nodup hadm.name_eq, Function.update_apply]
  split_ifs
  · rfl
  · rfl

lemma contents_finite : fs.contents.Finite := by
  refine (fs.files.map FileEntry.name).finite_toSet.subset ?_
  intro path hp
  cases hf : fs.find path with
  | none => exact absurd (by simp [contents, hf]) hp
  | some e => exact List.mem_map.2 ⟨e, lookup_mem hf, lookup_key hf⟩

end WarFS

namespace FileMap

variable {files : FileMap} {name other canonical : Str} {value : Option Stored}

section
variable (hcan : canonicalPath name = .ok canonical)
include hcan

section
variable (hs : canonicalPath other = canonicalPath name)
include hs

lemma contains_update_same :
    contains (Function.update files canonical value) other = value.isSome := by
  simp [contains, hs, hcan]

lemma readAs_update_same {file : Stored} (uid : UInt16) :
    readAs (Function.update files canonical (some file)) other uid .admin = .ok file.data := by
  simp [readAs, hs, hcan, FilePermissions.canRead]

end

section
variable (ho : canonicalPath other ≠ canonicalPath name)
include ho

lemma readAs_update_other (uid : UInt16) (role : UserRole) :
    readAs (Function.update files canonical value) other uid role =
      readAs files other uid role := by
  rw [readAs, readAs]
  cases h : canonicalPath other with
  | error => rfl
  | ok path =>
    have hne : path ≠ canonical := by
      rintro rfl
      exact ho (h.trans hcan.symm)
    simp [Function.update_of_ne hne]

lemma contains_update_other :
    contains (Function.update files canonical value) other = contains files other := by
  rw [contains, contains]
  cases h : canonicalPath other with
  | error => rfl
  | ok path =>
    have hne : path ≠ canonical := by
      rintro rfl
      exact ho (h.trans hcan.symm)
    simp [Function.update_of_ne hne]

end

end

end FileMap

namespace FsOp

/-- A call that succeeds changes the map at the canonical path of its name;
what it removes was there. -/
lemma contents_of_ok {fs fs' : WarFS} {now : ℕ} {op : FsOp} (hfs : fs.WellFormed)
    (h : op.perform now fs = (.ok (), fs')) :
    ∃ canonical, canonicalPath op.name = .ok canonical ∧
      fs'.contents = Function.update fs.contents canonical (op.effect (fs.contents canonical)) ∧
      (op.effect (fs.contents canonical) = none → (fs.contents canonical).isSome) := by
  rcases perform_cases now fs op with
    ⟨error, href⟩ | ⟨canonical, hcan, hadm, hdone⟩ |
    ⟨name, uid, role, mode, canonical, old, rfl, hrch, -, hperf⟩
  · cases congrArg Prod.fst (href.symm.trans h)
  · obtain rfl := (Prod.mk.inj (hdone.symm.trans h)).2
    have heff : (op.update now canonical (fs.find canonical)).map FileEntry.stored =
        op.effect (fs.contents canonical) := update_stored now canonical op _
    refine ⟨canonical, hcan, ?_, ?_⟩
    · rw [contents_place hfs hadm, heff]
    · intro hno
      rw [← heff, Option.map_eq_none_iff] at hno
      rw [hno] at hadm
      rw [contents, Option.isSome_map]
      exact hadm
  · cases congrArg Prod.fst (hperf.symm.trans h)

/-- After any calls WarFS is a finite map, which is all that its readers see. A
call that succeeds changes it at one path: every spelling of the name reads
what was written, or no longer exists, and every other name is as before. -/
theorem run_refines_fileMap {events : List (ℕ × FsOp)} {now : ℕ} {op : FsOp} {fs fs' : WarFS}
    (hrun : run step WarFS.new events = fs) (hok : op.perform now fs = (.ok (), fs')) :
    fs.contents.Finite ∧
    (∀ name uid role, fs.readAs name uid role = fs.contents.readAs name uid role) ∧
    (∃ canonical, canonicalPath op.name = .ok canonical ∧
      fs'.contents =
        Function.update fs.contents canonical (op.effect (fs.contents canonical))) ∧
    (∀ data, op.written = some data → ∀ m uid, canonicalPath m = canonicalPath op.name →
      fs'.readAs m uid .admin = .ok data) ∧
    (∀ name uid role, op = .delete name uid role → ∀ m,
      canonicalPath m = canonicalPath op.name → fs.contains m = true ∧ fs'.contains m = false) ∧
    (∀ m, canonicalPath m ≠ canonicalPath op.name →
      fs'.contains m = fs.contains m ∧
        ∀ uid role, fs'.readAs m uid role = fs.readAs m uid role) := by
  have hfs : fs.WellFormed := hrun ▸ run_wellFormed events
  obtain ⟨canonical, hcan, hcont, hremo⟩ := contents_of_ok hfs hok
  refine ⟨fs.contents_finite, fs.readAs_contents, ⟨canonical, hcan, hcont⟩, ?_, ?_, ?_⟩
  · intro data hd m uid hm
    obtain ⟨file, hfl, rfl⟩ := effect_written hd (fs.contents canonical)
    rw [readAs_contents, hcont, hfl]
    exact FileMap.readAs_update_same hcan hm uid
  · rintro name uid role rfl m hm
    constructor
    · rw [contains, hm, hcan]
      simpa [contents] using hremo rfl
    · rw [contains_contents, hcont]
      exact FileMap.contains_update_same hcan hm
  · intro m hm
    constructor
    · rw [contains_contents, hcont, contains_contents]
      exact FileMap.contains_update_other hcan hm
    · intro uid role
      rw [readAs_contents, hcont, readAs_contents]
      exact FileMap.readAs_update_other hcan hm uid role

def createA : List (ℕ × FsOp) :=
  [(5, .create ['a'] [1] 1000 ⟨1000, true, true, false, false⟩ false)]

/-- It is deleted as `./a`. -/
theorem run_refines_fileMap_delete :
    perform 6 (run step WarFS.new createA) (.delete ['.', '/', 'a'] 1000 .user) =
        (.ok (), WarFS.new) ∧
      (run step WarFS.new createA).contains ['/', 'a'] = true ∧
      WarFS.new.contains ['/', 'a'] = false := by
  have hdel : perform 6 (run step .new createA) (.delete ['.', '/', 'a'] 1000 .user) =
      (.ok (), .new) := by decide +kernel
  have hdele := (run_refines_fileMap rfl hdel).2.2.2.2.1
  exact ⟨hdel, hdele _ _ _ rfl ['/', 'a'] (by decide)⟩

/-- The calls of a run that succeed. -/
def accepted (fs : WarFS) : List (ℕ × FsOp) → List FsOp
  | [] => []
  | event :: events =>
    (if (event.2.perform event.1 fs).1.isOk then [event.2] else []) ++
      accepted (step fs event) events

/-- What a call that succeeds leaves under a canonical path. -/
def recorded (canonical : Str) (data : Option (List UInt8)) (op : FsOp) : Option (List UInt8) :=
  if canonicalPath op.name = .ok canonical then
    match op with
    | .chmod _ _ _ _ => data
    | op => op.written
  else data

lemma step_data {fs : WarFS} (hfs : fs.WellFormed) (event : ℕ × FsOp) (n : Str) :
    ((step fs event).find n).map FileEntry.data =
      if (event.2.perform event.1 fs).1.isOk then
        recorded n ((fs.find n).map FileEntry.data) event.2
      else (fs.find n).map FileEntry.data := by
  obtain ⟨now, op⟩ := event
  by_cases hn : canonicalPath op.name = .ok n
  · unfold recorded
    rw [if_pos hn, step]
    rcases perform_cases now fs op with
      ⟨error, href⟩ | ⟨canonical, hcan, hadm, hdone⟩ |
      ⟨name, uid, role, mode, canonical, old, rfl, hrch, -, hperf⟩
    · rw [href]
      rfl
    · obtain rfl := Except.ok.inj (hcan.symm.trans hn)
      rw [hdone, find_place hfs.names_nodup hadm.name_eq, if_pos rfl]
      cases op <;> cases fs.find canonical <;> rfl
    · -- the mode string was rejected after it had been applied
      obtain rfl := Except.ok.inj (hrch.1.symm.trans hn)
      rw [hperf, hrch.2.1, find_place hfs.names_nodup, if_pos rfl]
      · rfl
      · rintro _ ⟨⟩
        exact (lookup_key hrch.2.1 : old.name = canonical)
  · unfold recorded
    rw [find_step_of_ne fs _ hn, if_neg hn, ite_self]

/-- After any calls, what is read under a name is what the calls that succeeded under
its path left there, in their order. -/
theorem read_run (events : List (ℕ × FsOp)) (name : Str) :
    (run step WarFS.new events).read name =
      match canonicalPath name with
      | .error error => .error error
      | .ok canonical =>
        match (accepted WarFS.new events).foldl (recorded canonical) none with
        | none => .error .fileNotFound
        | some data => .ok data := by
  have hdata {fs : WarFS} (hfs : fs.WellFormed) (n : Str) :
      ((run step fs events).find n).map FileEntry.data =
        (accepted fs events).foldl (recorded n) ((fs.find n).map FileEntry.data) := by
    induction events generalizing fs with
    | nil => rfl
    | cons event events ih =>
      rw [run_cons, ih (step_wellFormed fs event hfs), step_data hfs, accepted]
      split_ifs <;> rfl
  rw [WarFS.read, readAs]
  cases canonicalPath name with
  | error => rfl
  | ok canonical =>
    have hreplay := hdata wellFormed_new canonical
    rw [show (WarFS.new.find canonical).map FileEntry.data = none from rfl] at hreplay
    dsimp only
    rw [← hreplay]
    cases (run step new events).find canonical with
    | none => rfl
    | some entry => simp [FilePermissions.canRead]

end FsOp

/-!
## The home check

The home check and the path it protects.

The check looks at the resolved string as it is spelled; WarFS acts on its
canonical path. A spelling such as `//root/notes` or `/home/./ada/key` passes
the check and still names a protected entry. The operations keep out of other
homes exactly on paths that are `PlainlySpelled`.
-/

open CurrentSession Str FilePermissions
open List (append_assoc singleton_append)

/-- The string spells `dir` or something below it. -/
def SpelledIn (dir s : Str) : Prop := s = dir ∨ (dir ++ ['/']) <+: s
  deriving Decidable

variable (db : UserDB) (uid : UInt16) (remainder : Str)

/-- The path is `/root` or below it, or below the home of an account with
another uid. -/
def Protected (path : Str) : Prop :=
  SpelledIn rootDir path ∨
    ∃ account ∈ db.users, account.uid ≠ uid ∧
      (homePrefix ++ account.username ++ ['/']) <+: path
  deriving Decidable

/-- The resolved string `s` spells the protected directory its canonical path
`path` is in, and the session is not root's own. -/
def PlainlySpelled (s path : Str) : Prop :=
  (SpelledIn rootDir path → uid ≠ 0 ∧ SpelledIn rootDir s) ∧
    ∀ account ∈ db.users, account.uid ≠ uid →
      (homePrefix ++ account.username ++ ['/']) <+: path →
        SpelledIn (homePrefix ++ account.username) s
  deriving Decidable

def rootName : Str := ['r', 'o', 'o', 't']

def homeName : Str := ['h', 'o', 'm', 'e']

variable {c s username : Str}

lemma components_spelledIn (hc : components c = [c])
    (h : SpelledIn ('/' :: c) s) : ∃ rest, components s = c :: rest := by
  rcases h with rfl | ⟨t, rfl⟩
  · exact ⟨[], by rw [components_cons_slash, hc]⟩
  · refine ⟨components t, ?_⟩
    rw [append_assoc, singleton_append, components_append_slash, components_cons_slash, hc]
    rfl

lemma components_homePrefix :
    components (homePrefix ++ remainder) = homeName :: components remainder := by
  rfl

lemma components_username (h : isValidUsername username) : components username = [username] := by
  simp only [isValidUsername, Bool.and_eq_true, List.all_eq_true] at h
  obtain ⟨⟨hne, -⟩, hall⟩ := h
  apply components_of_piece
  · intro hsla
    cases hall '/' hsla
  · rintro rfl
    cases hne
  · rintro rfl
    cases hall '.' (by simp)

/-- A path below the home of a user starts with the components `home` and the
user's name. -/
lemma components_belowHome (hname : isValidUsername username)
    (h : (homePrefix ++ username ++ ['/']) <+: s) :
    ∃ rest, components s = homeName :: username :: rest := by
  obtain ⟨t, rfl⟩ := h
  refine ⟨components t, ?_⟩
  rw [append_assoc, append_assoc, singleton_append, components_homePrefix,
    components_append_slash, components_username hname]
  rfl

/-- The first piece of a path is its first component, unless it is empty or a
dot. -/
lemma components_head {piece : Str} {rest : List Str}
    (hpie : (s.splitOn '/').headD [] = piece) (hcom : components s = c :: rest) :
    piece = [] ∨ piece = ['.'] ∨ piece = c := by
  obtain ⟨first, others, hspl⟩ := List.exists_cons_of_ne_nil (List.splitOn_ne_nil '/' s)
  rw [hspl] at hpie
  rw [components, hspl] at hcom
  by_cases hkp : first ≠ [] ∧ first ≠ ['.']
  · rw [List.filter_cons_of_pos (by simpa using hkp)] at hcom
    exact .inr (.inr (hpie.symm.trans (List.cons.inj hcom).1))
  · rw [not_and_or, not_not, not_not] at hkp
    rcases hkp with hemp | hdot
    · exact .inl (hpie.symm.trans hemp)
    · exact .inr (.inl (hpie.symm.trans hdot))

/-- A string whose first piece is `c` spells `dir/c` after `dir/`. -/
lemma spelledIn_of_head {dir : Str} (hc : (s.splitOn '/').headD [] = c) :
    SpelledIn (dir ++ c) (dir ++ s) := by
  obtain ⟨first, others, hspl⟩ := List.exists_cons_of_ne_nil (List.splitOn_ne_nil '/' s)
  have hjoin : ['/'].intercalate (s.splitOn '/') = s := List.intercalate_splitOn '/'
  rw [hspl] at hc hjoin
  have hfst : first = c := hc
  subst hfst
  cases others with
  | nil => exact .inl (by rw [← hjoin]; simp)
  | cons other others =>
    refine .inr ⟨['/'].intercalate (other :: others), ?_⟩
    rw [← hjoin]
    simp

lemma not_spelledIn_root_of_home (rem : Str) : ¬ SpelledIn rootDir (homePrefix ++ rem) := by
  rintro (h | ⟨t, h⟩)
  all_goals cases (List.cons.inj (List.cons.inj h).2).1

lemma protectedPathOwner_root (h : SpelledIn rootDir s) :
    protectedPathOwner db s = some (0, rootName) := by
  rw [SpelledIn] at h
  rw [protectedPathOwner, if_pos h]
  rfl

lemma protectedPathOwner_home :
    protectedPathOwner db (homePrefix ++ remainder) =
      (db.findByName ((remainder.splitOn '/').headD [])).map
        fun user => (user.uid, user.username) := by
  have hstp : stripPrefix homePrefix (homePrefix ++ remainder) = some remainder :=
    stripPrefix_eq_some.mpr rfl
  have hrt := not_spelledIn_root_of_home remainder
  rw [SpelledIn] at hrt
  rfl

lemma protectedPathOwner_other (hrt : ¬ SpelledIn rootDir s)
    (hhome : stripPrefix homePrefix s = none) : protectedPathOwner db s = none := by
  rw [SpelledIn] at hrt
  rw [protectedPathOwner, if_neg hrt, hhome]

lemma canAccessPath_session {ses : Session} (hro : ses.user.role ≠ .admin) (path : Str) :
    canAccessPath db (some ses) path =
      ((protectedPathOwner db (trim path)).all fun owner => owner.1 == ses.user.uid) := by
  simp only [canAccessPath, if_neg hro]
  cases protectedPathOwner db (trim path) <;> rfl

section
variable {db : UserDB} {session : Session} {path n : Str}

/-- A plainly spelled protected path is refused. -/
lemma canAccessPath_of_plainlySpelled (hdb : db.WellNamed)
    (hro : session.user.role ≠ .admin) (hn : Protected db session.user.uid n)
    (hplace : PlainlySpelled db session.user.uid (trim path) n) :
    canAccessPath db (some session) path = false := by
  rw [canAccessPath_session db hro]
  rcases hn with hrt | ⟨acc, hacct, huid, hbel⟩
  · obtain ⟨h0, hspel⟩ := hplace.1 hrt
    rw [protectedPathOwner_root db hspel]
    simpa using symm h0
  · have hspel := hplace.2 acc hacct huid hbel
    have hsla : '/' ∉ acc.username := by
      intro hmem
      have hval := hdb.valid acc hacct
      simp only [isValidUsername, Bool.and_eq_true, List.all_eq_true] at hval
      cases hval.2 '/' hmem
    have howner : protectedPathOwner db (trim path) = some (acc.uid, acc.username) := by
      -- the first piece after `/home/` is the user's name
      rcases hspel with hs | ⟨t, hs⟩
      · rw [hs, protectedPathOwner_home, List.splitOn_eq_singleton hsla]
        simp [hdb.findByName_of_mem hacct]
      · rw [← hs, append_assoc, append_assoc, singleton_append,
          protectedPathOwner_home, List.splitOn_append_cons_self_of_not_mem hsla]
        simp [hdb.findByName_of_mem hacct]
    rw [howner]
    simpa using huid

/-- No account is registered under an empty name or a dot. -/
lemma findByName_of_not_name (hdb : db.WellNamed) {name : Str}
    (h : name = [] ∨ name = ['.']) : db.findByName name = none := by
  rcases hf : db.findByName name with _ | acc
  · rfl
  have hval := hdb.valid acc (UserDB.findByName_mem hf)
  rw [UserDB.findByName_username hf] at hval
  rcases h with rfl | rfl
  · cases hval
  · cases hval

/-- A path that is not plainly spelled passes the check. Here `n` is the
canonical path of the string or of the directory marker below it. -/
lemma canAccessPath_of_not_plainlySpelled (hdb : db.WellNamed)
    (hro : session.user.role ≠ .admin) {extra : List Str}
    (hext : extra = [] ∨ extra = [directoryMarkerName])
    (hn : components n = components (trim path) ++ extra)
    (hplace : ¬ PlainlySpelled db session.user.uid (trim path) n) :
    canAccessPath db (some session) path := by
  rw [canAccessPath_session db hro]
  by_cases hrt : SpelledIn rootDir (trim path)
  · rw [protectedPathOwner_root db hrt]
    obtain ⟨rest, hr⟩ := components_spelledIn (c := rootName) (by decide) hrt
    by_contra hden
    refine hplace ⟨fun _ => ⟨?_, hrt⟩, ?_⟩
    · intro h0
      exact hden (by simp [h0])
    · intro acc hacct _ hbel
      obtain ⟨rest', hr'⟩ := components_belowHome (hdb.valid acc hacct) hbel
      rw [hn, hr] at hr'
      cases (List.cons.inj hr').1
  · rcases hstp : stripPrefix homePrefix (trim path) with _ | remainder
    · rw [protectedPathOwner_other db hrt hstp]; rfl
    have hs := stripPrefix_eq_some.mp hstp
    rw [hs, protectedPathOwner_home]
    rw [hs, components_homePrefix] at hn
    by_contra hden
    refine hplace ⟨?_, ?_⟩
    · intro hnro
      obtain ⟨rest, hr⟩ := components_spelledIn (c := rootName) (by decide) hnro
      rw [hr] at hn
      cases (List.cons.inj hn).1
    · intro acc hacct _ hbel
      have hval := hdb.valid acc hacct
      obtain ⟨rest, hr⟩ := components_belowHome hval hbel
      rw [hr] at hn
      have htail := (List.cons.inj hn).2
      rw [hs]
      cases hcom : components remainder with
      | nil =>
        -- only the marker is left, and it is nobody's name
        rw [hcom] at htail
        rcases hext with rfl | rfl
        · cases htail
        · rw [(List.cons.inj htail).1] at hval
          cases hval
      | cons =>
        rw [hcom] at htail
        rw [← (List.cons.inj htail).1] at hcom
        rcases components_head rfl hcom with hemp | hdot | hname
        · rw [findByName_of_not_name hdb (.inl hemp)] at hden
          exact absurd rfl hden
        · rw [findByName_of_not_name hdb (.inr hdot)] at hden
          exact absurd rfl hden
        · exact spelledIn_of_head hname

end

inductive CurrentOp
  | write
  | touch
  | mkdir
  | delete
  | read
  deriving DecidableEq

namespace CurrentOp

/-- The operation on behalf of a session, with its result forgotten. -/
def perform (op : CurrentOp) (db : UserDB) (s : CurrentSession) (fs : WarFS) (path : Str)
    (data : List UInt8) (now : ℕ) : Except FsError Unit × WarFS :=
  match op with
  | .write => withResult () (writeCurrent db s fs path data now)
  | .touch => withResult () (touchCurrent db s fs path now)
  | .mkdir => withResult () (mkdirCurrent db s fs path now)
  | .delete => withResult () (deleteCurrent db s fs path)
  | .read => withResult () (readCurrent db s fs path, fs)

/-- The string handed to WarFS: the resolved path, or the marker below it. -/
def operand (op : CurrentOp) (s : CurrentSession) (path : Str) : Str :=
  match op with
  | .mkdir => directoryMarkerPath (resolvePath s path)
  | .write | .touch | .delete | .read => resolvePath s path

/-- The canonical path of the entry the operation names. -/
def target (op : CurrentOp) (s : CurrentSession) (path : Str) : Except FsError Str :=
  canonicalPath (op.operand s path)

variable {op : CurrentOp} {s : CurrentSession} (uid : UInt16) {db : UserDB} {fs : WarFS}
  {path n name : Str}

/-- Every success passed the home check, names a canonical path, and changes
no other entry. -/
lemma perform_ok {fs' : WarFS} {data : List UInt8} {now : ℕ}
    (h : op.perform db s fs path data now = (.ok (), fs')) :
    canAccessPath db s (resolvePath s path) ∧
      (op = .mkdir → directoryExists s fs (parentDirectory (resolvePath s path))) ∧
      ∃ n, op.target s path = .ok n ∧ ∀ n', n' ≠ n → fs'.find n' = fs.find n' := by
  cases op with
  | write | touch =>
    obtain ⟨_, h, -⟩ := withResult_eq_ok.mp h
    simp only [writeCurrent, touchCurrent] at h
    split_ifs at h with hac
    · cases h
    · obtain ⟨_, h, -⟩ := withResult_eq_ok.mp h
      exact ⟨by simpa using hac, by simp, FsOp.perform_ok now (.write ..) h⟩
  | mkdir =>
    obtain ⟨_, h, -⟩ := withResult_eq_ok.mp h
    simp only [mkdirCurrent] at h
    split_ifs at h with hac hpar
    · cases h
    · cases h
    · obtain ⟨_, h, -⟩ := withResult_eq_ok.mp h
      exact ⟨by simpa using hac, fun _ => by simpa using hpar, FsOp.perform_ok now (.write ..) h⟩
  | delete =>
    obtain ⟨_, h, -⟩ := withResult_eq_ok.mp h
    simp only [deleteCurrent] at h
    split_ifs at h with hac
    · cases h
    · obtain ⟨_, h, -⟩ := withResult_eq_ok.mp h
      exact ⟨by simpa using hac, by simp, FsOp.perform_ok now (.delete ..) h⟩
  | read =>
    obtain ⟨_, h, -⟩ := withResult_eq_ok.mp h
    obtain ⟨hrd, rfl⟩ := Prod.mk.inj h
    simp only [readCurrent] at hrd
    split_ifs at hrd with hac
    refine ⟨by simpa using hac, by simp, ?_⟩
    split at hrd
    · next hd =>
      obtain ⟨n, _, hn, -⟩ := readAs_ok hd
      exact ⟨n, hn, fun _ _ => rfl⟩
    · cases hrd

/-- The components of the target are those of the resolved string, with the
marker added for a directory. -/
lemma target_components (h : op.target s path = .ok n) :
    ∃ extra, (extra = [] ∨ extra = [directoryMarkerName]) ∧ (op = .mkdir → extra ≠ []) ∧
      components n = components (trim (resolvePath s path)) ++ extra := by
  obtain ⟨-, hprop, hn, -⟩ := canonicalPath_eq_ok.mp h
  have hcom : components n = components (trim (op.operand s path)) := by
    rw [hn, components_render hprop]
  rw [hcom]
  by_cases hmkd : op = .mkdir
  · refine ⟨[directoryMarkerName], .inr rfl, by simp, ?_⟩
    subst hmkd
    simp only [operand, directoryMarkerPath] at hprop ⊢
    split_ifs at hprop ⊢ with hrt
    · rw [hrt]
      decide
    · have hname : Proper directoryMarkerName := by decide
      have hmar : ∀ x ∈ directoryMarkerName, isWhitespace x = false := by
        apply no_whitespace_of_components
        rw [components_of_proper hname]
        simpa using hname
      rw [append_assoc, singleton_append,
        trim_append_cons (by decide) hmar, components_append_slash] at hprop ⊢
      -- proper components hold no whitespace, so nothing is trimmed at the end either
      have hclear := no_whitespace_of_components
        fun c hc => hprop c (List.mem_append_left _ hc)
      have htrim : trim (resolvePath s path) = (resolvePath s path).dropWhile isWhitespace := by
        rw [trim, List.rdropWhile_eq_self_iff]
        intro hne
        simp [hclear]
      rw [htrim]
      rfl
  · refine ⟨[], .inl rfl, fun h => absurd h hmkd, ?_⟩
    rw [List.append_nil]
    cases op <;> first | rfl | exact absurd rfl hmkd

/-- Some WarFS has the directory: it is the root or a canonical path. -/
def DirectoryPossible (s : CurrentSession) (path : Str) : Prop :=
  resolvePath s path = ['/'] ∨
    canonicalPath (resolvePath s path ++ ['/', 'x']) = .ok (resolvePath s path ++ ['/', 'x'])
  deriving Decidable

lemma directoryPossible_of_exists (hfs : fs.NamesCanonical)
    (h : directoryExists s fs path) : DirectoryPossible s path := by
  simp only [directoryExists] at h
  split_ifs at h with hrt
  · exact .inl hrt
  · obtain ⟨e, hent, hname⟩ := List.any_eq_true.mp h
    have hbel : (resolvePath s path ++ ['/']) <+: e.name := by
      rw [Bool.or_eq_true, beq_iff_eq, List.isPrefixOf_iff_prefix] at hname
      rcases hname with hname | hname
      · rw [hname, directoryMarkerPath, if_neg hrt]
        exact List.prefix_append _ _
      · exact hname
    exact .inr (canonicalPath_sibling (hfs e hent) hbel)

/-! ### Filesystems on which an operation succeeds -/

def oneFile (name : Str) : WarFS := ⟨[newEntry name [] (privateFor uid) false 0], maxFiles⟩

lemma oneFile_namesCanonical (h : canonicalPath name = .ok name) :
    (oneFile uid name).NamesCanonical := by
  intro e hent
  rw [List.mem_singleton.mp hent]
  exact h

lemma oneFile_find_self (name : Str) :
    (oneFile uid name).find name = some (newEntry name [] (privateFor uid) false 0) := by
  simp [find, oneFile, lookup, newEntry]

lemma oneFile_find_other {other : Str} (h : other ≠ name) :
    (oneFile uid name).find other = none := by
  simp [find, oneFile, lookup, newEntry, symm h]

/-- A write of an empty new file succeeds on a filesystem without data. -/
lemma writeAs_succeeds (fs : WarFS) (uid : UInt16) (role : UserRole)
    (perms : FilePermissions) (hname : canonicalPath name = .ok n) (hrt : n ≠ ['/'])
    (hemp : ∀ entry ∈ fs.files, entry.data = []) (hnew : fs.find n = none)
    (hrm : fs.files.length < fs.maxFiles) :
    (fs.writeAs name [] uid role perms 0).1 = .ok () := by
  have hused : fs.usedWithout n = 0 := by
    apply List.sum_eq_zero
    intro x hx
    obtain ⟨entry, hent, rfl⟩ := List.mem_map.mp hx
    rw [hemp entry (List.mem_of_mem_filter hent)]
    rfl
  have hfit : fs.usedWithout n + ([] : List UInt8).length ≤ totalCapacity := by
    rw [hused]
    decide
  obtain ⟨fs', hwr, -⟩ := writeInternalOwned_create uid role perms false 0
    hname hrt (Nat.zero_le _) hfit hnew hrm
  rw [writeAs, hwr]

lemma withResult_fst {α β : Type} {a : α} {b : β} {r : Except FsError α × WarFS}
    (h : r.1 = .ok a) : (withResult b r).1 = .ok b := by
  obtain ⟨res, fs⟩ := r
  simp only at h
  rw [h]
  rfl

lemma writeCurrent_succeeds (hac : canAccessPath db s (resolvePath s path))
    (htgt : canonicalPath (resolvePath s path) = .ok n) (hrt : n ≠ ['/']) :
    (writeCurrent db s new path [] 0).1 = .ok (resolvePath s path) := by
  simp only [writeCurrent, hac]
  apply withResult_fst
  exact writeAs_succeeds new _ _ _ htgt hrt (by simp [new]) rfl (by decide)

/-- The directory the new one is to be in exists on some filesystem that does
not have the new directory yet. -/
lemma directoryExists_possible {front : List Str}
    (hn : components n = front ++ [directoryMarkerName]) (h : DirectoryPossible s path) :
    ∃ fs : WarFS, fs.NamesCanonical ∧ directoryExists s fs path ∧
      (∀ entry ∈ fs.files, entry.data = []) ∧ fs.find n = none ∧
      fs.files.length < fs.maxFiles := by
  by_cases hrt : resolvePath s path = ['/']
  · refine ⟨new, ?_, ?_, ?_, rfl, by decide⟩
    · simp [WarFS.NamesCanonical, new]
    · simp [directoryExists, hrt]
    · simp [new]
  · have hx := h.resolve_left hrt
    refine ⟨oneFile 0 (resolvePath s path ++ ['/', 'x']), oneFile_namesCanonical 0 hx, ?_, ?_, ?_,
      (by decide : 1 < maxFiles)⟩
    · simp [directoryExists, oneFile, newEntry]
    · simp [oneFile, newEntry]
    · apply oneFile_find_other
      intro heq
      rw [heq, ← singleton_append, ← append_assoc, append_assoc,
        singleton_append, components_append_slash] at hn
      have hla := congrArg List.getLast? hn
      simp [components_of_proper (by decide : Proper ['x']), directoryMarkerName] at hla

/-- A session that passes the check can really perform the operation. -/
lemma perform_succeeds {ses : Session}
    (hac : canAccessPath db (some ses) (resolvePath (some ses) path))
    (htgt : op.target (some ses) path = .ok n) (hrt : n ≠ ['/'])
    (hpar : op = .mkdir → DirectoryPossible (some ses)
      (parentDirectory (resolvePath (some ses) path))) :
    ∃ fs : WarFS, fs.NamesCanonical ∧ (op.perform db (some ses) fs path [] 0).1 = .ok () := by
  have hcan : canonicalPath n = .ok n := by
    obtain ⟨-, hprop, hn, hlen⟩ := canonicalPath_eq_ok.mp htgt
    rw [hn] at hlen ⊢
    exact canonicalPath_render hprop hlen
  have hown := oneFile_find_self ses.user.uid n
  have huid : currentUid (some ses) = ses.user.uid := rfl
  cases op with
  | write | touch =>
    refine ⟨new, by simp [WarFS.NamesCanonical, new], ?_⟩
    exact withResult_fst (writeCurrent_succeeds hac htgt hrt)
  | mkdir =>
    obtain ⟨extra, hext, hmar, hcom⟩ := target_components htgt
    rw [hext.resolve_left (hmar rfl)] at hcom
    obtain ⟨fs, hfs, hexi, hemp, hnew, hrm⟩ := directoryExists_possible hcom (hpar rfl)
    refine ⟨fs, hfs, ?_⟩
    simp only [perform, mkdirCurrent, hac, hexi]
    exact withResult_fst (withResult_fst (writeAs_succeeds fs _ _ _ htgt hrt hemp hnew hrm))
  | delete =>
    have hname : canonicalPath (resolvePath (some ses) path) = .ok n := htgt
    refine ⟨oneFile ses.user.uid n, oneFile_namesCanonical _ hcan, ?_⟩
    simp only [perform, deleteCurrent, hac, deleteAs, hname, hown, huid]
    simp [newEntry, privateFor, defaultFor, withResult]
  | read =>
    have hname : canonicalPath (resolvePath (some ses) path) = .ok n := htgt
    refine ⟨oneFile ses.user.uid n, oneFile_namesCanonical _ hcan, ?_⟩
    simp only [perform, readCurrent, hac, readAs, hname, hown, huid]
    simp [newEntry, privateFor, defaultFor, canRead, withResult]

/-- No success of the operation, on whatever filesystem, acts on a protected
entry: neither the entry it names nor any entry it changes is one. -/
def HomesProtected (op : CurrentOp) (db : UserDB) (session : Session) (path : Str) : Prop :=
  ∀ (fs fs' : WarFS) (data : List UInt8) (now : ℕ), fs.NamesCanonical →
    op.perform db (some session) fs path data now = (.ok (), fs') →
      ∀ n, op.target (some session) path = .ok n ∨ fs'.find n ≠ fs.find n →
        ¬ Protected db session.user.uid n

/-- The operations of a session without admin role keep out of `/root` and of
other users' homes exactly when the resolved path spells the protected
directory it is in. For `mkdir` only paths whose parent directory can exist
matter. -/
theorem homesProtected_iff (op : CurrentOp) (db : UserDB) (session : Session) (path : Str)
    (hdb : db.WellNamed) (hrole : session.user.role ≠ .admin) :
    op.HomesProtected db session path ↔
      ∀ n, op.target (some session) path = .ok n →
        (op = .mkdir → DirectoryPossible (some session)
          (parentDirectory (resolvePath (some session) path))) →
        PlainlySpelled db session.user.uid (Str.trim (resolvePath (some session) path)) n := by
  constructor
  · intro h n hn hpar
    by_contra hplace
    obtain ⟨extra, hext, -, hcom⟩ := target_components hn
    have hac := canAccessPath_of_not_plainlySpelled hdb hrole hext hcom hplace
    have hprot : Protected db session.user.uid n := by
      by_contra hfree
      rw [Protected, not_or] at hfree
      refine hplace ⟨fun hrt => absurd hrt hfree.1, ?_⟩
      intro acc hacct huid hbel
      exact absurd ⟨acc, hacct, huid, hbel⟩ hfree.2
    have hrt : n ≠ ['/'] := by
      rintro rfl
      rcases hprot with hrt | ⟨acc, -, -, hbel⟩
      · exact absurd hrt (by decide)
      · exact absurd hbel.length_le (by simp [homePrefix])
    obtain ⟨fs, hfs, hsucc⟩ := perform_succeeds hac hn hrt hpar
    exact h fs _ [] 0 hfs (Prod.ext hsucc rfl) n (.inl hn) hprot
  · intro h fs fs' data now hfs hperf n hn hprot
    obtain ⟨hac, hpar, m, hm, hfr⟩ := perform_ok hperf
    have hnm : n = m := by
      rcases hn with hn | hn
      · exact Except.ok.inj (hn.symm.trans hm)
      · by_contra hne
        exact hn (hfr n hne)
    subst hnm
    have hplace := h n hm fun hop => directoryPossible_of_exists hfs (hpar hop)
    rw [canAccessPath_of_plainlySpelled hdb hrole hprot hplace] at hac
    cases hac

/-- Root, and the users `ada` and `bob`. -/
def threeUsers : UserDB :=
  let account (uid : UInt16) (name : Str) (role : UserRole) : UserAccount :=
    ⟨uid, name, [], [], role, UserDB.homeDirFor uid name, true, 0, 0⟩
  ⟨[account 0 rootName .admin, account 1 ['a', 'd', 'a'] .user, account 2 ['b', 'o', 'b'] .user], 3⟩

def bobSession : Session :=
  .start ⟨2, ['b', 'o', 'b'], [], [], .user, homePrefix ++ ['b', 'o', 'b'], true, 0, 0⟩ 0

lemma threeUsers_wellNamed : threeUsers.WellNamed := ⟨by decide, by decide⟩

/-- In the own home nothing protected is reached. -/
theorem homesProtected_ownHome :
    CurrentOp.HomesProtected .write threeUsers bobSession ['~', '/', 'k', 'e', 'y'] := by
  refine (homesProtected_iff _ _ _ _ threeUsers_wellNamed (by decide)).mpr ?_
  intro n hn _
  have hkey : homePrefix ++ ['b', 'o', 'b', '/', 'k', 'e', 'y'] = n :=
    Except.ok.inj ((by decide : CurrentOp.target .write (some bobSession)
      ['~', '/', 'k', 'e', 'y'] = .ok _).symm.trans hn)
  subst hkey
  decide

/-- `bob` writes `//root/x`, which is the file `/root/x`. -/
theorem write_doubleSlash_root :
    (writeCurrent threeUsers (some bobSession) WarFS.new
        ['/', '/', 'r', 'o', 'o', 't', '/', 'x'] [7] 0).2.find
          (rootDir ++ ['/', 'x']) ≠ none ∧
      ¬ CurrentOp.HomesProtected .write threeUsers bobSession
        ['/', '/', 'r', 'o', 'o', 't', '/', 'x'] := by
  refine ⟨by decide, ?_⟩
  intro h
  refine h new _ [7] 0 (by simp [WarFS.NamesCanonical, new])
    (Prod.ext (by decide) rfl) (rootDir ++ ['/', 'x']) (.inl (by decide)) (by decide)

end CurrentOp

end Waros.Kernel.Fs
