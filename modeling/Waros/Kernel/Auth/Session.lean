import Waros.Lib.Text
import Waros.Lib.Lookup

/-!
User accounts and the user database (`kernel/src/auth/users.rs`).
-/

namespace Waros.Kernel.Auth

open Lib

inductive UserRole
  | admin
  | user
  | guest
  deriving DecidableEq

structure UserAccount where
  uid : UInt16
  username : Str
  passwordHash : List UInt8
  salt : List UInt8
  role : UserRole
  homeDir : Str
  active : Bool
  createdAt : ℕ
  lastLogin : ℕ
  deriving DecidableEq

structure UserDB where
  users : List UserAccount
  nextUid : UInt16
  deriving DecidableEq

inductive AuthError
  | invalidUsername
  | invalidPassword
  | userExists
  | userNotFound
  | wrongPassword
  | accountDisabled
  | tooManyUsers
  | cannotDeleteRoot
  | permissionDenied
  | notLoggedIn
  | serializationError
  deriving DecidableEq

def maxUsers : ℕ := 32

/-- `u8::is_ascii_alphanumeric`, on characters: a character beyond ASCII is
encoded in bytes that are not alphanumeric. -/
def isAsciiAlphanumeric (c : Char) : Bool :=
  ('a' ≤ c && c ≤ 'z') || ('A' ≤ c && c ≤ 'Z') || ('0' ≤ c && c ≤ '9')

def isValidUsername (username : Str) : Bool :=
  !username.isEmpty && decide (Str.byteLen username ≤ 32) &&
    username.all fun c => isAsciiAlphanumeric c || c == '_'

namespace UserDB

def findByName (db : UserDB) (username : Str) : Option UserAccount :=
  lookup UserAccount.username username db.users

def findByUid (db : UserDB) (uid : UInt16) : Option UserAccount :=
  lookup UserAccount.uid uid db.users

/-- `u16::saturating_add(1)`. -/
def succUid (uid : UInt16) : UInt16 := if uid = 0xFFFF then uid else uid + 1

def homeDirFor (uid : UInt16) (username : Str) : Str :=
  if uid = 0 then ['/', 'r', 'o', 'o', 't'] else ['/', 'h', 'o', 'm', 'e', '/'] ++ username

def sortByUid (users : List UserAccount) : List UserAccount :=
  users.insertionSort fun left right => left.uid ≤ right.uid

/-- `create_user`, given the salt and the password hash computed for the new
account and the tick counter. -/
def createUser (db : UserDB) (username password : Str) (role : UserRole)
    (salt passwordHash : List UInt8) (now : ℕ) : Except AuthError (UInt16 × UserDB) :=
  if !isValidUsername username then .error .invalidUsername
  else if Str.byteLen password < 4 then .error .invalidPassword
  else if (db.findByName username).isSome then .error .userExists
  else if db.users.length ≥ maxUsers then .error .tooManyUsers
  else
    let uid := db.nextUid
    let account : UserAccount :=
      { uid := uid
        username := username
        passwordHash := passwordHash
        salt := salt
        role := role
        homeDir := homeDirFor uid username
        active := true
        createdAt := now
        lastLogin := 0 }
    .ok (uid, { users := sortByUid (db.users ++ [account]), nextUid := succUid uid })

def deleteUser (db : UserDB) (uid : UInt16) : Except AuthError UserDB :=
  if uid = 0 then .error .cannotDeleteRoot
  else if (db.findByUid uid).isNone then .error .userNotFound
  else .ok { db with users := db.users.eraseP fun user => user.uid = uid }

variable {db : UserDB} {username : Str} {account : UserAccount}

section
variable (h : db.findByName username = some account)
include h

lemma findByName_username : account.username = username := lookup_key h

lemma findByName_mem : account ∈ db.users := lookup_mem h

end

/-- User names are valid and no two accounts share one. -/
structure WellNamed (db : UserDB) : Prop where
  valid : ∀ account ∈ db.users, isValidUsername account.username = true
  nodup : (db.users.map UserAccount.username).Nodup

lemma WellNamed.findByName_of_mem (h : db.WellNamed) (hacct : account ∈ db.users) :
    db.findByName account.username = some account := by
  cases hf : db.findByName account.username with
  | none => exact absurd rfl ((lookup_eq_none UserAccount.username).mp hf account hacct)
  | some =>
    have hnm := findByName_username hf
    have hmem := findByName_mem hf
    rw [List.inj_on_of_nodup_map h.nodup hmem hacct hnm]

end UserDB

/-!
## Session and permissions

The login session and the permission checks
(`kernel/src/auth/session.rs`, `kernel/src/auth/permissions.rs`).

The kernel has one session at a time; `none` is the state before a login and
after a logout, where the accessors fall back to root's values.
-/

open Str

structure Session where
  user : UserAccount
  cwd : Str
  startedAt : ℕ

namespace Session

/-- The session `session::start` sets up for an account. -/
def start (user : UserAccount) (now : ℕ) : Session := ⟨user, user.homeDir, now⟩

end Session

abbrev CurrentSession := Option Session

namespace CurrentSession

variable (s : CurrentSession)

def currentUid : UInt16 := (s.map fun session => session.user.uid).getD 0

def currentRole : UserRole := (s.map fun session => session.user.role).getD .admin

def currentHome : Str := (s.map fun session => session.user.homeDir).getD ['/']

def resolvePath (input : Str) : Str :=
  let trimmed := trim input
  if trimmed = [] then currentHome s
  else
    match s with
    | none => trimmed
    | some session =>
      if trimmed = ['~'] then session.user.homeDir
      else if trimmed = ['.'] then session.cwd
      else
        match stripPrefix ['~', '/'] trimmed with
        | some rest => session.user.homeDir ++ ['/'] ++ rest
        | none =>
          match stripPrefix ['.', '/'] trimmed with
          | some rest => session.cwd ++ ['/'] ++ rest
          | none =>
            if ['/'].isPrefixOf trimmed then trimmed
            else session.cwd ++ ['/'] ++ trimmed

end CurrentSession

/-! ### Permissions -/

structure FilePermissions where
  ownerUid : UInt16
  ownerRead : Bool
  ownerWrite : Bool
  othersRead : Bool
  othersWrite : Bool
  deriving DecidableEq

namespace FilePermissions

variable (uid : UInt16) (p : FilePermissions) (b : UInt8)

def defaultFor : FilePermissions := ⟨uid, true, true, false, false⟩

def privateFor : FilePermissions := defaultFor uid

def system : FilePermissions := ⟨0, true, true, true, false⟩

def shared : FilePermissions := ⟨uid, true, true, true, false⟩

def canRead (uid : UInt16) (role : UserRole) : Bool :=
  if role = .admin then true
  else if uid = p.ownerUid then p.ownerRead
  else p.othersRead

def canWrite (uid : UInt16) (role : UserRole) : Bool :=
  if role = .admin then true
  else if uid = p.ownerUid then p.ownerWrite
  else p.othersWrite

def modeString : Str :=
  [if p.ownerRead then 'r' else '-', if p.ownerWrite then 'w' else '-',
    if p.othersRead then 'r' else '-', if p.othersWrite then 'w' else '-']

/-- The bytes `r` and `R`. -/
def isReadLetter : Bool := b == 0x72 || b == 0x52

/-- The bytes `w` and `W`. -/
def isWriteLetter : Bool := b == 0x77 || b == 0x57

/-- The byte `-`. -/
def isDash : Bool := b == 0x2D

/-- Sets the bits that a mode string of four bytes spells, and returns whether
all four letters are known. An unknown letter clears its bit. -/
def applyModeString (mode : Str) : Bool × FilePermissions :=
  match toUtf8 mode with
  | [b₀, b₁, b₂, b₃] =>
    ((isReadLetter b₀ || isDash b₀) && (isWriteLetter b₁ || isDash b₁) &&
        (isReadLetter b₂ || isDash b₂) && (isWriteLetter b₃ || isDash b₃),
      { p with
        ownerRead := isReadLetter b₀
        ownerWrite := isWriteLetter b₁
        othersRead := isReadLetter b₂
        othersWrite := isWriteLetter b₃ })
  | _ => (false, p)

@[simp] lemma applyModeString_ownerUid (mode : Str) :
    (p.applyModeString mode).2.ownerUid = p.ownerUid := by
  rw [applyModeString]
  split <;> rfl

/-- A mode string gives back the bits it was made of. -/
lemma applyModeString_modeString (p q : FilePermissions) :
    q.applyModeString p.modeString = (true, { p with ownerUid := q.ownerUid }) := by
  obtain ⟨uid, ownerRead, ownerWrite, othersRead, othersWrite⟩ := p
  cases ownerRead <;> cases ownerWrite <;> cases othersRead <;> cases othersWrite <;> rfl

end FilePermissions

def rootDir : Str := ['/', 'r', 'o', 'o', 't']

def homePrefix : Str := ['/', 'h', 'o', 'm', 'e', '/']

def protectedPathOwner (db : UserDB) (path : Str) : Option (UInt16 × Str) :=
  if path = rootDir ∨ (rootDir ++ ['/']) <+: path then some (0, ['r', 'o', 'o', 't'])
  else
    match stripPrefix homePrefix path with
    | none => none
    | some remainder =>
      let username := (remainder.splitOn '/').headD []
      (db.findByName username).map fun user => (user.uid, user.username)

/-- The home check of every file operation on behalf of the session. -/
def canAccessPath (db : UserDB) (s : CurrentSession) (path : Str) : Bool :=
  match s with
  | none => true
  | some session =>
    if session.user.role = .admin then true
    else
      match protectedPathOwner db (trim path) with
      | none => true
      | some (ownerUid, _) => ownerUid == session.user.uid

end Waros.Kernel.Auth
