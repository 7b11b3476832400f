import Mathlib.Algebra.Order.BigOperators.Group.List
import Waros.Kernel.Auth.UserRuns
import Waros.Lib.Bytes

/-!
The file format of the user database (`kernel/src/auth/users.rs`): `serialize`
writes the number of accounts in two bytes, the counter, and the accounts one
after the other. A cursor into the data is the rest of the data from there on.
-/

namespace Waros.Kernel.Auth

open Lib Str UserDB List Bytes Nat

def UserRole.toByte : UserRole → UInt8
  | .admin => 0
  | .user => 1
  | .guest => 2

def UserRole.ofByte (byte : UInt8) : Except AuthError UserRole :=
  if byte = 0 then .ok .admin
  else if byte = 1 then .ok .user
  else if byte = 2 then .ok .guest
  else .error .serializationError

def readBytes (len : ℕ) (data : List UInt8) : Except AuthError (List UInt8 × List UInt8) :=
  if len ≤ data.length then .ok (data.take len, data.drop len) else .error .serializationError

variable (data : List UInt8)

def readU8 : Except AuthError (UInt8 × List UInt8) :=
  match data with
  | [] => .error .serializationError
  | byte :: rest => .ok (byte, rest)

def readU16 : Except AuthError (UInt16 × List UInt8) := do
  let (bytes, rest) ← readBytes 2 data
  return (toU16 bytes, rest)

/-- `read_u64`, as a number. -/
def readU64 : Except AuthError (ℕ × List UInt8) := do
  let (bytes, rest) ← readBytes 8 data
  return (toNat bytes, rest)

def readString (len : ℕ) (data : List UInt8) : Except AuthError (Str × List UInt8) := do
  let (bytes, rest) ← readBytes len data
  match ofUtf8 bytes with
  | some text => return (text, rest)
  | none => .error .serializationError

def serializeAccount (user : UserAccount) : List UInt8 :=
  ofU16 user.uid ++ ([UInt8.ofNat (byteLen user.username)] ++
    (toUtf8 user.username ++ (user.passwordHash ++ (user.salt ++ ([user.role.toByte] ++
      ([UInt8.ofNat (byteLen user.homeDir)] ++ (toUtf8 user.homeDir ++
        ([if user.active then 1 else 0] ++ (ofNat 8 user.createdAt ++
          ofNat 8 user.lastLogin)))))))))

def deserializeAccount : Except AuthError (UserAccount × List UInt8) := do
  let (uid, data) ← readU16 data
  let (usernameLen, data) ← readU8 data
  let (username, data) ← readString usernameLen.toNat data
  let (passwordHash, data) ← readBytes 32 data
  let (salt, data) ← readBytes 16 data
  let (roleByte, data) ← readU8 data
  let role ← UserRole.ofByte roleByte
  let (homeLen, data) ← readU8 data
  let (homeDir, data) ← readString homeLen.toNat data
  let (active, data) ← readU8 data
  let (createdAt, data) ← readU64 data
  let (lastLogin, data) ← readU64 data
  return ({ uid := uid
            username := username
            passwordHash := passwordHash
            salt := salt
            role := role
            homeDir := homeDir
            active := active != 0
            createdAt := createdAt
            lastLogin := lastLogin }, data)

def deserializeAccounts : ℕ → List UInt8 → Except AuthError (List UserAccount × List UInt8)
  | 0, data => .ok ([], data)
  | n + 1, data => do
    let (user, data) ← deserializeAccount data
    let (users, data) ← deserializeAccounts n data
    return (user :: users, data)

namespace UserDB

def serialize (db : UserDB) : List UInt8 :=
  ofU16 (.ofNat db.users.length) ++ (ofU16 db.nextUid ++
    db.users.flatMap serializeAccount)

def deserialize : Except AuthError UserDB := do
  let (userCount, data) ← readU16 data
  let (nextUid, data) ← readU16 data
  let (users, _) ← deserializeAccounts userCount.toNat data
  return { users := users, nextUid := nextUid }

end UserDB

/-! ### Reading back what was written -/

section
variable (rest : List UInt8) {len n : ℕ}

lemma readBytes_append {bs : List UInt8} (h : bs.length = len) :
    readBytes len (bs ++ rest) = .ok (bs, rest) := by
  rw [readBytes, if_pos (by simp [h]), ← h, take_left, drop_left]

lemma readU8_cons (byte : UInt8) : readU8 (byte :: rest) = .ok (byte, rest) := rfl

lemma readU16_append (v : UInt16) : readU16 (ofU16 v ++ rest) = .ok (v, rest) := by
  rw [readU16, readBytes_append rest (length_ofU16 v)]
  simp [bind, Except.bind, pure, Except.pure]

lemma readU64_append {v : ℕ} (hv : v < 2 ^ 64) : readU64 (ofNat 8 v ++ rest) = .ok (v, rest) := by
  rw [readU64, readBytes_append rest (length_ofNat 8 v)]
  simp only [bind, Except.bind, pure, Except.pure, toNat_ofNat]
  rw [mod_eq_of_lt (show v < 256 ^ 8 from hv)]

lemma readString_append (text : Str) (hlen : len = byteLen text) :
    readString len (toUtf8 text ++ rest) = .ok (text, rest) := by
  rw [readString, readBytes_append rest ((length_toUtf8 text).trans hlen.symm)]
  simp [bind, Except.bind, pure, Except.pure, ofUtf8_toUtf8]

@[simp] lemma ofByte_toByte (role : UserRole) : UserRole.ofByte role.toByte = .ok role := by
  cases role <;> rfl

/-- An account whose fields fit the file format. -/
structure Storable (user : UserAccount) : Prop where
  username : byteLen user.username < 256
  passwordHash : user.passwordHash.length = 32
  salt : user.salt.length = 16
  homeDir : byteLen user.homeDir < 256
  homeDir_pos : 0 < byteLen user.homeDir
  createdAt : user.createdAt < 2 ^ 64
  lastLogin : user.lastLogin < 2 ^ 64

lemma toNat_lengthByte (hn : n < 256) : (UInt8.ofNat n).toNat = n := by
  rw [UInt8.toNat_ofNat', mod_eq_of_lt hn]

lemma deserializeAccount_append {user : UserAccount} (h : Storable user) :
    deserializeAccount (serializeAccount user ++ rest) = .ok (user, rest) := by
  have hact : ((if user.active then 1 else 0 : UInt8) != 0) = user.active := by
    cases user.active <;> rfl
  simp only [deserializeAccount, serializeAccount, append_assoc, cons_append, nil_append,
    readU16_append, readU8_cons, bind, Except.bind,
    readString_append _ _ (toNat_lengthByte h.username), readBytes_append _ h.passwordHash,
    readBytes_append _ h.salt, ofByte_toByte, readString_append _ _ (toNat_lengthByte h.homeDir),
    readU64_append _ h.createdAt, readU64_append _ h.lastLogin, hact, pure, Except.pure]

lemma deserializeAccounts_append {us : List UserAccount} (h : ∀ user ∈ us, Storable user)
    (hn : n ≤ us.length) :
    ∃ rest', deserializeAccounts n (us.flatMap serializeAccount ++ rest) =
      .ok (us.take n, rest') := by
  induction n generalizing us with
  | zero => exact ⟨_, rfl⟩
  | succ _ ih =>
    rcases us with _ | ⟨user, us⟩
    · cases hn
    obtain ⟨rest', hr⟩ := ih (fun other ho => h other (by simp [ho]))
      (le_of_succ_le_succ hn)
    rw [flatMap_cons, append_assoc, deserializeAccounts,
      deserializeAccount_append _ (h user (by simp))]
    simp [bind, Except.bind, hr, pure, Except.pure]

end

variable {db : UserDB}

/-- Reading a written database gives its first accounts, as many as the two
bytes of the count say. -/
lemma deserialize_serialize (h : ∀ user ∈ db.users, Storable user) :
    deserialize db.serialize =
      .ok { db with users := db.users.take (db.users.length % 65536) } := by
  obtain ⟨rest', hr⟩ := deserializeAccounts_append [] h
    (mod_le db.users.length 65536)
  rw [append_nil] at hr
  rw [deserialize, serialize]
  simp only [bind, Except.bind, readU16_append, UInt16.toNat_ofNat']
  rw [hr]
  rfl

lemma storable_newAccount {username : Str} (hval : isValidUsername username)
    (role : UserRole) (sec : Secret) (now : UInt64) :
    Storable (db.newAccount username role sec now) := by
  have hlen : byteLen username ≤ 32 := by
    simp only [isValidUsername, Bool.and_eq_true, decide_eq_true_eq] at hval
    exact hval.1.2
  have hhome : 0 < byteLen (homeDirFor db.nextUid username) ∧
      byteLen (homeDirFor db.nextUid username) < 256 := by
    rw [homeDirFor]
    split_ifs
    · decide
    · have hadd : byteLen (['/', 'h', 'o', 'm', 'e', '/'] ++ username) = 6 + byteLen username := by
        rw [← length_toUtf8, toUtf8_append, length_append, length_toUtf8, length_toUtf8]
        rfl
      omega
  exact ⟨lt_of_le_of_lt hlen (by decide), sec.length_passwordHash, sec.length_salt, hhome.2,
    hhome.1, now.toNat_lt, (by decide : 0 < 2 ^ 64)⟩

namespace UserRun

/-- All accounts there are and were fit the file format. -/
structure Stored (s : UserRun) : Prop where
  users : ∀ user ∈ s.db.users, Storable user
  deleted : ∀ user ∈ s.deleted, Storable user
  justDeleted : ∀ user, s.justDeleted = some user → Storable user

lemma storable_restore (h : ∀ user ∈ db.users, Storable user) {account : UserAccount}
    (hacct : Storable account) :
    ∀ user ∈ (db.restoreUserForRollback account).users, Storable user := by
  intro user hu
  rw [restoreUserForRollback] at hu
  split_ifs at hu
  · rw [(sortByUid_perm _).mem_iff, mem_append, mem_singleton] at hu
    rcases hu with hu | rfl
    · exact h user hu
    · exact hacct
  · exact h user hu

lemma storable_modifyFirst {us : List UserAccount} (h : ∀ user ∈ us, Storable user)
    {uid : UInt16} {f : UserAccount → UserAccount}
    (hf : ∀ user, Storable user → Storable (f user)) :
    ∀ user ∈ modifyFirst UserAccount.uid uid f us, Storable user := by
  intro user hu
  rcases mem_modifyFirst UserAccount.uid hu with hu | ⟨old, hold, -, rfl⟩
  · exact h user hu
  · exact hf old (h old hold)

variable {s : UserRun} {n : ℕ}

lemma Stored.step (h : s.Stored) (call : UserCall) : (s.step call).Stored := by
  cases call with
  | createUser username password role sec now =>
    rw [UserRun.step]
    cases hacc : s.db.accepts username password with
    | false =>
      obtain ⟨error, herr⟩ := createUser_of_not_accepts hacc role sec now
      rw [herr]
      exact h
    | true =>
      rw [createUser_of_accepts hacc]
      refine ⟨fun user hu => ?_, h.deleted, by simp⟩
      have hval : isValidUsername username := by
        simp only [accepts, Bool.and_eq_true] at hacc
        exact hacc.1.1.1
      rw [(sortByUid_perm _).mem_iff, mem_append, mem_singleton] at hu
      rcases hu with hu | rfl
      · exact h.users user hu
      · exact storable_newAccount hval role sec now
  | deleteUser uid =>
    rw [UserRun.step]
    rcases s.db.deleteUser_cases uid with
      ⟨user, before, after, hus, -, -, hfd, hdele⟩ | ⟨error, herr⟩
    -- the account moves to the deleted ones, for a later restore
    · have hu : Storable user := h.users user (by simp [hus])
      rw [hdele, hfd]
      refine ⟨fun other ho => h.users other ?_, fun other ho => ?_, fun other ho => ?_⟩
      · rw [hus]
        simp only [mem_append, mem_cons] at ho ⊢
        exact ho.imp_right .inr
      · rcases mem_append.1 ho with ho | ho
        · exact h.deleted other ho
        · rw [mem_singleton.1 ho]
          exact hu
      · rw [← Option.some.inj ho]
        exact hu
    · rw [herr]
      exact h
  | changePassword _ _ sec =>
    rw [UserRun.step, changePassword]
    split_ifs
    · exact h
    · exact h
    · refine ⟨storable_modifyFirst h.users fun user hu => ?_, h.deleted, h.justDeleted⟩
      exact { hu with
        passwordHash := sec.length_passwordHash
        salt := sec.length_salt }
  | recordLogin uid now =>
    rw [UserRun.step, recordLogin]
    cases s.db.findByUid uid with
    | none => exact h
    | some user =>
      refine ⟨storable_modifyFirst h.users fun user hu => ?_, h.deleted, h.justDeleted⟩
      exact { hu with lastLogin := now.toNat_lt }
  | restoreJustDeleted =>
    rw [UserRun.step]
    cases hjust : s.justDeleted with
    | none => exact h
    | some user => exact ⟨storable_restore h.users (h.justDeleted user hjust), h.deleted, by simp⟩
  | restoreDeleted i =>
    rw [UserRun.step]
    cases hdel : s.deleted[i]? with
    | none => exact h
    | some user =>
      exact ⟨storable_restore h.users (h.deleted user (mem_of_getElem? hdel)), h.deleted, by simp⟩

lemma stored_start (sec : Secret) (now : UInt64) : (start sec now).Stored := by
  rw [start]
  refine ⟨fun user hu => ?_, by simp, by simp⟩
  obtain rfl := mem_singleton.1 hu
  exact storable_newAccount (by decide) _ _ _

def heapSize : ℕ := 8 * 1024 * 1024

/-- What a text takes of the heap: the allocator hands out at least 16 bytes. -/
def textBytes (text : Str) : ℕ := if byteLen text = 0 then 0 else max 16 (byteLen text)

/-- What an account takes of the heap: the 120 bytes of a `UserAccount`, and its
two texts. -/
def accountBytes (user : UserAccount) : ℕ :=
  120 + textBytes user.username + textBytes user.homeDir

def heapBytes (db : UserDB) : ℕ := (db.users.map accountBytes).sum

theorem le_accountBytes {user : UserAccount} (h : Storable user) : 136 ≤ accountBytes user := by
  have hhome : 16 ≤ textBytes user.homeDir := by
    rw [textBytes, if_neg h.homeDir_pos.ne']
    exact le_max_left ..
  rw [accountBytes]
  omega

/-- The count of accounts that the heap can hold fits the two bytes of the file. -/
theorem Stored.length_lt (h : s.Stored) (hheap : heapBytes s.db ≤ heapSize) :
    s.db.users.length < 65536 := by
  have hsum := card_nsmul_le_sum (s.db.users.map accountBytes) 136 fun bytes hbytes => by
    obtain ⟨user, huser, rfl⟩ := mem_map.1 hbytes
    exact le_accountBytes (h.users user huser)
  rw [length_map, nsmul_eq_mul, Nat.cast_id] at hsum
  rw [heapBytes, heapSize] at hheap
  omega

/-- A database that fits the kernel heap comes back from its file. -/
theorem deserialize_serialize_of_heap (secret : Secret) (now : UInt64) (calls : List UserCall)
    (hheap : heapBytes (run step (start secret now) calls).db ≤ heapSize) :
    let db := (run step (start secret now) calls).db
    UserDB.deserialize db.serialize = .ok db := by
  intro db
  have hstored : (run step (start secret now) calls).Stored :=
    run_invariant_of_step (fun _ call h => h.step call) calls (stored_start secret now)
  rw [deserialize_serialize hstored.users, mod_eq_of_lt (hstored.length_lt hheap), take_length]

theorem deserialize_serialize_restored :
    let db := (run step (start zeroSecret 0)
      [createCall ['a'], createCall ['b'], .deleteUser 1, .restoreDeleted 0]).db
    db.users.map UserAccount.uid = [0, 1, 2] ∧ UserDB.deserialize db.serialize = .ok db := by
  refine ⟨by decide, deserialize_serialize_of_heap zeroSecret 0 _ ?_⟩
  decide

end UserRun

end Waros.Kernel.Auth
