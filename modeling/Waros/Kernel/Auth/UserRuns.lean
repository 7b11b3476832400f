import Waros.Kernel.Auth.Session
import Waros.Lib.Transition

/-!
Runs of the user database (`kernel/src/auth/users.rs`): accounts are created,
deleted, restored, given a new password and logged in, from the database with
only the root account. Uids come from a 16-bit counter that saturates.
-/

namespace Waros.Kernel.Auth

open Lib UserDB UserAccount UInt16 Nat
open UInt16 (ofNat)
open List (map_append map_singleton mem_append)

/-- What `generate_salt` and `hash_password` give, arrays of fixed sizes. -/
structure Secret where
  salt : List UInt8
  passwordHash : List UInt8
  length_salt : salt.length = 16
  length_passwordHash : passwordHash.length = 32

namespace UserDB

def emptyDb : UserDB := { users := [], nextUid := 0 }

def withDefaultRoot (secret : Secret) (now : UInt64) : UserDB :=
  match emptyDb.createUser ['r', 'o', 'o', 't'] ['w', 'a', 'r', 'o', 's'] .admin secret.salt
      secret.passwordHash now.toNat with
  | .ok (_, db) => db
  | .error _ => emptyDb

variable (db : UserDB) (uid : UInt16)

def changePassword (newPassword : Str) (secret : Secret) : Except AuthError UserDB :=
  if Str.byteLen newPassword < 4 then .error .invalidPassword
  else if (db.findByUid uid).isNone then .error .userNotFound
  else .ok { db with
    users := modifyFirst UserAccount.uid uid
      (fun user => { user with salt := secret.salt, passwordHash := secret.passwordHash })
      db.users }

def restoreUserForRollback (user : UserAccount) : UserDB :=
  if (db.findByUid user.uid).isNone then
    { users := sortByUid (db.users ++ [user]), nextUid := max db.nextUid (succUid user.uid) }
  else db

/-- The time of the last login, and the database with the new one. -/
def recordLogin (now : UInt64) : Except AuthError (ℕ × UserDB) :=
  match db.findByUid uid with
  | none => .error .userNotFound
  | some user =>
    .ok (user.lastLogin, { db with
      users := modifyFirst UserAccount.uid uid
        (fun user => { user with lastLogin := now.toNat }) db.users })

end UserDB

inductive UserCall
  | createUser (username password : Str) (role : UserRole) (secret : Secret) (now : UInt64)
  | deleteUser (uid : UInt16)
  | changePassword (uid : UInt16) (newPassword : Str) (secret : Secret)
  | recordLogin (uid : UInt16) (now : UInt64)
  /-- Restoring the account that was deleted last, before another was created. -/
  | restoreJustDeleted
  /-- Restoring any account deleted before, by its place among them. -/
  | restoreDeleted (i : ℕ)

/-- The database with its past: the uids handed out by `create_user`, the
accounts deleted so far, and the one that was just deleted. -/
structure UserRun where
  db : UserDB
  issued : List UInt16
  deleted : List UserAccount
  justDeleted : Option UserAccount

namespace UserRun

def start (secret : Secret) (now : UInt64) : UserRun :=
  { db := withDefaultRoot secret now, issued := [0], deleted := [], justDeleted := none }

/-- A call that fails changes nothing. -/
def step (s : UserRun) : UserCall → UserRun
  | .createUser username password role secret now =>
    match s.db.createUser username password role secret.salt secret.passwordHash now.toNat with
    | .error _ => s
    | .ok (uid, db) => { s with db := db, issued := s.issued ++ [uid], justDeleted := none }
  | .deleteUser uid =>
    match s.db.deleteUser uid, s.db.findByUid uid with
    | .ok db, some user =>
      { s with db := db, deleted := s.deleted ++ [user], justDeleted := some user }
    | _, _ => s
  | .changePassword uid newPassword secret =>
    match s.db.changePassword uid newPassword secret with
    | .error _ => s
    | .ok db => { s with db := db }
  | .recordLogin uid now =>
    match s.db.recordLogin uid now with
    | .error _ => s
    | .ok (_, db) => { s with db := db }
  | .restoreJustDeleted =>
    match s.justDeleted with
    | none => s
    | some user => { s with db := s.db.restoreUserForRollback user, justDeleted := none }
  | .restoreDeleted i =>
    match s.deleted[i]? with
    | none => s
    | some user => { s with db := s.db.restoreUserForRollback user, justDeleted := none }

end UserRun

/-! ### What a call does -/

namespace UserDB

lemma sortByUid_perm (users : List UserAccount) : (sortByUid users).Perm users :=
  List.perm_insertionSort _ _

lemma sortByUid_sorted {us : List UserAccount} (h : (us.map uid).Nodup) :
    ((sortByUid us).map uid).Pairwise (· < ·) := by
  have hnd : (us.map fun user => user.uid.toNat).Nodup := by
    have hmap := h.map (f := toNat) fun _ _ => UInt16.toNat_inj.1
    rwa [List.map_map] at hmap
  have hsrt := pairwise_lt_insertionSort (fun user : UserAccount => user.uid.toNat) hnd
  rw [List.pairwise_map]
  exact hsrt

/-- The checks of `create_user`. -/
def accepts (db : UserDB) (username password : Str) : Bool :=
  isValidUsername username && decide (4 ≤ Str.byteLen password) &&
    (db.findByName username).isNone && decide (db.users.length < maxUsers)

/-- The account that `create_user` adds. -/
def newAccount (db : UserDB) (username : Str) (role : UserRole) (secret : Secret)
    (now : UInt64) : UserAccount :=
  { uid := db.nextUid
    username := username
    passwordHash := secret.passwordHash
    salt := secret.salt
    role := role
    homeDir := homeDirFor db.nextUid username
    active := true
    createdAt := now.toNat
    lastLogin := 0 }

variable {db : UserDB} {username password : Str}

lemma createUser_of_accepts (h : db.accepts username password) (role : UserRole)
    (sec : Secret) (now : UInt64) :
    db.createUser username password role sec.salt sec.passwordHash now.toNat =
      .ok (db.nextUid, { users := sortByUid (db.users ++ [db.newAccount username role sec now])
                         nextUid := succUid db.nextUid }) := by
  simp only [accepts, Bool.and_eq_true, decide_eq_true_eq] at h
  obtain ⟨⟨⟨hval, hpass⟩, hfs⟩, hrm⟩ := h
  rw [createUser, if_neg (by simp [hval]), if_neg (not_lt.2 hpass),
    if_neg (by simpa using hfs), if_neg (not_le.2 hrm)]
  rfl

lemma createUser_of_not_accepts (h : db.accepts username password = false) (role : UserRole)
    (sec : Secret) (now : UInt64) :
    ∃ error, db.createUser username password role sec.salt sec.passwordHash now.toNat =
      .error error := by
  rw [createUser]
  split_ifs
  · exact ⟨_, rfl⟩
  · exact ⟨_, rfl⟩
  · exact ⟨_, rfl⟩
  · exact ⟨_, rfl⟩
  · simp only [accepts] at h
    simp_all

/-- What deleting an account takes out of the list. -/
lemma deleteUser_cases (db : UserDB) (uid : UInt16) :
    (∃ user before after, db.users = before ++ user :: after ∧ user.uid = uid ∧ uid ≠ 0 ∧
      db.findByUid uid = some user ∧
      db.deleteUser uid = .ok { db with users := before ++ after }) ∨
    ∃ error, db.deleteUser uid = .error error := by
  rw [deleteUser]
  split_ifs with h0 hno
  · exact .inr ⟨_, rfl⟩
  · exact .inr ⟨_, rfl⟩
  · obtain ⟨user, hu⟩ := Option.ne_none_iff_exists'.1 (by simpa using hno)
    have hf : db.users.find? (fun user => decide (user.uid = uid)) = some user := hu
    obtain ⟨huid, before, after, hus, hbef⟩ := List.find?_eq_some_iff_append.1 hf
    refine .inl ⟨user, before, after, hus, by simpa using huid, h0, hu, ?_⟩
    have hera : db.users.eraseP (fun user => decide (user.uid = uid)) = before ++ after := by
      rw [hus, List.eraseP_append_right _ (by simpa using hbef)]
      simp [huid]
    rw [hera]

end UserDB

namespace UserRun

/-- Usernames are distinct, uids are distinct and sorted, the root account is
there, the accounts are not too many, and no uid was issued twice. -/
structure Distinct (s : UserRun) : Prop where
  names : (s.db.users.map username).Nodup
  uids : (s.db.users.map uid).Pairwise (· < ·)
  root : (0 : UInt16) ∈ s.db.users.map uid
  count : s.db.users.length ≤ maxUsers
  issued : s.issued.Nodup

/-- Uids were issued in order from 0, the counter holds the next one as long as
there is one, and the account just deleted has left its place. -/
structure Numbered (s : UserRun) : Prop where
  distinct : s.Distinct
  issued_eq : s.issued.map toNat = .range s.issued.length
  next_eq : s.db.nextUid.toNat = min s.issued.length 65535
  old : ∀ uid ∈ s.db.users.map UserAccount.uid, uid.toNat < s.issued.length
  justDeleted : ∀ user, s.justDeleted = some user → user.uid.toNat < s.issued.length ∧
    user.uid ∉ s.db.users.map uid ∧
    user.username ∉ s.db.users.map username ∧ s.db.users.length < maxUsers

/-- Fewer than 65536 uids were issued before an account is created. -/
def UidLeft (s : UserRun) : UserCall → Prop
  | .createUser username password _ _ _ =>
    s.db.accepts username password = true → s.issued.length < 65536
  | _ => True

lemma users_nodup_uid {s : UserRun} (h : s.Distinct) : (s.db.users.map uid).Nodup :=
  h.uids.imp fun hlt => UInt16.ne_of_lt hlt

variable {s t : UserRun} {user : UserAccount} {call : UserCall} (secret : Secret) (now : UInt64)

/-- Adding an account with a uid and a name of its own. -/
lemma Distinct.add (h : s.Distinct) (huid : user.uid ∉ s.db.users.map uid)
    (hnm : user.username ∉ s.db.users.map username) (hrm : s.db.users.length < maxUsers)
    (hdb : t.db.users = sortByUid (s.db.users ++ [user])) (hiss : t.issued.Nodup) :
    t.Distinct := by
  have hperm := sortByUid_perm (s.db.users ++ [user])
  rw [← hdb] at hperm
  refine ⟨?_, ?_, ?_, ?_, hiss⟩
  · rw [(hperm.map _).nodup_iff, map_append, map_singleton,
      List.nodup_append_comm, List.singleton_append, List.nodup_cons]
    exact ⟨hnm, h.names⟩
  · rw [hdb]
    apply sortByUid_sorted
    rw [map_append, map_singleton, List.nodup_append_comm, List.singleton_append, List.nodup_cons]
    exact ⟨huid, users_nodup_uid h⟩
  · rw [(hperm.map _).mem_iff, map_append, mem_append]
    exact .inl h.root
  · rw [hperm.length_eq, List.length_append]
    exact hrm

lemma Numbered.next_notMem {s : UserRun} (h : s.Numbered) (hlf : s.issued.length < 65536) :
    s.db.nextUid.toNat = s.issued.length := by
  rw [h.next_eq]
  omega

lemma toNat_succUid (uid : UInt16) : (succUid uid).toNat = min (uid.toNat + 1) 65535 := by
  have hlt : uid.toNat < 65536 := uid.toNat_lt
  rw [succUid]
  split_ifs with hmax
  · rw [hmax]
    rfl
  · have hne : uid.toNat ≠ 65535 := fun h => hmax (UInt16.toNat_inj.1 h)
    show (uid.toNat + 1) % 65536 = _
    omega

section
variable (h : s.Numbered)
include h

/-- Creating an account while there is a uid left. -/
lemma Numbered.create {usr password : Str}
    (hlf : s.issued.length < 65536) (hacc : s.db.accepts usr password)
    {role : UserRole} {sec : Secret} {now : UInt64}
    (hdb : t.db = { users := sortByUid (s.db.users ++
        [s.db.newAccount usr role sec now]), nextUid := succUid s.db.nextUid })
    (hiss : t.issued = s.issued ++ [s.db.nextUid]) (hjust : t.justDeleted = none) :
    t.Numbered := by
  have hnx := h.next_notMem hlf
  simp only [accepts, Bool.and_eq_true, decide_eq_true_eq] at hacc
  obtain ⟨⟨⟨-, -⟩, hfs⟩, hrm⟩ := hacc
  have hno : s.db.findByName usr = none := by simpa using hfs
  have hnm : usr ∉ s.db.users.map username := by simpa using (lookup_eq_none username).1 hno
  have huid : s.db.nextUid ∉ s.db.users.map uid := fun hmem => by
    have hold := h.old _ hmem
    omega
  have hmap : t.issued.map toNat = .range t.issued.length := by
    rw [hiss, map_append, h.issued_eq, map_singleton, hnx, List.length_append,
      List.length_singleton, List.range_succ]
  have hlen : t.issued.length = s.issued.length + 1 := by rw [hiss]; simp
  have hiss' : t.issued.Nodup := .of_map toNat (hmap ▸ List.nodup_range)
  refine ⟨h.distinct.add huid hnm hrm (by rw [hdb]) hiss', hmap, ?_, ?_, ?_⟩
  · rw [hdb, toNat_succUid, hlen, hnx]
  · intro uid hmem
    rw [hdb, ((sortByUid_perm _).map _).mem_iff, map_append, mem_append,
      map_singleton, List.mem_singleton] at hmem
    rw [hlen]
    rcases hmem with hmem | rfl
    · exact lt_succ_of_lt (h.old uid hmem)
    · exact lt_succ_of_le hnx.le
  · rw [hjust]
    simp

lemma Numbered.delete {bef aft : List UserAccount}
    (hus : s.db.users = bef ++ user :: aft) (hrt : user.uid ≠ 0)
    (hdb : t.db = { s.db with users := bef ++ aft }) (hiss : t.issued = s.issued)
    (hjust : t.justDeleted = some user) : t.Numbered := by
  have hperm : s.db.users.Perm (user :: (bef ++ aft)) := hus ▸ List.perm_middle
  have hsub : (bef ++ aft).Sublist s.db.users := by
    rw [hus]
    exact .append_left (List.sublist_cons_self user aft) bef
  have huids := (hperm.map uid).nodup_iff.1 (users_nodup_uid h.distinct)
  have hns := (hperm.map username).nodup_iff.1 h.distinct.names
  rw [List.map_cons, List.nodup_cons] at huids hns
  have hlen := hperm.length_eq
  have hcnt := h.distinct.count
  rw [List.length_cons] at hlen
  refine ⟨⟨?_, ?_, ?_, ?_, hiss ▸ h.distinct.issued⟩, ?_, ?_, ?_, ?_⟩
  · rw [hdb]
    exact hns.2
  · rw [hdb]
    exact h.distinct.uids.sublist (hsub.map _)
  · have h0 := (hperm.map uid).mem_iff.1 h.distinct.root
    rw [List.map_cons, List.mem_cons] at h0
    rw [hdb]
    exact h0.resolve_left (symm hrt)
  · rw [hdb]
    dsimp only
    omega
  · rw [hiss, h.issued_eq]
  · rw [hdb, hiss]
    exact h.next_eq
  · rw [hdb, hiss]
    exact fun uid huid => h.old uid ((hsub.map _).subset huid)
  · rintro other ho
    obtain rfl : user = other := Option.some.inj (hjust.symm.trans ho)
    rw [hdb, hiss]
    refine ⟨h.old _ ?_, huids.1, hns.1, ?_⟩
    · exact (hperm.map uid).mem_iff.2 (by simp)
    · dsimp only
      omega

lemma Numbered.restore (hjust : s.justDeleted = some user)
    (hdb : t.db = s.db.restoreUserForRollback user) (hiss : t.issued = s.issued)
    (hno : t.justDeleted = none) : t.Numbered := by
  obtain ⟨hold, huid, hnm, hrm⟩ := h.justDeleted user hjust
  have hf : s.db.findByUid user.uid = none := by
    apply (lookup_eq_none uid).2
    simpa using huid
  have hnx : max s.db.nextUid (succUid user.uid) = s.db.nextUid := by
    have hnx := h.next_eq
    have hsucc := toNat_succUid user.uid
    rw [show max s.db.nextUid (succUid user.uid) =
      if s.db.nextUid ≤ succUid user.uid then succUid user.uid
      else s.db.nextUid from rfl]
    split_ifs with hle
    · rw [le_iff_toNat_le] at hle
      apply UInt16.toNat_inj.1
      omega
    · rfl
  rw [restoreUserForRollback, hf, hnx] at hdb
  refine ⟨h.distinct.add huid hnm hrm (by rw [hdb]; rfl) (hiss ▸ h.distinct.issued), ?_, ?_, ?_, ?_⟩
  · rw [hiss, h.issued_eq]
  · rw [hdb, hiss]
    exact h.next_eq
  · intro uid hmem
    rw [hiss]
    replace hmem : uid ∈ (sortByUid (s.db.users ++ [user])).map UserAccount.uid := by
      rw [hdb] at hmem
      exact hmem
    rw [((sortByUid_perm _).map _).mem_iff, map_append, mem_append,
      map_singleton, List.mem_singleton] at hmem
    rcases hmem with hmem | rfl
    · exact h.old uid hmem
    · exact hold
  · rw [hno]
    simp

/-- A call that changes neither uids nor names nor the counter. -/
lemma Numbered.frame (huids : t.db.users.map uid = s.db.users.map uid)
    (hns : t.db.users.map username = s.db.users.map username)
    (hnx : t.db.nextUid = s.db.nextUid) (hiss : t.issued = s.issued)
    (hjust : t.justDeleted = s.justDeleted) : t.Numbered := by
  have hlen : t.db.users.length = s.db.users.length := by simpa using congrArg List.length huids
  obtain ⟨⟨names, uids, root, count, issued⟩, issued_eq, next_eq, old, just⟩ := h
  refine ⟨⟨hns ▸ names, huids ▸ uids, huids ▸ root, hlen ▸ count, hiss ▸ issued⟩, ?_, ?_, ?_, ?_⟩
  · rw [hiss, issued_eq]
  · rw [hnx, hiss, next_eq]
  · rw [huids, hiss]
    exact old
  · rw [hjust, huids, hns, hiss, hlen]
    exact just

end

/-- Only the account just deleted is restored. -/
def RestoresLast (call : UserCall) : Prop := ∀ i, call ≠ .restoreDeleted i

lemma Numbered.step {s : UserRun} (h : s.Numbered) (hla : RestoresLast call)
    (hok : s.UidLeft call) : (s.step call).Numbered := by
  cases call with
  | createUser username password role secret now =>
    rw [step]
    cases hacc : s.db.accepts username password with
    | true =>
      rw [createUser_of_accepts hacc]
      exact h.create (hok hacc) hacc rfl rfl rfl
    | false =>
      obtain ⟨error, herr⟩ := createUser_of_not_accepts hacc role secret now
      rw [herr]
      exact h
  | deleteUser uid =>
    rw [step]
    rcases s.db.deleteUser_cases uid with
      ⟨user, before, after, hus, rfl, hrt, hf, hdel⟩ | ⟨error, herr⟩
    · rw [hdel, hf]
      exact h.delete hus hrt rfl rfl rfl
    · rw [herr]
      exact h
  | changePassword =>
    rw [step, changePassword]
    split_ifs
    · exact h
    · exact h
    · refine h.frame ?_ ?_ rfl rfl rfl
      all_goals
        apply map_modifyFirst
        exact fun _ => rfl
  | recordLogin uid =>
    rw [step, recordLogin]
    rcases s.db.findByUid uid with _ | _
    · exact h
    refine h.frame ?_ ?_ rfl rfl rfl
    all_goals
      apply map_modifyFirst
      exact fun _ => rfl
  | restoreJustDeleted =>
    rw [step]
    cases hjust : s.justDeleted with
    | none => exact h
    | some => exact h.restore hjust rfl rfl rfl
  | restoreDeleted i => exact absurd rfl (hla i)

/-- Without a uid left, the last one is issued again. -/
lemma Numbered.uidLeft_of_distinct {s : UserRun} (h : s.Numbered)
    (hdist : (s.step call).Distinct) : s.UidLeft call := by
  cases call with
  | createUser =>
    intro hacc
    by_contra hlf
    have hiss := hdist.issued
    rw [UserRun.step, createUser_of_accepts hacc] at hiss
    have hmem : s.db.nextUid.toNat ∈ s.issued.map toNat := by
      rw [h.issued_eq, List.mem_range, h.next_eq]
      omega
    obtain ⟨uid, huid, heq⟩ := List.mem_map.1 hmem
    rw [UInt16.toNat_inj.1 heq] at huid
    rw [List.nodup_append] at hiss
    exact hiss.2.2 _ huid _ (List.mem_singleton_self _) rfl
  | deleteUser | changePassword | recordLogin | restoreJustDeleted | restoreDeleted => trivial

lemma withDefaultRoot_eq :
    withDefaultRoot secret now =
      { users := [emptyDb.newAccount ['r', 'o', 'o', 't'] .admin secret now]
        nextUid := 1 } := by
  rfl

lemma numbered_start : (start secret now).Numbered := by
  rw [start, withDefaultRoot_eq]
  refine ⟨⟨?_, ?_, ?_, ?_, ?_⟩, rfl, rfl, ?_, ?_⟩
  · simp
  · simp
  · exact List.mem_singleton_self _
  · exact succ_le_of_lt (by decide)
  · simp
  · intro uid huid
    obtain rfl := List.mem_singleton.1 huid
    exact Nat.zero_lt_one
  · rintro user ⟨⟩

/-- Nothing repeats in all states of a run exactly as long as the 65536 uids
last. -/
theorem distinct_iff (secret : Secret) (now : UInt64) {calls : List UserCall}
    (hlast : ∀ call ∈ calls, RestoresLast call) :
    (∀ n, (run step (start secret now) (calls.take n)).Distinct) ↔
      StepsOk step UidLeft (start secret now) calls :=
  forall_run_take_iff_of_keeps (fun _ h => h.distinct) (fun _ _ h hlast hok => h.step hlast hok)
    (fun _ _ h _ hdist => h.uidLeft_of_distinct hdist) (numbered_start secret now) hlast

/-! ### Using up the uids -/

def zeroSecret : Secret :=
  { salt := .replicate 16 0
    passwordHash := .replicate 32 0
    length_salt := List.length_replicate
    length_passwordHash := List.length_replicate }

def rootAccount : UserAccount := emptyDb.newAccount ['r', 'o', 'o', 't'] .admin zeroSecret 0

/-- The database with the root account and a counter. -/
def rootOnly (nextUid : UInt16) : UserDB := { users := [rootAccount], nextUid := nextUid }

variable (username : Str) (n : ℕ)

def createCall : UserCall := .createUser username ['p', 'a', 's', 's'] .user zeroSecret 0

def account (uid : UInt16) : UserAccount := (rootOnly uid).newAccount username .user zeroSecret 0

/-- Accounts that are created and deleted at once. -/
def churn : List UserCall :=
  (List.range n).flatMap fun i => [createCall ['a'], .deleteUser (ofNat (i + 1))]

lemma churn_succ : churn (n + 1) = churn n ++ [createCall ['a'], .deleteUser (ofNat (n + 1))] := by
  simp [churn, List.range_succ]

lemma step_create (s : UserRun) {uid : UInt16} (hdb : s.db = rootOnly uid) :
    s.step (createCall ['a']) = { s with
        db := { users := [rootAccount, account ['a'] uid], nextUid := succUid uid }
        issued := s.issued ++ [uid]
        justDeleted := none } := by
  have hacc : (rootOnly uid).accepts ['a'] ['p', 'a', 's', 's'] := rfl
  have hsort : sortByUid [rootAccount, account ['a'] uid] = [rootAccount, account ['a'] uid] := by
    have hle : rootAccount.uid ≤ (account ['a'] uid).uid := UInt16.zero_le
    rfl
  rw [createCall, step, hdb]
  exact congrArg (fun users => { s with
    db := { users := users, nextUid := succUid uid }
    issued := s.issued ++ [uid]
    justDeleted := none }) hsort

lemma step_delete (s : UserRun) {uid next : UInt16} (huid : uid ≠ 0)
    (hdb : s.db = { users := [rootAccount, account ['a'] uid], nextUid := next }) :
    s.step (.deleteUser uid) = { s with
        db := rootOnly next
        deleted := s.deleted ++ [account ['a'] uid]
        justDeleted := some (account ['a'] uid) } := by
  have hrt : ¬rootAccount.uid = uid := fun h => huid h.symm
  have hs : (account ['a'] uid).uid = uid := rfl
  have hf : s.db.findByUid uid = some (account ['a'] uid) := by
    rw [hdb]
    simp [findByUid, lookup, hrt, hs]
  have hdel : s.db.deleteUser uid = .ok (rootOnly next) := by
    rw [deleteUser, if_neg huid, hf, hdb]
    simp [hrt, hs, rootOnly]
  rw [step, hdel, hf]

lemma toNat_ofNat_uid {n : ℕ} (hn : n < 65536) : (ofNat n).toNat = n := by
  rw [toNat_ofNat', mod_eq_of_lt hn]

/-- After `n` accounts came and went, the counter is at the next uid or at the
last one. -/
lemma run_churn {n : ℕ} (hn : n ≤ 65535) :
    ∃ issued just, run step (start zeroSecret 0) (churn n) =
      { db := rootOnly (ofNat (min (n + 1) 65535))
        issued := issued
        deleted := (List.range n).map fun i => account ['a'] (ofNat (i + 1))
        justDeleted := just } := by
  induction n with
  | zero => exact ⟨[0], none, by rw [churn]; rfl⟩
  | succ n ih =>
    obtain ⟨issued, just, hrun⟩ := ih (by omega)
    rw [min_eq_left (by omega)] at hrun
    have hne : ofNat (n + 1) ≠ 0 := fun h => by
      have h0 := congrArg toNat h
      rw [toNat_ofNat_uid (by omega)] at h0
      exact absurd h0 (succ_ne_zero n)
    have hsucc : succUid (ofNat (n + 1)) = ofNat (min (n + 1 + 1) 65535) := by
      apply UInt16.toNat_inj.1
      rw [toNat_succUid, toNat_ofNat_uid (by omega), toNat_ofNat_uid (by omega)]
    refine ⟨issued ++ [ofNat (n + 1)], some (account ['a'] (ofNat (n + 1))), ?_⟩
    rw [churn_succ, run_append, hrun, run_cons, run_cons, step_create _ rfl,
      step_delete _ hne rfl, hsucc, List.range_succ, map_append]
    rfl

/-- A second account with the last uid. -/
lemma not_nodup_step_create {s : UserRun}
    (hdb : s.db = { users := [rootAccount, account ['a'] 65535], nextUid := 65535 }) :
    ¬((s.step (createCall ['b'])).db.users.map uid).Nodup := by
  have hacc : ({ users := [rootAccount, account ['a'] 65535], nextUid := 65535 } :
      UserDB).accepts ['b'] ['p', 'a', 's', 's'] := rfl
  rw [createCall, step, hdb, createUser_of_accepts hacc]
  rw [((sortByUid_perm _).map _).nodup_iff]
  decide

/-- The last uid goes to two accounts. -/
theorem not_distinct_churn :
    (∀ call ∈ churn 65534 ++ [createCall ['a'], createCall ['b']], RestoresLast call) ∧
      ¬(run step (start zeroSecret 0)
        (churn 65534 ++ [createCall ['a'], createCall ['b']])).Distinct := by
  constructor
  · intro call hc i
    simp only [churn, mem_append, List.mem_flatMap, List.mem_cons, List.not_mem_nil, or_false] at hc
    rintro rfl
    rcases hc with ⟨_, -, h | h⟩ | h | h <;> cases h
  · intro h
    obtain ⟨issued, just, hrun⟩ := run_churn (show 65534 ≤ 65535 by decide)
    have huids := users_nodup_uid h
    rw [run_append, hrun, run_cons, run_cons, run_nil] at huids
    exact not_nodup_step_create rfl huids

/-- An account that is deleted and restored. -/
theorem distinct_iff_restored :
    (∀ call ∈ [createCall ['a'], .deleteUser 1, .restoreJustDeleted], RestoresLast call) ∧
    ((∀ n, (run step (start zeroSecret 0)
        ([createCall ['a'], .deleteUser 1, .restoreJustDeleted].take n)).Distinct) ↔
      StepsOk step UidLeft (start zeroSecret 0)
        [createCall ['a'], .deleteUser 1, .restoreJustDeleted]) := by
  have hla : ∀ call ∈ [createCall ['a'], .deleteUser 1, .restoreJustDeleted],
      RestoresLast call := by
    intro call hc i
    rintro rfl
    simp [createCall] at hc
  exact ⟨hla, distinct_iff zeroSecret 0 hla⟩

end UserRun

end Waros.Kernel.Auth
