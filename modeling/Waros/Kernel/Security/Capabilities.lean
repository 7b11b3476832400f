import Waros.Kernel.State

/-!
Which capabilities a user and a process have
(`kernel/src/security/capabilities.rs`). The audit events are left out.
-/

namespace Waros.Kernel.Security

open Lib Auth Exec

def defaultForIdentity (uid : Uid) (role : UserRole) : Capabilities :=
  if uid = 0 ∨ role = .admin then adminDefault else userDefault

/-- The role the user database gives a uid. -/
def storedRole (users : UserDB) (uid : Uid) : UserRole :=
  ((users.findByUid uid).map fun user => user.role).getD (if uid = 0 then .admin else .user)

variable (k : KernelState) (uid : Uid)

/-- The account that is logged in decides about its own uid. -/
def roleForUid : UserRole :=
  match k.session with
  | some session => if session.user.uid = uid then session.user.role else storedRole k.users uid
  | none => storedRole k.users uid

def defaultForUid : Capabilities := defaultForIdentity uid (roleForUid k uid)

def processCapabilities (pid : Pid) : Option Capabilities :=
  (k.table.get pid).map fun process => process.effectiveCapabilities

def currentCapabilities : Option Capabilities := k.currentPid.bind (processCapabilities k)

def sessionCapabilitiesForUid : Capabilities := defaultForUid k uid

def currentOrSessionCapabilities : Capabilities :=
  (currentCapabilities k).getD (sessionCapabilitiesForUid k k.sessionUid)

def shellCapabilitiesForUid : Capabilities := sessionCapabilitiesForUid k uid

/-- A child inherits from its parent, within the default set for its uid. -/
def spawnCapabilities (parentPid : Pid) (uid : Uid) : Capabilities :=
  ((processCapabilities k parentPid).getD (sessionCapabilitiesForUid k uid)).inter
    (defaultForUid k uid)

def execCapabilities (current : Capabilities) (uid : Uid) : Capabilities :=
  current.inter (defaultForUid k uid)

def missingCapability : Str := "permission denied: missing capability".toList

def sessionRequire (cap : Capabilities) : Except Str Unit :=
  if (currentOrSessionCapabilities k).contains cap then .ok () else .error missingCapability

/-- Removes capabilities from the current process. -/
def dropCapabilities (caps : Capabilities) : KernelState :=
  match k.currentPid with
  | none => k
  | some pid =>
    { k with
      table := k.table.modify pid fun process =>
        { process with effectiveCapabilities := process.effectiveCapabilities.remove caps } }

lemma defaultForIdentity_subset_adminDefault (role : UserRole) :
    defaultForIdentity uid role ⊆ adminDefault := by
  unfold defaultForIdentity
  split_ifs
  · rfl
  · rfl

lemma sessionRequire_eq_ok {k : KernelState} {cap : Capabilities} :
    sessionRequire k cap = .ok () ↔ cap ⊆ currentOrSessionCapabilities k := by
  rw [← Capabilities.contains_iff_subset]
  unfold sessionRequire
  split_ifs with h <;> simp [h]

lemma spawnCapabilities_subset_default (par : Pid) (uid : Uid) :
    spawnCapabilities k par uid ⊆ defaultForUid k uid :=
  Capabilities.inter_subset_right _ _

end Waros.Kernel.Security
