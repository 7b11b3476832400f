import Waros.Kernel.Pkg.Effects

/-!
Who can change an installed file. The installer writes every file as root
with system permissions, but an entry that is already there keeps its owner
and its permissions. So an installed file belongs to the system exactly when
nobody else had an entry under its path before.
-/

namespace Waros.Kernel.Pkg

open Lib Waros.Pkg Auth Fs Volume WarFS FilePermissions Option

/-- The user can neither write nor chmod nor delete under the name. -/
structure Denied (fs : WarFS) (name : Str) (uid : UInt16) (role : UserRole) : Prop where
  write : ∀ data permissions readonly now, ∃ error,
    fs.writeInternalOwned name data uid role permissions readonly now = (.error error, fs)
  chmod : ∀ mode, ∃ error, fs.chmodAs name uid role mode = (.error error, fs)
  delete : ∃ error, fs.deleteAs name uid role = (.error error, fs)

lemma denied_of_find {fs : WarFS} {name can : Str} {e : FileEntry} {uid : UInt16}
    {role : UserRole} (hcan : canonicalPath name = .ok can)
    (hf : fs.find can = some e) (hown : e.ownerUid ≠ uid)
    (hwr : e.permissions.canWrite uid role = false) (hro : role ≠ .admin) :
    Denied fs name uid role := by
  refine ⟨?_, ?_, ?_⟩
  · intro data permissions readonly now
    rw [writeInternalOwned]
    split
    · exact ⟨_, rfl⟩
    simp only [hcan]
    split
    · exact ⟨_, rfl⟩
    split
    · exact ⟨_, rfl⟩
    simp only [storeEntry, hf, hwr]
    split
    · exact ⟨_, rfl⟩
    · exact ⟨_, rfl⟩
  · intro mode
    simp only [chmodAs, hcan, hf]
    split
    · exact ⟨_, rfl⟩
    · exact ⟨_, if_pos ⟨hro, hown⟩⟩
  · simp only [deleteAs, hcan, hf]
    split
    · exact ⟨_, rfl⟩
    · exact ⟨_, if_pos ⟨hro, hown⟩⟩

/-- An installed file: it holds the payload that was signed for it, belongs to
root, and nobody but an administrator can change it, under whatever spelling of
its path. -/
def Protected (crypto : Crypto) (bundle : WarPackBundle) (file : ManifestFile) (t : PkgState) :
    Prop :=
  ∃ canonical entry, canonicalPath file.path = .ok canonical ∧ t.find canonical = some entry ∧
    (∃ payload ∈ bundle.payloads, ∃ digest ∈ bundle.signedManifest.payloads,
      payload.source = file.source ∧ Matches crypto digest payload ∧
      entry.data = Str.toUtf8 payload.contents) ∧
    entry.ownerUid = 0 ∧ entry.permissions.othersWrite = false ∧
    ∀ uid role name, uid ≠ 0 → role ≠ .admin → canonicalPath name = .ok canonical →
      Denied t.volume.fs name uid role

/-- The entry under the path of a file before the installation, if it stays,
belongs to root and others may not write it; and the path is not that of the
list of packages, unless the list is what the file holds. -/
structure Unclaimed (env : PkgEnv) (s : PkgState) (verified : VerifiedPackage) (size : ℕ)
    (file : ManifestFile) : Prop where
  entry : ∀ canonical entry, canonicalPath file.path = .ok canonical →
    s.find canonical = some entry →
    ¬ LeadsTo (staleFiles verified.manifest (s.installedPackage verified.manifest.name))
      canonical →
    entry.ownerUid = 0 ∧ (file.executable = true ∨ entry.permissions.othersWrite = false)
  list : canonicalPath file.path = .ok localInstalledPath → ∀ payload,
    lookup WarPackPayload.source file.source verified.bundle.payloads = some payload →
    env.lists.encode (replacePackage verified.manifest.name
      (some (installedRecord verified size (s.world.ticks 0))) s.installed) =
      some (Str.toUtf8 payload.contents)

/-- What an installation leaves under the path of a file. -/
lemma Installation.find_file {env : PkgEnv} {ver : VerifiedPackage} {size : ℕ}
    {s t cleared written : PkgState} {bs : List UInt8}
    (h : Installation env ver size s t cleared written bs)
    (hdist : (ver.manifest.files.map fun file => canonicalPath file.path).Nodup)
    {file : ManifestFile} (hfl : file ∈ ver.manifest.files) {can : Str}
    {pay : WarPackPayload} (hsd : Sends ver.bundle.payloads file can pay) :
    ∃ entry, t.find can = some entry ∧
      entry.data = (if can = localInstalledPath then bs else Str.toUtf8 pay.contents) ∧
      entry.ownerUid = ((cleared.find can).map FileEntry.ownerUid).getD 0 ∧
      entry.permissions.othersWrite = (!file.executable &&
        ((cleared.find can).map fun old => old.permissions.othersWrite).getD false) := by
  obtain ⟨now, hwn⟩ := (each_writeFile_ok h.writes).2.2.2 hdist file hfl can pay hsd
  obtain ⟨later, hsav⟩ := h.saved
  rw [hsav, Function.update_apply]
  split_ifs with hli
  · subst hli
    refine ⟨_, rfl, ?_, ?_, ?_⟩
    · simp
    · simp [hwn]
    · simp [hwn]
  · exact ⟨_, hwn, by simp, by simp, by simp⟩

/-- After an installation of a verified bundle the files are protected exactly
when they were unclaimed before. -/
theorem applyVerifiedBundle_protects_iff {env : PkgEnv} {verified : VerifiedPackage} {size : ℕ}
    {s t : PkgState} {installed : InstalledPackage}
    (hverified : verifyBundle env.crypto verified.bundle env.root = .ok ())
    (hdistinct : (verified.manifest.files.map fun file => canonicalPath file.path).Nodup)
    (hok : applyVerifiedBundle env verified size s = (.ok installed, t)) :
    (∀ file ∈ verified.manifest.files, Protected env.crypto verified.bundle file t) ↔
      ∀ file ∈ verified.manifest.files, Unclaimed env s verified size file := by
  obtain ⟨cleared, written, bytes, hinst⟩ := applyVerifiedBundle_ok hok
  have hsgn := (verifyBundle_eq_ok env.crypto).1 hverified
  have hcleared := (each_discard_ok hinst.discards).2
  refine forall₂_congr fun file hfl => ?_
  obtain ⟨canonical, payload, hsd⟩ := (each_writeFile_ok hinst.writes).2.2.1 file hfl
  obtain ⟨entry, hf, hd, hown, hots⟩ := hinst.find_file hdistinct hfl hsd
  rw [hcleared] at hown hots
  have henco := hinst.encoded
  rw [hinst.installed] at henco
  constructor
  · rintro ⟨canonical', entry', hcan', hf', ⟨payload', hpay', -, -, hsrc, -, hd'⟩, hown', hots', -⟩
    obtain rfl := Except.ok.inj (hsd.1.symm.trans hcan')
    obtain rfl := some.inj (hf.symm.trans hf')
    have hl := lookup_of_mem WarPackPayload.source hsgn.payloads.bundleUnique hpay'
    rw [hsrc, hsd.2] at hl
    cases hl
    refine ⟨?_, ?_⟩
    · intro c old hc hold hsta
      obtain rfl := Except.ok.inj (hsd.1.symm.trans hc)
      rw [if_neg hsta, hold] at hown hots
      rw [hown'] at hown
      rw [hots'] at hots
      refine ⟨hown.symm, ?_⟩
      cases hexe : file.executable with
      | true => exact .inl rfl
      | false =>
        rw [hexe] at hots
        exact .inr hots.symm
    · intro hli other ho
      obtain rfl := Except.ok.inj (hsd.1.symm.trans hli)
      obtain rfl := some.inj (hsd.2.symm.trans ho)
      rw [if_pos rfl] at hd
      rw [henco, ← hd, hd']
  · intro huncl
    have hmem := lookup_mem hsd.2
    obtain ⟨digest, hdig, hsrc⟩ := List.mem_map.1
      ((hsgn.payloads.sameSources payload.source).2 (List.mem_map_of_mem hmem))
    obtain ⟨hsz, hhash⟩ := hsgn.payloads.agree digest hdig payload hmem hsrc.symm
    have hown' : entry.ownerUid = 0 := by
      rw [hown]
      split_ifs with hsta
      · rfl
      cases hold : s.find canonical with
      | none => rfl
      | some old => exact (huncl.entry canonical old hsd.1 hold hsta).1
    have hots' : entry.permissions.othersWrite = false := by
      rw [hots]
      split_ifs with hsta
      · simp
      cases hold : s.find canonical with
      | none => simp
      | some old =>
        rcases (huncl.entry canonical old hsd.1 hold hsta).2 with hex | hclo
        · simp [hex]
        · simp [hclo]
    refine ⟨canonical, entry, hsd.1, hf,
      ⟨payload, hmem, digest, hdig, lookup_key hsd.2, ⟨hsrc.symm, hsz, hhash⟩, ?_⟩,
      hown', hots', ?_⟩
    · rw [hd]
      split_ifs with hli
      · subst hli
        exact some.inj (henco.symm.trans (huncl.list hsd.1 payload hsd.2))
      · rfl
    · intro uid role name huid hro hnm
      refine denied_of_find hnm hf (hown' ▸ huid.symm) ?_ hro
      have hper := (find_owner hf).symm.trans hown'
      rw [canWrite, if_neg hro, hper, if_neg huid]
      exact hots'

/-- A user has a file of their own where the package wants to put its own. -/
def claimedVolume : Volume :=
  empty.after
    [(1, ⟨.write ['/', 't'] [0] 1000 .user (shared 1000) false, trivial⟩)]

theorem applyVerifiedBundle_protects_tool :
    let env := clearEnv fun _ => none
    let before := bootedWith (Volume.empty.after [(1, writeOp ['/', 't'] [7])])
    let result := applyVerifiedBundle env (verifiedPackage toolBundle) 1 before
    (before.find ['/', 't']).isSome = true ∧ result.1.isOk = true ∧
      ∀ file ∈ toolBundle.signedManifest.manifest.files,
        Protected env.crypto toolBundle file result.2 := by
  intro env before result
  have hok : result.1 = .ok (installedRecord (verifiedPackage toolBundle) 1 10) := by decide
  refine ⟨by decide, by rw [hok]; rfl, ?_⟩
  refine (applyVerifiedBundle_protects_iff (by decide +kernel) (by decide) (Prod.ext hok rfl)).2 ?_
  intro file hfile
  obtain rfl := List.mem_singleton.1 hfile
  refine ⟨fun canonical entry hcanonical hfind _ => ?_, fun hlist => absurd hlist (by decide)⟩
  obtain rfl : ['/', 't'] = canonical := Except.ok.inj hcanonical
  have howner : (before.find ['/', 't']).all (fun entry =>
      decide (entry.ownerUid = 0) && !entry.permissions.othersWrite) = true := by
    decide
  rw [show before.find ['/', 't'] = some entry from hfind] at howner
  simpa using howner

/-- The user stays the owner of the installed file and can write it. -/
theorem applyVerifiedBundle_keeps_claim :
    let env := clearEnv fun _ => none
    let result := applyVerifiedBundle env (verifiedPackage toolBundle) 1 (bootedWith claimedVolume)
    verifyBundle env.crypto toolBundle env.root = .ok () ∧ result.1.isOk = true ∧
      (result.2.find ['/', 't']).map (fun entry => (entry.data, entry.ownerUid)) =
        some ([0x58], 1000) ∧
      (result.2.volume.fs.writeAs ['/', 't'] [0] 1000 .user
        (shared 1000) 20).1 = .ok () ∧
      ¬ ∀ file ∈ toolBundle.signedManifest.manifest.files,
        Protected env.crypto toolBundle file result.2 := by
  have hf : ((applyVerifiedBundle (clearEnv fun _ => none) (verifiedPackage toolBundle) 1
      (bootedWith claimedVolume)).2.find ['/', 't']).map
        (fun entry => (entry.data, entry.ownerUid)) = some ([0x58], 1000) := by
    decide
  refine ⟨by decide +kernel, by decide, hf, by decide, ?_⟩
  intro hprot
  obtain ⟨canonical, entry, hcan, hent, -, hown, -⟩ := hprot _ (List.mem_singleton.2 rfl)
  obtain rfl : ['/', 't'] = canonical :=
    Except.ok.inj ((by decide : canonicalPath ['/', 't'] = _).symm.trans hcan)
  rw [hent, map_some, some.injEq, Prod.mk.injEq, hown] at hf
  cases hf.2

/-!
## Removal

Removing a package (`kernel/src/pkg/installer.rs`, `remove`). The files are
deleted one after the other, and the first that cannot be deleted, a missing
one included, ends the removal with the files before it gone.
-/

open Fallible List Function Prod

variable (env : PkgEnv) (name : Str) (s : PkgState)

def deleteFile (path : Str) : Call Unit := change (deleteOp path)

def remove : Call Unit := do
  let package ← .read fun s =>
    match s.installedPackage name with
    | some package => .ok package
    | none => .error .packageNotInstalled
  each (package.files.map deleteFile)
  setInstalled (replacePackage name none)
  saveInstalledList env

variable {env name s} {t : PkgState} {path : Str} {paths : List Str} {error : PkgError}
  {package : InstalledPackage}

section
variable (h : Fallible.each (paths.map deleteFile) s = (.ok (), t))
include h

end

section
variable (h : s.installedPackage name = some package)
include h

end

end Waros.Kernel.Pkg
