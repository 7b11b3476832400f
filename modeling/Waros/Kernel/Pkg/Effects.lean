import Waros.Kernel.Pkg.Update

/-!
What the steps of the package calls do to the files, seen as a map from
canonical paths to entries. A write or a delete that succeeds changes the map
at one path, and one that fails changes nothing.
-/

namespace Waros.Kernel.Pkg

open Lib Waros.Pkg Auth Fs Fallible List Function WarPackPayload Prod Except
open Fallible (wp each)

section
variable (s : PkgState)
include s

@[simp] lemma ticked_find : s.ticked.find = s.find := rfl

@[simp] lemma ticked_installed : s.ticked.installed = s.installed := rfl

@[simp] lemma withInstalled_find (inst : List InstalledPackage) :
    (s.withInstalled inst).find = s.find := rfl

@[simp] lemma withInstalled_installed (installed : List InstalledPackage) :
    (s.withInstalled installed).installed = installed := rfl

end

@[simp] lemma tickCount_bind {β : Type} (f : ℕ → Call β) (s : PkgState) :
    (tickCount >>= f) s = f (s.world.ticks 0) s.ticked := rfl

variable {E : PkgError → PkgState → Prop} {Q : Unit → PkgState → Prop} {s t : PkgState}
  (op : KernelOp) {error : PkgError} {path : Str} {paths : List Str}
  {payloads : List WarPackPayload} {files : List ManifestFile} {α : Type} {codec : Codec α}
  {refused : PkgError} {value : α}

@[simp] lemma wp_tickCount {Q : ℕ → PkgState → Prop} {s : PkgState} :
    wp tickCount Q E s ↔ Q (s.world.ticks 0) s.ticked := .rfl

@[simp] lemma setInstalled_bind {β : Type}
    (ch : List InstalledPackage → List InstalledPackage) (f : Unit → Call β) (s : PkgState) :
    (setInstalled ch >>= f) s = f () (s.withInstalled (ch s.installed)) := rfl

/-! ### Steps that change one file -/

/-- What a call into WarFS does not touch. -/
structure Frame (s t : PkgState) : Prop where
  installed : t.installed = s.installed
  index : t.index = s.index
  kernel : t.world.kernel = s.world.kernel
  ticks : t.world.ticks = s.world.ticks
  httpGet : t.world.httpGet = s.world.httpGet

lemma Frame.refl (s : PkgState) : Frame s s := ⟨rfl, rfl, rfl, rfl, rfl⟩

lemma Frame.trans {s t u : PkgState} (hst : Frame s t) (htu : Frame t u) : Frame s u :=
  ⟨htu.installed.trans hst.installed, htu.index.trans hst.index, htu.kernel.trans hst.kernel,
    htu.ticks.trans hst.ticks, htu.httpGet.trans hst.httpGet⟩

/-- Only the clock of the file operations has moved on. -/
structure Same (s t : PkgState) : Prop extends Frame s t where
  volume : t.volume = s.volume

/-- One file has changed. -/
structure Puts (canonical : Str) (value : Option FileEntry) (s t : PkgState) : Prop
    extends Frame s t where
  find : t.find = update s.find canonical value

lemma Same.find (h : Same s t) : t.find = s.find := congrArg Volume.find h.volume

lemma modeKnown_writeOp (path : Str) (data : List UInt8) : (writeOp path data).1.ModeKnown :=
  trivial

lemma modeKnown_loadOp (file : RollbackFileRecord) (perms : FilePermissions) :
    (loadOp file perms).1.ModeKnown :=
  trivial

lemma modeKnown_executableMode (path : Str) : (chmodOp path executableMode).1.ModeKnown :=
  fun _ => rfl

lemma frame_perform (s : PkgState) : Frame s (perform op s).2 := ⟨rfl, rfl, rfl, rfl, rfl⟩

lemma perform_cases (hmo : op.1.ModeKnown) (s : PkgState) :
    (∃ error t, perform op s = (.error error, t) ∧ Same s t) ∨
      ∃ t canonical, perform op s = (.ok (), t) ∧ canonicalPath op.1.name = .ok canonical ∧
        Puts canonical (op.1.update (s.world.fileTicks 0) canonical (s.find canonical)) s t := by
  rcases s.volume.perform_cases (s.world.fileTicks 0) op hmo with
    ⟨error, href⟩ | ⟨volume, canonical, hdone, hcan, -, hf⟩
  · refine .inl ⟨error, (perform op s).2, ?_, frame_perform op s, ?_⟩
    · simp only [perform, href]
    · simp only [perform, href]
  · refine .inr ⟨(perform op s).2, canonical, ?_, hcan, frame_perform op s, ?_⟩
    · simp only [perform, hdone]
    · simp only [perform, hdone]
      exact hf

lemma change_cases (hmo : op.1.ModeKnown) (s : PkgState) :
    (∃ t, change op s = (.error .installFailed, t) ∧ Same s t) ∨
      ∃ t canonical, change op s = (.ok (), t) ∧ canonicalPath op.1.name = .ok canonical ∧
        Puts canonical (op.1.update (s.world.fileTicks 0) canonical (s.find canonical)) s t := by
  rcases perform_cases op hmo s with ⟨error, t, hperf, hs⟩ | ⟨t, canonical, hperf, h⟩
  · exact .inl ⟨t, mapError_eq_error.2 ⟨error, hperf, rfl⟩, hs⟩
  · exact .inr ⟨t, canonical, mapError_eq_ok.2 hperf, h⟩

lemma change_ok {op : KernelOp} (hmo : op.1.ModeKnown) (h : change op s = (.ok (), t)) :
    ∃ canonical, canonicalPath op.1.name = .ok canonical ∧
      Puts canonical (op.1.update (s.world.fileTicks 0) canonical (s.find canonical)) s t := by
  rcases change_cases op hmo s with ⟨_, herr, -⟩ | ⟨u, canonical, hu, hspec⟩
  · cases congrArg fst (herr.symm.trans h)
  · obtain rfl := congrArg snd (hu.symm.trans h)
    exact ⟨canonical, hspec⟩

lemma change_error {op : KernelOp} (hmo : op.1.ModeKnown)
    (h : change op s = (.error error, t)) : Same s t := by
  rcases change_cases op hmo s with ⟨u, hu, hs⟩ | ⟨_, _, hok, -⟩
  · obtain rfl := congrArg snd (hu.symm.trans h)
    exact hs
  · cases congrArg fst (hok.symm.trans h)

lemma canonicalPath_ne_fileNotFound (path : Str) : canonicalPath path ≠ .error .fileNotFound := by
  have hlp : ∀ ps res first, pushComponents ps res first ≠ .error .fileNotFound := by
    intro ps
    induction ps with
    | nil => simp [pushComponents]
    | cons _ _ ih =>
      intro res first
      rw [pushComponents]
      split
      · exact ih _ _
      split
      · simp
      split
      · simp
      · exact ih _ _
  simp only [canonicalPath]
  split_ifs
  · simp
  · split
    · next error herr =>
      rintro h
      cases h
      exact hlp _ _ _ herr
    · split_ifs <;> simp

lemma deleteAs_fileNotFound {fs : WarFS}
    (h : (fs.deleteAs path 0 .admin).1 = .error .fileNotFound) :
    ∃ canonical, canonicalPath path = .ok canonical ∧ fs.find canonical = none := by
  rw [WarFS.deleteAs] at h
  cases hcan : canonicalPath path with
  | error =>
    rw [hcan] at h
    cases h
    exact absurd hcan (canonicalPath_ne_fileNotFound path)
  | ok canonical =>
    refine ⟨canonical, rfl, ?_⟩
    cases hf : fs.find canonical with
    | none => rfl
    | some e => cases hro : e.readonly <;> simp [hcan, hf, hro] at h

/-- A path that is discarded has no entry afterwards. -/
lemma discard_cases (path : Str) (s : PkgState) :
    (∃ t, discard path s = (.error .installFailed, t) ∧ Same s t) ∨
      ∃ t canonical, discard path s = (.ok (), t) ∧ canonicalPath path = .ok canonical ∧
        Puts canonical none s t := by
  rcases perform_cases (deleteOp path) trivial s with
    ⟨error, t, hperf, hs⟩ | ⟨t, canonical, hperf, hcan, hput⟩
  · by_cases herr : error = .fileNotFound
    · subst herr
      obtain ⟨canonical, hcan, hno⟩ := deleteAs_fileNotFound (congrArg fst hperf)
      refine .inr ⟨t, canonical, by simp only [discard, hperf], hcan, hs.toFrame, ?_⟩
      rw [hs.find]
      exact (update_eq_self_iff.2 (.symm hno)).symm
    · exact .inl ⟨t, by simp only [discard, hperf], hs⟩
  · exact .inr ⟨t, canonical, by simp only [discard, hperf], hcan, hput⟩

lemma discard_ok (h : discard path s = (.ok (), t)) :
    ∃ canonical, canonicalPath path = .ok canonical ∧ Puts canonical none s t := by
  rcases discard_cases path s with ⟨_, herr, -⟩ | ⟨u, canonical, hu, hspec⟩
  · cases congrArg fst (herr.symm.trans h)
  · obtain rfl := congrArg snd (hu.symm.trans h)
    exact ⟨canonical, hspec⟩

/-! ### The installer's loops -/

/-- One of the paths is a spelling of the canonical path. -/
def LeadsTo (paths : List Str) (canonical : Str) : Prop :=
  ∃ path ∈ paths, canonicalPath path = .ok canonical
  deriving Decidable

lemma leadsTo_cons {n : Str} :
    LeadsTo (path :: paths) n ↔ canonicalPath path = .ok n ∨ LeadsTo paths n := by
  simp [LeadsTo]

section
variable (h : each (paths.map discard) s = (.ok (), t))
include h

/-- After a loop of deletes that succeeds, the paths are gone. -/
lemma each_discard_ok : Frame s t ∧ ∀ n, t.find n = if LeadsTo paths n then none else s.find n := by
  induction paths generalizing s with
  | nil =>
    cases h
    exact ⟨.refl _, fun n => by simp [LeadsTo]⟩
  | cons path _ ih =>
    rw [map_cons, each_cons_eq_ok] at h
    obtain ⟨u, hu, ht⟩ := h
    obtain ⟨canonical, hcan, hput⟩ := discard_ok hu
    obtain ⟨hfr, hf⟩ := ih ht
    refine ⟨hput.toFrame.trans hfr, fun n => ?_⟩
    rw [hf, hput.find]
    by_cases hn : n = canonical
    · simp [leadsTo_cons, hn, hcan]
    · have hne : canonicalPath path ≠ .ok n := by
        rw [hcan]
        rintro heq
        exact hn (ok.inj heq).symm
      simp [leadsTo_cons, hn, hne]

/-- The paths of a loop of deletes that succeeds are valid. -/
lemma canonical_of_each_discard : ∀ path ∈ paths, ∃ n, canonicalPath path = .ok n := by
  induction paths generalizing s with
  | nil => simp
  | cons _ _ ih =>
    rw [map_cons, each_cons_eq_ok] at h
    obtain ⟨u, hu, ht⟩ := h
    obtain ⟨canonical, hcan, -⟩ := discard_ok hu
    exact forall_mem_cons.2 ⟨⟨canonical, hcan⟩, ih ht⟩

end

/-- What the installer leaves under the path of a file. -/
def writtenEntry (executable : Bool) (canonical : Str) (data : List UInt8) (now : ℕ)
    (old : Option FileEntry) : FileEntry :=
  let entry : FileEntry :=
    match old with
    | some entry => { entry with data, modifiedAt := now, readonly := false }
    | none => WarFS.newEntry canonical data .system false now
  if executable then
    { entry with permissions := (entry.permissions.applyModeString executableMode).2 }
  else entry

section
variable (executable : Bool) (canonical : Str) (data : List UInt8) (now : ℕ)
  (old : Option FileEntry)

@[simp] lemma writtenEntry_data : (writtenEntry executable canonical data now old).data = data := by
  cases old <;> cases executable <;> rfl

@[simp] lemma writtenEntry_ownerUid :
    (writtenEntry executable canonical data now old).ownerUid =
      (old.map FileEntry.ownerUid).getD 0 := by
  cases old <;> cases executable <;> rfl

@[simp] lemma writtenEntry_othersWrite :
    (writtenEntry executable canonical data now old).permissions.othersWrite =
      (!executable && (old.map fun entry => entry.permissions.othersWrite).getD false) := by
  cases old <;> cases executable <;> rfl

end

lemma writeFile_ok {file : ManifestFile} (h : writeFile payloads file s = (.ok (), t)) :
    ∃ canonical payload, canonicalPath file.path = .ok canonical ∧
      lookup source file.source payloads = some payload ∧
      Puts canonical (some (writtenEntry file.executable canonical
        (Str.toUtf8 payload.contents) (s.world.fileTicks 0) (s.find canonical))) s t := by
  rw [writeFile] at h
  cases hl : lookup source file.source payloads with
  | none =>
    rw [hl] at h
    cases h
  | some payload =>
    rw [hl] at h
    obtain ⟨_, u, hu, ht⟩ := bind_eq_ok.1 h
    obtain ⟨canonical, hcan, hput⟩ := change_ok (modeKnown_writeOp _ _) hu
    refine ⟨canonical, payload, hcan, rfl, ?_⟩
    cases hex : file.executable with
    | false =>
      rw [hex] at ht
      cases ht
      exact ⟨hput.toFrame, hput.find⟩
    | true =>
      rw [hex] at ht
      obtain ⟨canonical', hcan', hput'⟩ := change_ok (modeKnown_executableMode _) ht
      obtain rfl := ok.inj (hcan.symm.trans hcan')
      refine ⟨hput.toFrame.trans hput'.toFrame, ?_⟩
      rw [hput'.find, hput.find, update_self, update_idem]
      rfl

/-- The canonical path of a file and the payload that belongs there. -/
def Sends (payloads : List WarPackPayload) (file : ManifestFile) (canonical : Str)
    (payload : WarPackPayload) : Prop :=
  canonicalPath file.path = .ok canonical ∧
    lookup source file.source payloads = some payload

section
variable (h : each (files.map (writeFile payloads)) s = (.ok (), t))
include h

/-- After a loop of writes that succeeds, every file has been written, and the
other paths are as before. -/
lemma each_writeFile_ok :
    Frame s t ∧ (∀ n, ¬ LeadsTo (files.map ManifestFile.path) n → t.find n = s.find n) ∧
      (∀ file ∈ files, ∃ canonical payload, Sends payloads file canonical payload) ∧
      ((files.map fun file => canonicalPath file.path).Nodup →
        ∀ file ∈ files, ∀ canonical payload, Sends payloads file canonical payload →
          ∃ now, t.find canonical = some (writtenEntry file.executable canonical
            (Str.toUtf8 payload.contents) now (s.find canonical))) := by
  induction files generalizing s with
  | nil =>
    cases h
    exact ⟨.refl _, fun _ _ => rfl, by simp, by simp⟩
  | cons _ files ih =>
    rw [map_cons, each_cons_eq_ok] at h
    obtain ⟨u, hu, ht⟩ := h
    obtain ⟨canonical, payload, hcan, hl, hput⟩ := writeFile_ok hu
    obtain ⟨hfr, ho, hsd, hwn⟩ := ih ht
    refine ⟨hput.toFrame.trans hfr, ?_, ?_, ?_⟩
    · intro n hn
      rw [map_cons, leadsTo_cons, not_or, hcan] at hn
      have hne : n ≠ canonical := fun heq => hn.1 (by rw [heq])
      rw [ho n hn.2, hput.find, update_of_ne hne]
    · intro other hmem
      rcases mem_cons.1 hmem with rfl | hmem
      · exact ⟨canonical, payload, hcan, hl⟩
      · exact hsd other hmem
    · intro hnd other hmem canonical' payload' hsend
      rw [map_cons, nodup_cons] at hnd
      have hap : ¬ LeadsTo (files.map ManifestFile.path) canonical := by
        rintro ⟨path, hp, hleast⟩
        obtain ⟨later, hlat, rfl⟩ := mem_map.1 hp
        exact hnd.1 (mem_map.2 ⟨later, hlat, hleast.trans hcan.symm⟩)
      rcases mem_cons.1 hmem with rfl | hmem
      · obtain rfl := ok.inj (hcan.symm.trans hsend.1)
        obtain rfl := Option.some.inj (hl.symm.trans hsend.2)
        exact ⟨_, by rw [ho canonical hap, hput.find, update_self]⟩
      · have hne : canonical' ≠ canonical := by
          rintro rfl
          exact hap ⟨other.path, mem_map_of_mem hmem, hsend.1⟩
        obtain ⟨now, hnow⟩ := hwn hnd.2 other hmem canonical' payload' hsend
        exact ⟨now, by rw [hnow, hput.find, update_of_ne hne]⟩

/-- A path that is written holds the contents of one of the files. -/
lemma written_of_leadsTo {n : Str} (hn : LeadsTo (files.map ManifestFile.path) n) :
    ∃ file ∈ files, ∃ payload entry, Sends payloads file n payload ∧ t.find n = some entry ∧
      entry.data = Str.toUtf8 payload.contents := by
  induction files generalizing s with
  | nil => simp [LeadsTo] at hn
  | cons file files ih =>
    rw [map_cons, each_cons_eq_ok] at h
    obtain ⟨u, hu, ht⟩ := h
    by_cases hlat : LeadsTo (files.map ManifestFile.path) n
    · obtain ⟨other, ho, hspec⟩ := ih ht hlat
      exact ⟨other, mem_cons_of_mem _ ho, hspec⟩
    · obtain ⟨canonical, payload, hcan, hl, hput⟩ := writeFile_ok hu
      rw [map_cons, leadsTo_cons, or_iff_left hlat] at hn
      obtain rfl := ok.inj (hcan.symm.trans hn)
      have hf := congrFun hput.find canonical
      rw [update_self, ← (each_writeFile_ok ht).2.1 canonical hlat] at hf
      exact ⟨file, mem_cons_self, payload, _, ⟨hcan, hl⟩, hf, writtenEntry_data _ _ _ _ _⟩

end

lemma saveEncoded_ok (h : saveEncoded codec refused path value s = (.ok (), t)) :
    ∃ bytes canonical, codec.encode value = some bytes ∧ canonicalPath path = .ok canonical ∧
      Puts canonical (some (writtenEntry false canonical bytes (s.world.fileTicks 0)
        (s.find canonical))) s t := by
  rw [saveEncoded] at h
  cases henc : codec.encode value with
  | none =>
    rw [henc] at h
    cases h
  | some bytes =>
    rw [henc] at h
    obtain ⟨canonical, hcan, hput⟩ := change_ok (modeKnown_writeOp _ _) h
    exact ⟨bytes, canonical, rfl, hcan, hput⟩

lemma saveEncoded_error (h : saveEncoded codec refused path value s = (.error error, t)) :
    Same s t := by
  rw [saveEncoded] at h
  cases henc : codec.encode value with
  | none =>
    rw [henc] at h
    obtain rfl : s = t := congrArg snd h
    exact ⟨.refl s, rfl⟩
  | some =>
    rw [henc] at h
    exact change_error (modeKnown_writeOp _ _) h

lemma wp_saveEncoded {s : PkgState} (hQ : ∀ t bytes canonical, codec.encode value = some bytes →
      canonicalPath path = .ok canonical →
      Puts canonical (some (writtenEntry false canonical bytes (s.world.fileTicks 0)
        (s.find canonical))) s t → Q () t) (hE : ∀ e t, Same s t → E e t) :
    wp (saveEncoded codec refused path value) Q E s := by
  rw [wp_iff]
  constructor
  · intro _ t h
    obtain ⟨bytes, canonical, henc, hcan, hput⟩ := saveEncoded_ok h
    exact hQ t bytes canonical henc hcan hput
  · intro e t h
    exact hE e t (saveEncoded_error h)

lemma canonicalPath_localInstalledPath :
    canonicalPath localInstalledPath = .ok localInstalledPath := by
  decide

section
variable {env : PkgEnv}

lemma saveInstalledList_ok {s t : PkgState} (h : saveInstalledList env s = (.ok (), t)) :
    ∃ bytes, env.lists.encode s.installed = some bytes ∧
      Puts localInstalledPath (some (writtenEntry false localInstalledPath bytes
        (s.world.fileTicks 0) (s.find localInstalledPath))) s t := by
  obtain ⟨bytes, canonical, henc, hcan, hput⟩ := saveEncoded_ok h
  obtain rfl := ok.inj (canonicalPath_localInstalledPath.symm.trans hcan)
  exact ⟨bytes, henc, hput⟩

structure Installation (env : PkgEnv) (verified : VerifiedPackage) (size : ℕ) (s t : PkgState)
    (cleared written : PkgState) (bytes : List UInt8) : Prop where
  discards : each ((staleFiles verified.manifest
    (s.installedPackage verified.manifest.name)).map discard) s = (.ok (), cleared)
  writes : each (verified.manifest.files.map (writeFile verified.bundle.payloads))
    cleared = (.ok (), written)
  installed : t.installed = replacePackage verified.manifest.name
    (some (installedRecord verified size (s.world.ticks 0))) s.installed
  encoded : env.lists.encode t.installed = some bytes
  saved : ∃ now, t.find = update written.find localInstalledPath
    (some (writtenEntry false localInstalledPath bytes now (written.find localInstalledPath)))

lemma applyVerifiedBundle_ok {ver : VerifiedPackage} {size : ℕ} {s t : PkgState}
    {inst : InstalledPackage} (h : applyVerifiedBundle env ver size s = (.ok inst, t)) :
    ∃ cleared written bytes, Installation env ver size s t cleared written bytes := by
  rw [applyVerifiedBundle, read_bind_eq_ok] at h
  obtain ⟨previous, hprev, h⟩ := h
  cases hprev
  obtain ⟨_, cleared, hdisc, h⟩ := bind_eq_ok.1 h
  obtain ⟨_, written, hwrs, h⟩ := bind_eq_ok.1 h
  rw [tickCount_bind, setInstalled_bind] at h
  obtain ⟨_, u, hsv, hpure⟩ := bind_eq_ok.1 h
  obtain rfl : u = t := congrArg snd hpure
  obtain ⟨bytes, henc, hput⟩ := saveInstalledList_ok hsv
  obtain ⟨hcleared, -⟩ := each_discard_ok hdisc
  obtain ⟨hwn, -⟩ := each_writeFile_ok hwrs
  have hfr := hcleared.trans hwn
  have hinst : u.installed = replacePackage ver.manifest.name
      (some (installedRecord ver size (s.world.ticks 0))) s.installed := by
    rw [hput.installed, ← hfr.ticks, ← hfr.installed]
    rfl
  refine ⟨cleared, written, bytes, hdisc, hwrs, hinst, ?_, _, hput.find⟩
  rw [hput.installed]
  exact henc

/-- The package vouches for the bytes under a path: a bundle with its hash, its name
and its version that is signed under the root has them for a file there. -/
def Vouches (env : PkgEnv) (package : PackageInfo) (n : Str) (data : List UInt8) : Prop :=
  ∃ bytes bundle, env.sha256Hex bytes = package.sha256 ∧ env.bundles bytes = some bundle ∧
    Verified env.crypto bundle env.root ∧ bundle.signedManifest.manifest.name = package.name ∧
    bundle.signedManifest.manifest.version = package.version ∧
    ∃ file ∈ bundle.signedManifest.manifest.files, ∃ payload,
      Sends bundle.payloads file n payload ∧ data = Str.toUtf8 payload.contents

lemma vouches_of_verified {package : PackageInfo} {bytes : List UInt8} {ver : VerifiedPackage}
    (h : verifyPackageBytes env package bytes = .ok ver) :
    ver.manifest.name = package.name ∧ ∀ file ∈ ver.manifest.files, ∀ n payload,
      Sends ver.bundle.payloads file n payload →
        Vouches env package n (Str.toUtf8 payload.contents) := by
  rw [verifyPackageBytes, verifyLocalBundleBytes] at h
  split_ifs at h with hhash
  cases hbundle : env.bundles bytes with
  | none => simp [hbundle] at h
  | some bundle =>
    cases hsigned : verifyBundle env.crypto bundle env.root with
    | error => simp [hbundle, hsigned] at h
    | ok =>
      simp only [hbundle, hsigned] at h
      split_ifs at h with hmeta
      cases h
      simp only [not_or, not_not] at hhash hmeta
      exact ⟨hmeta.1, fun file hfile n payload hsends => ⟨bytes, bundle, hhash, hbundle,
        (verifyBundle_eq_ok _).1 hsigned, hmeta.1, hmeta.2.1, file, hfile, payload, hsends, rfl⟩⟩

/-- An installation that succeeds removes no file, and every file that it changes,
the list of packages apart, holds bytes that the package vouches for. -/
theorem install_vouches (env : PkgEnv) (package : PackageInfo) (s : PkgState) :
    wp (install env package) (fun _ t => ∀ n, t.find n = s.find n ∨ ∃ entry,
      t.find n = some entry ∧ (n = localInstalledPath ∨ Vouches env package n entry.data))
      (fun _ _ => True) s := by
  refine wp_iff.2 ⟨fun _ t h n => ?_, fun _ _ _ => trivial⟩
  obtain ⟨_, hin, h⟩ := read_bind_eq_ok.1 h
  cases hin
  split_ifs at h with hno
  · cases h
    exact .inl rfl
  obtain ⟨bytes, -, h⟩ := read_bind_eq_ok.1 h
  obtain ⟨ver, hver, h⟩ := read_bind_eq_ok.1 h
  obtain ⟨_, u, happly, hpure⟩ := bind_eq_ok.1 h
  obtain rfl : u = t := congrArg snd hpure
  obtain ⟨hname, hfiles⟩ := vouches_of_verified hver
  obtain ⟨cleared, written, _, hinst⟩ := applyVerifiedBundle_ok happly
  -- the package is new, so that no file of an older version is cleared
  have hclear : cleared.find n = s.find n := by
    have hprevious : s.installedPackage ver.manifest.name = none := by simpa [hname] using hno
    rw [(each_discard_ok hinst.discards).2, hprevious]
    exact if_neg (by simp [LeadsTo, staleFiles])
  obtain ⟨now, hsaved⟩ := hinst.saved
  by_cases hn : n = localInstalledPath
  · exact .inr ⟨_, by rw [hsaved, hn, update_self], .inl hn⟩
  rw [hsaved, update_of_ne hn]
  by_cases hfile : LeadsTo (ver.manifest.files.map ManifestFile.path) n
  · obtain ⟨file, hmem, payload, entry, hsends, hentry, hdata⟩ :=
      written_of_leadsTo hinst.writes hfile
    exact .inr ⟨entry, hentry, .inr (hdata ▸ hfiles file hmem n payload hsends)⟩
  · exact .inl (((each_writeFile_ok hinst.writes).2.1 n hfile).trans hclear)

end

end Waros.Kernel.Pkg
