import Waros.Lib.Transition
import Waros.Kernel.Fs.Operations

/-!
The invariant of WarFS. Every operation puts at most one value under one
canonical path, so it is enough to see what `place` does to the list of
entries.
-/

namespace Waros.Kernel.Fs

open Lib Auth WarFS List FileEntry

lemma canonicalPath_idem {path canonical : Str} (h : canonicalPath path = .ok canonical) :
    canonicalPath canonical = .ok canonical := by
  obtain ⟨-, hprop, rfl, hlen⟩ := canonicalPath_eq_ok.1 h
  exact canonicalPath_render hprop hlen

namespace WarFS

/-- What holds of the entries between two calls. -/
structure WellFormed (fs : WarFS) : Prop where
  sorted : fs.files.Pairwise fun left right => left.name < right.name
  canonical : fs.NamesCanonical
  ne_root : ∀ entry ∈ fs.files, entry.name ≠ ['/']
  limit : fs.maxFiles = Fs.maxFiles
  count : fs.files.length ≤ Fs.maxFiles
  sizes : ∀ entry ∈ fs.files, entry.data.length ≤ maxFileSize
  total : fs.usedSpace ≤ totalCapacity

def OwnersAgree (fs : WarFS) : Prop :=
  ∀ entry ∈ fs.files, entry.ownerUid = entry.permissions.ownerUid

/-- The times of the entries are numbers of 64 bits. -/
def TimesFit (fs : WarFS) : Prop :=
  ∀ entry ∈ fs.files, entry.createdAt < 2 ^ 64 ∧ entry.modifiedAt < 2 ^ 64

lemma wellFormed_new : new.WellFormed where
  sorted := .nil
  canonical := by simp [NamesCanonical, new]
  ne_root := by simp [new]
  limit := rfl
  count := Nat.zero_le _
  sizes := by simp [new]
  total := Nat.zero_le _

section
variable {fs : WarFS} {canonical : Str} {entry : FileEntry}

lemma WellFormed.names_nodup (h : fs.WellFormed) : (fs.files.map name).Nodup :=
  pairwise_map.2 (h.sorted.imp fun hlt => ne_of_lt hlt)

@[simp] lemma place_maxFiles (v : Option FileEntry) :
    (fs.place canonical v).maxFiles = fs.maxFiles := by
  cases v with
  | none => rfl
  | some =>
    rw [place]
    split_ifs <;> rfl

/-- A replaced entry keeps its name, so the replacement may be taken to change
the other fields only. -/
lemma place_files_of_find (hnm : entry.name = canonical) {old : FileEntry}
    (hf : fs.find canonical = some old) :
    (fs.place canonical (some entry)).files =
      modifyFirst name canonical (fun found => { entry with name := found.name })
        fs.files := by
  have hold : ({ entry with name := old.name }) = entry := by
    rw [show old.name = entry.name from (lookup_key hf).trans hnm.symm]
  have hpl := place_of_find hf fun found => { entry with name := found.name }
  rw [hold] at hpl
  rw [← hpl]

lemma place_files_of_new (hf : fs.find canonical = none) :
    (fs.place canonical (some entry)).files = sortByName (fs.files ++ [entry]) := by
  simp [place, hf]

variable {value : Option FileEntry}

lemma mem_place {e : FileEntry} (h : e ∈ (fs.place canonical value).files) :
    e ∈ fs.files ∨ value = some e := by
  rcases value with _ | _
  · exact .inl (mem_of_mem_eraseP h)
  rw [place] at h
  split_ifs at h
  · rcases mem_modifyFirst name h with h | ⟨-, -, -, rfl⟩
    · exact .inl h
    · exact .inr rfl
  · rw [sortByName, mem_insertionSort, mem_append, mem_singleton] at h
    exact h.imp_right fun h => congrArg some h.symm

lemma Admits.name_eq (h : fs.Admits canonical value) :
    ∀ entry, value = some entry → entry.name = canonical := by
  rintro entry rfl
  exact h.1

lemma find_place_of_ne (hnm : ∀ entry, value = some entry → entry.name = canonical) {n : Str}
    (hn : n ≠ canonical) : (fs.place canonical value).find n = fs.find n := by
  cases value with
  | none => exact lookup_eraseP name hn fs.files
  | some entry =>
    have hent := hnm entry rfl
    cases hf : fs.find canonical with
    | some old =>
      rw [find, place_files_of_find hent hf, lookup_modifyFirst name canonical
        (f := fun found => { entry with name := found.name }) (fun _ => rfl), if_neg hn]
      rfl
    | none =>
      rw [place, hf]
      exact (find_sortByName _ _ n).trans
        (by rw [find, lookup_append_singleton, hent, if_neg hn.symm, Option.or_none]; rfl)

/-- After a value is put under a canonical path, that path finds it and every
other path finds what it found before. -/
lemma find_place (hnd : (fs.files.map name).Nodup)
    (hnm : ∀ entry, value = some entry → entry.name = canonical) (n : Str) :
    (fs.place canonical value).find n = if n = canonical then value else fs.find n := by
  split_ifs with hn
  case neg => exact find_place_of_ne hnm hn
  subst hn
  cases value with
  | none => exact lookup_eraseP_self name hnd
  | some entry =>
    have hent := hnm entry rfl
    cases hf : fs.find n with
    | some old =>
      rw [find, place_files_of_find hent hf, lookup_modifyFirst name n
        (f := fun found => { entry with name := found.name }) (fun _ => rfl), if_pos rfl,
        show lookup name n fs.files = _ from hf, Option.map_some,
        show old.name = entry.name from (lookup_key hf).trans hent.symm]
    | none =>
      rw [place, hf]
      refine (find_sortByName _ _ n).trans ?_
      rw [find, lookup_append_singleton, hent, if_pos rfl,
        show lookup name n fs.files = _ from hf, Option.none_or]

lemma sorted_place (hsrt : fs.files.Pairwise fun left right => left.name < right.name)
    (hnm : ∀ entry, value = some entry → entry.name = canonical) :
    (fs.place canonical value).files.Pairwise fun left right => left.name < right.name := by
  rcases value with _ | entry
  · exact hsrt.sublist eraseP_sublist
  have hent := hnm entry rfl
  cases hf : fs.find canonical with
  | some =>
    rw [place_files_of_find hent hf, ← pairwise_map, map_key_modifyFirst name canonical
        (f := fun found => { entry with name := found.name }) (fun _ => rfl),
      pairwise_map]
    exact hsrt
  | none =>
    rw [place_files_of_new hf]
    apply pairwise_lt_insertionSort name
    rw [map_append, map_singleton, nodup_append']
    refine ⟨pairwise_map.2 (hsrt.imp fun hlt => ne_of_lt hlt), by simp, ?_⟩
    rw [disjoint_singleton, hent]
    rintro hmem
    obtain ⟨other, ho, hs⟩ := mem_map.1 hmem
    exact (lookup_eq_none name).1 hf other ho hs

lemma length_place_le (hrm : (fs.find canonical).isSome ∨ fs.files.length < fs.maxFiles)
    (hcnt : fs.files.length ≤ fs.maxFiles) :
    (fs.place canonical value).files.length ≤ fs.maxFiles := by
  rcases value with _ | _
  · exact eraseP_sublist.length_le.trans hcnt
  rw [place]
  split_ifs with hf
  · rw [length_modifyFirst]
    exact hcnt
  · rw [sortByName, length_insertionSort, length_append]
    exact hrm.resolve_left hf

lemma usedWithout_add (hnd : (fs.files.map name).Nodup) (can : Str) :
    fs.usedSpace = fs.usedWithout can + ((fs.find can).map fun entry => entry.data.length).getD 0 :=
  sum_eq_filter_add_lookup name _ can hnd

lemma usedWithout_place (hnm : ∀ entry, value = some entry → entry.name = canonical) :
    (fs.place canonical value).usedWithout canonical = fs.usedWithout canonical := by
  rcases value with _ | entry
  · rw [usedWithout, place, filter_ne_eraseP, usedWithout]
  have hent := hnm entry rfl
  cases hf : fs.find canonical with
  | some =>
    rw [usedWithout, place_files_of_find hent hf, filter_ne_modifyFirst name canonical
        (f := fun found => { entry with name := found.name }) (fun _ => rfl), usedWithout]
  | none =>
    have hperm := perm_insertionSort
      (fun left right : FileEntry => left.name ≤ right.name) (fs.files ++ [entry])
    rw [usedWithout, place_files_of_new hf, sortByName,
      ((hperm.filter _).map _).sum_eq, usedWithout]
    simp [hent]

lemma WellFormed.place (h : fs.WellFormed) (hp : canonicalPath canonical = .ok canonical)
    (hadm : fs.Admits canonical value) : (fs.place canonical value).WellFormed := by
  have hnm := hadm.name_eq
  have hsrt := sorted_place h.sorted hnm
  -- A changed entry has the size of the one it replaces.
  have hold : ∀ entry, value = some entry → (canonical ≠ ['/'] ∧ entry.data.length ≤ maxFileSize ∧
        fs.usedWithout canonical + entry.data.length ≤ totalCapacity) ∧
      ((fs.find canonical).isSome ∨ fs.files.length < fs.maxFiles) := by
    rintro entry rfl
    rcases hadm.2 with ⟨hrt, hsz, htot, hrm⟩ | ⟨old, hf, hd⟩
    · refine ⟨⟨hrt, hsz, htot⟩, ?_⟩
      cases hf : fs.find canonical with
      | some => exact .inl rfl
      | none => exact .inr (hrm hf)
    · have hmem := lookup_mem hf
      have hsum := fs.usedWithout_add h.names_nodup canonical
      rw [hf] at hsum
      rw [hd]
      refine ⟨⟨?_, h.sizes old hmem, ?_⟩, .inl (by rw [hf]; rfl)⟩
      · rw [← show old.name = canonical from lookup_key hf]
        exact h.ne_root old hmem
      · exact hsum.symm.trans_le h.total
  have hrm : (fs.find canonical).isSome ∨ fs.files.length < fs.maxFiles := by
    cases value with
    | none => exact .inl hadm
    | some entry => exact (hold entry rfl).2
  refine ⟨hsrt, ?_, ?_, ?_, ?_, ?_, ?_⟩
  · intro entry hent
    rcases mem_place hent with hent | hent
    · exact h.canonical entry hent
    · rw [hnm entry hent]
      exact hp
  · intro entry hent
    rcases mem_place hent with hent | hent
    · exact h.ne_root entry hent
    · rw [hnm entry hent]
      exact (hold entry hent).1.1
  · rw [place_maxFiles, h.limit]
  · rw [← h.limit]
    exact length_place_le hrm (h.limit ▸ h.count)
  · intro entry hent
    rcases mem_place hent with hent | hent
    · exact h.sizes entry hent
    · exact (hold entry hent).1.2.1
  · have hnd : ((fs.place canonical value).files.map name).Nodup :=
      pairwise_map.2 (hsrt.imp fun hlt => ne_of_lt hlt)
    rw [usedWithout_add hnd, usedWithout_place hnm, find_place h.names_nodup hnm, if_pos rfl]
    cases value with
    | none => exact (fs.usedWithout_le canonical).trans h.total
    | some entry => exact (hold entry rfl).1.2.2

end

end WarFS

/-! ### Runs -/

namespace FsOp

variable (fs : WarFS) (ev : ℕ × FsOp)

/-- One call at a time, whatever it returns. -/
def step (event : ℕ × FsOp) : WarFS := (event.2.perform event.1 fs).2

/-- A file is created with permissions for its owner. -/
def ForOwner : FsOp → Prop
  | .create _ _ ownerUid permissions _ => permissions.ownerUid = ownerUid
  | _ => True

/-- Whatever a call returns, it leaves the entries alone or puts its value
under the canonical path. -/
lemma step_cases :
    step fs ev = fs ∨ ∃ canonical, canonicalPath ev.2.name = .ok canonical ∧
      fs.Admits canonical (ev.2.update ev.1 canonical (fs.find canonical)) ∧
      step fs ev = fs.place canonical (ev.2.update ev.1 canonical (fs.find canonical)) := by
  rcases perform_cases ev.1 fs ev.2 with
    ⟨error, href⟩ | ⟨canonical, hcan, hadm, hdone⟩ |
    ⟨name, uid, role, mode, canonical, old, hop, hrch, -, hperf⟩
  · exact .inl (by rw [step, href])
  · exact .inr ⟨canonical, hcan, hadm, by rw [step, hdone]⟩
  · refine .inr ⟨canonical, hop ▸ hrch.1, ?_, by rw [step, hperf]⟩
    rw [hop, hrch.2.1]
    exact ⟨show old.name = canonical from lookup_key hrch.2.1, .inr ⟨old, hrch.2.1, rfl⟩⟩

/-- The other paths find what they found before. -/
lemma find_step_of_ne {n : Str} (hn : canonicalPath ev.2.name ≠ .ok n) :
    (step fs ev).find n = fs.find n := by
  rcases step_cases fs ev with hs | ⟨canonical, hcan, hadm, hpl⟩
  · rw [hs]
  · rw [hpl]
    exact find_place_of_ne hadm.name_eq fun h => hn (h ▸ hcan)

/-- A success changes the entry of the canonical path and no other. -/
lemma perform_ok {fs fs' : WarFS} (now : ℕ) (op : FsOp) (h : op.perform now fs = (.ok (), fs')) :
    ∃ canonical, canonicalPath op.name = .ok canonical ∧
      ∀ n, n ≠ canonical → fs'.find n = fs.find n := by
  rcases perform_cases now fs op with
    ⟨error, hop⟩ | ⟨canonical, hcan, -⟩ | ⟨_, _, _, _, _, _, -, -, -, hop⟩
  · cases hop.symm.trans h
  · refine ⟨canonical, hcan, fun n hn => ?_⟩
    have hstp := find_step_of_ne fs (now, op) fun hnm => hn (Except.ok.inj (hnm.symm.trans hcan))
    rwa [step, h] at hstp
  · cases hop.symm.trans h

lemma step_wellFormed (h : fs.WellFormed) : (step fs ev).WellFormed := by
  rcases step_cases fs ev with hs | ⟨canonical, hcan, hadm, hpl⟩
  · rwa [hs]
  · rw [hpl]
    exact h.place (canonicalPath_idem hcan) hadm

variable {old : Option FileEntry} {events : List (ℕ × FsOp)} {canonical : Str} {entry : FileEntry}
  {event : ℕ × FsOp}

lemma update_owner {now : ℕ} {op : FsOp} (hop : op.ForOwner)
    (hold : ∀ entry, old = some entry → entry.ownerUid = entry.permissions.ownerUid)
    (h : op.update now canonical old = some entry) :
    entry.ownerUid = entry.permissions.ownerUid := by
  cases op with
  | write =>
    cases old with
    | none =>
      cases h
      rfl
    | some found =>
      cases h
      exact hold found rfl
  | seed | load => cases old <;> cases h <;> rfl
  | create =>
    cases h
    exact hop.symm
  | chmod =>
    cases old with
    | none => exact absurd h (by simp [update])
    | some found =>
      cases h
      simpa using hold found rfl
  | delete => exact absurd h (by simp [update])

/-- What holds of every entry, and of every value that the call puts. -/
lemma step_forall {Q : FileEntry → Prop} {fs : WarFS} (h : ∀ entry ∈ fs.files, Q entry)
    (hupd : ∀ canonical old entry, (∀ found, old = some found → Q found) →
      event.2.update event.1 canonical old = some entry → Q entry) :
    ∀ entry ∈ (step fs event).files, Q entry := by
  rcases step_cases fs event with hs | ⟨canonical, -, -, hpl⟩
  · rwa [hs]
  · rw [hpl]
    intro entry hent
    rcases mem_place hent with hent | hent
    · exact h entry hent
    · exact hupd canonical _ entry (fun found hfd => h found (lookup_mem hfd)) hent

lemma step_ownersAgree (h : fs.OwnersAgree) (hop : ev.2.ForOwner) : (step fs ev).OwnersAgree :=
  step_forall h fun _ _ _ hold hent => update_owner hop hold hent

/-- The times of a call are numbers of 64 bits. -/
def FitsClock (event : ℕ × FsOp) : Prop :=
  event.1 < 2 ^ 64 ∧
    match event.2 with
    | .load _ _ _ _ _ createdAt modifiedAt => createdAt < 2 ^ 64 ∧ modifiedAt < 2 ^ 64
    | _ => True

lemma update_times (heve : FitsClock event)
    (hold : ∀ entry, old = some entry → entry.createdAt < 2 ^ 64 ∧ entry.modifiedAt < 2 ^ 64)
    (h : event.2.update event.1 canonical old = some entry) :
    entry.createdAt < 2 ^ 64 ∧ entry.modifiedAt < 2 ^ 64 := by
  obtain ⟨now, op⟩ := event
  obtain ⟨hnow, hld⟩ := heve
  cases op with
  | write | seed =>
    cases old with
    | none =>
      cases h
      exact ⟨hnow, hnow⟩
    | some found =>
      cases h
      exact ⟨(hold found rfl).1, hnow⟩
  | create =>
    cases h
    exact ⟨hnow, hnow⟩
  | load => cases old <;> cases h <;> exact hld
  | chmod =>
    cases old with
    | none => exact absurd h (by simp [update])
    | some found =>
      cases h
      exact hold found rfl
  | delete => exact absurd h (by simp [update])

lemma step_timesFit (h : fs.TimesFit) (heve : FitsClock ev) : (step fs ev).TimesFit :=
  step_forall h fun _ _ _ hold hent => update_times heve hold hent

lemma run_timesFit (hevs : ∀ event ∈ events, FitsClock event) : (run step new events).TimesFit := by
  have hnew : new.TimesFit := by simp [WarFS.TimesFit, new]
  exact run_invariant step_timesFit hnew (stepsOk_of_forall hevs new)

lemma run_wellFormed (evs : List (ℕ × FsOp)) : (run step new evs).WellFormed :=
  run_invariant_of_step step_wellFormed evs wellFormed_new

lemma run_ownersAgree (hown : ∀ event ∈ events, event.2.ForOwner) :
    (run step new events).OwnersAgree := by
  have hnew : new.OwnersAgree := by simp [WarFS.OwnersAgree, new]
  exact run_invariant step_ownersAgree hnew (stepsOk_of_forall hown new)

/-- After any calls, failed ones included, the entries are strictly sorted,
canonical, within all limits and owned as their permissions say. -/
theorem run_wellFormed_ownersAgree (events : List (ℕ × FsOp))
    (howner : ∀ event ∈ events, event.2.ForOwner) :
    (run step WarFS.new events).WellFormed ∧ (run step WarFS.new events).OwnersAgree :=
  ⟨run_wellFormed events, run_ownersAgree howner⟩

/-- A created file that is then given a mode with an unknown letter. -/
def createThenChmod : List (ℕ × FsOp) :=
  [(5, .create ['a'] [1] 1000 ⟨1000, true, true, false, false⟩ false),
    (6, .chmod ['/', 'a'] 1000 .user ['r', '-', 'x', 'x'])]

theorem run_wellFormed_ownersAgree_createThenChmod :
    (run step WarFS.new createThenChmod).files.length = 1 ∧
      (run step WarFS.new createThenChmod).WellFormed ∧
      (run step WarFS.new createThenChmod).OwnersAgree := by
  refine ⟨by decide, run_wellFormed_ownersAgree createThenChmod ?_⟩
  intro event heve
  rcases mem_cons.1 heve with rfl | heve
  · rfl
  · obtain rfl := mem_singleton.1 heve
    exact trivial

end FsOp

/-!
## Volumes

WarFS together with what every sequence of calls keeps: the entries are well
formed and owned as their permissions say. Between two calls a volume is a
map from canonical paths to entries, and a call changes it at one path.
-/

/-- A mode string of a `chmod_as` is one that is accepted. -/
def FsOp.ModeKnown : FsOp → Prop
  | .chmod _ _ _ mode => ∀ p : FilePermissions, (p.applyModeString mode).1 = true
  | _ => True

/-- The calls as the kernel makes them: a file is created with permissions for
its owner. -/
abbrev KernelOp := {op : FsOp // op.ForOwner}

structure Volume where
  fs : WarFS
  wellFormed : fs.WellFormed
  ownersAgree : fs.OwnersAgree

namespace Volume

lemma ownersAgree_new : new.OwnersAgree := by simp [WarFS.OwnersAgree, new]

def empty : Volume := ⟨new, wellFormed_new, ownersAgree_new⟩

def find (v : Volume) (canonical : Str) : Option FileEntry := v.fs.find canonical

def perform (v : Volume) (now : ℕ) (op : KernelOp) : Except FsError Unit × Volume :=
  ((op.1.perform now v.fs).1,
    ⟨FsOp.step v.fs (now, op.1), FsOp.step_wellFormed v.fs (now, op.1) v.wellFormed,
      FsOp.step_ownersAgree v.fs (now, op.1) v.ownersAgree op.2⟩)

/-- The volume after some calls, whatever they return. -/
def after (v : Volume) (events : List (ℕ × KernelOp)) : Volume :=
  events.foldl (fun v event => (v.perform event.1 event.2).2) v

lemma eq_of_fs_eq {v w : Volume} (h : v.fs = w.fs) : v = w := by
  cases v
  cases h
  rfl

variable {v w : Volume} {now : ℕ} {op : KernelOp} {entry : FileEntry} {name canonical : Str}

lemma find_name {canonical : Str} (h : v.find canonical = some entry) : entry.name = canonical :=
  lookup_key h

lemma find_owner {can : Str} (h : v.find can = some entry) :
    entry.ownerUid = entry.permissions.ownerUid :=
  v.ownersAgree entry (lookup_mem h)

/-- What a call can do: it fails and changes nothing, or it succeeds and puts
its value under the canonical path. -/
lemma perform_cases (v : Volume) (now : ℕ) (op : KernelOp) (hmo : op.1.ModeKnown) :
    (∃ error, v.perform now op = (.error error, v)) ∨
      ∃ w canonical, v.perform now op = (.ok (), w) ∧ canonicalPath op.1.name = .ok canonical ∧
        v.fs.Admits canonical (op.1.update now canonical (v.find canonical)) ∧
        w.find =
          Function.update v.find canonical (op.1.update now canonical (v.find canonical)) := by
  obtain ⟨op, hop⟩ := op
  rcases FsOp.perform_cases now v.fs op with
    ⟨error, href⟩ | ⟨canonical, hcan, hadm, hdone⟩ |
    ⟨name, uid, role, mode, canonical, old, rfl, -, hrej, -⟩
  · have hres : (op.perform now v.fs).1 = .error error := by rw [href]
    have hfs : (op.perform now v.fs).2 = v.fs := by rw [href]
    exact .inl ⟨error, Prod.ext hres (eq_of_fs_eq hfs)⟩
  · have hres : (op.perform now v.fs).1 = .ok () := by rw [hdone]
    refine .inr ⟨(v.perform now ⟨op, hop⟩).2, canonical, Prod.ext hres rfl, hcan, hadm, ?_⟩
    funext n
    rw [Function.update_apply]
    show (op.perform now v.fs).2.find n = _
    rw [hdone]
    exact find_place v.wellFormed.names_nodup hadm.name_eq n
  · cases (hmo old.permissions).symm.trans hrej

/-- The other paths find what they found before. -/
lemma find_perform_of_ne {n : Str} (hn : canonicalPath op.1.name ≠ .ok n) :
    (v.perform now op).2.find n = v.find n :=
  FsOp.find_step_of_ne v.fs (now, op.1) hn

lemma read_eq (v : Volume) (name : Str) :
    v.fs.read name = match canonicalPath name with
      | .error error => .error error
      | .ok canonical =>
        match v.find canonical with
        | none => .error .fileNotFound
        | some entry => .ok entry.data := by
  rw [WarFS.read, readAs]
  cases canonicalPath name with
  | error => rfl
  | ok canonical =>
    simp only [find]
    cases v.fs.find canonical with
    | none => rfl
    | some => simp [FilePermissions.canRead]

section
variable (hcan : canonicalPath name = .ok canonical)
include hcan

lemma read_of_find (hf : v.find canonical = some entry) : v.fs.read name = .ok entry.data := by
  rw [read_eq, hcan]
  simp [hf]

/-- What is read under a name depends on the entry of its canonical path. -/
lemma read_congr (hf : w.find canonical = v.find canonical) : w.fs.read name = v.fs.read name := by
  rw [read_eq, read_eq, hcan]
  simp [hf]

end

lemma stat_eq (v : Volume) (name : Str) :
    v.fs.statAs name 0 .admin = match canonicalPath name with
      | .error error => .error error
      | .ok canonical =>
        match v.find canonical with
        | none => .error .fileNotFound
        | some entry => .ok entry := by
  rw [statAs]
  cases canonicalPath name with
  | error => rfl
  | ok canonical =>
    simp only [find]
    cases v.fs.find canonical with
    | none => rfl
    | some => simp [FilePermissions.canRead]

end Volume

end Waros.Kernel.Fs
