import Mathlib.Data.List.Perm.Basic
import Waros.Kernel.Memory.Ranges

/-!
Who owns the frames. `Accounted` is the invariant of a process that maps and
unmaps its own pages: every frame it was ever given is behind a live page, is
a page-table frame, is held by the function at work, or is free again.
-/

namespace Waros.Kernel.Memory

open Lib BitmapAllocator List History
variable {a b : BitmapAllocator} {fs : List ℕ}

section
variable (h : Takes a fs b)
include h

lemma Takes.maxFrameIndex_eq : b.maxFrameIndex = a.maxFrameIndex := by
  induction h with
  | nil => rfl
  | cons hfr _ ih => rw [ih, (allocateFrame_eq_some hfr).2.2.2.1]

lemma Takes.isAllocated_iff (f : ℕ) : b.isAllocated f ↔ f ∈ fs ∨ a.isAllocated f := by
  induction h with
  | nil => simp
  | cons hfr _ ih =>
    rw [ih, (allocateFrame_eq_some hfr).2.2.2.2 f]
    split_ifs with hf
    · simp [hf]
    · simp [hf]

lemma Takes.fresh : ∀ f ∈ fs, f ≠ 0 ∧ f < a.maxFrameIndex ∧ a.isAllocated f = false := by
  induction h with
  | nil => simp
  | cons hfr _ ih =>
    obtain ⟨hne, hlt, hfree, hmax, hst⟩ := allocateFrame_eq_some hfr
    intro g hg
    rcases mem_cons.1 hg with rfl | hg
    · exact ⟨hne, hlt, hfree⟩
    · obtain ⟨hne', hlt', hfree'⟩ := ih g hg
      rw [hst] at hfree'
      split_ifs at hfree'
      exact ⟨hne', hmax ▸ hlt', hfree'⟩

lemma Takes.nodup : fs.Nodup := by
  induction h with
  | nil => exact nodup_nil
  | cons hfr hs ih =>
    refine nodup_cons.2 ⟨fun hmem => ?_, ih⟩
    have hfree := (hs.fresh _ hmem).2.2
    rw [(allocateFrame_eq_some hfr).2.2.2.2, if_pos rfl] at hfree
    cases hfree

end

lemma takes_singleton {f : ℕ} (h : a.allocateFrame = some (f, b)) : Takes a [f] b :=
  .cons h (.nil b)

/-- The frames a process has: behind its pages, in its tables, and the ones the
function at work holds. -/
def History.owned (h : History) (held : List ℕ) : List ℕ :=
  h.live.map Prod.snd ++ (h.tableFrames ++ held)

namespace Machine

variable {M : Mapper}

structure Accounted (m : Machine M) (held : List ℕ) : Prop where
  lookup_live : ∀ entry ∈ m.history.live,
    ∃ flags, M.lookup m.tables entry.1 = some (entry.2, flags)
  live_subset : m.history.live ⊆ m.history.mapped
  nodup : (m.history.owned held).Nodup
  allocated : ∀ f ∈ m.history.owned held,
    f ≠ 0 ∧ f < m.frames.maxFrameIndex ∧ m.frames.isAllocated f = true
  returned : ∀ entry ∈ m.history.mapped,
    m.frames.isAllocated entry.2 = true → entry.2 ∈ m.history.owned held
  frees_allocated : ∀ entry ∈ m.history.frees, entry.2 = true

variable {m m' : Machine M} {page frame : ℕ} {flags : PageFlags} {stop : Option MapStop}
  {held held' : List ℕ} {address : ℕ}

/-- Taking fresh frames keeps the account, wherever they go. -/
lemma Accounted.take {fs : List ℕ} (h : m.Accounted held) (htaken : Takes m.frames fs m'.frames)
    (hperm : (m'.history.owned held').Perm (fs ++ m.history.owned held))
    (hlv : ∀ entry ∈ m'.history.live, ∃ flags, M.lookup m'.tables entry.1 = some (entry.2, flags))
    (hsub : m'.history.live ⊆ m'.history.mapped) (hmapped : ∀ entry ∈ m'.history.mapped,
      entry ∈ m.history.mapped ∨ entry.2 ∈ m.history.owned held)
    (hfre : m'.history.frees = m.history.frees) : m'.Accounted held' where
  lookup_live := hlv
  live_subset := hsub
  nodup := by
    refine hperm.nodup_iff.2 (nodup_append.2 ⟨htaken.nodup, h.nodup, ?_⟩)
    rintro f hf g hg rfl
    have hfree := (htaken.fresh f hf).2.2
    rw [(h.allocated f hg).2.2] at hfree
    cases hfree
  allocated := by
    intro f hf
    rw [htaken.maxFrameIndex_eq, htaken.isAllocated_iff]
    rcases mem_append.1 (hperm.mem_iff.1 hf) with hf | hf
    · obtain ⟨hne, hlt, -⟩ := htaken.fresh f hf
      exact ⟨hne, hlt, .inl hf⟩
    · obtain ⟨hne, hlt, hst⟩ := h.allocated f hf
      exact ⟨hne, hlt, .inr hst⟩
  returned := by
    intro entry hent hst
    rw [hperm.mem_iff, mem_append]
    rcases (htaken.isAllocated_iff entry.2).1 hst with hf | hold
    · exact .inl hf
    · rcases hmapped entry hent with hent | hown
      · exact .inr (h.returned entry hent hold)
      · exact .inr hown
  frees_allocated := by
    rw [hfre]
    exact h.frees_allocated

/-- Freeing a frame that is owned keeps the account. -/
lemma Accounted.free {f : ℕ} (h : m.Accounted held)
    (hperm : (m.history.owned held).Perm (f :: m'.history.owned held'))
    (hfrs : m'.frames = m.frames.freeFrame f) (hlv : ∀ entry ∈ m'.history.live,
      ∃ flags, M.lookup m'.tables entry.1 = some (entry.2, flags))
    (hsub : m'.history.live ⊆ m.history.live) (hmapped : m'.history.mapped = m.history.mapped)
    (hfre : m'.history.frees = m.history.frees ++ [(f, m.frames.isAllocated f)]) :
    m'.Accounted held' := by
  have hf := h.allocated f (hperm.mem_iff.2 (by simp))
  have hst := isAllocated_freeFrame hf.1 hf.2.1
  have hnd := nodup_cons.1 (hperm.nodup_iff.1 h.nodup)
  refine ⟨hlv, ?_, hnd.2, fun g hg => ?_, fun entry hent hall => ?_, ?_⟩
  · rw [hmapped]
    exact List.Subset.trans hsub h.live_subset
  · obtain ⟨hne, hlt, hg'⟩ := h.allocated g (hperm.mem_iff.2 (by simp [hg]))
    have hgf : g ≠ f := by
      rintro rfl
      exact hnd.1 hg
    rw [hfrs, hst, if_neg hgf, freeFrame_maxFrameIndex]
    exact ⟨hne, hlt, hg'⟩
  · rw [hfrs, hst] at hall
    split_ifs at hall with hentr
    rw [hmapped] at hent
    have := hperm.mem_iff.1 (h.returned entry hent hall)
    simpa [hentr] using this
  · rw [hfre]
    intro entry hent
    rcases mem_append.1 hent with hent | hent
    · exact h.frees_allocated entry hent
    · simp only [mem_singleton] at hent
      rw [hent]
      exact hf.2.2

/-! ### The operations keep the account -/

lemma Accounted.of_eq (h : m.Accounted held) (htabs : m'.tables = m.tables)
    (hfrs : m'.frames = m.frames) (hhist : m'.history = m.history) : m'.Accounted held := by
  obtain ⟨hlv, hsub, hnd, hall, hret, hfre⟩ := h
  refine ⟨?_, ?_, ?_, ?_, ?_, ?_⟩ <;> rw [hhist]
  · rwa [htabs]
  · exact hsub
  · exact hnd
  · rwa [hfrs]
  · rwa [hfrs]
  · exact hfre

lemma Accounted.allocateFrame {m : Machine M} {f : ℕ}
    {frames : BitmapAllocator} (h : m.Accounted held)
    (hfr : m.frames.allocateFrame = some (f, frames)) :
    Accounted { m with frames } (f :: held) := by
  refine h.take (takes_singleton hfr) ?_ h.lookup_live h.live_subset (fun e hent => .inl hent) rfl
  exact perm_iff_count.2 fun a => by
    simp [owned, count_cons]
    omega

lemma Accounted.mapPage_ok (h : m.Accounted (frame :: held))
    (hmap : m.mapPage page frame flags = (.ok (), m')) : m'.Accounted held := by
  simp only [mapPage] at hmap
  split at hmap
  · next hok =>
    obtain ⟨hn, hl, -⟩ := M.mapTo_ok hok
    cases hmap
    refine h.take (M.mapTo_takes m.tables page frame flags m.frames) ?_ ?_
      (cons_subset_cons _ h.live_subset) ?_ rfl
    · exact perm_iff_count.2 fun a => by
        simp [owned, count_cons]
        omega
    · intro e hent
      rcases mem_cons.1 hent with rfl | hent
      · exact ⟨flags, (hl page).trans (if_pos rfl)⟩
      · obtain ⟨flags', hlv⟩ := h.lookup_live e hent
        have hne : e.1 ≠ page := by
          intro heq
          rw [heq, hn] at hlv
          cases hlv
        exact ⟨flags', (hl e.1).trans ((if_neg hne).trans hlv)⟩
    · intro e hent
      rcases mem_cons.1 hent with rfl | hent
      · exact .inr (by simp [owned])
      · exact .inl hent
  · cases hmap

lemma Accounted.mapPage_error {e : MapToError} (h : m.Accounted held)
    (hmap : m.mapPage page frame flags = (.error e, m')) : m'.Accounted held := by
  simp only [mapPage] at hmap
  split at hmap
  · cases hmap
  · next herr =>
    obtain ⟨hl, -⟩ := M.mapTo_error herr
    cases hmap
    refine h.take (M.mapTo_takes m.tables page frame flags m.frames) ?_ ?_ h.live_subset
      (fun en hent => .inl hent) rfl
    · exact perm_iff_count.2 fun a => by
        simp [owned]
        omega
    · intro en hent
      obtain ⟨flags', hlv⟩ := h.lookup_live en hent
      exact ⟨flags', (hl en.1).trans hlv⟩

lemma Accounted.freeFrame {m : Machine M} {f : ℕ}
    (h : m.Accounted (f :: held)) : (m.freeFrame f).Accounted held := by
  refine h.free ?_ rfl h.lookup_live (.refl _) rfl rfl
  exact perm_iff_count.2 fun a => by
    simp [owned, Machine.freeFrame, count_cons]
    omega

/-- The frames a stopped mapping loop leaves to its caller. -/
def heldBy : Option MapStop → List ℕ
  | some (.mapError _ frame) => [frame]
  | _ => []

lemma Accounted.mapZeroed (h : m.Accounted held)
    (hmap : m.mapZeroed flags address = (stop, m')) : m'.Accounted (heldBy stop ++ held) := by
  rcases mapZeroed_cases hmap with ⟨hstp, rfl⟩ | ⟨frame, frames, hfr, -, hcas⟩
  · rcases hstp with ⟨rfl, -⟩ | rfl <;> exact h
  · have hheld := h.allocateFrame hfr
    rcases hcas with ⟨e, rfl, hpg⟩ | ⟨m₁, hpg, hfill⟩
    · exact hheld.mapPage_error hpg
    · obtain ⟨hstp, stores, rfl⟩ := zeroFill_eq hfill
      have hmapped : Accounted { m₁ with stores } held := (hheld.mapPage_ok hpg).of_eq rfl rfl rfl
      rcases hstp with rfl | rfl <;> exact hmapped

lemma Accounted.mapRange {ps finish : ℕ} (h : m.Accounted held)
    (hmap : m.mapRange flags ps address = (stop, finish, m')) :
    m'.Accounted (heldBy stop ++ held) := by
  induction ps generalizing address m with
  | zero =>
    obtain ⟨rfl, rfl, rfl⟩ := hmap
    exact h
  | succ ps ih =>
    simp only [mapRange] at hmap
    split at hmap
    · next hrd =>
      obtain ⟨rfl, rfl, rfl⟩ := hmap
      exact h.mapZeroed hrd
    · next hrd => exact ih (h.mapZeroed hrd) hmap

/-- Taking out the entry of a page takes out its frame. -/
lemma perm_cons_filter {live : List (ℕ × ℕ)} (hmem : (page, frame) ∈ live)
    (hnd : (live.map Prod.snd).Nodup) (hfr : ∀ entry ∈ live, entry.1 = page → entry.2 = frame) :
    (live.map Prod.snd).Perm
      (frame :: (live.filter fun entry => entry.1 ≠ page).map Prod.snd) := by
  induction live with
  | nil => simp at hmem
  | cons entry live ih =>
    obtain ⟨hnotMem, hnd⟩ := nodup_cons.1 hnd
    have hr : ∀ other ∈ live, other.1 = page → other.2 = frame :=
      fun other ho => hfr other (by simp [ho])
    by_cases hpg : entry.1 = page
    · have ho : ∀ other ∈ live, other.1 ≠ page := by
        intro other ho heq
        refine hnotMem (mem_map.2 ⟨other, ho, ?_⟩)
        rw [hr other ho heq, hfr entry (by simp) hpg]
      have hfilt : live.filter (fun entry => entry.1 ≠ page) = live :=
        filter_eq_self.2 fun other h => by simpa using ho other h
      rw [filter_cons_of_neg (by simpa using hpg), hfilt, map_cons, hfr entry (by simp) hpg]
    · have hmem' : (page, frame) ∈ live := by
        rcases mem_cons.1 hmem with heq | hmem
        · exact absurd (congrArg Prod.fst heq).symm hpg
        · exact hmem
      rw [filter_cons_of_pos (by simpa using hpg)]
      exact ((ih hmem' hnd hr).cons entry.2).trans (.swap ..)

/-- Releasing a page that is live, or not mapped at all, keeps the account. -/
lemma Accounted.release {m : Machine M} {page : ℕ} (h : m.Accounted held)
    (hpg : M.lookup m.tables page = none ∨ ∃ f, (page, f) ∈ m.history.live) :
    (m.release page).Accounted held := by
  rcases release_cases m page with ⟨-, heq⟩ | ⟨frame, flags, tables, hl, hots, heq⟩
  · rwa [heq]
  · rw [heq]
    obtain ⟨f, hf⟩ := hpg.resolve_left (by simp [hl])
    obtain ⟨flags', hlv⟩ := h.lookup_live _ hf
    obtain rfl : frame = f := by
      rw [hl] at hlv
      exact (Prod.ext_iff.1 (Option.some.inj hlv)).1
    refine h.free ?_ rfl ?_ (filter_subset_self _) rfl rfl
    · have hfrs := perm_cons_filter hf (nodup_append.1 h.nodup).1
          fun e hent hfst => by
        obtain ⟨flags', hlv⟩ := h.lookup_live e hent
        rw [hfst, hl] at hlv
        exact (Prod.ext_iff.1 (Option.some.inj hlv)).1.symm
      exact hfrs.append_right _
    · intro e hent
      obtain ⟨hent, hne⟩ := mem_filter.1 hent
      obtain ⟨flags', hlv⟩ := h.lookup_live e hent
      exact ⟨flags', (hots e.1).trans ((if_neg (by simpa using hne)).trans hlv)⟩

lemma release_live {m : Machine M} {page : ℕ} (h : m.Accounted held) (e : ℕ × ℕ) :
    e ∈ (m.release page).history.live ↔ e ∈ m.history.live ∧ e.1 ≠ page := by
  rcases release_cases m page with ⟨hn, heq⟩ | ⟨frame, flags, tables, -, -, heq⟩
  · rw [heq]
    refine ⟨fun hent => ⟨hent, ?_⟩, And.left⟩
    rintro rfl
    obtain ⟨flags, hlv⟩ := h.lookup_live e hent
    rw [hn] at hlv
    cases hlv
  · rw [heq]
    simp [freeFrame]

@[simp] lemma release_mapped (m : Machine M) (page : ℕ) :
    (m.release page).history.mapped = m.history.mapped := by
  rcases release_cases m page with ⟨-, heq⟩ | ⟨frame, flags, tables, -, -, heq⟩
  · rw [heq]
  · rw [heq]
    rfl

@[simp] lemma release_tableFrames (m : Machine M) (page : ℕ) :
    (m.release page).history.tableFrames = m.history.tableFrames := by
  rcases release_cases m page with ⟨-, heq⟩ | ⟨frame, flags, tables, -, -, heq⟩
  · rw [heq]
  · rw [heq]
    rfl

/-- Pages of the process are released one after the other: the account holds,
exactly their entries go, and the rest of the record stays. -/
lemma Accounted.run_release {m : Machine M} (ps : List ℕ) (h : m.Accounted held)
    (hpgs : ∀ p ∈ ps, M.lookup m.tables p = none ∨ ∃ f, (p, f) ∈ m.history.live) :
    (run .release m ps).Accounted held ∧
      (∀ entry, entry ∈ (run .release m ps).history.live ↔ entry ∈ m.history.live ∧ entry.1 ∉ ps) ∧
      (run .release m ps).history.mapped = m.history.mapped ∧
      (run .release m ps).history.tableFrames = m.history.tableFrames ∧
      (run .release m ps).ready = m.ready := by
  induction ps generalizing m with
  | nil => exact ⟨h, by simp, rfl, rfl, rfl⟩
  | cons page ps ih =>
    have hfir := h.release (hpgs page (by simp))
    obtain ⟨hacct, hlv, hmapped, htabs, hrdy⟩ := ih hfir fun p hp => by
      by_cases heq : p = page
      · exact .inl (by rw [release_lookup, if_pos heq])
      · rcases hpgs p (by simp [hp]) with hn | ⟨f, hf⟩
        · exact .inl (by rw [release_lookup, if_neg heq, hn])
        · exact .inr ⟨f, (release_live h _).2 ⟨hf, heq⟩⟩
    refine ⟨hacct, fun entry => ?_, ?_, ?_, ?_⟩
    · rw [run_cons, hlv, release_live h, mem_cons, not_or, and_assoc]
    · rw [run_cons, hmapped, release_mapped]
    · rw [run_cons, htabs, release_tableFrames]
    · rw [run_cons, hrdy, release_ready]

end Machine

end Waros.Kernel.Memory
