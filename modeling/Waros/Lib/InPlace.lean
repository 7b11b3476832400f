import Mathlib.Data.List.GetD
import Mathlib.Data.List.Nodup
import Mathlib.Data.List.Perm.Basic

/-!
Loops that change the cells of an array in place. A round of such a loop reads
some cells and overwrites the same cells. When no two rounds share a cell,
every round sees the values from before the loop, and the order of the rounds
does not matter; this covers loops whose rounds are spread over several
threads.
-/

namespace Waros.Lib

open List
variable {ι α : Type}

/-- The second argument is an interleaving of the sequences in the first. -/
inductive Interleaves : List (List ι) → List ι → Prop
  | done {threads : List (List ι)} (h : ∀ thread ∈ threads, thread = []) : Interleaves threads []
  | turn {before after : List (List ι)} {i : ι} {rest order : List ι}
      (h : Interleaves (before ++ rest :: after) order) :
      Interleaves (before ++ (i :: rest) :: after) (i :: order)

lemma Interleaves.perm {ts : List (List ι)} {ord : List ι}
    (h : Interleaves ts ord) : ord.Perm ts.flatten := by
  induction h with
  | done h => rw [flatten_eq_nil_iff.2 h]
  | @turn before after i rest ord h ih =>
    have hmid : (before ++ (i :: rest) :: after).flatten.Perm
        (i :: (before ++ rest :: after).flatten) := by
      simpa using perm_middle
    exact (ih.cons i).trans hmid.symm

/-- One thread after the other. -/
lemma interleaves_flatten (ts : List (List ι)) : Interleaves ts ts.flatten := by
  suffices h : ∀ fin : List (List ι), (∀ thread ∈ fin, thread = []) →
      Interleaves (fin ++ ts) ts.flatten from h [] (by simp)
  induction ts with
  | nil =>
    intro fin hfini
    exact .done (by simpa using hfini)
  | cons thread _ ih =>
    intro fin hfini
    induction thread with
    | nil =>
      have hr := ih (fin ++ [[]]) (by simpa [or_imp] using hfini)
      simpa using hr
    | cons _ _ ihthread => exact .turn ihthread

namespace InPlace

variable (d : α)

/-- A round overwrites the cells in `touched`. The new values are `new` of the
old ones, and depend only on the cells in `touched`. -/
structure Rewrites (round : List α → Option (List α)) (touched : List ℕ)
    (new : (ℕ → α) → ℕ → α) : Prop where
  run : ∀ cells, (∀ x ∈ touched, x < cells.length) → ∃ cells', round cells = some cells' ∧
    cells'.length = cells.length ∧
    ∀ x, cells'.getD x d = if x ∈ touched then new (cells.getD · d) x else cells.getD x d
  reads : ∀ f g : ℕ → α, (∀ x ∈ touched, f x = g x) → ∀ x ∈ touched, new f x = new g x

variable {d} {round : ι → List α → Option (List α)} {touched : ι → List ℕ}
  {new : ι → (ℕ → α) → ℕ → α} (tch : List ℕ) (v : ℕ → α) (cs : List α) {ord : List ι}
  {cells : List α}

lemma getD_foldl_set (hrng : ∀ x ∈ tch, x < cs.length) (y : ℕ) :
    (tch.foldl (fun cs x => cs.set x (v x)) cs).getD y d =
      if y ∈ tch then v y else cs.getD y d := by
  induction tch generalizing cs with
  | nil => simp
  | cons x _ ih =>
    have hlen : (cs.set x (v x)).length = cs.length := length_set
    have hx := hrng x mem_cons_self
    rw [foldl_cons, ih _ fun z hz => hlen ▸ hrng z (mem_cons_of_mem x hz)]
    by_cases hy : y = x
    · subst hy
      simp [hx]
    · simp [hy, Ne.symm]

lemma length_foldl_set : (tch.foldl (fun cs x => cs.set x (v x)) cs).length = cs.length := by
  induction tch generalizing cs with
  | nil => rfl
  | cons _ _ ih => rw [foldl_cons, ih, length_set]

/-- A round that stores the cells of `touched` one by one. -/
lemma Rewrites.of_sets {rd : List α → Option (List α)} {touched : List ℕ}
    {new : (ℕ → α) → ℕ → α} (hrun : ∀ cells, (∀ x ∈ touched, x < cells.length) → rd cells =
      some (touched.foldl (fun acc x => acc.set x (new (cells.getD · d) x)) cells))
    (hrds : ∀ f g : ℕ → α, (∀ x ∈ touched, f x = g x) → ∀ x ∈ touched, new f x = new g x) :
    Rewrites d rd touched new where
  run cells hrng := ⟨_, hrun cells hrng, length_foldl_set touched _ cells,
    getD_foldl_set touched _ cells hrng⟩
  reads := hrds

section
variable (h : ∀ i ∈ ord, Rewrites d (round i) (touched i) (new i))
  (hdisj : ord.Pairwise fun i j => ∀ x ∈ touched i, x ∉ touched j)
  (hrng : ∀ i ∈ ord, ∀ x ∈ touched i, x < cells.length)
include h hdisj hrng

/-- A loop of rounds that share no cell changes every cell as if its round were
the only one. -/
lemma Rewrites.loop :
    ∃ cells', ord.foldlM (fun cells i => round i cells) cells = some cells' ∧
      cells'.length = cells.length ∧
      (∀ i ∈ ord, ∀ x ∈ touched i, cells'.getD x d = new i (cells.getD · d) x) ∧
      ∀ x, (∀ i ∈ ord, x ∉ touched i) → cells'.getD x d = cells.getD x d := by
  induction ord generalizing cells with
  | nil => exact ⟨cells, rfl, rfl, by simp, by simp⟩
  | cons i ord ih =>
    obtain ⟨hi, hlat⟩ := pairwise_cons.1 hdisj
    have hrd := h i mem_cons_self
    obtain ⟨middle, hmid, hlen, hcel⟩ := hrd.run cells (hrng i mem_cons_self)
    have hrng' : ∀ j ∈ ord, ∀ x ∈ touched j, x < middle.length := fun j hj x hx =>
      hlen ▸ hrng j (mem_cons_of_mem i hj) x hx
    obtain ⟨cells', hrun, hlen', hnew, hold⟩ :=
      ih (fun j hj => h j (mem_cons_of_mem i hj)) hlat hrng'
    -- later rounds find the cells that they touch as they were before
    have hke : ∀ j ∈ ord, ∀ x ∈ touched j, middle.getD x d = cells.getD x d := by
      intro j hj x hx
      rw [hcel, if_neg fun hxi => hi j hj x hxi hx]
    refine ⟨cells', ?_, hlen'.trans hlen, ?_, ?_⟩
    · rw [foldlM_cons, hmid]
      exact hrun
    · intro j hj x hx
      rcases mem_cons.1 hj with rfl | hj
      · rw [hold x fun k hk => hi k hk x hx, hcel, if_pos hx]
      · rw [hnew j hj x hx]
        exact (h j (mem_cons_of_mem i hj)).reads _ _ (hke j hj) x hx
    · intro x hx
      rw [hold x fun k hk => hx k (mem_cons_of_mem i hk), hcel, if_neg (hx i mem_cons_self)]

/-- When the rounds reach every cell, the result is given by its values. -/
lemma Rewrites.loop_eq (hcov : ∀ x < cells.length, ∃ i ∈ ord, x ∈ touched i) {v : ℕ → α}
    (hval : ∀ i ∈ ord, ∀ x ∈ touched i, new i (cells.getD · d) x = v x) :
    ord.foldlM (fun cells i => round i cells) cells = some ((range cells.length).map v) := by
  obtain ⟨cells', hrun, hlen, hnew, -⟩ := loop h hdisj hrng
  rw [hrun]
  refine congrArg some (ext_getElem (by simpa using hlen) fun x hx _ => ?_)
  obtain ⟨i, hi, hxi⟩ := hcov x (hlen ▸ hx)
  rw [← getD_eq_getElem, hnew i hi x hxi, hval i hi x hxi]
  simp

end

end InPlace

section
variable {σ : Type} {P : σ → Prop}

/-- The round ends without failure on every state with the property and keeps
it. -/
def GoesThrough (P : σ → Prop) (round : σ → Option σ) : Prop :=
  ∀ s, P s → ∃ s', round s = some s' ∧ P s'

lemma GoesThrough.foldlM {rd : σ → ι → Option σ} {ord : List ι}
    (h : ∀ i ∈ ord, GoesThrough P (rd · i)) : GoesThrough P (ord.foldlM rd) := by
  induction ord with
  | nil => exact fun s hs => ⟨s, rfl, hs⟩
  | cons i ord ih =>
    obtain ⟨hi, hr⟩ := forall_mem_cons.1 h
    intro s hs
    obtain ⟨s₁, hfst, hs₁⟩ := hi s hs
    obtain ⟨s', hrun, hs'⟩ := ih hr s₁ hs₁
    refine ⟨s', ?_, hs'⟩
    change (i :: ord).foldlM rd s = some s'
    change rd s i = some s₁ at hfst
    rw [foldlM_cons, hfst]
    exact hrun

end

end Waros.Lib
