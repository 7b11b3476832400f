import Mathlib.Data.List.ReduceOption

/-!
Framed messages on a byte stream. The stream arrives in pieces, and a receiver
looks at its buffer after each piece and takes at most one frame off it. `Parses`
is what the receiver has to do on a part of the stream; from it follows that the
messages come out in the order of the stream, whatever the pieces are.
-/

namespace Waros.Lib.Framing

open List
variable {α β : Type*}

/-- The results of one call per piece: each call sees the buffer of the last
one and what arrived in between. -/
def calls (next : List β → Option α × List β) : List β → List (List β) → List (Option α)
  | _, [] => []
  | buffer, arrived :: more =>
    (next (buffer ++ arrived)).1 :: calls next (next (buffer ++ arrived)).2 more

/-- How a receiver goes through a stream: `takes stream result rest` says what it takes
off the front, and of an `idle` stream it takes nothing. It does so from any part of
the stream, or waits, perhaps leaving out bytes that it does not need. -/
structure Parses (takes : List β → Option α → List β → Prop) (idle : List β → Prop)
    (next : List β → Option α × List β) : Prop where
  whole : ∀ {stream result rest}, takes stream result rest → next stream = (result, rest)
  part : ∀ {buffer unread result rest}, takes (buffer ++ unread) result rest →
    (∃ kept, next buffer = (none, kept) ∧ takes (kept ++ unread) result rest) ∨
      ∃ left, next buffer = (result, left) ∧ left ++ unread = rest
  idle : ∀ {buffer unread}, idle (buffer ++ unread) →
    ∃ kept, next buffer = (none, kept) ∧ idle (kept ++ unread)

/-- The results along a whole stream. -/
inductive Runs (takes : List β → Option α → List β → Prop) (idle : List β → Prop) :
    List β → List (Option α) → Prop
  | idle {stream} : idle stream → Runs takes idle stream []
  | take {stream result rest results} : takes stream result rest →
      Runs takes idle rest results → Runs takes idle stream (result :: results)

variable {takes : List β → Option α → List β → Prop} {idle : List β → Prop}
  {next : List β → Option α × List β} {stream buffer : List β} {results : List (Option α)} {n : ℕ}

/-- At any time the results are the first of those of the stream. -/
theorem Parses.calls_prefix_results (h : Parses takes idle next)
    (hruns : Runs takes idle stream results) (arrivals : List (List β)) {unread : List β}
    (hstream : buffer ++ (arrivals.flatten ++ unread) = stream) :
    (calls next buffer arrivals).reduceOption <+: results.reduceOption := by
  induction arrivals generalizing buffer stream results with
  | nil => simp [calls]
  | cons arrived arrivals ih =>
    rw [flatten_cons, append_assoc, ← append_assoc] at hstream
    subst hstream
    rw [calls]
    cases hruns with
    | idle hidle =>
      obtain ⟨kept, hnext, hkept⟩ := h.idle hidle
      rw [hnext, reduceOption_cons_of_none]
      exact ih (.idle hkept) rfl
    | @take _ result _ results htakes hrest =>
      -- what is to be taken may have arrived only in part
      rcases h.part htakes with ⟨kept, hnext, hkept⟩ | ⟨left, hnext, hleft⟩
      · rw [hnext, reduceOption_cons_of_none]
        exact ih (.take hkept hrest) rfl
      · have hmore := ih hrest hleft
        rw [hnext]
        cases result with
        | none => rwa [reduceOption_cons_of_none, reduceOption_cons_of_none]
        | some a =>
          rw [reduceOption_cons_of_some, reduceOption_cons_of_some, cons_prefix_cons]
          exact ⟨rfl, hmore⟩

theorem Parses.calls_idle (h : Parses takes idle next) (hidle : idle stream) (n : ℕ) :
    (calls next stream (replicate n [])).reduceOption = [] := by
  induction n generalizing stream with
  | zero => rfl
  | succ n ih =>
    rw [← append_nil stream] at hidle
    obtain ⟨kept, hnext, hkept⟩ := h.idle hidle
    rw [append_nil] at hkept
    rw [replicate_succ, calls, append_nil, hnext, reduceOption_cons_of_none]
    exact ih hkept

theorem Parses.calls_replicate (h : Parses takes idle next) (hruns : Runs takes idle stream results)
    (hn : results.length ≤ n) :
    (calls next stream (replicate n [])).reduceOption = results.reduceOption := by
  induction hruns generalizing n with
  | idle hidle => exact h.calls_idle hidle n
  | @take stream result rest results htakes _ ih =>
    obtain ⟨n, rfl⟩ := Nat.exists_eq_add_of_le' hn
    have hrest := ih (n := results.length + n) (Nat.le_add_right ..)
    rw [length_cons, show n + (results.length + 1) = results.length + n + 1 by omega,
      replicate_succ, calls, append_nil, h.whole htakes]
    cases result with
    | none => rw [reduceOption_cons_of_none, reduceOption_cons_of_none, hrest]
    | some a => rw [reduceOption_cons_of_some, reduceOption_cons_of_some, hrest]

/-- Once the whole stream has arrived, in whatever pieces, as many calls as there are
results hand over the rest of them. -/
theorem Parses.calls_eq (h : Parses takes idle next) (hruns : Runs takes idle stream results)
    (arrivals : List (List β)) (hstream : buffer ++ arrivals.flatten = stream)
    (hn : results.length ≤ n) :
    (calls next buffer (arrivals ++ replicate n [])).reduceOption = results.reduceOption := by
  induction arrivals generalizing buffer stream results with
  | nil =>
    rw [flatten_nil, append_nil] at hstream
    rw [hstream]
    exact h.calls_replicate hruns hn
  | cons arrived arrivals ih =>
    rw [flatten_cons, ← append_assoc] at hstream
    subst hstream
    rw [cons_append, calls]
    cases hruns with
    | idle hidle =>
      obtain ⟨kept, hnext, hkept⟩ := h.idle hidle
      rw [hnext, reduceOption_cons_of_none]
      exact ih (.idle hkept) rfl hn
    | @take _ result _ results htakes hrest =>
      -- the invariant: buffer and pieces to come make up the stream
      rcases h.part htakes with ⟨kept, hnext, hkept⟩ | ⟨left, hnext, hleft⟩
      · rw [hnext, reduceOption_cons_of_none]
        exact ih (.take hkept hrest) rfl hn
      · have hmore := ih hrest hleft (Nat.le_of_succ_le hn)
        rw [hnext]
        cases result with
        | none => rw [reduceOption_cons_of_none, reduceOption_cons_of_none, hmore]
        | some a => rw [reduceOption_cons_of_some, reduceOption_cons_of_some, hmore]

end Waros.Lib.Framing
