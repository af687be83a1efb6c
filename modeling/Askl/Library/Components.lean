import Mathlib.Data.List.Basic
import Mathlib.Data.List.Count
import Mathlib.Data.List.Infix
import Mathlib.Tactic.Common

/-!
# Paths of components

A path is written by putting a separator before each of its components.  Components
without the separator are read back off the path: their number is that of the separators,
the path of the first ones, with a separator after it, is what the longer paths begin
with, and what is before the last separator is the path without the last component.

## Main definitions

* `path` — the path of a list of components.
* `Plain` — no component has the separator.

## Main results

* `path_injective` — **a path determines its components.**
* `prefix_path_iff` — **what a path begins with.**
* `take_path_concat` — the path up to the last separator.
* `splitOn_path` — the components by splitting.
-/

namespace Components

variable {α : Type*} {sep : α} {cs ds : List (List α)} {c d : List α}

/-- The path of a list of components. -/
def path (sep : α) (cs : List (List α)) : List α := cs.flatMap fun c => sep :: c

/-- No component has the separator. -/
def Plain (sep : α) (cs : List (List α)) : Prop := ∀ c ∈ cs, sep ∉ c

@[simp] theorem path_nil : path sep [] = [] := rfl

@[simp] theorem path_cons : path sep (c :: cs) = sep :: (c ++ path sep cs) := rfl

theorem path_append : path sep (cs ++ ds) = path sep cs ++ path sep ds := List.flatMap_append

theorem path_concat : path sep (cs ++ [c]) = path sep cs ++ sep :: c := by
  simp [path_append]

theorem plain_cons : Plain sep (c :: cs) ↔ sep ∉ c ∧ Plain sep cs := List.forall_mem_cons

/-- Where a component ends: at the end of the text, or at a separator. -/
theorem append_inj_of_stop {s t : List α} (hc : sep ∉ c) (hd : sep ∉ d)
    (hs : s = [] ∨ ∃ s', s = sep :: s') (ht : t = [] ∨ ∃ t', t = sep :: t')
    (h : c ++ s = d ++ t) : c = d ∧ s = t := by
  rcases List.append_eq_append_iff.mp h with ⟨a, rfl, rfl⟩ | ⟨a, rfl, rfl⟩
  · rcases a with _ | ⟨x, a⟩
    · simp
    · obtain h | ⟨s', hs'⟩ := hs
      · cases h
      · obtain rfl := (List.cons.inj hs').1
        exact absurd (List.mem_append_right c List.mem_cons_self) hd
  · rcases a with _ | ⟨x, a⟩
    · simp
    · obtain h | ⟨t', ht'⟩ := ht
      · cases h
      · obtain rfl := (List.cons.inj ht').1
        exact absurd (List.mem_append_right d List.mem_cons_self) hc

theorem path_stops (cs : List (List α)) : path sep cs = [] ∨ ∃ s, path sep cs = sep :: s := by
  cases cs with
  | nil => exact Or.inl rfl
  | cons c cs => exact Or.inr ⟨_, rfl⟩

/-- **A path determines its components.** -/
theorem path_injective (hcs : Plain sep cs) (hds : Plain sep ds)
    (h : path sep cs = path sep ds) : cs = ds := by
  induction cs generalizing ds with
  | nil =>
    cases ds with
    | nil => rfl
    | cons d ds => cases h
  | cons c cs ih =>
    cases ds with
    | nil => cases h
    | cons d ds =>
      obtain ⟨hc, hcs'⟩ := plain_cons.mp hcs
      obtain ⟨hd, hds'⟩ := plain_cons.mp hds
      obtain ⟨hcd, hrest⟩ := append_inj_of_stop hc hd (path_stops cs) (path_stops ds)
        (List.cons.inj h).2
      rw [hcd, ih hcs' hds' hrest]

/-- **What a path begins with**: the path of fewer components, up to the separator after
them. -/
theorem prefix_path_iff (hcs : Plain sep cs) (hds : Plain sep ds) :
    path sep ds ++ [sep] <+: path sep cs ↔ ∃ e es, cs = ds ++ e :: es := by
  constructor
  · rintro ⟨t, ht⟩
    induction ds generalizing cs with
    | nil =>
      cases cs with
      | nil => cases ht
      | cons c cs => exact ⟨c, cs, rfl⟩
    | cons d ds ih =>
      cases cs with
      | nil => cases ht
      | cons c cs =>
        obtain ⟨hc, hcs'⟩ := plain_cons.mp hcs
        obtain ⟨hd, hds'⟩ := plain_cons.mp hds
        simp only [path_cons, List.cons_append, List.append_assoc, List.cons.injEq,
          true_and] at ht
        have hstop : path sep ds ++ (sep :: t) = [] ∨
            ∃ s, path sep ds ++ (sep :: t) = sep :: s := by
          cases ds with
          | nil => exact Or.inr ⟨t, rfl⟩
          | cons d ds => exact Or.inr ⟨_, rfl⟩
        obtain ⟨hdc, hrest⟩ := append_inj_of_stop hd hc hstop (path_stops cs) ht
        obtain ⟨e, es, hes⟩ := ih hcs' hds' (by simpa using hrest)
        exact ⟨e, es, by rw [hdc, hes, List.cons_append]⟩
  · rintro ⟨e, es, rfl⟩
    exact ⟨e ++ path sep es, by simp [path_append]⟩

section Decidable

variable [DecidableEq α]

/-- A path has a separator for each component. -/
theorem count_path (hcs : Plain sep cs) : (path sep cs).count sep = cs.length := by
  induction cs with
  | nil => rfl
  | cons c cs ih =>
    obtain ⟨hc, hcs⟩ := plain_cons.mp hcs
    rw [path_cons, List.count_cons_self, List.count_append, List.count_eq_zero.mpr hc, ih hcs,
      Nat.zero_add, List.length_cons]

/-- The last separator of a path is before its last component. -/
theorem idxOf_reverse_path (hc : sep ∉ c) : (path sep (cs ++ [c])).reverse.idxOf sep = c.length := by
  rw [path_concat, List.reverse_append, List.reverse_cons, List.append_assoc,
    List.idxOf_append_of_notMem (by simpa using hc)]
  simp

/-- What is before the last separator is the path without the last component. -/
theorem take_path_concat (hc : sep ∉ c) : (path sep (cs ++ [c])).take
    ((path sep (cs ++ [c])).length - ((path sep (cs ++ [c])).reverse.idxOf sep + 1)) =
      path sep cs := by
  rw [idxOf_reverse_path hc, path_concat]
  simp

/-- A path is split into its components, after an empty one. -/
theorem splitOn_path (hcs : Plain sep cs) : (path sep cs).splitOn sep = [] :: cs := by
  have hinter : ∀ cs : List (List α), path sep cs = [sep].intercalate ([] :: cs) := by
    intro cs
    induction cs with
    | nil => rfl
    | cons c cs ih =>
      rw [List.intercalate_cons_cons, List.nil_append, path_cons]
      cases cs with
      | nil => simp
      | cons d ds =>
        rw [ih, List.intercalate_cons_cons, List.intercalate_cons_cons]
        simp
  rw [hinter cs, List.splitOn_intercalate sep (List.forall_mem_cons.mpr ⟨List.not_mem_nil, hcs⟩)
    (List.cons_ne_nil _ _)]

end Decidable

end Components
