import Mathlib.Data.List.Sort
import Mathlib.Data.List.Infix

/-!
# Occurrences that do not overlap

The occurrences of a word are taken from left to right, each after the end of the one before.

## Main definitions

* `occurrences` — where a word occurs in a text.
* `leftmost` — the positions that are taken, each some steps after the one before.

## Main results

* `leftmost_eq_cons`, `leftmost_eq_nil` — the first that is taken is the least.
* `exists_of_mem` — every position is one that is taken, or is overlapped by an earlier one.
* `mem_leftmost_filter` — **what is taken among all, and has a property, is taken among those
  that have it, unless one of these before it is not taken among all.**
* `take_take_eq_iff` — **when the beginnings of two sorted lists agree.**
-/

namespace Leftmost

/-! ### Positions -/

/-- The positions that are taken: each is at least `n` after the one before. -/
def leftmost (n : ℕ) : ℕ → List ℕ → List ℕ
  | _, [] => []
  | next, p :: ps => if next ≤ p then p :: leftmost n (p + n) ps else leftmost n next ps

variable {n next : ℕ} {ps : List ℕ}

theorem leftmost_sublist (n next : ℕ) (ps : List ℕ) : (leftmost n next ps).Sublist ps := by
  induction ps generalizing next with
  | nil => exact .slnil
  | cons p ps ih =>
    rw [leftmost]
    split
    · exact (ih _).cons_cons p
    · exact (ih _).cons p

theorem le_of_mem_leftmost {p : ℕ} (h : p ∈ leftmost n next ps) : next ≤ p := by
  induction ps generalizing next with
  | nil => cases h
  | cons q ps ih =>
    rw [leftmost] at h
    split at h
    · next hle =>
      rcases List.mem_cons.mp h with rfl | h
      · exact hle
      · exact hle.trans ((Nat.le_add_right q n).trans (ih h))
    · exact ih h

/-- What is taken does not overlap. -/
theorem leftmost_pairwise (n next : ℕ) (ps : List ℕ) :
    (leftmost n next ps).Pairwise fun p q => p + n ≤ q := by
  induction ps generalizing next with
  | nil => exact .nil
  | cons p ps ih =>
    rw [leftmost]
    split
    · exact .cons (fun q hq => le_of_mem_leftmost hq) (ih _)
    · exact ih _

/-- The first that is taken is the least from the next position on. -/
theorem leftmost_eq_cons (hn : 0 < n) (hps : ps.Pairwise (· < ·)) {p : ℕ} (hp : p ∈ ps)
    (hle : next ≤ p) (hleast : ∀ q ∈ ps, next ≤ q → p ≤ q) :
    leftmost n next ps = p :: leftmost n (p + n) ps := by
  induction ps with
  | nil => cases hp
  | cons q ps ih =>
    rw [List.pairwise_cons] at hps
    rcases List.mem_cons.mp hp with rfl | hp
    · rw [leftmost, if_pos hle, leftmost, if_neg (by omega)]
    · have hlt := hps.1 p hp
      have hq : ¬next ≤ q := fun h => by
        have := hleast q List.mem_cons_self h
        omega
      rw [leftmost, if_neg hq, leftmost, if_neg (by omega)]
      exact ih hps.2 hp fun r hr => hleast r (.tail q hr)

/-- Nothing is taken after the last position. -/
theorem leftmost_eq_nil (h : ∀ q ∈ ps, q < next) : leftmost n next ps = [] := by
  rw [List.eq_nil_iff_forall_not_mem]
  intro p hp
  have hlt := h p ((leftmost_sublist n next ps).subset hp)
  have hle := le_of_mem_leftmost hp
  omega

/-- Every position from the next on is one that is taken, or is overlapped by an earlier one. -/
theorem exists_of_mem (hn : 0 < n) (hps : ps.Pairwise (· < ·)) {p : ℕ} (hp : p ∈ ps)
    (hle : next ≤ p) : ∃ q ∈ leftmost n next ps, q ≤ p ∧ p < q + n := by
  induction ps generalizing next with
  | nil => cases hp
  | cons q ps ih =>
    rw [List.pairwise_cons] at hps
    rcases List.mem_cons.mp hp with rfl | hp
    · rw [leftmost, if_pos hle]
      exact ⟨p, List.mem_cons_self, Nat.le_refl p, by omega⟩
    · have hlt := hps.1 p hp
      rw [leftmost]
      split
      · rcases Nat.lt_or_ge p (q + n) with h | h
        · exact ⟨q, List.mem_cons_self, hlt.le, h⟩
        · obtain ⟨r, hr, hrp⟩ := ih hps.2 hp h
          exact ⟨r, .tail q hr, hrp⟩
      · exact ih hps.2 hp hle

theorem space_of_pairwise {l : List ℕ} (hl : l.Pairwise fun p q => p + n ≤ q) {p q : ℕ}
    (hp : p ∈ l) (hq : q ∈ l) (hlt : p < q) : p + n ≤ q := by
  induction hl with
  | nil => cases hp
  | cons hhead _ ih =>
    rcases List.mem_cons.mp hp with rfl | hp'
    · rcases List.mem_cons.mp hq with rfl | hq'
      · exact absurd hlt (Nat.lt_irrefl _)
      · exact hhead q hq'
    · rcases List.mem_cons.mp hq with rfl | hq'
      · have := hhead p hp'
        omega
      · exact ih hp' hq'

/-- **What is taken among all, and has a property, is taken among those that have it, unless one
of these before it is not taken among all.** -/
theorem mem_leftmost_filter (hn : 0 < n) (hps : ps.Pairwise (· < ·)) (good : ℕ → Bool) {p : ℕ}
    (hp : p ∈ leftmost n 0 ps) (hgood : good p = true) :
    p ∈ leftmost n 0 (ps.filter good) ∨
      ∃ q ∈ leftmost n 0 (ps.filter good), q < p ∧ q ∉ leftmost n 0 ps := by
  have hmem : p ∈ ps.filter good :=
    List.mem_filter.mpr ⟨(leftmost_sublist n 0 ps).subset hp, hgood⟩
  obtain ⟨q, hq, hle, hlt⟩ := exists_of_mem hn (hps.filter good) hmem (Nat.zero_le p)
  rcases hle.lt_or_eq with hqp | rfl
  · refine .inr ⟨q, hq, hqp, fun hq' => ?_⟩
    have hspace := space_of_pairwise (leftmost_pairwise n 0 ps) hq' hp hqp
    omega
  · exact .inl hq

/-! ### Words -/

section Words

variable {α : Type} [DecidableEq α] {w s : List α}

/-- Where a word occurs in a text. -/
def occurrences (w s : List α) : List ℕ :=
  (List.range (s.length + 1)).filter fun p => decide (w <+: s.drop p)

theorem mem_occurrences (hw : w ≠ []) {p : ℕ} : p ∈ occurrences w s ↔ w <+: s.drop p := by
  rw [occurrences, List.mem_filter, List.mem_range, decide_eq_true_iff]
  refine and_iff_right_of_imp fun h => ?_
  by_contra hlt
  rw [List.drop_eq_nil_of_le (by omega)] at h
  exact hw (List.prefix_nil.mp h)

theorem occurrences_pairwise (w s : List α) : (occurrences w s).Pairwise (· < ·) :=
  List.pairwise_lt_range.filter _

/-- An occurrence lies in the text. -/
theorem add_length_le (hw : w ≠ []) {p : ℕ} (h : p ∈ occurrences w s) :
    p + w.length ≤ s.length := by
  have hle := ((mem_occurrences hw).mp h).length_le
  have hpos := List.length_pos_of_ne_nil hw
  rw [List.length_drop] at hle
  omega

/-- What is there of an occurrence. -/
theorem take_drop_of_mem (hw : w ≠ []) {p : ℕ} (h : p ∈ occurrences w s) :
    (s.drop p).take w.length = w :=
  (List.prefix_iff_eq_take.mp ((mem_occurrences hw).mp h)).symm

end Words

/-! ### Beginnings of lists -/

/-- A map that tells the elements of two lists apart tells the lists apart. -/
theorem map_inj_on {α β : Type} {f : α → β} {l l' : List α}
    (h : ∀ a ∈ l, ∀ b ∈ l', f a = f b → a = b) : l.map f = l'.map f ↔ l = l' := by
  refine ⟨fun heq => ?_, congrArg (List.map f)⟩
  induction l generalizing l' with
  | nil => exact (List.map_eq_nil_iff.mp heq.symm).symm
  | cons a l ih =>
    obtain ⟨b, t, rfl, hb, ht⟩ := List.map_eq_cons_iff.mp heq.symm
    rw [h a List.mem_cons_self b List.mem_cons_self hb.symm,
      ih (fun x hx y hy => h x (.tail a hx) y (.tail b hy)) ht.symm]

/-- What is in the beginning of many lists is in the beginning of its own. -/
theorem mem_take_flatMap {α β : Type} {g : α → List β} {l : List α} {k : ℕ} {b : β}
    (h : b ∈ (l.flatMap g).take k) : ∃ a ∈ l, b ∈ (g a).take k := by
  induction l generalizing k with
  | nil => cases List.take_nil ▸ h
  | cons a l ih =>
    rw [List.flatMap_cons, List.take_append, List.mem_append] at h
    rcases h with h | h
    · exact ⟨a, List.mem_cons_self, h⟩
    · obtain ⟨a', ha', hb⟩ := ih h
      exact ⟨a', .tail a ha', (List.take_subset_take_left _ (Nat.sub_le _ _)) hb⟩

section Beginnings

variable {α κ : Type} [LinearOrder κ] {key : α → κ} {l r : List α}

/-- Two sorted lists with the same elements are the same. -/
theorem eq_of_mem_iff (hl : l.Pairwise fun a b => key a < key b)
    (hr : r.Pairwise fun a b => key a < key b) (h : ∀ a, a ∈ l ↔ a ∈ r) : l = r := by
  have hnodup : ∀ {l : List α}, l.Pairwise (fun a b => key a < key b) → l.Nodup := fun h =>
    h.imp fun hlt heq => (heq ▸ hlt).false
  refine List.Perm.eq_of_pairwise ?_ hl hr
    ((List.perm_ext_iff_of_nodup (hnodup hl) (hnodup hr)).mpr h)
  intro a b _ _ hab hba
  exact absurd (hab.trans hba) (lt_irrefl _)

theorem mem_take_of_lt (hl : l.Pairwise fun a b => key a < key b) {k : ℕ} {a b : α} (ha : a ∈ l)
    (hb : b ∈ l.take k) (hlt : key a < key b) : a ∈ l.take k := by
  rw [← List.take_append_drop k l, List.pairwise_append] at hl
  rw [← List.take_append_drop k l, List.mem_append] at ha
  rcases ha with ha | ha
  · exact ha
  · exact absurd hlt (hl.2.2 b hb a ha).asymm

variable (hl : l.Pairwise fun a b => key a < key b) (hr : r.Pairwise fun a b => key a < key b)
  (hkey : ∀ a ∈ l, ∀ b ∈ r, key a = key b → a = b)
  (hmiss : ∀ b ∈ r, b ∉ l → ∃ a ∈ l, key a < key b ∧ a ∉ r)

include hl hr hkey hmiss

/-- A list whose first that is not in another comes after one of this that it lacks begins like
it, as far as it has all of the other. -/
theorem take_prefix {k : ℕ} (hmem : ∀ a ∈ l.take k, a ∈ r) : l.take k <+: r := by
  have hafter : ∀ b ∈ r, b ∉ l.take k → ∀ a ∈ l.take k, key a < key b := by
    intro b hb hnot a ha
    have hal := List.mem_of_mem_take ha
    rcases lt_trichotomy (key a) (key b) with h | h | h
    · exact h
    · exact absurd (hkey a hal b hb h ▸ ha) hnot
    · by_cases hbl : b ∈ l
      · exact absurd (mem_take_of_lt hl hbl ha h) hnot
      · obtain ⟨c, hc, hcb, hcr⟩ := hmiss b hb hbl
        exact absurd (hmem c (mem_take_of_lt hl hc ha (hcb.trans h))) hcr
  classical
  refine ⟨r.filter (· ∉ l.take k), ?_⟩
  refine eq_of_mem_iff (List.pairwise_append.mpr ⟨hl.sublist (List.take_sublist k l),
    hr.filter _, fun a ha b hb => ?_⟩) hr fun a => ?_
  · rw [List.mem_filter, decide_eq_true_iff] at hb
    exact hafter b hb.1 hb.2 a ha
  · rw [List.mem_append, List.mem_filter, decide_eq_true_iff]
    constructor
    · rintro (ha | ha)
      · exact hmem a ha
      · exact ha.1
    · intro ha
      by_cases hk : a ∈ l.take k
      · exact .inl hk
      · exact .inr ⟨ha, hk⟩

/-- **When the beginnings of two lists agree**, the second cut after `cap`: it has those of the
first, and one more when there are more. -/
theorem take_take_eq_iff {k cap : ℕ} :
    ((r.take cap).take k = l.take k ∧ (k < (r.take cap).length ↔ k < l.length)) ↔
      min l.length (k + 1) ≤ cap ∧ (∀ a ∈ l.take k, a ∈ r) ∧
        (k < l.length → ∃ b ∈ r, b ∉ l.take k) := by
  constructor
  · rintro ⟨htake, hmore⟩
    refine ⟨?_, fun a ha => ?_, fun hk => ?_⟩
    · rcases Nat.lt_or_ge k l.length with hk | hk
      · have hlt := hmore.mpr hk
        rw [List.length_take] at hlt
        omega
      · have hlength := congrArg List.length htake
        rw [List.length_take, List.length_take, List.length_take] at hlength
        omega
    · rw [← htake] at ha
      exact List.mem_of_mem_take (List.mem_of_mem_take ha)
    · have hlt := hmore.mpr hk
      have hr' := hr.sublist (List.take_sublist cap r)
      refine ⟨(r.take cap)[k], List.mem_of_mem_take (List.getElem_mem hlt), fun hmem => ?_⟩
      rw [← htake] at hmem
      rw [← List.take_append_drop k (r.take cap), List.pairwise_append] at hr'
      have hdrop : (r.take cap)[k] ∈ (r.take cap).drop k := by
        rw [List.drop_eq_getElem_cons hlt]
        exact List.mem_cons_self
      exact lt_irrefl _ (hr'.2.2 _ hmem _ hdrop)
  · rintro ⟨hcap, hmem, hmore⟩
    obtain ⟨rest, hrest⟩ := take_prefix hl hr hkey hmiss hmem
    have hlength : r.length = min k l.length + rest.length := by
      rw [← hrest, List.length_append, List.length_take]
    rcases Nat.lt_or_ge k l.length with hk | hk
    · have htake : r.take k = l.take k := by
        rw [← hrest, List.take_left' (by rw [List.length_take]; omega)]
      obtain ⟨b, hb, hnot⟩ := hmore hk
      have hpos : 0 < rest.length := by
        rw [← hrest, List.mem_append] at hb
        exact List.length_pos_of_mem (hb.resolve_left hnot)
      refine ⟨?_, iff_of_true ?_ hk⟩
      · rw [List.take_take, min_eq_left (by omega), htake]
      · rw [List.length_take]
        omega
    · rw [List.take_of_length_le hk] at hmem hrest
      have hnil : rest = [] := by
        rw [List.eq_nil_iff_forall_not_mem]
        intro b hb
        have hbr : b ∈ r := hrest ▸ List.mem_append_right _ hb
        have hbl : b ∉ l := fun hbl => by
          rw [← hrest, List.pairwise_append] at hr
          exact lt_irrefl _ (hr.2.2 b hbl b hb)
        obtain ⟨a, ha, -, har⟩ := hmiss b hbr hbl
        exact har (hmem a ha)
      rw [hnil, List.append_nil] at hrest
      subst hrest
      have htake : l.take cap = l := List.take_of_length_le (by omega)
      rw [htake]
      exact ⟨rfl, Iff.rfl⟩

end Beginnings

end Leftmost
