import Mathlib.Data.List.Sort
import Mathlib.Data.Prod.Lex

/-!
# The first row of each group

Rows are sorted by a group and, within a group, by a rank; the first row of each group is
kept.  When the group and the rank determine a row, the rows kept are those of least rank,
in the order of their groups, and nothing is lost by keeping the first rows of the parts of
a table before those of the table.

## Main definitions

* `dedupAdjacent` — drop a row that follows one of its group.
* `distinctOn` — sort, and drop.

## Main results

* `mem_distinctOn` — **the rows kept are those of least rank in their group.**
* `distinctOn_congr` — the order of the rows does not matter.
* `distinctOn_parts` — **the first rows of two parts have the first rows of the whole.**
-/

namespace DistinctOn

variable {α κ ν : Type*} [LinearOrder κ] [LinearOrder ν] (group : α → κ) (rank : α → ν)

/-- Drop a row that follows one of its group. -/
def dedupAdjacent : List α → List α
  | [] => []
  | a :: l => a :: match dedupAdjacent l with
    | [] => []
    | b :: m => if group a = group b then m else b :: m

/-- The order of the rows: by group, and by rank within a group. -/
def Before (a b : α) : Prop := toLex (group a, rank a) ≤ toLex (group b, rank b)

instance : DecidableRel (Before group rank) :=
  fun a b => inferInstanceAs (Decidable (toLex (group a, rank a) ≤ toLex (group b, rank b)))

instance : IsTrans α (Before group rank) := ⟨fun _ _ _ h h' => le_trans h h'⟩

instance : Std.Total (Before group rank) := ⟨fun _ _ => le_total _ _⟩

/-- Sort the rows and keep the first of each group. -/
def distinctOn (l : List α) : List α :=
  dedupAdjacent group (l.insertionSort (Before group rank))

variable {group rank}

theorem Before.group_le {a b : α} (h : Before group rank a b) : group a ≤ group b := by
  rcases Prod.Lex.le_iff.mp h with h | h
  · exact le_of_lt h
  · exact le_of_eq h.1

theorem Before.rank_le {a b : α} (h : Before group rank a b) (heq : group a = group b) :
    rank a ≤ rank b := by
  rcases Prod.Lex.le_iff.mp h with h | h
  · exact absurd heq (ne_of_lt h)
  · exact h.2

/-! ### Sorted rows -/

theorem dedupAdjacent_cons_subset {a : α} {l m : List α} {b : α}
    (h : dedupAdjacent group l = b :: m) {c : α}
    (hc : c ∈ dedupAdjacent group (a :: l)) : c = a ∨ c ∈ b :: m := by
  rw [dedupAdjacent, h] at hc
  rcases List.mem_cons.mp hc with rfl | hc
  · exact Or.inl rfl
  · dsimp only at hc
    split at hc
    · exact Or.inr (List.mem_cons_of_mem b hc)
    · exact Or.inr hc

theorem dedupAdjacent_subset {l : List α} {c : α} (hc : c ∈ dedupAdjacent group l) : c ∈ l := by
  induction l with
  | nil => exact hc
  | cons a l ih =>
    cases hl : dedupAdjacent group l with
    | nil =>
      rw [dedupAdjacent, hl, List.mem_singleton] at hc
      exact hc ▸ List.mem_cons_self
    | cons b m =>
      rcases dedupAdjacent_cons_subset hl hc with rfl | hc
      · exact List.mem_cons_self
      · exact List.mem_cons_of_mem a (ih (hl ▸ hc))

/-- The groups of sorted rows are increasing after the drop. -/
theorem pairwise_dedupAdjacent {l : List α} (hl : l.Pairwise (Before group rank)) :
    (dedupAdjacent group l).Pairwise fun a b => group a < group b := by
  induction l with
  | nil => exact .nil
  | cons a l ih =>
    rw [List.pairwise_cons] at hl
    have ih := ih hl.2
    cases hded : dedupAdjacent group l with
    | nil =>
      rw [dedupAdjacent, hded]
      exact List.pairwise_singleton _ _
    | cons b m =>
      rw [hded, List.pairwise_cons] at ih
      have hab : group a ≤ group b :=
        (hl.1 b (dedupAdjacent_subset (hded ▸ List.mem_cons_self))).group_le
      rw [dedupAdjacent, hded]
      dsimp only
      split
      · next heq =>
        exact List.pairwise_cons.mpr ⟨fun c hc => heq ▸ ih.1 c hc, ih.2⟩
      · next hne =>
        have hlt := lt_of_le_of_ne hab hne
        refine List.pairwise_cons.mpr ⟨fun c hc => ?_, List.pairwise_cons.mpr ih⟩
        rcases List.mem_cons.mp hc with rfl | hc
        · exact hlt
        · exact lt_trans hlt (ih.1 c hc)

/-- Every group keeps a row, which is before all others of it. -/
theorem exists_dedupAdjacent {l : List α} (hl : l.Pairwise (Before group rank)) {b : α}
    (hb : b ∈ l) : ∃ a ∈ dedupAdjacent group l, group a = group b ∧ Before group rank a b := by
  induction l with
  | nil => cases hb
  | cons a l ih =>
    rw [List.pairwise_cons] at hl
    rcases List.mem_cons.mp hb with rfl | hb
    · exact ⟨b, List.mem_cons_self, rfl, le_refl _⟩
    · obtain ⟨c, hc, hcb, hbefore⟩ := ih hl.2 hb
      by_cases hac : group a = group c
      · exact ⟨a, List.mem_cons_self, hac.trans hcb, hl.1 b hb⟩
      · refine ⟨c, ?_, hcb, hbefore⟩
        rw [dedupAdjacent]
        refine List.mem_cons_of_mem a ?_
        cases hded : dedupAdjacent group l with
        | nil => rw [hded] at hc; cases hc
        | cons d m =>
          rw [hded] at hc
          dsimp only
          split
          · next had =>
            rcases List.mem_cons.mp hc with rfl | hc
            · exact absurd had hac
            · exact hc
          · exact hc

/-! ### The rows kept -/

theorem pairwise_distinctOn (l : List α) :
    (distinctOn group rank l).Pairwise fun a b => group a < group b :=
  pairwise_dedupAdjacent (List.pairwise_insertionSort _ l)

theorem distinctOn_subset {l : List α} {a : α} (h : a ∈ distinctOn group rank l) : a ∈ l :=
  (List.mem_insertionSort _).mp (dedupAdjacent_subset h)

variable (group rank) in
theorem exists_distinctOn {l : List α} {b : α} (hb : b ∈ l) :
    ∃ a ∈ distinctOn group rank l, group a = group b ∧ rank a ≤ rank b := by
  obtain ⟨a, ha, hgroup, hbefore⟩ := exists_dedupAdjacent
    (List.pairwise_insertionSort (Before group rank) l) ((List.mem_insertionSort _).mpr hb)
  exact ⟨a, ha, hgroup, hbefore.rank_le hgroup⟩

/-- One row of each group is kept. -/
theorem nodup_distinctOn (l : List α) : ((distinctOn group rank l).map group).Nodup := by
  rw [List.Nodup, List.pairwise_map]
  exact (pairwise_distinctOn l).imp fun h => ne_of_lt h

/-- Rows with one group and one rank are one row. -/
def Determined (group : α → κ) (rank : α → ν) (l : List α) : Prop :=
  ∀ a ∈ l, ∀ b ∈ l, group a = group b → rank a = rank b → a = b

/-- **The rows kept are those of least rank in their group.** -/
theorem mem_distinctOn {l : List α} (hl : Determined group rank l) {a : α} :
    a ∈ distinctOn group rank l ↔ a ∈ l ∧ ∀ b ∈ l, group b = group a → rank a ≤ rank b := by
  constructor
  · intro ha
    refine ⟨distinctOn_subset ha, fun b hb hgroup => ?_⟩
    obtain ⟨c, hc, hcb, hle⟩ := exists_distinctOn group rank hb
    have hca : c = a :=
      List.inj_on_of_nodup_map (nodup_distinctOn l) hc ha (hcb.trans hgroup)
    exact hca ▸ hle
  · rintro ⟨ha, hleast⟩
    obtain ⟨c, hc, hca, hle⟩ := exists_distinctOn group rank ha
    have hcl := distinctOn_subset hc
    have hrank := le_antisymm hle (hleast c hcl hca)
    rwa [hl c hcl a ha hca hrank] at hc

theorem distinctOn_eq {l m : List α}
    (h : ∀ a, a ∈ distinctOn group rank l ↔ a ∈ distinctOn group rank m) :
    distinctOn group rank l = distinctOn group rank m := by
  have : Std.Irrefl fun a b : α => group a < group b := ⟨fun _ => lt_irrefl _⟩
  have : Std.Antisymm fun a b : α => group a < group b :=
    ⟨fun _ _ h h' => absurd h (lt_asymm h')⟩
  exact (pairwise_distinctOn l).eq_of_mem_iff (pairwise_distinctOn m) h

/-- The order of the rows, and how often they come, does not matter. -/
theorem distinctOn_congr {l m : List α} (hl : Determined group rank l)
    (h : ∀ a, a ∈ l ↔ a ∈ m) : distinctOn group rank l = distinctOn group rank m := by
  have hm : Determined group rank m :=
    fun a ha b hb => hl a ((h a).mpr ha) b ((h b).mpr hb)
  refine distinctOn_eq fun a => ?_
  rw [mem_distinctOn hl, mem_distinctOn hm, h]
  exact and_congr_right fun _ => forall_congr' fun b => by rw [h]

/-- **The first rows of two parts have the first rows of the whole.** -/
theorem distinctOn_parts {l l₁ l₂ m : List α} (hl : Determined group rank l)
    (hparts : ∀ a, a ∈ l ↔ a ∈ l₁ ∨ a ∈ l₂)
    (hm : ∀ a, a ∈ m ↔ a ∈ distinctOn group rank l₁ ∨ a ∈ distinctOn group rank l₂) :
    distinctOn group rank m = distinctOn group rank l := by
  have hsub : ∀ a ∈ m, a ∈ l := by
    intro a ha
    rcases (hm a).mp ha with ha | ha
    · exact (hparts a).mpr (Or.inl (distinctOn_subset ha))
    · exact (hparts a).mpr (Or.inr (distinctOn_subset ha))
  -- every row has one of its group, of no larger rank, among the first rows of its part
  have hfirst : ∀ b ∈ l, ∃ c ∈ m, group c = group b ∧ rank c ≤ rank b := by
    intro b hb
    rcases (hparts b).mp hb with hb | hb
    · obtain ⟨c, hc, h⟩ := exists_distinctOn group rank hb
      exact ⟨c, (hm c).mpr (Or.inl hc), h⟩
    · obtain ⟨c, hc, h⟩ := exists_distinctOn group rank hb
      exact ⟨c, (hm c).mpr (Or.inr hc), h⟩
  have hdet : Determined group rank m := fun a ha b hb => hl a (hsub a ha) b (hsub b hb)
  refine distinctOn_eq fun a => ?_
  rw [mem_distinctOn hdet, mem_distinctOn hl]
  constructor
  · rintro ⟨ha, hleast⟩
    refine ⟨hsub a ha, fun b hb hgroup => ?_⟩
    obtain ⟨c, hc, hcb, hle⟩ := hfirst b hb
    exact (hleast c hc (hcb.trans hgroup)).trans hle
  · rintro ⟨ha, hleast⟩
    obtain ⟨c, hc, hca, hle⟩ := hfirst a ha
    have hrank := le_antisymm hle (hleast c (hsub c hc) hca)
    rw [← hl c (hsub c hc) a ha hca hrank]
    exact ⟨hc, fun b hb hgroup => hrank ▸ hleast b (hsub b hb) (hgroup.trans hca)⟩

end DistinctOn
