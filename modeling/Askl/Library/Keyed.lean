import Mathlib.Data.List.Nodup
import Mathlib.Data.List.Lattice
import Mathlib.Data.List.Basic
import Mathlib.Data.List.Perm.Basic

/-!
# Joins and merges of keyed lists

Tables as lists, inner joins of them, and the merge that keeps the first row of each
key.

## Main definitions

* `join` — the pairs of rows that satisfy a join condition.
* `dedupByKey` — drop every row whose key was seen before.
* `insertNew` — insert a row unless its key is there.

## Main results

* `nodup_join` — a join of tables without repeated rows repeats none.
* `dedupByKey_eq_self` — rows with distinct keys survive the merge.
* `find?_key_eq_some` — a row is found by its key.
* `foldl_insertNew_eq` — rows with distinct keys are all inserted.
* `find?_insertNew` — the first row of a key stays.
* `filter_append_filter_perm` — rows split by a predicate are the rows.
* `filter_flatMap_key` — the rows of one key among those of all.
* `lookup_map` — a map made from rows has their values.
-/

namespace Keyed

variable {α β κ : Type*}

/-- The inner join of two tables on a condition. -/
def join (l : List α) (r : List β) (on : α → β → Bool) : List (α × β) :=
  l.flatMap fun a => (r.filter (on a)).map fun b => (a, b)

@[simp] theorem mem_join {l : List α} {r : List β} {on : α → β → Bool} {p : α × β} :
    p ∈ join l r on ↔ p.1 ∈ l ∧ p.2 ∈ r ∧ on p.1 p.2 = true := by
  obtain ⟨a, b⟩ := p
  simp only [join, List.mem_flatMap, List.mem_map, List.mem_filter, Prod.mk.injEq]
  constructor
  · rintro ⟨a', ha', b', ⟨hb', hon⟩, rfl, rfl⟩
    exact ⟨ha', hb', hon⟩
  · rintro ⟨ha, hb, hon⟩
    exact ⟨a, ha, b, ⟨hb, hon⟩, rfl, rfl⟩

/-- The rows of a table that is mapped are joined as those of the table. -/
theorem join_map_left {γ : Type*} (f : γ → α) (l : List γ) (r : List β) (on : α → β → Bool) :
    join (l.map f) r on = (join l r fun c b => on (f c) b).map (Prod.map f id) := by
  rw [join, join, List.flatMap_map, List.map_flatMap]
  refine List.flatMap_congr fun c _ => ?_
  rw [List.map_map]
  rfl

/-- A row that matches one row is joined once. -/
theorem map_fst_join {l : List α} {r : List β} {on : α → β → Bool}
    (h : ∀ a ∈ l, ∃ b, r.filter (on a) = [b]) : (join l r on).map (·.1) = l := by
  induction l with
  | nil => rfl
  | cons a l ih =>
    obtain ⟨b, hb⟩ := h a List.mem_cons_self
    have hcons : join (a :: l) r on = (a, b) :: join l r on := by
      rw [join, List.flatMap_cons, hb]
      rfl
    rw [hcons, List.map_cons, ih fun a' ha' => h a' (.tail a ha')]

theorem nodup_join {l : List α} {r : List β} {on : α → β → Bool} (hl : l.Nodup)
    (hr : r.Nodup) : (join l r on).Nodup := by
  rw [join, List.nodup_flatMap]
  refine ⟨fun a _ => ?_, ?_⟩
  · exact (hr.filter _).map fun b b' h => (Prod.mk.inj h).2
  · refine hl.imp fun {a a'} hne => ?_
    intro p hp hp'
    obtain ⟨b, -, rfl⟩ := List.mem_map.mp hp
    obtain ⟨b', -, h⟩ := List.mem_map.mp hp'
    exact hne (Prod.mk.inj h).1.symm

variable [DecidableEq κ]

/-- The rows of a key that tells the rows apart. -/
theorem filter_key_eq {key : α → κ} {rows : List α} (h : (rows.map key).Nodup) {a : α}
    (ha : a ∈ rows) : (rows.filter fun b => key b == key a) = [a] := by
  refine List.perm_singleton.mp ((List.perm_ext_iff_of_nodup (h.of_map _ |>.filter _)
    (List.nodup_singleton a)).mpr fun b => ?_)
  rw [List.mem_filter, beq_iff_eq, List.mem_singleton]
  constructor
  · rintro ⟨hb, hkey⟩
    exact List.inj_on_of_nodup_map h hb ha hkey
  · rintro rfl
    exact ⟨ha, rfl⟩

/-- Keep the first row of each key that has not been seen. -/
def dedupByKey (key : α → κ) : List κ → List α → List α
  | _, [] => []
  | seen, a :: l =>
    if key a ∈ seen then dedupByKey key seen l else a :: dedupByKey key (key a :: seen) l

/-- Rows with distinct, unseen keys all survive. -/
theorem dedupByKey_eq_self {key : α → κ} :
    ∀ {seen : List κ} {l : List α}, (l.map key).Nodup → (∀ a ∈ l, key a ∉ seen) →
      dedupByKey key seen l = l := by
  intro seen l
  induction l generalizing seen with
  | nil => intros; rfl
  | cons a l ih =>
    intro hnd hseen
    rw [List.map_cons, List.nodup_cons] at hnd
    rw [dedupByKey, if_neg (hseen a (by simp)), ih hnd.2]
    intro b hb hmem
    rcases List.mem_cons.mp hmem with hkey | hmem
    · exact hnd.1 (hkey ▸ List.mem_map_of_mem hb)
    · exact hseen b (List.mem_cons_of_mem a hb) hmem

/-- A merge has the rows it was given, when a key determines the row. -/
theorem mem_dedupByKey {key : α → κ} : ∀ {seen : List κ} {l : List α},
    (∀ a ∈ l, ∀ b ∈ l, key a = key b → a = b) → (∀ a ∈ l, key a ∉ seen) →
      ∀ {a : α}, a ∈ dedupByKey key seen l ↔ a ∈ l := by
  -- the keys that have been seen are those of rows that were kept or were never there
  suffices h : ∀ {seen : List κ} {l : List α}, (∀ a ∈ l, ∀ b ∈ l, key a = key b → a = b) →
      ∀ {a : α}, a ∈ dedupByKey key seen l ↔ a ∈ l ∧ key a ∉ seen by
    intro seen l hinj hseen a
    rw [h hinj]
    exact and_iff_left_of_imp (hseen a)
  intro seen l
  induction l generalizing seen with
  | nil => simp [dedupByKey]
  | cons b l ih =>
    intro hinj a
    have ih := @ih
    have htail : ∀ c ∈ l, ∀ d ∈ l, key c = key d → c = d := fun c hc d hd =>
      hinj c (List.mem_cons_of_mem b hc) d (List.mem_cons_of_mem b hd)
    rw [dedupByKey, List.mem_cons]
    split
    · next hb =>
      rw [ih htail]
      refine ⟨fun h => ⟨Or.inr h.1, h.2⟩, ?_⟩
      rintro ⟨rfl | ha, hkey⟩
      · exact absurd hb hkey
      · exact ⟨ha, hkey⟩
    · next hb =>
      rw [List.mem_cons, ih htail, List.mem_cons, not_or]
      constructor
      · rintro (rfl | ⟨ha, -, hkey⟩)
        · exact ⟨Or.inl rfl, hb⟩
        · exact ⟨Or.inr ha, hkey⟩
      · rintro ⟨rfl | ha, hkey⟩
        · exact Or.inl rfl
        · by_cases hab : key a = key b
          · exact Or.inl (hinj a (List.mem_cons_of_mem b ha) b List.mem_cons_self hab)
          · exact Or.inr ⟨ha, hab, hkey⟩

/-- The rows that satisfy a predicate, followed by those that do not, are a
rearrangement of the rows that satisfy either. -/
theorem filter_append_filter_perm {p q r : α → Bool} {l : List α}
    (hdisj : ∀ a ∈ l, p a = true → q a = true → False)
    (hunion : ∀ a ∈ l, r a = (p a || q a)) :
    (l.filter p ++ l.filter q).Perm (l.filter r) := by
  induction l with
  | nil => simp
  | cons a l ih =>
    have ih := ih (fun b hb => hdisj b (List.mem_cons_of_mem a hb))
      (fun b hb => hunion b (List.mem_cons_of_mem a hb))
    have hr := hunion a (by simp)
    have hd := hdisj a (by simp)
    rw [List.filter_cons, List.filter_cons, List.filter_cons, hr]
    cases hp : p a with
    | true =>
      have hq : q a = false := by
        cases hq : q a with
        | false => rfl
        | true => exact absurd (hd hp hq) not_false
      simpa [hq] using ih
    | false =>
      cases hq : q a with
      | true =>
        simp only [Bool.false_eq_true, if_false, if_true, Bool.or_true]
        exact (List.perm_middle).trans (ih.cons a)
      | false => simpa using ih

/-! ### Lookups -/

/-- Under distinct keys, the row found by a key is the one with that key. -/
theorem find?_key_eq_some {key : α → κ} {l : List α} (hnd : (l.map key).Nodup) {k : κ} {a : α} :
    l.find? (fun b => decide (key b = k)) = some a ↔ a ∈ l ∧ key a = k := by
  constructor
  · intro h
    exact ⟨List.mem_of_find?_eq_some h, by simpa using List.find?_some h⟩
  · rintro ⟨ha, hkey⟩
    cases hfind : l.find? fun b => decide (key b = k) with
    | none =>
      have hnot := List.find?_eq_none.mp hfind a ha
      simp [hkey] at hnot
    | some b =>
      have hkey' : key b = k := by simpa using List.find?_some hfind
      rw [List.inj_on_of_nodup_map hnd (List.mem_of_find?_eq_some hfind) ha (hkey'.trans hkey.symm)]

/-! ### Inserts -/

/-- Insert a row, unless there is one with its key. -/
def insertNew (key : α → κ) (l : List α) (a : α) : List α :=
  if l.any fun b => decide (key b = key a) then l else l ++ [a]

theorem insertNew_of_mem {key : α → κ} {l : List α} {a : α} (h : ∃ b ∈ l, key b = key a) :
    insertNew key l a = l := by
  unfold insertNew
  exact if_pos (by simpa using h)

theorem insertNew_of_notMem {key : α → κ} {l : List α} {a : α} (h : ¬∃ b ∈ l, key b = key a) :
    insertNew key l a = l ++ [a] := by
  unfold insertNew
  exact if_neg (by simpa using h)

theorem mem_insertNew {key : α → κ} {l : List α} {a b : α} (h : b ∈ insertNew key l a) :
    b ∈ l ∨ b = a := by
  unfold insertNew at h
  split at h
  · exact Or.inl h
  · rw [List.mem_append, List.mem_singleton] at h
    exact h

/-- Keys stay distinct. -/
theorem nodup_insertNew {key : α → κ} {l : List α} (h : (l.map key).Nodup) (a : α) :
    ((insertNew key l a).map key).Nodup := by
  unfold insertNew
  split
  · exact h
  · next hany =>
    rw [List.map_append, List.nodup_append]
    refine ⟨h, List.nodup_singleton _, ?_⟩
    rintro k hk k' hk' rfl
    obtain ⟨b, hb, rfl⟩ := List.mem_map.mp hk
    refine hany (List.any_eq_true.mpr ⟨b, hb, ?_⟩)
    rw [List.map_singleton, List.mem_singleton] at hk'
    exact decide_eq_true hk'

/-- Rows with distinct, new keys are all inserted. -/
theorem foldl_insertNew_eq {key : α → κ} {l m : List α} (h : ((l ++ m).map key).Nodup) :
    m.foldl (insertNew key) l = l ++ m := by
  induction m generalizing l with
  | nil => rw [List.foldl_nil, List.append_nil]
  | cons a m ih =>
    rw [List.append_cons] at h
    have hnew : ¬∃ b ∈ l, key b = key a := by
      rintro ⟨b, hb, hkey⟩
      rw [List.map_append, List.map_append, List.nodup_append] at h
      refine (List.nodup_append.mp h.1).2.2 (key b) (List.mem_map_of_mem hb) (key a) ?_ hkey
      exact List.mem_map_of_mem List.mem_cons_self
    rw [List.foldl_cons, insertNew_of_notMem hnew, ih h, ← List.append_cons]

/-- The first row of a key stays. -/
theorem find?_insertNew {key : α → κ} {l : List α} (a : α) (k : κ) :
    (insertNew key l a).find? (fun b => decide (key b = k)) =
      (l.find? fun b => decide (key b = k)).or (if key a = k then some a else none) := by
  unfold insertNew
  split
  · next hany =>
    by_cases hk : key a = k
    · subst hk
      rw [Option.or_of_isSome]
      exact List.find?_isSome.mpr (List.any_eq_true.mp hany)
    · rw [if_neg hk, Option.or_none]
  · rw [List.find?_append, List.find?_cons]
    by_cases hk : key a = k <;> simp [hk]

/-! ### Groups -/

variable {γ : Type*} [BEq γ] [LawfulBEq γ]

/-- The rows of one key among those of all. -/
theorem filter_flatMap_key {keys : List γ} (f : γ → List β) (key : β → γ)
    (hkey : ∀ k, ∀ b ∈ f k, key b = k) (hnd : keys.Nodup) {k : γ} (hk : k ∈ keys) :
    (keys.flatMap f).filter (fun b => key b == k) = f k := by
  have hother : ∀ l : List γ, k ∉ l → (l.flatMap f).filter (fun b => key b == k) = [] := by
    intro l hl
    refine List.filter_eq_nil_iff.mpr fun b hb => ?_
    obtain ⟨k', hk', hb⟩ := List.mem_flatMap.mp hb
    rw [hkey k' b hb, beq_iff_eq]
    exact fun heq => hl (heq ▸ hk')
  obtain ⟨l, r, rfl⟩ := List.append_of_mem hk
  rw [List.nodup_middle, List.nodup_cons, List.mem_append, not_or] at hnd
  have hself : (f k).filter (fun b => key b == k) = f k :=
    List.filter_eq_self.mpr fun b hb => beq_iff_eq.mpr (hkey k b hb)
  rw [List.flatMap_append, List.flatMap_cons, List.filter_append, List.filter_append,
    hother l hnd.1.1, hother r hnd.1.2, hself, List.nil_append, List.append_nil]

/-- What is looked up is an entry. -/
theorem mem_of_lookup {l : List (γ × β)} {k : γ} {b : β} (h : l.lookup k = some b) :
    (k, b) ∈ l := by
  obtain ⟨l₁, l₂, rfl, -⟩ := List.lookup_eq_some_iff.mp h
  exact List.mem_append_right l₁ List.mem_cons_self

/-- A map made from rows has their values, when a key has one value. -/
theorem lookup_map {l : List α} (key : α → γ) (val : α → β) {a : α} (ha : a ∈ l)
    (h : ∀ b ∈ l, key b = key a → val b = val a) :
    (l.map fun b => (key b, val b)).lookup (key a) = some (val a) := by
  induction l with
  | nil => cases ha
  | cons b l ih =>
    rw [List.map_cons, List.lookup_cons]
    by_cases hb : key a = key b
    · rw [beq_iff_eq.mpr hb, h b List.mem_cons_self hb.symm]
    · have hal : a ∈ l := (List.mem_cons.mp ha).resolve_left fun hab => hb (congrArg key hab)
      rw [beq_eq_false_iff_ne.mpr hb]
      exact ih hal fun c hc => h c (List.mem_cons_of_mem b hc)

end Keyed
