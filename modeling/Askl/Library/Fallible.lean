import Mathlib.Logic.Basic
import Mathlib.Tactic.Common
import Mathlib.Data.List.Perm.Basic

/-!
# Computations that may fail

Inversion of computations in `Except`: a sequence succeeds when its stages do, and a fold
over a list, each of whose steps may fail, keeps what its successful steps keep.

## Main results

* `bind_eq_ok` — a computation in two stages succeeds when both do.
* `invariant_of_foldlM`, `exists_foldlM` — **the fold rules.**
* `mapM_eq_ok`, `mapM_perm` — a list is mapped element by element, in any order.
* `foldlM_eq_mapM` — a fold that computes something of each element it does not pass over.
* `Agree.mapM` — lists of computations that agree one by one agree.
* `Avoids.bind`, `Avoids.foldlM` — what no stage fails with, the whole does not fail with.
-/

namespace Fallible

variable {ε : Type*} {α β : Type}

/-- A computation in two stages succeeds when both do. -/
theorem bind_eq_ok {x : Except ε α} {f : α → Except ε β} {b : β} :
    x >>= f = .ok b ↔ ∃ a, x = .ok a ∧ f a = .ok b := by
  cases x <;> simp [bind, Except.bind]

/-- A mapped computation succeeds when the computation does. -/
theorem map_eq_ok {x : Except ε α} {f : α → β} {b : β} :
    x.map f = .ok b ↔ ∃ a, x = .ok a ∧ f a = b := by
  cases x <;> simp [Except.map]

@[simp] theorem pure_eq_ok {a b : α} : (pure a : Except ε α) = .ok b ↔ a = b := by
  simp [pure, Except.pure]

/-- **A fold rule.**  What every successful step over a list keeps, a successful fold
over the list keeps. -/
theorem invariant_of_foldlM {f : β → α → Except ε β} {I : β → Prop} {l : List α} {b b' : β}
    (hstep : ∀ a ∈ l, ∀ {c c'}, I c → f c a = .ok c' → I c') (h : l.foldlM f b = .ok b')
    (hb : I b) : I b' := by
  induction l generalizing b with
  | nil =>
    obtain rfl : b = b' := by simpa using h
    exact hb
  | cons a l ih =>
    rw [List.foldlM_cons] at h
    obtain ⟨c, hc, h⟩ := bind_eq_ok.mp h
    exact ih (fun a' ha' => hstep a' (List.mem_cons_of_mem a ha')) h
      (hstep a List.mem_cons_self hb hc)

/-- A fold over what is made of the elements of a list succeeds when each of its steps does,
and leads on from what the elements before it have led to. -/
theorem exists_foldlM {σ : Type} {step : σ → β → Except ε σ} {f : α → β} {I : List α → σ → Prop}
    {done l : List α} {s : σ}
    (hstep : ∀ a ∈ l, ∀ {done s}, I done s → ∃ s', step s (f a) = .ok s' ∧ I (done ++ [a]) s')
    (hs : I done s) : ∃ s', (l.map f).foldlM step s = .ok s' ∧ I (done ++ l) s' := by
  induction l generalizing done s with
  | nil => exact ⟨s, rfl, by rwa [List.append_nil]⟩
  | cons a l ih =>
    obtain ⟨s', hs', hI⟩ := hstep a List.mem_cons_self hs
    obtain ⟨s'', hs'', hI⟩ := ih (fun a' ha' => hstep a' (List.mem_cons_of_mem a ha')) hI
    rw [List.append_assoc, List.singleton_append] at hI
    refine ⟨s'', ?_, hI⟩
    rw [List.map_cons, List.foldlM_cons]
    exact bind_eq_ok.mpr ⟨s', hs', hs''⟩

/-- Each step of a successful fold succeeds, in a state that the steps before it keep. -/
theorem forall_of_foldlM {f : β → α → Except ε β} {I : β → Prop} {P : α → Prop} {l : List α}
    {b b' : β} (hstep : ∀ a ∈ l, ∀ {c c'}, I c → f c a = .ok c' → I c' ∧ P a)
    (h : l.foldlM f b = .ok b') (hb : I b) : ∀ a ∈ l, P a := by
  induction l generalizing b with
  | nil => simp
  | cons a l ih =>
    rw [List.foldlM_cons] at h
    obtain ⟨c, hc, h⟩ := bind_eq_ok.mp h
    obtain ⟨hc', ha⟩ := hstep a List.mem_cons_self hb hc
    rw [List.forall_mem_cons]
    exact ⟨ha, ih (fun a' ha' => hstep a' (List.mem_cons_of_mem a ha')) h hc'⟩

/-- A list is mapped in two stages when each element is. -/
theorem mapM_map {γ : Type} {f : α → Except ε β} {g : β → γ} (l : List α) :
    l.mapM (fun a => (f a).map g) = (l.mapM f).map (List.map g) := by
  induction l with
  | nil => rfl
  | cons a l ih =>
    rw [List.mapM_cons, List.mapM_cons, ih]
    cases f a with
    | error e => rfl
    | ok b => cases l.mapM f <;> rfl

/-- The second stage may look at the element again. -/
theorem mapM_map_zipWith {γ : Type} {f : α → Except ε β} {g : α → β → γ} (l : List α) :
    l.mapM (fun a => (f a).map (g a)) = (l.mapM f).map (List.zipWith g l) := by
  induction l with
  | nil => rfl
  | cons a l ih =>
    rw [List.mapM_cons, List.mapM_cons, ih]
    cases f a with
    | error e => rfl
    | ok b => cases l.mapM f <;> rfl

/-- A list is mapped when each element is. -/
theorem mapM_eq_ok {f : α → Except ε β} {l : List α} {bs : List β} :
    l.mapM f = .ok bs ↔ List.Forall₂ (fun a b => f a = .ok b) l bs := by
  induction l generalizing bs with
  | nil =>
    rw [List.mapM_nil, pure_eq_ok, List.forall₂_nil_left_iff]
    exact eq_comm
  | cons a l ih =>
    rw [List.mapM_cons, bind_eq_ok, List.forall₂_cons_left_iff]
    constructor
    · rintro ⟨b, hb, h⟩
      obtain ⟨bs', hbs', h⟩ := bind_eq_ok.mp h
      exact ⟨b, bs', hb, ih.mp hbs', (pure_eq_ok.mp h).symm⟩
    · rintro ⟨b, bs', hb, hbs', rfl⟩
      exact ⟨b, hb, bind_eq_ok.mpr ⟨bs', ih.mpr hbs', rfl⟩⟩

/-- A map without failures. -/
theorem mapM_of_ok {f : α → Except ε β} {g : α → β} {l : List α} (h : ∀ a ∈ l, f a = .ok (g a)) :
    l.mapM f = .ok (l.map g) := by
  rw [mapM_eq_ok, List.forall₂_map_right_iff, List.forall₂_same]
  exact h

/-- What lists are mapped to one by one, their concatenation is mapped to. -/
theorem mapM_flatMap {γ : Type} {h : α → Except ε β} {f : γ → List α} {g : γ → List β} {l : List γ}
    (hl : ∀ c ∈ l, (f c).mapM h = .ok (g c)) : (l.flatMap f).mapM h = .ok (l.flatMap g) := by
  rw [mapM_eq_ok]
  induction l with
  | nil => exact .nil
  | cons c l ih =>
    obtain ⟨hc, hrest⟩ := List.forall_mem_cons.mp hl
    rw [List.flatMap_cons, List.flatMap_cons]
    exact List.rel_append (mapM_eq_ok.mp hc) (ih hrest)

/-- An element of the second list is related to one of the first. -/
theorem exists_of_forall₂ {R : α → β → Prop} {l : List α} {bs : List β}
    (h : List.Forall₂ R l bs) {b : β} (hb : b ∈ bs) : ∃ a ∈ l, R a b := by
  induction h with
  | nil => cases hb
  | cons hab _ ih =>
    rcases List.mem_cons.mp hb with rfl | hb
    · exact ⟨_, List.mem_cons_self, hab⟩
    · obtain ⟨a, ha, hr⟩ := ih hb
      exact ⟨a, List.mem_cons_of_mem _ ha, hr⟩

/-- Every result is that of an element. -/
theorem exists_of_mem_mapM {f : α → Except ε β} {l : List α} {bs : List β}
    (h : l.mapM f = .ok bs) {b : β} (hb : b ∈ bs) : ∃ a ∈ l, f a = .ok b :=
  exists_of_forall₂ (mapM_eq_ok.mp h) hb

/-- Every element has its result. -/
theorem exists_mem_mapM {f : α → Except ε β} {l : List α} {bs : List β}
    (h : l.mapM f = .ok bs) {a : α} (ha : a ∈ l) : ∃ b ∈ bs, f a = .ok b := by
  induction mapM_eq_ok.mp h with
  | nil => cases ha
  | cons hab hrest ih =>
    rcases List.mem_cons.mp ha with rfl | ha
    · exact ⟨_, List.mem_cons_self, hab⟩
    · obtain ⟨b, hb, hf⟩ := ih (mapM_eq_ok.mpr hrest) ha
      exact ⟨b, List.mem_cons_of_mem _ hb, hf⟩

/-- A list that is mapped in another order gives the same results, in that order. -/
theorem mapM_perm {f : α → Except ε β} {l l' : List α} {bs : List β} (hp : l.Perm l')
    (h : l.mapM f = .ok bs) : ∃ bs', l'.mapM f = .ok bs' ∧ bs.Perm bs' := by
  rw [mapM_eq_ok] at h
  obtain ⟨bs', hperm, h'⟩ := List.perm_comp_forall₂ hp.symm h
  exact ⟨bs', mapM_eq_ok.mpr hperm, h'.symm⟩

/-- A map succeeds when it does at each element. -/
theorem exists_mapM {f : α → Except ε β} {l : List α} (h : ∀ a ∈ l, ∃ b, f a = .ok b) :
    ∃ bs, l.mapM f = .ok bs := by
  induction l with
  | nil => exact ⟨[], rfl⟩
  | cons a l ih =>
    obtain ⟨⟨b, hb⟩, hrest⟩ := List.forall_mem_cons.mp h
    obtain ⟨bs, hbs⟩ := ih hrest
    exact ⟨b :: bs, mapM_eq_ok.mpr (.cons hb (mapM_eq_ok.mp hbs))⟩

/-- A fold that passes over some elements, and fails only in what it computes of the others,
is a fold over what is computed. -/
theorem foldlM_eq_mapM {σ : Type} {step : σ → α → Except ε σ} {p : α → Bool}
    {f : α → Except ε β} {g : σ → β → σ}
    (hstep : ∀ s a, step s a = if p a then (f a).map (g s) else .ok s) (l : List α) (s : σ) :
    l.foldlM step s = ((l.filter p).mapM f).map fun bs => bs.foldl g s := by
  induction l generalizing s with
  | nil => rfl
  | cons a l ih =>
    rw [List.foldlM_cons, hstep, List.filter_cons]
    cases p a with
    | false => exact ih s
    | true =>
      rw [if_pos rfl, if_pos rfl, List.mapM_cons]
      cases f a with
      | error e => rfl
      | ok b =>
        refine (ih (g s b)).trans ?_
        show _ = Except.map _ (((l.filter p).mapM f).bind fun bs => .ok (b :: bs))
        cases (l.filter p).mapM f <;> rfl

/-- A fold over the elements of lists is a fold of folds. -/
theorem foldlM_flatMap {σ γ : Type} {step : σ → γ → Except ε σ} {f : α → List γ} (l : List α)
    (s : σ) : (l.flatMap f).foldlM step s = l.foldlM (fun s a => (f a).foldlM step s) s := by
  induction l generalizing s with
  | nil => rfl
  | cons a l ih =>
    rw [List.flatMap_cons, List.foldlM_append, List.foldlM_cons]
    exact congrArg _ (funext fun s => ih s)

/-- A list of results with one error among them. -/
theorem mapM_id_eq_error {xs : List (Except ε α)} {e : ε}
    (hall : ∀ x ∈ xs, ∀ e', x = .error e' → e' = e) (hmem : .error e ∈ xs) :
    xs.mapM id = .error e := by
  induction xs with
  | nil => cases hmem
  | cons x xs ih =>
    obtain ⟨hx, hxs⟩ := List.forall_mem_cons.mp hall
    rw [List.mapM_cons]
    cases x with
    | error e' =>
      rw [hx e' rfl]
      rfl
    | ok a =>
      rcases List.mem_cons.mp hmem with h | h
      · cases h
      · rw [ih hxs h]
        rfl

/-! ### Errors that do not occur -/

/-- A computation that does not fail with a given error. -/
def Avoids (e : ε) (x : Except ε α) : Prop := x ≠ .error e

theorem Avoids.ok (e : ε) (a : α) : Avoids e (.ok a) := by
  intro h
  cases h

theorem Avoids.error {e e' : ε} (h : e' ≠ e) : Avoids e (.error e' : Except ε α) := by
  intro heq
  exact h (Except.error.inj heq)

/-- A sequence fails as its first stage does, or as its second stage. -/
theorem Avoids.bind {e : ε} {x : Except ε α} {f : α → Except ε β} (hx : Avoids e x)
    (hf : ∀ a, Avoids e (f a)) : Avoids e (x >>= f) := by
  cases x with
  | error e' => exact Avoids.error fun h => hx (congrArg _ h)
  | ok a => exact hf a

/-- A fold fails as one of its steps does. -/
theorem Avoids.foldlM {e : ε} {f : β → α → Except ε β} (hf : ∀ b a, Avoids e (f b a)) (l : List α)
    (b : β) : Avoids e (l.foldlM f b) := by
  induction l generalizing b with
  | nil => exact Avoids.ok e b
  | cons a l ih =>
    rw [List.foldlM_cons]
    exact (hf b a).bind ih

/-- A map fails as it does at one of the elements. -/
theorem Avoids.mapM {e : ε} {f : α → Except ε β} (hf : ∀ a, Avoids e (f a)) (l : List α) :
    Avoids e (l.mapM f) := by
  induction l with
  | nil => exact Avoids.ok e []
  | cons a l ih =>
    rw [List.mapM_cons]
    exact (hf a).bind fun b => ih.bind fun bs => Avoids.ok e (b :: bs)

/-- Two computations that fail with one error, or whose results are related. -/
inductive Agree (P : α → β → Prop) : Except ε α → Except ε β → Prop where
  | error (e : ε) : Agree P (.error e) (.error e)
  | ok {a : α} {b : β} (h : P a b) : Agree P (.ok a) (.ok b)

theorem Agree.mono {P Q : α → β → Prop} {x : Except ε α} {y : Except ε β} (h : Agree P x y)
    (hPQ : ∀ a b, P a b → Q a b) : Agree Q x y := by
  cases h with
  | error e => exact .error e
  | ok h => exact .ok (hPQ _ _ h)

/-- Lists of computations that agree one by one agree. -/
theorem Agree.mapM {P : α → β → Prop} {xs : List (Except ε α)} {ys : List (Except ε β)}
    (h : List.Forall₂ (Agree P) xs ys) : Agree (List.Forall₂ P) (xs.mapM id) (ys.mapM id) := by
  induction h with
  | nil => exact .ok .nil
  | @cons x y xs ys hxy _ ih =>
    rw [List.mapM_cons, List.mapM_cons]
    cases hxy with
    | error e => exact .error e
    | ok hab =>
      cases hx : xs.mapM id <;> cases hy : ys.mapM id <;> rw [hx, hy] at ih <;> cases ih
      · exact .error _
      · next hrest => exact .ok (.cons hab hrest)

end Fallible
