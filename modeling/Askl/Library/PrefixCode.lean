import Mathlib.Data.List.Basic
import Mathlib.Tactic.Tauto

/-!
# Self-delimiting encodings

An encoding delimits itself when a value is read off the head of any stream that starts
with its code: two streams that start with codes and are equal start with one value, and
go on equally.  Such encodings compose without separators.

## Main definitions

* `Delimits` — an encoding delimits itself, on the values that are allowed.
* `Uniquely` — a concatenation of codes is taken apart in one way.
* `NoCollision` — a digest tells two streams apart.

## Main results

* `Delimits.eq_of_prefix` — **no code is the beginning of another.**
* `Delimits.pair`, `Delimits.option`, `Delimits.sum`, `Delimits.counted` — composition.
* `Delimits.uniquely` — the codes of a list are taken apart when none is empty.
-/

namespace PrefixCode

variable {α β γ κ : Type*}

/-- On the values allowed by `ok`, a code is read off the head of any stream. -/
def Delimits (ok : α → Prop) (enc : α → List β) : Prop :=
  ∀ ⦃a b : α⦄ ⦃s t : List β⦄, ok a → ok b → enc a ++ s = enc b ++ t → a = b ∧ s = t

variable {ok : α → Prop} {enc : α → List β}

namespace Delimits

/-- A code determines its value. -/
theorem eq_of_eq (h : Delimits ok enc) {a b : α} (ha : ok a) (hb : ok b)
    (heq : enc a = enc b) : a = b :=
  (h ha hb (congrArg (· ++ []) heq)).1

/-- **No code is the beginning of another.** -/
theorem eq_of_prefix (h : Delimits ok enc) {a b : α} (ha : ok a) (hb : ok b)
    (hpre : enc a <+: enc b) : a = b := by
  obtain ⟨s, hs⟩ := hpre
  have hnil : enc a ++ s = enc b ++ [] := by rw [List.append_nil, hs]
  exact (h ha hb hnil).1

/-- Codes of one length that determine their values. -/
theorem of_length (hlen : ∀ a b, ok a → ok b → (enc a).length = (enc b).length)
    (hinj : ∀ a b, ok a → ok b → enc a = enc b → a = b) : Delimits ok enc := by
  intro a b s t ha hb h
  obtain ⟨hcode, hrest⟩ := List.append_inj h (hlen a b ha hb)
  exact ⟨hinj a b ha hb hcode, hrest⟩

/-- Fewer values are allowed. -/
theorem mono (h : Delimits ok enc) {ok' : α → Prop} (hok : ∀ a, ok' a → ok a) :
    Delimits ok' enc :=
  fun _ _ _ _ ha hb heq => h (hok _ ha) (hok _ hb) heq

/-- The codes of a field that determines the value. -/
theorem comap (h : Delimits ok enc) {f : γ → α} {ok' : γ → Prop} (hok : ∀ c, ok' c → ok (f c))
    (hf : ∀ c d, ok' c → ok' d → f c = f d → c = d) : Delimits ok' fun c => enc (f c) := by
  intro c d s t hc hd heq
  obtain ⟨hfield, hrest⟩ := h (hok c hc) (hok d hd) heq
  exact ⟨hf c d hc hd hfield, hrest⟩

/-- Two fields, one after the other. -/
theorem pair (h : Delimits ok enc) {ok' : γ → Prop} {enc' : γ → List β}
    (h' : Delimits ok' enc') :
    Delimits (fun p : α × γ => ok p.1 ∧ ok' p.2) fun p => enc p.1 ++ enc' p.2 := by
  rintro ⟨a, c⟩ ⟨b, d⟩ s t ⟨ha, hc⟩ ⟨hb, hd⟩ heq
  rw [List.append_assoc, List.append_assoc] at heq
  obtain ⟨hfst, hrest⟩ := h ha hb heq
  obtain ⟨hsnd, hrest⟩ := h' hc hd hrest
  exact ⟨Prod.ext hfst hsnd, hrest⟩

/-- A tag that tells the kind of a value, and then what the kind prescribes.  No tag may
begin another. -/
theorem sum {kind : α → κ} {tag : κ → List β} {body : α → List β}
    (htag : ∀ k l, tag k <+: tag l → k = l)
    (hbody : ∀ ⦃a b s t⦄, ok a → ok b → kind a = kind b → body a ++ s = body b ++ t →
      a = b ∧ s = t) :
    Delimits ok fun a => tag (kind a) ++ body a := by
  intro a b s t ha hb heq
  simp only [List.append_assoc] at heq
  have hkind : kind a = kind b := by
    rcases List.append_eq_append_iff.mp heq with ⟨_, hpre, -⟩ | ⟨_, hpre, -⟩
    · exact htag _ _ ⟨_, hpre.symm⟩
    · exact (htag _ _ ⟨_, hpre.symm⟩).symm
  rw [hkind] at heq
  exact hbody ha hb hkind (List.append_cancel_left heq)

end Delimits

/-! ### Optional fields -/

/-- A flag, and the value when there is one. -/
def optionCode (absent present : β) (enc : α → List β) : Option α → List β
  | none => [absent]
  | some a => present :: enc a

theorem Delimits.option (h : Delimits ok enc) {absent present : β} (hne : absent ≠ present) :
    Delimits (fun o : Option α => ∀ a ∈ o, ok a) (optionCode absent present enc) := by
  intro o o' s t ho ho' heq
  cases o with
  | none =>
    cases o' with
    | none => exact ⟨rfl, (List.cons.inj heq).2⟩
    | some b => exact absurd (List.cons.inj heq).1 hne
  | some a =>
    cases o' with
    | none => exact absurd (List.cons.inj heq).1.symm hne
    | some b =>
      obtain ⟨rfl, hrest⟩ := h (ho a rfl) (ho' b rfl) (List.cons.inj heq).2
      exact ⟨rfl, hrest⟩

/-! ### Lists -/

/-- The codes of as many values, one after another. -/
theorem Delimits.flatMap_append (h : Delimits ok enc) :
    ∀ {as bs : List α} {s t : List β}, as.length = bs.length → (∀ a ∈ as, ok a) →
      (∀ b ∈ bs, ok b) → as.flatMap enc ++ s = bs.flatMap enc ++ t → as = bs ∧ s = t := by
  intro as
  induction as with
  | nil =>
    intro bs s t hlen _ _ heq
    obtain rfl := List.length_eq_zero_iff.mp hlen.symm
    exact ⟨rfl, heq⟩
  | cons a as ih =>
    intro bs s t hlen has hbs heq
    cases bs with
    | nil => cases hlen
    | cons b bs =>
      rw [List.flatMap_cons, List.flatMap_cons, List.append_assoc, List.append_assoc] at heq
      obtain ⟨rfl, hrest⟩ := h (has a List.mem_cons_self) (hbs b List.mem_cons_self) heq
      obtain ⟨htail, hst⟩ := ih (Nat.succ.inj hlen) (fun x hx => has x (.tail _ hx))
        (fun x hx => hbs x (.tail _ hx)) hrest
      exact ⟨congrArg (a :: ·) htail, hst⟩

/-- The number of values, and then their codes. -/
theorem Delimits.counted (h : Delimits ok enc) {okCount : ℕ → Prop} {count : ℕ → List β}
    (hcount : Delimits okCount count) :
    Delimits (fun as : List α => okCount as.length ∧ ∀ a ∈ as, ok a)
      fun as => count as.length ++ as.flatMap enc := by
  intro as bs s t ⟨hca, has⟩ ⟨hcb, hbs⟩ heq
  rw [List.append_assoc, List.append_assoc] at heq
  obtain ⟨hlen, hrest⟩ := hcount hca hcb heq
  exact h.flatMap_append hlen has hbs hrest

/-- Every list of symbols, with its length before it. -/
theorem Delimits.blob {okCount : ℕ → Prop} {count : ℕ → List β}
    (hcount : Delimits okCount count) :
    Delimits (fun as : List β => okCount as.length) fun as => count as.length ++ as := by
  intro as bs s t ha hb heq
  rw [List.append_assoc, List.append_assoc] at heq
  obtain ⟨hlen, hrest⟩ := hcount ha hb heq
  exact List.append_inj hrest hlen

/-- A concatenation of codes is taken apart in one way. -/
def Uniquely (ok : α → Prop) (enc : α → List β) : Prop :=
  ∀ ⦃as bs : List α⦄, (∀ a ∈ as, ok a) → (∀ b ∈ bs, ok b) →
    as.flatMap enc = bs.flatMap enc → as = bs

/-- **The codes of a list are taken apart when none is empty.** -/
theorem Delimits.uniquely (h : Delimits ok enc) (hne : ∀ a, enc a ≠ []) : Uniquely ok enc := by
  intro as
  induction as with
  | nil =>
    intro bs _ _ heq
    cases bs with
    | nil => rfl
    | cons b bs => exact absurd (List.append_eq_nil_iff.mp heq.symm).1 (hne b)
  | cons a as ih =>
    intro bs has hbs heq
    cases bs with
    | nil => exact absurd (List.append_eq_nil_iff.mp heq).1 (hne a)
    | cons b bs =>
      obtain ⟨rfl, hrest⟩ := h (has a List.mem_cons_self) (hbs b List.mem_cons_self) heq
      rw [ih (fun x hx => has x (.tail _ hx)) (fun x hx => hbs x (.tail _ hx)) hrest]

/-- The codes of a field tell the fields apart. -/
theorem Uniquely.map_eq (h : Uniquely ok enc) {f : γ → α} {cs ds : List γ}
    (hcs : ∀ c ∈ cs, ok (f c)) (hds : ∀ d ∈ ds, ok (f d))
    (heq : (cs.flatMap fun c => enc (f c)) = ds.flatMap fun d => enc (f d)) :
    cs.map f = ds.map f := by
  have hmap : ∀ l : List γ, (l.flatMap fun c => enc (f c)) = (l.map f).flatMap enc := by
    intro l
    rw [List.flatMap_map]
  rw [hmap, hmap] at heq
  refine h (fun a ha => ?_) (fun b hb => ?_) heq
  · obtain ⟨c, hc, rfl⟩ := List.mem_map.mp ha
    exact hcs c hc
  · obtain ⟨d, hd, rfl⟩ := List.mem_map.mp hb
    exact hds d hd

/-! ### Digests -/

/-- A digest tells two streams apart. -/
def NoCollision (digest : List β → γ) (s t : List β) : Prop := digest s = digest t → s = t

end PrefixCode
