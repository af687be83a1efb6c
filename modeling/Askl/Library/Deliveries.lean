import Mathlib.Data.Set.Insert
import Mathlib.Data.List.Basic
import Mathlib.Data.List.Induction
import Mathlib.Tactic.Common

/-!
# Messages delivered in any order

A receiver keeps tables of two kinds.  In one a message overwrites what it finds at a key, in
the other it only fills the keys that are empty.  The receiver takes each message once, and
refuses one as long as keys that the message needs are empty; a refused message changes
nothing and can be delivered again.

Messages are delivered in any order, any number of times, each of them at least once.  When
do all such deliveries leave the same tables?  The answer speaks of the messages only: of the
prompt ones, which the receiver takes whenever they come, of the reachable ones, which it
takes in some delivery, and of those it may take before any of a given kind.

## Main definitions

* `Writes`, `Receiver` — what a message writes, and the tables.
* `Receiver.deliver`, `run` — one message, and a list of them.
* `Opens` — a message the receiver may take before any that are to be avoided.
* `Same` — tables that agree at the keys that are seen.
* `Settled` — the condition on the messages.

## Main results

* `Trail.run` — what a delivery leaves at each key, and which message has left it.
* `exists_run_of_opens` — a message that opens can be brought to the point of being taken.
* `same_iff_settled` — **all deliveries leave the same tables iff the messages are settled.**
* `settled_iff_of_prompt` — without waiting messages, they are settled iff any two agree.
-/

namespace Deliveries

variable {ι κ α μ : Type*} {β : μ → Type*}

/-- What a message writes: the keys it overwrites, the keys it fills, and the keys it needs to
be filled. -/
structure Writes (κ α μ : Type*) (β : μ → Type*) where
  latest : κ → Option α
  fill : (k : μ) → Option (β k)
  needs : List μ

/-- The tables, and the messages that have been taken. -/
structure Receiver (ι κ α μ : Type*) (β : μ → Type*) where
  latest : κ → Option α
  fill : (k : μ) → Option (β k)
  taken : Set ι

/-! ### Deliveries -/

/-- Take a message. -/
def Receiver.take (r : Receiver ι κ α μ β) (i : ι) (w : Writes κ α μ β) : Receiver ι κ α μ β where
  latest := fun k => (w.latest k).or (r.latest k)
  fill := fun k => (r.fill k).or (w.fill k)
  taken := insert i r.taken

/-- Everything a message needs is there. -/
def Receiver.Has (r : Receiver ι κ α μ β) (w : Writes κ α μ β) : Prop :=
  ∀ k ∈ w.needs, (r.fill k).isSome

variable (msg : ι → Option (Writes κ α μ β))

open Classical in
/-- Deliver a message.  One without a meaning is refused in any state. -/
noncomputable def Receiver.deliver (r : Receiver ι κ α μ β) (i : ι) : Receiver ι κ α μ β :=
  match msg i with
  | none => r
  | some w => if i ∉ r.taken ∧ r.Has w then r.take i w else r

/-- Deliver a list of messages. -/
noncomputable def run (r : Receiver ι κ α μ β) (d : List ι) : Receiver ι κ α μ β :=
  d.foldl (Receiver.deliver msg) r

/-- A message writes a value over a key. -/
def Puts (i : ι) (k : κ) (a : α) : Prop := ∃ w, msg i = some w ∧ w.latest k = some a

/-- A message has a value for a key that is to be filled. -/
def Gives (i : ι) (k : μ) (b : β k) : Prop := ∃ w, msg i = some w ∧ w.fill k = some b

/-- A message has some value for a key that is to be filled. -/
def Fills (k : μ) (i : ι) : Prop := ∃ b, Gives msg i k b

/-- A message that the receiver may take before any of those to be avoided: each key that it
needs is filled, or is filled by another such message that is not to be avoided. -/
inductive Opens (r : Receiver ι κ α μ β) (avoid : ι → Prop) : ι → Prop
  | intro {i : ι} {w : Writes κ α μ β} (hw : msg i = some w) (hfresh : i ∉ r.taken) (source : μ → ι)
      (hopen : ∀ k ∈ w.needs, r.fill k = none → Opens r avoid (source k))
      (hsource : ∀ k ∈ w.needs, r.fill k = none → ¬avoid (source k) ∧ Fills msg k (source k)) :
      Opens r avoid i

/-- A message that is taken whenever it comes. -/
def Prompt (r : Receiver ι κ α μ β) (i : ι) : Prop := Opens msg r (fun _ => True) i

/-- A message that is taken in some delivery. -/
def Reachable (r : Receiver ι κ α μ β) (i : ι) : Prop := Opens msg r (fun _ => False) i

variable {msg} {r : Receiver ι κ α μ β}

/-! ### One delivery -/

@[simp] theorem run_nil : run msg r [] = r := rfl

@[simp] theorem run_cons (i : ι) (d : List ι) :
    run msg r (i :: d) = run msg (r.deliver msg i) d := rfl

theorem run_append (d e : List ι) : run msg r (d ++ e) = run msg (run msg r d) e :=
  List.foldl_append

/-- A message is taken, or nothing changes: it has been taken, has no meaning, or misses
something. -/
theorem deliver_cases (msg : ι → Option (Writes κ α μ β)) (r : Receiver ι κ α μ β) (i : ι) :
    (∃ w, msg i = some w ∧ i ∉ r.taken ∧ r.Has w ∧ r.deliver msg i = r.take i w) ∨
      (r.deliver msg i = r ∧ ∀ w, msg i = some w → r.Has w → i ∈ r.taken) := by
  unfold Receiver.deliver
  cases hw : msg i with
  | none => exact Or.inr ⟨rfl, by simp⟩
  | some w =>
    by_cases h : i ∉ r.taken ∧ r.Has w
    · exact Or.inl ⟨w, rfl, h.1, h.2, if_pos h⟩
    · refine Or.inr ⟨if_neg h, fun w' hw' hhas => ?_⟩
      obtain rfl := Option.some.inj hw'
      by_contra hfresh
      exact h ⟨hfresh, hhas⟩

theorem fill_deliver {k : μ} {b : β k} (h : r.fill k = some b) (i : ι) :
    (r.deliver msg i).fill k = some b := by
  rcases deliver_cases msg r i with ⟨w, -, -, -, hr⟩ | ⟨hr, -⟩
  · rw [hr]
    simp [Receiver.take, h]
  · rw [hr, h]

theorem taken_deliver {j : ι} (i : ι) : j ∈ (r.deliver msg i).taken → j ∈ r.taken ∨ j = i := by
  rcases deliver_cases msg r i with ⟨w, -, -, -, hr⟩ | ⟨hr, -⟩
  · rw [hr]
    exact fun h => (Set.mem_insert_iff.mp h).symm
  · rw [hr]
    exact Or.inl

theorem mem_taken_deliver {j : ι} (h : j ∈ r.taken) (i : ι) : j ∈ (r.deliver msg i).taken := by
  rcases deliver_cases msg r i with ⟨w, -, -, -, hr⟩ | ⟨hr, -⟩
  · rw [hr]
    exact Set.mem_insert_of_mem i h
  · rwa [hr]

/-- A message whose needs are there has been taken after its delivery. -/
theorem mem_taken_of_has {i : ι} {w : Writes κ α μ β} (hw : msg i = some w) (h : r.Has w) :
    i ∈ (r.deliver msg i).taken := by
  rcases deliver_cases msg r i with ⟨w, -, -, -, hr⟩ | ⟨hr, htaken⟩
  · rw [hr]
    exact Set.mem_insert i r.taken
  · rw [hr]
    exact htaken w hw h

/-! ### Lists of deliveries -/

theorem fill_run {k : μ} {b : β k} (h : r.fill k = some b) (d : List ι) :
    (run msg r d).fill k = some b := by
  induction d generalizing r with
  | nil => exact h
  | cons i d ih => exact ih (fill_deliver h i)

theorem has_run {w : Writes κ α μ β} (h : r.Has w) (d : List ι) : (run msg r d).Has w := by
  intro k hk
  obtain ⟨b, hb⟩ := Option.isSome_iff_exists.mp (h k hk)
  rw [fill_run hb d]
  rfl

theorem taken_run {j : ι} (d : List ι) : j ∈ (run msg r d).taken → j ∈ r.taken ∨ j ∈ d := by
  induction d generalizing r with
  | nil => exact Or.inl
  | cons i d ih =>
    intro h
    rcases ih h with h | h
    · rcases taken_deliver i h with h | rfl
      · exact Or.inl h
      · exact Or.inr List.mem_cons_self
    · exact Or.inr (List.mem_cons_of_mem i h)

theorem mem_taken_run {j : ι} (h : j ∈ r.taken) (d : List ι) : j ∈ (run msg r d).taken := by
  induction d generalizing r with
  | nil => exact h
  | cons i d ih => exact ih (mem_taken_deliver h i)

/-- A message whose needs are there from the start is taken in any delivery of it. -/
theorem mem_taken_run_of_has {i : ι} {w : Writes κ α μ β} (hw : msg i = some w) (h : r.Has w)
    {d : List ι} (hd : i ∈ d) : i ∈ (run msg r d).taken := by
  obtain ⟨d₁, d₂, rfl⟩ := List.append_of_mem hd
  rw [run_append, run_cons]
  exact mem_taken_run (mem_taken_of_has hw (has_run h d₁)) d₂

/-! ### Messages that open -/

theorem Opens.mono {avoid avoid' : ι → Prop} {i : ι} (h : Opens msg r avoid i)
    (hle : ∀ j, avoid' j → avoid j) : Opens msg r avoid' i := by
  induction h with
  | intro hw hfresh source _ hsource ih =>
    exact .intro hw hfresh source ih fun k hk hnone =>
      ⟨fun hj => (hsource k hk hnone).1 (hle _ hj), (hsource k hk hnone).2⟩

theorem Opens.fresh {avoid : ι → Prop} {i : ι} (h : Opens msg r avoid i) : i ∉ r.taken := by
  cases h
  assumption

theorem Opens.reachable {avoid : ι → Prop} {i : ι} (h : Opens msg r avoid i) :
    Reachable msg r i :=
  h.mono fun _ => False.elim

theorem Prompt.reachable {i : ι} (h : Prompt msg r i) : Reachable msg r i := Opens.reachable h

/-- A message is prompt when it has not been taken and everything it needs is there. -/
theorem prompt_iff {i : ι} :
    Prompt msg r i ↔ ∃ w, msg i = some w ∧ i ∉ r.taken ∧ r.Has w := by
  constructor
  · rintro ⟨hw, hfresh, source, -, hsource⟩
    refine ⟨_, hw, hfresh, fun k hk => Option.isSome_iff_ne_none.mpr fun hnone => ?_⟩
    exact (hsource k hk hnone).1 trivial
  · rintro ⟨w, hw, hfresh, hhas⟩
    have hne : ∀ k ∈ w.needs, r.fill k ≠ none := fun k hk =>
      Option.isSome_iff_ne_none.mp (hhas k hk)
    exact .intro hw hfresh (fun _ => i) (fun k hk hnone => absurd hnone (hne k hk))
      fun k hk hnone => absurd hnone (hne k hk)

/-- What a reachable message needs, it needs from others: it opens before itself. -/
theorem Reachable.opens_self {i : ι} (h : Reachable msg r i) : Opens msg r (· = i) i := by
  -- Any reachable message opens before `i`, or `i` itself does.
  have key : ∀ j, Reachable msg r j → Opens msg r (· = i) j ∨ Opens msg r (· = i) i := by
    intro j hj
    induction hj with
    | @intro j w hw hfresh source _ hsource ih =>
      by_cases hi : Opens msg r (· = i) i
      · exact Or.inr hi
      · refine Or.inl (.intro hw hfresh source (fun k hk hnone => ?_) fun k hk hnone => ⟨?_, ?_⟩)
        · exact (ih k hk hnone).resolve_right hi
        · rintro hsame
          exact hi (hsame ▸ (ih k hk hnone).resolve_right hi)
        · exact (hsource k hk hnone).2
  exact (key i h).elim id id

/-! ### What a delivery leaves -/

/-- What is known of the tables after a delivery: the messages that have been taken open, the
overwritten keys hold what one of them puts there, and the filled keys what the first of them
gives, which opens before all others that fill the key. -/
structure Trail (msg : ι → Option (Writes κ α μ β)) (r r' : Receiver ι κ α μ β) : Prop where
  kept : r.taken ⊆ r'.taken
  opens : ∀ avoid : ι → Prop, (∀ j ∈ r'.taken, j ∉ r.taken → ¬avoid j) →
    ∀ i ∈ r'.taken, i ∉ r.taken → Opens msg r avoid i
  latest : ∀ k, (r'.latest k = r.latest k ∧ ∀ i ∈ r'.taken, i ∉ r.taken → ∀ a, ¬Puts msg i k a) ∨
    ∃ i ∈ r'.taken, i ∉ r.taken ∧ ∃ a, Puts msg i k a ∧ r'.latest k = some a
  fill : ∀ k, (∃ b, r.fill k = some b ∧ r'.fill k = some b) ∨
    (r.fill k = none ∧ r'.fill k = none ∧ ∀ i ∈ r'.taken, i ∉ r.taken → ¬Fills msg k i) ∨
    (r.fill k = none ∧ ∃ i ∈ r'.taken, Opens msg r (Fills msg k) i ∧
      ∃ b, Gives msg i k b ∧ r'.fill k = some b)

theorem Trail.refl (r : Receiver ι κ α μ β) : Trail msg r r where
  kept := subset_rfl
  opens := fun _ _ i hi hfresh => absurd hi hfresh
  latest := fun _ => Or.inl ⟨rfl, fun i hi hfresh => absurd hi hfresh⟩
  fill := fun k => by
    cases h : r.fill k with
    | some b => exact Or.inl ⟨b, rfl, rfl⟩
    | none => exact Or.inr (Or.inl ⟨rfl, rfl, fun i hi hfresh => absurd hi hfresh⟩)

/-- A key that is filled on the way is filled by a message that was taken. -/
theorem Trail.exists_fills {r' : Receiver ι κ α μ β} (h : Trail msg r r') {k : μ}
    (hnone : r.fill k = none) (hsome : (r'.fill k).isSome) :
    ∃ i ∈ r'.taken, i ∉ r.taken ∧ Fills msg k i := by
  rcases h.fill k with ⟨b, hb, -⟩ | ⟨-, hnone', -⟩ | ⟨-, i, hi, hopens, b, hgives, -⟩
  · rw [hnone] at hb
    cases hb
  · rw [hnone'] at hsome
    cases hsome
  · exact ⟨i, hi, hopens.fresh, b, hgives⟩

/-- A key is filled when a message that fills it has been taken. -/
theorem Trail.fill_isSome {r' : Receiver ι κ α μ β} (h : Trail msg r r') {k : μ} {i : ι}
    (hi : i ∈ r'.taken) (hfresh : i ∉ r.taken) (hfills : Fills msg k i) : (r'.fill k).isSome := by
  rcases h.fill k with ⟨b, -, hb⟩ | ⟨-, -, hnot⟩ | ⟨-, j, -, -, b, -, hb⟩
  · rw [hb]
    rfl
  · exact absurd hfills (hnot i hi hfresh)
  · rw [hb]
    rfl

/-- A message whose needs have come together opens. -/
theorem Trail.opens_of_has {r' : Receiver ι κ α μ β} (h : Trail msg r r') {i : ι}
    {w : Writes κ α μ β} (hw : msg i = some w) (hfresh : i ∉ r.taken) (hhas : r'.Has w)
    {avoid : ι → Prop} (havoid : ∀ j ∈ r'.taken, j ∉ r.taken → ¬avoid j) :
    Opens msg r avoid i := by
  have hsource : ∀ k, k ∈ w.needs → r.fill k = none →
      ∃ j ∈ r'.taken, j ∉ r.taken ∧ Fills msg k j := fun k hk hnone =>
    h.exists_fills hnone (hhas k hk)
  classical
  refine .intro hw hfresh
    (fun k => if hk : k ∈ w.needs ∧ r.fill k = none then (hsource k hk.1 hk.2).choose else i) ?_ ?_
  · intro k hk hnone
    rw [dif_pos ⟨hk, hnone⟩]
    obtain ⟨hj, hjfresh, -⟩ := (hsource k hk hnone).choose_spec
    exact h.opens avoid havoid _ hj hjfresh
  · intro k hk hnone
    rw [dif_pos ⟨hk, hnone⟩]
    obtain ⟨hj, hjfresh, hfills⟩ := (hsource k hk hnone).choose_spec
    exact ⟨havoid _ hj hjfresh, hfills⟩

/-- **The step lemma.** -/
theorem Trail.deliver {r' : Receiver ι κ α μ β} (h : Trail msg r r') (i : ι) :
    Trail msg r (r'.deliver msg i) := by
  rcases deliver_cases msg r' i with ⟨w, hw, hfresh', hhas, hr⟩ | ⟨hr, -⟩
  swap
  · rwa [hr]
  have hfresh : i ∉ r.taken := fun hi => hfresh' (h.kept hi)
  rw [hr]
  refine ⟨h.kept.trans (Set.subset_insert i r'.taken), ?_, fun k => ?_, fun k => ?_⟩
  · intro avoid havoid j hj hjfresh
    have havoid' : ∀ j ∈ r'.taken, j ∉ r.taken → ¬avoid j := fun j hj =>
      havoid j (Set.mem_insert_of_mem i hj)
    rcases Set.mem_insert_iff.mp hj with rfl | hj
    · exact h.opens_of_has hw hfresh hhas havoid'
    · exact h.opens avoid havoid' j hj hjfresh
  · -- The message itself is the last to write where it does.
    cases hover : w.latest k with
    | some a =>
      exact Or.inr ⟨i, Set.mem_insert i _, hfresh, a, ⟨w, hw, hover⟩, by simp [Receiver.take, hover]⟩
    | none =>
      have hsame : (r'.take i w).latest k = r'.latest k := by simp [Receiver.take, hover]
      rcases h.latest k with ⟨hkeep, hnot⟩ | ⟨j, hj, hjfresh, a, hputs, ha⟩
      · refine Or.inl ⟨hsame.trans hkeep, fun j hj hjfresh a => ?_⟩
        rcases Set.mem_insert_iff.mp hj with rfl | hj
        · rintro ⟨w', hw', ha⟩
          rw [hw] at hw'
          obtain rfl := Option.some.inj hw'
          rw [hover] at ha
          cases ha
        · exact hnot j hj hjfresh a
      · exact Or.inr ⟨j, Set.mem_insert_of_mem i hj, hjfresh, a, hputs, hsame.trans ha⟩
  · rcases h.fill k with ⟨b, hb, hb'⟩ | ⟨hnone, hnone', hnot⟩ | ⟨hnone, j, hj, hopens, b, hgives, hb⟩
    · exact Or.inl ⟨b, hb, by simp [Receiver.take, hb']⟩
    · -- The key is still empty: no message that fills it has been taken yet.
      cases hfill : w.fill k with
      | some b =>
        refine Or.inr (Or.inr ⟨hnone, i, Set.mem_insert i _, ?_, b, ⟨w, hw, hfill⟩, ?_⟩)
        · exact h.opens_of_has hw hfresh hhas hnot
        · simp [Receiver.take, hnone', hfill]
      | none =>
        refine Or.inr (Or.inl ⟨hnone, by simp [Receiver.take, hnone', hfill], ?_⟩)
        intro j hj hjfresh
        rcases Set.mem_insert_iff.mp hj with rfl | hj
        · rintro ⟨b, w', hw', hb⟩
          rw [hw] at hw'
          obtain rfl := Option.some.inj hw'
          rw [hfill] at hb
          cases hb
        · exact hnot j hj hjfresh
    · exact Or.inr (Or.inr ⟨hnone, j, Set.mem_insert_of_mem i hj, hopens, b, hgives,
        by simp [Receiver.take, hb]⟩)

/-- **What a delivery leaves at each key.** -/
theorem Trail.run (msg : ι → Option (Writes κ α μ β)) (r : Receiver ι κ α μ β) (d : List ι) :
    Trail msg r (run msg r d) := by
  induction d using List.reverseRecOn with
  | nil => exact .refl r
  | append_singleton d i ih =>
    rw [run_append]
    exact ih.deliver i

/-- A message that fills a key has filled it after a delivery in which all that it needs is
there. -/
theorem fill_isSome_of_has {i : ι} {w : Writes κ α μ β} (hw : msg i = some w) (hfresh : i ∉ r.taken)
    {d : List ι} (hhas : (run msg r d).Has w) {k : μ} (hfills : Fills msg k i) :
    (((run msg r d).deliver msg i).fill k).isSome := by
  have htrail : Trail msg r ((run msg r d).deliver msg i) := (Trail.run msg r d).deliver i
  exact htrail.fill_isSome (mem_taken_of_has hw hhas) hfresh hfills

/-- **A message that opens can be brought to the point of being taken**, after any other
deliveries, and without any of the messages to be avoided. -/
theorem exists_run_of_opens {avoid : ι → Prop} {i : ι} (h : Opens msg r avoid i) :
    ∃ d, (∀ j ∈ d, ¬avoid j) ∧ ∀ e w, msg i = some w → (run msg r (e ++ d)).Has w := by
  induction h with
  | @intro i w hw hfresh source hopen hsource ih =>
    -- The needs are brought together one after the other.
    have hneeds : ∀ ks : List μ, (∀ k ∈ ks, k ∈ w.needs) → ∃ d, (∀ j ∈ d, ¬avoid j) ∧
        ∀ e, ∀ k ∈ ks, ((run msg r (e ++ d)).fill k).isSome := by
      intro ks
      induction ks with
      | nil => exact fun _ => ⟨[], by simp, by simp⟩
      | cons k ks ihks =>
        intro hks
        have hk : k ∈ w.needs := hks k List.mem_cons_self
        obtain ⟨d, hd, hfill⟩ := ihks fun k' hk' => hks k' (List.mem_cons_of_mem k hk')
        cases hr : r.fill k with
        | some b =>
          refine ⟨d, hd, fun e k' hk' => ?_⟩
          rcases List.mem_cons.mp hk' with rfl | hk'
          · rw [fill_run hr]
            rfl
          · exact hfill e k' hk'
        | none =>
          obtain ⟨dk, hdk, hhas⟩ := ih k hk hr
          obtain ⟨havoid, hfills⟩ := hsource k hk hr
          obtain ⟨b, v, hv, hb⟩ := hfills
          have hsplit : ∀ e, run msg r (e ++ (d ++ dk ++ [source k])) =
              (run msg r (e ++ d ++ dk)).deliver msg (source k) := by
            intro e
            rw [← List.append_assoc, ← List.append_assoc, run_append _ [source k]]
            rfl
          refine ⟨d ++ dk ++ [source k], ?_, fun e k' hk' => ?_⟩
          · intro j hj
            rcases List.mem_append.mp hj with hj | hj
            · exact (List.mem_append.mp hj).elim (hd j) (hdk j)
            · rwa [List.mem_singleton.mp hj]
          · rw [hsplit]
            rcases List.mem_cons.mp hk' with rfl | hk'
            · exact fill_isSome_of_has hv (hopen k' hk hr).fresh (hhas (e ++ d) v hv) ⟨b, v, hv, hb⟩
            · obtain ⟨b', hb'⟩ := Option.isSome_iff_exists.mp (hfill e k' hk')
              rw [run_append (e ++ d) dk, fill_deliver (fill_run hb' dk)]
              rfl
    obtain ⟨d, hd, hfill⟩ := hneeds w.needs fun _ => id
    refine ⟨d, hd, fun e w' hw' k hk => ?_⟩
    rw [hw] at hw'
    obtain rfl := Option.some.inj hw'
    exact hfill e k hk

/-! ### The condition -/

section Settled

-- the filled keys that are always looked at, and those that a value of the others names
variable (always : μ → Prop) (names : α → μ → Prop)

/-- Tables that agree: at all keys of the first kind, and at the keys of the second that are
looked at. -/
structure Same (r r' : Receiver ι κ α μ β) : Prop where
  latest : r.latest = r'.latest
  fill : ∀ k, (always k ∨ ∃ p a, r.latest p = some a ∧ names a k) → r.fill k = r'.fill k

variable (msg r)

/-- The value that lasts at a key of the first kind: the one of a prompt message, or the one
there was. -/
def Lasting (k : κ) (a : α) : Prop :=
  (∃ i, Prompt msg r i ∧ Puts msg i k a) ∨
    (r.latest k = some a ∧ ∀ i b, Prompt msg r i → ¬Puts msg i k b)

/-- An empty key of the second kind that is looked at in the end. -/
def Awaited (k : μ) : Prop :=
  r.fill k = none ∧ (always k ∨ ∃ p a, Lasting msg r p a ∧ names a k)

/-- The messages are settled: reachable ones put the same value over a key, the first ones that
can fill a key give it the same value, and whatever a reachable message writes is there
already or is written by a prompt one too. -/
structure Settled : Prop where
  puts_eq : ∀ {i j k a b}, Reachable msg r i → Reachable msg r j → Puts msg i k a →
    Puts msg j k b → a = b
  puts_kept : ∀ {i k a}, Reachable msg r i → Puts msg i k a →
    r.latest k = some a ∨ ∃ j, Prompt msg r j ∧ Puts msg j k a
  gives_eq : ∀ {k}, Awaited msg r always names k → ∀ {i j a b}, Opens msg r (Fills msg k) i →
    Opens msg r (Fills msg k) j → Gives msg i k a → Gives msg j k b → a = b
  gives_kept : ∀ {k}, Awaited msg r always names k → ∀ {i}, Reachable msg r i → Fills msg k i →
    ∃ j, Prompt msg r j ∧ Fills msg k j

variable {msg r always names}

theorem Same.symm {r' : Receiver ι κ α μ β} (h : Same always names r r') :
    Same always names r' r :=
  ⟨h.latest.symm, fun k hk => (h.fill k (by rwa [h.latest])).symm⟩

theorem Same.trans {r' r'' : Receiver ι κ α μ β} (h : Same always names r r')
    (h' : Same always names r' r'') : Same always names r r'' :=
  ⟨h.latest.trans h'.latest, fun k hk => (h.fill k hk).trans (h'.fill k (by rwa [← h.latest]))⟩

/-! ### Settled messages -/

theorem Prompt.mem_taken {i : ι} (h : Prompt msg r i) {d : List ι} (hd : ∀ i, i ∈ d) :
    i ∈ (run msg r d).taken := by
  obtain ⟨w, hw, -, hhas⟩ := prompt_iff.mp h
  exact mem_taken_run_of_has hw hhas (hd i)

/-- Every complete delivery leaves the lasting values. -/
theorem over_run_eq_some
    (hputs : ∀ {i j k a b}, Reachable msg r i → Reachable msg r j → Puts msg i k a →
      Puts msg j k b → a = b)
    (hkept : ∀ {i k a}, Reachable msg r i → Puts msg i k a →
      r.latest k = some a ∨ ∃ j, Prompt msg r j ∧ Puts msg j k a)
    {d : List ι} (hd : ∀ i, i ∈ d) (k : κ) (a : α) :
    (run msg r d).latest k = some a ↔ Lasting msg r k a := by
  have htrail : Trail msg r (run msg r d) := .run msg r d
  have hreach : ∀ i ∈ (run msg r d).taken, i ∉ r.taken → Reachable msg r i :=
    htrail.opens (fun _ => False) fun _ _ _ => id
  constructor
  · intro ha
    by_cases hprompt : ∃ i b, Prompt msg r i ∧ Puts msg i k b
    · obtain ⟨i, b, hi, hb⟩ := hprompt
      rcases htrail.latest k with ⟨-, hnot⟩ | ⟨j, hj, hfresh, a', hja, ha'⟩
      · exact absurd hb (hnot i (hi.mem_taken hd) (Opens.fresh hi) b)
      · rw [ha] at ha'
        obtain rfl := Option.some.inj ha'
        obtain rfl := hputs (hreach j hj hfresh) hi.reachable hja hb
        exact Or.inl ⟨i, hi, hb⟩
    · refine Or.inr ⟨?_, fun i b hi hb => hprompt ⟨i, b, hi, hb⟩⟩
      rcases htrail.latest k with ⟨hsame, -⟩ | ⟨j, hj, hfresh, a', hja, ha'⟩
      · rw [← hsame, ha]
      · rw [ha] at ha'
        obtain rfl := Option.some.inj ha'
        exact (hkept (hreach j hj hfresh) hja).resolve_right fun ⟨i, hi, hb⟩ => hprompt ⟨i, a, hi, hb⟩
  · rintro (⟨i, hi, hia⟩ | ⟨ha, hnot⟩)
    · rcases htrail.latest k with ⟨-, hnot⟩ | ⟨j, hj, hfresh, b, hjb, hb⟩
      · exact absurd hia (hnot i (hi.mem_taken hd) (Opens.fresh hi) a)
      · rw [hb, hputs (hreach j hj hfresh) hi.reachable hjb hia]
    · rcases htrail.latest k with ⟨hsame, -⟩ | ⟨j, hj, hfresh, b, hjb, hb⟩
      · rw [hsame, ha]
      · rcases hkept (hreach j hj hfresh) hjb with hb' | ⟨i, hi, hib⟩
        · rw [hb, ← hb', ha]
        · exact absurd hib (hnot i b hi)

/-- Every complete delivery fills an awaited key with what the first messages give it. -/
theorem Settled.fill_run_eq_some (h : Settled msg r always names) {k : μ}
    (hk : Awaited msg r always names k) {d : List ι} (hd : ∀ i, i ∈ d) (b : β k) :
    (run msg r d).fill k = some b ↔ ∃ i, Opens msg r (Fills msg k) i ∧ Gives msg i k b := by
  have htrail : Trail msg r (run msg r d) := .run msg r d
  have hfirst : ∀ b, (run msg r d).fill k = some b →
      ∃ i, Opens msg r (Fills msg k) i ∧ Gives msg i k b := by
    intro b hb
    rcases htrail.fill k with ⟨b', hb', -⟩ | ⟨-, hnone, -⟩ | ⟨-, i, -, hi, b', hib, hb'⟩
    · rw [hk.1] at hb'
      cases hb'
    · rw [hnone] at hb
      cases hb
    · rw [hb] at hb'
      obtain rfl := Option.some.inj hb'
      exact ⟨i, hi, hib⟩
  refine ⟨hfirst b, fun ⟨i, hi, hib⟩ => ?_⟩
  obtain ⟨j, hj, hfills⟩ := h.gives_kept hk hi.reachable ⟨b, hib⟩
  obtain ⟨b', hb'⟩ := Option.isSome_iff_exists.mp
    (htrail.fill_isSome (hj.mem_taken hd) (Opens.fresh hj) hfills)
  obtain ⟨i', hi', hib'⟩ := hfirst b' hb'
  rw [hb', h.gives_eq hk hi' hi hib' hib]

/-- Complete deliveries of settled messages leave the same tables. -/
theorem Settled.same (h : Settled msg r always names) {d d' : List ι} (hd : ∀ i, i ∈ d)
    (hd' : ∀ i, i ∈ d') : Same always names (run msg r d) (run msg r d') := by
  have hover : ∀ {d : List ι}, (∀ i, i ∈ d) → ∀ k a,
      (run msg r d).latest k = some a ↔ Lasting msg r k a := fun hd =>
    over_run_eq_some h.puts_eq h.puts_kept hd
  refine ⟨funext fun k => Option.ext fun a => (hover hd k a).trans (hover hd' k a).symm, ?_⟩
  intro k hseen
  cases hr : r.fill k with
  | some b => rw [fill_run hr, fill_run hr]
  | none =>
    have hk : Awaited msg r always names k :=
      ⟨hr, hseen.imp id fun ⟨p, a, ha, hname⟩ => ⟨p, a, (hover hd p a).mp ha, hname⟩⟩
    exact Option.ext fun b =>
      (h.fill_run_eq_some hk hd b).trans (h.fill_run_eq_some hk hd' b).symm

/-! ### Deliveries that tell messages apart -/

/-- A reachable message can be the last to be taken. -/
theorem exists_run_last {all : List ι} (hall : ∀ i, i ∈ all) {i : ι} (hi : Reachable msg r i) :
    ∃ d, (∀ i, i ∈ d) ∧ i ∈ (run msg r d).taken ∧
      ∀ k a, Puts msg i k a → (run msg r d).latest k = some a := by
  classical
  obtain ⟨d, hd, hhas⟩ := exists_run_of_opens hi.opens_self
  have hi' := hi
  obtain ⟨hw, hfresh, -, -, -⟩ := hi'
  set e := all.filter (· ≠ i) with he
  have htaken : i ∉ (run msg r (e ++ d)).taken := by
    intro htaken
    rcases taken_run (e ++ d) htaken with h | h
    · exact hfresh h
    · rcases List.mem_append.mp h with h | h
      · simp [he] at h
      · exact hd i h rfl
  refine ⟨e ++ d ++ [i], fun j => ?_, ?_, fun k a hputs => ?_⟩
  · by_cases hj : j = i
    · simp [hj]
    · simp [he, hj, hall j]
  · rw [run_append]
    exact mem_taken_of_has hw (hhas e _ hw)
  · obtain ⟨w, hw, ha⟩ := hputs
    rw [run_append]
    show ((run msg r (e ++ d)).deliver msg i).latest k = some a
    rcases deliver_cases msg (run msg r (e ++ d)) i with ⟨w', hw', -, -, hr⟩ | ⟨-, hnot⟩
    · rw [hw] at hw'
      obtain rfl := Option.some.inj hw'
      rw [hr]
      simp [Receiver.take, ha]
    · exact absurd (hnot w hw (hhas e w hw)) htaken

/-- The prompt messages can be the only ones to be taken. -/
theorem exists_run_prompt (msg : ι → Option (Writes κ α μ β)) (r : Receiver ι κ α μ β)
    {all : List ι} (hall : ∀ i, i ∈ all) :
    ∃ d, (∀ i, i ∈ d) ∧ ∀ i ∈ (run msg r d).taken, i ∉ r.taken → Prompt msg r i := by
  classical
  set late := all.filter fun i => ¬Prompt msg r i with hlate
  set prompt := all.filter fun i => Prompt msg r i with hprompt
  -- All others are delivered first, and refused.
  have hrefused : ∀ l : List ι, (∀ i ∈ l, ¬Prompt msg r i) → run msg r l = r := by
    intro l hl
    induction l with
    | nil => rfl
    | cons i l ih =>
      have hi : r.deliver msg i = r := by
        rcases deliver_cases msg r i with ⟨w, hw, hfresh, hhas, -⟩ | ⟨hr, -⟩
        · exact absurd (prompt_iff.mpr ⟨w, hw, hfresh, hhas⟩) (hl i List.mem_cons_self)
        · exact hr
      rw [run_cons, hi]
      exact ih fun j hj => hl j (List.mem_cons_of_mem i hj)
  refine ⟨late ++ prompt, fun i => ?_, fun i hi hfresh => ?_⟩
  · by_cases hi : Prompt msg r i <;> simp [hlate, hprompt, hi, hall i]
  · rw [run_append, hrefused late fun j hj => by simpa using (List.mem_filter.mp hj).2] at hi
    rcases taken_run prompt hi with h | h
    · exact absurd h hfresh
    · simpa using (List.mem_filter.mp h).2

/-- A message that opens before all that fill a key can be the first to fill it. -/
theorem exists_run_first {all : List ι} (hall : ∀ i, i ∈ all) {k : μ} (hk : r.fill k = none)
    {i : ι} (hi : Opens msg r (Fills msg k) i) {b : β k} (hb : Gives msg i k b) :
    ∃ d, (∀ i, i ∈ d) ∧ (run msg r d).fill k = some b := by
  obtain ⟨d, hd, hhas⟩ := exists_run_of_opens hi
  obtain ⟨w, hw, hb⟩ := hb
  have hhas : (run msg r d).Has w := hhas [] w hw
  have hempty : (run msg r d).fill k = none := by
    rcases (Trail.run msg r d).fill k with ⟨b', hb', -⟩ | ⟨-, h, -⟩ | ⟨-, j, hj, hopens, b', hb', -⟩
    · rw [hk] at hb'
      cases hb'
    · exact h
    · rcases taken_run d hj with h | h
      · exact absurd h hopens.fresh
      · exact absurd ⟨b', hb'⟩ (hd j h)
  refine ⟨d ++ i :: all, fun j => by simp [hall j], ?_⟩
  rw [run_append, run_cons]
  refine fill_run ?_ all
  rcases deliver_cases msg (run msg r d) i with ⟨w', hw', -, -, hr⟩ | ⟨-, htaken⟩
  · rw [hw] at hw'
    obtain rfl := Option.some.inj hw'
    rw [hr]
    simp [Receiver.take, hempty, hb]
  · rcases taken_run d (htaken w hw hhas) with h | h
    · exact absurd h hi.fresh
    · exact absurd ⟨b, w, hw, hb⟩ (hd i h)

/-! ### The equivalence -/

/-- **All complete deliveries leave the same tables iff the messages are settled.** -/
theorem same_iff_settled {all : List ι} (hall : ∀ i, i ∈ all) :
    (∀ d : List ι, (∀ i, i ∈ d) → Same always names (run msg r d) (run msg r all)) ↔
      Settled msg r always names := by
  refine ⟨fun hsame => ?_, fun h d hd => h.same hd hall⟩
  obtain ⟨p, hp, honly⟩ := exists_run_prompt msg r hall
  have htrail : Trail msg r (run msg r p) := .run msg r p
  have hputs : ∀ {i k a}, Reachable msg r i → Puts msg i k a → (run msg r all).latest k = some a := by
    intro i k a hi ha
    obtain ⟨d, hd, -, hlast⟩ := exists_run_last hall hi
    rw [← (hsame d hd).latest]
    exact hlast k a ha
  have heq : ∀ {i j k a b}, Reachable msg r i → Reachable msg r j → Puts msg i k a →
      Puts msg j k b → a = b := by
    intro i j k a b hi hj ha hb
    exact Option.some.inj ((hputs hi ha).symm.trans (hputs hj hb))
  have hkept : ∀ {i k a}, Reachable msg r i → Puts msg i k a →
      r.latest k = some a ∨ ∃ j, Prompt msg r j ∧ Puts msg j k a := by
    intro i k a hi ha
    have hover : (run msg r p).latest k = some a := by rw [(hsame p hp).latest, hputs hi ha]
    rcases htrail.latest k with ⟨hkeep, -⟩ | ⟨j, hj, hfresh, b, hjb, hb⟩
    · exact Or.inl (hkeep ▸ hover)
    · rw [hover] at hb
      obtain rfl := Option.some.inj hb
      exact Or.inr ⟨j, honly j hj hfresh, hjb⟩
  have hfill : ∀ {k}, Awaited msg r always names k → ∀ {d : List ι}, (∀ i, i ∈ d) →
      (run msg r d).fill k = (run msg r all).fill k := by
    intro k hk d hd
    refine (hsame d hd).fill k (hk.2.imp id fun ⟨q, a, ha, hname⟩ => ⟨q, a, ?_, hname⟩)
    exact (over_run_eq_some heq hkept hd q a).mpr ha
  refine ⟨heq, hkept, ?_, ?_⟩
  · intro k hk i j a b hi hj ha hb
    obtain ⟨d, hd, hda⟩ := exists_run_first hall hk.1 hi ha
    obtain ⟨e, he, heb⟩ := exists_run_first hall hk.1 hj hb
    rw [hfill hk hd] at hda
    rw [hfill hk he] at heb
    exact Option.some.inj (hda.symm.trans heb)
  · intro k hk i hi hfills
    obtain ⟨d, hd, htaken, -⟩ := exists_run_last hall hi
    have hsome : ((run msg r p).fill k).isSome := by
      rw [hfill hk hp, ← hfill hk hd]
      exact (Trail.run msg r d).fill_isSome htaken (Opens.fresh hi) hfills
    obtain ⟨j, hj, hfresh, hjfills⟩ := htrail.exists_fills hk.1 hsome
    exact ⟨j, honly j hj hfresh, hjfills⟩

/-- Where every message that can be taken is prompt, the messages are settled when any two of them
agree. -/
theorem settled_iff_of_prompt (hprompt : ∀ i, Reachable msg r i → Prompt msg r i) :
    Settled msg r always names ↔
      (∀ {i j k a b}, Prompt msg r i → Prompt msg r j → Puts msg i k a → Puts msg j k b → a = b) ∧
        ∀ {k}, Awaited msg r always names k → ∀ {i j a b}, Prompt msg r i → Prompt msg r j →
          Gives msg i k a → Gives msg j k b → a = b := by
  constructor
  · intro h
    refine ⟨fun hi hj => h.puts_eq hi.reachable hj.reachable, fun hk _ _ _ _ hi hj => ?_⟩
    exact h.gives_eq hk (hi.mono fun _ _ => trivial) (hj.mono fun _ _ => trivial)
  · rintro ⟨hputs, hgives⟩
    refine ⟨fun hi hj => hputs (hprompt _ hi) (hprompt _ hj), fun hi ha => ?_, ?_, ?_⟩
    · exact Or.inr ⟨_, hprompt _ hi, ha⟩
    · exact fun hk _ _ _ _ hi hj => hgives hk (hprompt _ hi.reachable) (hprompt _ hj.reachable)
    · exact fun _ _ hi hfills => ⟨_, hprompt _ hi, hfills⟩

end Settled

end Deliveries
