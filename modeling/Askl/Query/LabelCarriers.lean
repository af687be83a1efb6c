import Askl.Query.LayerBlock
import Askl.Query.SiblingOrder

/-!
# Labels with several carriers

A layer block takes the symbols of a label from the statements that carry it.  Their ids
are entered into a map under the label, one carrier after the other, and each entry
replaces the one before: the block sees the symbols of one carrier, the last one that has
a selection.

## Main definitions

* `selectedIds` — the symbols a statement has selected.
* `carriedIds` — the symbols of all the carriers of a label, sorted, without duplicates.
* `lastCarrier` — the carrier whose symbols a block sees.

## Main results

* `lookup_resolveLabels` — a label stands for the symbols of its last carrier.
* `carriers_of_queue` — **a block sees the symbols of all carriers exactly when the last
  one has selected them all.**
-/

namespace Askl

/-! ### Maps filled in a loop -/

section Loop

variable {α β κ : Type*} [DecidableEq κ]

/-- One turn of a loop that fills a map: enter the value of an element, if it has one. -/
def enter (key : α → κ) (value : α → Option β) (m : AList fun _ : κ => β) (a : α) :
    AList fun _ : κ => β :=
  match value a with
  | none => m
  | some b => m.insert (key a) b

/-- In a map filled in a loop, a key holds the value that was entered last. -/
theorem lookup_foldl_enter (key : α → κ) (value : α → Option β) (k : κ) (l : List α)
    (m : AList fun _ : κ => β) : (l.foldl (enter key value) m).lookup k =
      ((l.filter fun a => key a = k).filterMap value).getLast?.or (m.lookup k) := by
  induction l generalizing m with
  | nil => rfl
  | cons a l ih =>
    rw [List.foldl_cons, ih, List.filter_cons, enter]
    cases hv : value a with
    | none =>
      by_cases hk : key a = k
      · simp [hk, hv]
      · simp [hk]
    | some b =>
      by_cases hk : key a = k
      · -- this entry counts unless a later one replaces it
        subst hk
        simp only [decide_true, if_true, List.filterMap_cons, hv, AList.lookup_insert]
        rw [List.getLast?_cons]
        cases ((l.filter fun a' => key a' = key a).filterMap value).getLast? with
        | none => rfl
        | some b' => rfl
      · have hne : k ≠ key a := fun h => hk h.symm
        simp [hk, AList.lookup_insert_ne hne]

theorem nodup_eraseDups {γ : Type*} [BEq γ] [LawfulBEq γ] (l : List γ) : l.eraseDups.Nodup := by
  induction hn : l.length using Nat.strong_induction_on generalizing l with
  | _ n ih =>
    cases l with
    | nil => simp
    | cons a l =>
      have hlt : (l.filter fun b => !b == a).length < n := by
        have hle := List.length_filter_le (fun b => !b == a) l
        rw [List.length_cons] at hn
        omega
      rw [List.eraseDups_cons, List.nodup_cons]
      refine ⟨fun hmem => ?_, ih _ hlt _ rfl⟩
      rw [List.mem_eraseDups] at hmem
      simp at hmem

/-- Among lists that are each filed under a key of their own, a key finds its list. -/
theorem filter_flatMap_of_nodup {ls : List κ} (hnd : ls.Nodup) (f : κ → List α) {l : κ}
    (hl : l ∈ ls) : ((ls.flatMap fun k => (f k).map fun a => (a, k)).filter
      fun p => p.2 = l) = (f l).map fun a => (a, l) := by
  have hother : ∀ k, k ≠ l →
      (((f k).map fun a => (a, k)).filter fun p => decide (p.2 = l)) = [] := by
    intro k hk
    rw [List.filter_eq_nil_iff]
    rintro p hp
    obtain ⟨a, -, rfl⟩ := List.mem_map.mp hp
    simpa using hk
  have hrest : ∀ ks : List κ, l ∉ ks →
      ((ks.flatMap fun k => (f k).map fun a => (a, k)).filter fun p => p.2 = l) = [] := by
    intro ks hks
    rw [List.filter_eq_nil_iff]
    intro p hp
    obtain ⟨k, hk, hp⟩ := List.mem_flatMap.mp hp
    obtain ⟨a, -, rfl⟩ := List.mem_map.mp hp
    have hne : k ≠ l := fun h => hks (h ▸ hk)
    simpa using hne
  induction ls with
  | nil => cases hl
  | cons k ks ih =>
    rw [List.nodup_cons] at hnd
    rw [List.flatMap_cons, List.filter_append]
    rcases List.mem_cons.mp hl with rfl | hl
    · rw [hrest ks hnd.1, List.append_nil, List.filter_eq_self]
      rintro p hp
      obtain ⟨a, -, rfl⟩ := List.mem_map.mp hp
      simp
    · rw [hother k (fun h => hnd.1 (h ▸ hl)), List.nil_append]
      exact ih hnd.2 hl

end Loop

/-! ### The symbols of a label -/

variable {n : ℕ} {db : Database} (t : StatementTree n) {layers : LayerStore n}

section Carriers

variable (ctx : ExecutionContext n)

/-- The symbols a statement has selected; none while it has no selection. -/
def selectedIds (j : Fin n) : List ℤ :=
  ((getSelection t ctx j).map fun s => s.nodes.map (·.symbol.id)).getD []

/-- The symbols that the carriers of a label have selected, sorted and without
duplicates. -/
def carriedIds (l : Text) : List ℤ :=
  canonicalIds ((t.labeledStatements l).flatMap (selectedIds t ctx))

/-- The last carrier of a label that has a selection. -/
def lastCarrier (l : Text) : Option (Fin n) :=
  ((t.labeledStatements l).eraseDups.filter fun j => (getSelection t ctx j).isSome).getLast?

variable {t ctx}

theorem lastCarrier_mem {l : Text} {k : Fin n} (h : lastCarrier t ctx l = some k) :
    k ∈ t.labeledStatements l := by
  have hmem := List.mem_of_getLast? h
  exact List.mem_eraseDups.mp (List.mem_filter.mp hmem).1

/-- A label stands for the symbols of its last carrier with a selection. -/
theorem lookup_resolveLabels {i : Fin n} {l : Text} (hl : l ∈ (t.command i).layerLabelRefs) :
    (resolveLabels t ctx i).lookup l =
      (lastCarrier t ctx l).map fun k => canonicalIds (selectedIds t ctx k) := by
  have hloop : resolveLabels t ctx i = (preSeedLabels t i).foldl (enter (·.2) fun p =>
      (getSelection t ctx p.1).map fun s => canonicalIds (s.nodes.map (·.symbol.id))) ∅ := by
    unfold resolveLabels
    congr 1
    funext m p
    rw [enter]
    cases getSelection t ctx p.1 with
    | none => rfl
    | some s => rfl
  have hmem : l ∈ (t.command i).layerLabelRefs.eraseDups := List.mem_eraseDups.mpr hl
  rw [hloop, lookup_foldl_enter, preSeedLabels,
    filter_flatMap_of_nodup (nodup_eraseDups _) (fun l => (t.labeledStatements l).eraseDups) hmem,
    AList.lookup_empty, Option.or_none, List.filterMap_map, lastCarrier]
  -- only the carriers with a selection have entered something
  induction (t.labeledStatements l).eraseDups using List.reverseRecOn with
  | nil => rfl
  | append_singleton js j ih =>
    rw [List.filterMap_append, List.filter_append]
    cases hs : getSelection t ctx j with
    | none => simpa [hs] using ih
    | some s => simp [hs, selectedIds]

/-- A block sees the symbols of all carriers exactly when the last carrier with a selection
has selected them all. -/
theorem resolveVec_eq_iff {i : Fin n} {l : Text} (hl : l ∈ (t.command i).layerLabelRefs) :
    (SymbolOperand.label l).resolveVec (resolveLabels t ctx i) = carriedIds t ctx l ↔
      ∀ j ∈ t.labeledStatements l, ∀ a ∈ selectedIds t ctx j,
        ∃ k, lastCarrier t ctx l = some k ∧ a ∈ selectedIds t ctx k := by
  have hseen : (SymbolOperand.label l).resolveVec (resolveLabels t ctx i) =
      canonicalIds ((lastCarrier t ctx l).toList.flatMap (selectedIds t ctx)) := by
    rw [SymbolOperand.resolveVec, lookup_resolveLabels hl]
    cases lastCarrier t ctx l with
    | none => rfl
    | some k => simp
  rw [hseen, carriedIds, canonicalIds_eq_iff]
  constructor
  · intro h j hj a ha
    have hmem := (h a).mpr (List.mem_flatMap.mpr ⟨j, hj, ha⟩)
    obtain ⟨k, hk, hak⟩ := List.mem_flatMap.mp hmem
    exact ⟨k, Option.mem_toList.mp hk, hak⟩
  · intro h a
    rw [List.mem_flatMap, List.mem_flatMap]
    constructor
    · rintro ⟨k, hk, hak⟩
      exact ⟨k, lastCarrier_mem (Option.mem_toList.mp hk), hak⟩
    · rintro ⟨j, hj, haj⟩
      obtain ⟨k, hk, hak⟩ := h j hj a haj
      exact ⟨k, Option.mem_toList.mpr hk, hak⟩

end Carriers

variable {t}

/-- **The symbols a block sees under a label.**  When a statement with a layer block has
been queued, a label its operations refer to stands for the sorted, duplicate-free union of
the symbols selected by all its carriers, exactly when the last carrier with a selection
has selected all of them. -/
theorem carriers_of_queue {roots : List RootLayer} {i : Fin n}
    {pending : List (PendingCompute n)} {ctx : ExecutionContext n} {l : Text}
    (h : queueAll db t layers roots ((List.finRange n).take (i + 1)) = .ok (pending, ctx))
    (hl : l ∈ (t.command i).layerLabelRefs) :
    ∃ p, pending.getLast? = some p ∧ p.statement = i ∧
      ((SymbolOperand.label l).resolveVec p.resolved = carriedIds t ctx l ↔
        ∀ j ∈ t.labeledStatements l, ∀ a ∈ selectedIds t ctx j,
          ∃ k, lastCarrier t ctx l = some k ∧ a ∈ selectedIds t ctx k) := by
  rw [take_finRange_succ, queueAll, List.foldlM_append] at h
  obtain ⟨mid, -, hlast⟩ := Fallible.bind_eq_ok.mp h
  have hq : queueStatement db t layers mid i = .ok (pending, ctx) := by
    simpa [List.foldlM_cons] using hlast
  exact ⟨pendingCompute t ctx i, getLast?_queueStatement hq, rfl, resolveVec_eq_iff hl⟩

/-- `@x "a" ; @x name ; layer { ephemeral_instance(symbol_id="@x", …) }`, where the second
name is left open. -/
def carriersTree (name : Text) : StatementTree 3 :=
  .ofDistinct
    (fun i => match i with
      | 0 => .plain [.plain 0 (.name (nameFilter ['a']) none), .plain 1 (.label ['x'])]
      | 1 => .plain [.plain 2 (.name (nameFilter name) none), .plain 3 (.label ['x'])]
      | 2 => .plain [.plain 4 (.layer [['x']] false)])
    (fun _ => none) ⟨true, true⟩ (by decide)
    (fun i => match i with
      | 0 => rfl
      | 1 => rfl
      | 2 => rfl)
    (show ([0, 2, 4] : List ℕ).Nodup by decide)

/-- Two carriers that have selected the same symbol agree with their union. -/
theorem carriers_of_same_name : ∃ (p : PendingCompute 3) (ctx : ExecutionContext 3),
    p.statement = 2 ∧ carriedIds (carriersTree ['a']) ctx ['x'] = [1] ∧
      (SymbolOperand.label ['x']).resolveVec p.resolved =
        carriedIds (carriersTree ['a']) ctx ['x'] := by
  obtain ⟨⟨pending, ctx⟩, hqueue, hrun⟩ := Fallible.map_eq_ok.mp
    (show (queueAll callDatabase (carriersTree ['a']) noLayers [⟨1, 1⟩]
        ((List.finRange 3).take ((2 : Fin 3) + 1))).map
          (fun st : List (PendingCompute 3) × ExecutionContext 3 =>
          (carriedIds (carriersTree ['a']) st.2 ['x'],
            decide (∀ j ∈ (carriersTree ['a']).labeledStatements ['x'],
              ∀ a ∈ selectedIds (carriersTree ['a']) st.2 j,
                ∃ k, lastCarrier (carriersTree ['a']) st.2 ['x'] = some k ∧
                  a ∈ selectedIds (carriersTree ['a']) st.2 k))) =
      .ok ([1], true) by decide +kernel)
  obtain ⟨hcarried, hlast⟩ := Prod.mk.inj hrun
  obtain ⟨p, -, hp, hiff⟩ := carriers_of_queue hqueue (l := ['x']) (by decide)
  exact ⟨p, ctx, hp, hcarried, hiff.mpr (of_decide_eq_true hlast)⟩

/-- **Of two carriers only the second is seen.** -/
theorem not_carriers_of_two : ∃ (p : PendingCompute 3) (ctx : ExecutionContext 3),
    queueAll callDatabase (carriersTree ['b']) noLayers [⟨1, 1⟩] (List.finRange 3) =
        .ok ([p], ctx) ∧ p.statement = 2 ∧
      (SymbolOperand.label ['x']).resolveVec p.resolved = [2] ∧
      carriedIds (carriersTree ['b']) ctx ['x'] = [1, 2] := by
  obtain ⟨⟨pending, ctx⟩, hqueue, hrun⟩ := Fallible.map_eq_ok.mp
    (show (queueAll callDatabase (carriersTree ['b']) noLayers [⟨1, 1⟩]
        (List.finRange 3)).map (fun st =>
          (st.1.map fun p => (p.statement, (SymbolOperand.label ['x']).resolveVec p.resolved),
            carriedIds (carriersTree ['b']) st.2 ['x'])) =
      .ok ([(2, [2])], [1, 2]) by decide +kernel)
  obtain ⟨hpending, hcarried⟩ := Prod.mk.inj hrun
  obtain ⟨p, rfl, hp⟩ := List.map_eq_singleton_iff.mp hpending
  obtain ⟨hstmt, hseen⟩ := Prod.mk.inj hp
  exact ⟨p, ctx, hqueue, hstmt, hseen, hcarried⟩

end Askl
