import Askl.Store.Upload
import Mathlib.Algebra.Group.Int.Defs
import Mathlib.Algebra.Group.Nat.Defs

/-!
# The ids of symbols

The id of a symbol carries its project in the upper half of a signed 64-bit number and its
local id in the lower half.  A project is deleted by the range from the id of its local id
zero to that of the next project, and the next project is computed on 32-bit integers.

## Main definitions

* `projectSymbolRange` — the bounds of the range, when the next project can be computed.
* `SymbolIdsRight` — what the ids of a project and its range must be.

## Main results

* `symbolIdsRight_iff` — the ids of a project are right unless it is the last one.
* `mem_range_iff` — the range of a project before the last holds its ids and nothing else.
* `projectSymbolRange_last` — the range of the last project is missing, or empty.
-/

namespace Askl

/-! ### Packing -/

/-- The two halves of an id do not overlap: the bits of the one and those of the other are
those of the sum. -/
theorem toNat_packed {p l : ℕ} (hp : p < 2 ^ 31) (hl : l < 2 ^ 32) :
    (BitVec.ofInt 64 (p : ℤ) <<< 32 ||| BitVec.ofInt 64 (l : ℤ)).toNat = p * 2 ^ 32 + l := by
  rw [BitVec.ofInt_natCast, BitVec.ofInt_natCast, BitVec.toNat_or, BitVec.toNat_shiftLeft,
    BitVec.toNat_ofNat, BitVec.toNat_ofNat, Nat.mod_eq_of_lt (by omega : p < 2 ^ 64),
    Nat.mod_eq_of_lt (by omega : l < 2 ^ 64), Nat.shiftLeft_eq,
    Nat.mod_eq_of_lt (by omega : p * 2 ^ 32 < 2 ^ 64), ← Nat.shiftLeft_eq,
    ← Nat.shiftLeft_add_eq_or_of_lt hl, Nat.shiftLeft_eq]

/-- The sum stays below the sign bit. -/
theorem toInt_packed {p l : ℤ} (hp0 : 0 ≤ p) (hp : p < 2 ^ 31) (hl0 : 0 ≤ l) (hl : l < 2 ^ 32) :
    (BitVec.ofInt 64 p <<< 32 ||| BitVec.ofInt 64 l).toInt = p * 2 ^ 32 + l := by
  obtain ⟨n, rfl⟩ := Int.eq_ofNat_of_zero_le hp0
  obtain ⟨m, rfl⟩ := Int.eq_ofNat_of_zero_le hl0
  have hbits := toNat_packed (p := n) (l := m) (by omega) (by omega)
  rw [BitVec.toInt_eq_toNat_of_lt (by rw [hbits]; omega), hbits]
  omega

/-- The first id of a project. -/
theorem projectSymbolIdBase_eq {p : ℤ} (hp0 : 0 ≤ p) (hp : p < 2 ^ 31) :
    projectSymbolIdBase p = p * 2 ^ 32 := by
  have h := toInt_packed hp0 hp (Int.le_refl 0) (by decide)
  rw [Int.add_zero] at h
  rw [← h, projectSymbolIdBase]
  exact congrArg BitVec.toInt (BitVec.or_zero).symm

/-- What an accepted local id is, and the id computed from it. -/
theorem computeSymbolId_eq_ok_iff {p : ℤ} (hp0 : 0 < p) (hp : p < 2 ^ 31) {l id : ℤ} :
    computeSymbolId p l = .ok id ↔ (0 ≤ l ∧ l < 2 ^ 32) ∧ id = p * 2 ^ 32 + l := by
  rw [computeSymbolId, if_neg (Int.not_le.mpr hp0)]
  by_cases hl : l < 0 ∨ 2 ^ 32 ≤ l
  · rw [if_pos hl]
    constructor
    · intro h
      cases h
    · rintro ⟨hl', -⟩
      omega
  · rw [if_neg hl]
    have hl' : 0 ≤ l ∧ l < 2 ^ 32 := by omega
    rw [toInt_packed (Int.le_of_lt hp0) hp hl'.1 hl'.2]
    constructor
    · intro h
      cases h
      exact ⟨hl', rfl⟩
    · rintro ⟨-, rfl⟩
      rfl

/-! ### The range of a project -/

/-- `project_id + 1` on 32-bit integers: past the last one a build with overflow checks
panics, and one without them goes on from the other end. -/
def nextProjectId (overflowChecks : Bool) (projectId : ℤ) : Option ℤ :=
  if projectId + 1 < 2 ^ 31 then some (projectId + 1)
  else if overflowChecks then none
  else some (Int.bmod (projectId + 1) (2 ^ 32))

/-- The bounds `delete_project` puts on the ids of the symbols of a project. -/
def projectSymbolRange (overflowChecks : Bool) (projectId : ℤ) : Option (ℤ × ℤ) :=
  (nextProjectId overflowChecks projectId).map fun next =>
    (projectSymbolIdBase projectId, projectSymbolIdBase next)

/-- The upper half of an id does not tell a number from the one it wraps to. -/
theorem projectSymbolIdBase_bmod (p : ℤ) :
    projectSymbolIdBase (Int.bmod p (2 ^ 32)) = projectSymbolIdBase p := by
  refine congrArg BitVec.toInt (BitVec.eq_of_toNat_eq ?_)
  have hwrap := Int.bmod_add_bdiv p (2 ^ 32)
  simp only [BitVec.toNat_shiftLeft, BitVec.toNat_ofInt, Nat.shiftLeft_eq]
  omega

/-- The model's deletion uses the range of a build without overflow checks. -/
theorem projectSymbolRange_false (p : ℤ) :
    projectSymbolRange false p = some (projectSymbolIdBase p, projectSymbolIdBase (p + 1)) := by
  rw [projectSymbolRange, nextProjectId]
  by_cases hp : p + 1 < 2 ^ 31
  · rw [if_pos hp]
    rfl
  · rw [if_neg hp, ← projectSymbolIdBase_bmod (p + 1)]
    rfl

/-- The range of a project before the last. -/
theorem projectSymbolRange_of_lt (overflowChecks : Bool) {p : ℤ} (hp0 : 0 < p)
    (hp : p < 2 ^ 31 - 1) :
    projectSymbolRange overflowChecks p = some (p * 2 ^ 32, (p + 1) * 2 ^ 32) := by
  rw [projectSymbolRange, nextProjectId, if_pos (by omega), Option.map_some,
    projectSymbolIdBase_eq (by omega) (by omega), projectSymbolIdBase_eq (by omega) (by omega)]

/-- **The range of a project before the last holds its ids and nothing else.** -/
theorem mem_range_iff (overflowChecks : Bool) {p : ℤ} (hp0 : 0 < p) (hp : p < 2 ^ 31 - 1) :
    ∃ bounds, projectSymbolRange overflowChecks p = some bounds ∧
      ∀ id, (bounds.1 ≤ id ∧ id < bounds.2) ↔ ∃ l, computeSymbolId p l = .ok id := by
  refine ⟨_, projectSymbolRange_of_lt overflowChecks hp0 hp, fun id => ?_⟩
  constructor
  · rintro ⟨hlow, hhigh⟩
    have hlow : p * 2 ^ 32 ≤ id := hlow
    have hhigh : id < (p + 1) * 2 ^ 32 := hhigh
    exact ⟨id - p * 2 ^ 32,
      (computeSymbolId_eq_ok_iff hp0 (by omega)).mpr ⟨⟨by omega, by omega⟩, by omega⟩⟩
  · rintro ⟨l, hl⟩
    obtain ⟨hlocal, rfl⟩ := (computeSymbolId_eq_ok_iff hp0 (by omega)).mp hl
    show p * 2 ^ 32 ≤ p * 2 ^ 32 + l ∧ p * 2 ^ 32 + l < (p + 1) * 2 ^ 32
    omega

/-- **The range of the last project is missing, or empty.** -/
theorem projectSymbolRange_last (overflowChecks : Bool) {bounds : ℤ × ℤ}
    (h : projectSymbolRange overflowChecks (2 ^ 31 - 1) = some bounds) (id : ℤ) :
    ¬ (bounds.1 ≤ id ∧ id < bounds.2) := by
  cases overflowChecks with
  | true =>
    rw [show projectSymbolRange true (2 ^ 31 - 1) = none by decide] at h
    cases h
  | false =>
    -- the next project wraps to the smallest 32-bit integer, and its base is the smallest id
    have hempty : projectSymbolRange false (2 ^ 31 - 1) =
        some (9223372032559808512, -9223372036854775808) := by decide
    rw [hempty, Option.some.injEq] at h
    rw [← h]
    show ¬ ((9223372032559808512 : ℤ) ≤ id ∧ id < -9223372036854775808)
    omega

/-! ### The claim -/

/-- What the ids of a project must be: the id of an accepted local id is the one the layout
says and fits 64 bits, it is positive, no other project and no other local id has it, and the
range of the project can be computed and holds its ids and no others. -/
structure SymbolIdsRight (overflowChecks : Bool) (p : ℤ) : Prop where
  accepted : ∀ l, (∃ id, computeSymbolId p l = .ok id) ↔ 0 ≤ l ∧ l < 2 ^ 32
  packed : ∀ l id, computeSymbolId p l = .ok id → id = p * 2 ^ 32 + l ∧ id < 2 ^ 63
  positive : ∀ l id, computeSymbolId p l = .ok id → 0 < id
  injective : ∀ q l l' id, 0 < q → q < 2 ^ 31 → computeSymbolId p l = .ok id →
    computeSymbolId q l' = .ok id → q = p ∧ l' = l
  range : ∃ bounds, projectSymbolRange overflowChecks p = some bounds ∧
    (∀ id, (bounds.1 ≤ id ∧ id < bounds.2) ↔ ∃ l, computeSymbolId p l = .ok id) ∧
    ∀ q l id, 0 < q → q < 2 ^ 31 → computeSymbolId q l = .ok id →
      ((bounds.1 ≤ id ∧ id < bounds.2) ↔ q = p)

/-- No two projects, and no two local ids of one, share an id. -/
theorem computeSymbolId_inj {p q l l' id : ℤ} (hp0 : 0 < p) (hp : p < 2 ^ 31) (hq0 : 0 < q)
    (hq : q < 2 ^ 31) (h : computeSymbolId p l = .ok id) (h' : computeSymbolId q l' = .ok id) :
    q = p ∧ l' = l := by
  obtain ⟨hl, hid⟩ := (computeSymbolId_eq_ok_iff hp0 hp).mp h
  obtain ⟨hl', hid'⟩ := (computeSymbolId_eq_ok_iff hq0 hq).mp h'
  omega

/-- Where the range holds the ids of its project, it holds none of another. -/
theorem mem_range_iff_eq {p : ℤ} {bounds : ℤ × ℤ} (hp0 : 0 < p) (hp : p < 2 ^ 31)
    (h : ∀ id, (bounds.1 ≤ id ∧ id < bounds.2) ↔ ∃ l, computeSymbolId p l = .ok id)
    {q l id : ℤ} (hq0 : 0 < q) (hq : q < 2 ^ 31) (hid : computeSymbolId q l = .ok id) :
    (bounds.1 ≤ id ∧ id < bounds.2) ↔ q = p := by
  rw [h id]
  constructor
  · rintro ⟨l', hl'⟩
    exact (computeSymbolId_inj hp0 hp hq0 hq hl' hid).1
  · rintro rfl
    exact ⟨l, hid⟩

/-- **The ids of a project are right unless it is the last one.** -/
theorem symbolIdsRight_iff (overflowChecks : Bool) {p : ℤ} (hp0 : 0 < p) (hp : p < 2 ^ 31) :
    SymbolIdsRight overflowChecks p ↔ p ≠ 2 ^ 31 - 1 := by
  constructor
  · rintro ⟨-, -, -, -, bounds, hbounds, hmem, -⟩ rfl
    -- the local id zero is accepted, so the range is not empty
    have hzero := (computeSymbolId_eq_ok_iff hp0 hp (l := 0)).mpr ⟨⟨by decide, by decide⟩, rfl⟩
    exact projectSymbolRange_last overflowChecks hbounds _ ((hmem _).mpr ⟨0, hzero⟩)
  · intro hlast
    obtain ⟨bounds, hbounds, hmem⟩ := mem_range_iff overflowChecks hp0 (p := p) (by omega)
    refine ⟨fun l => ⟨?_, ?_⟩, ?_, ?_, ?_, bounds, hbounds, hmem, ?_⟩
    · rintro ⟨id, hid⟩
      exact ((computeSymbolId_eq_ok_iff hp0 hp).mp hid).1
    · intro hl
      exact ⟨_, (computeSymbolId_eq_ok_iff hp0 hp).mpr ⟨hl, rfl⟩⟩
    · intro l id hid
      obtain ⟨hl, heq⟩ := (computeSymbolId_eq_ok_iff hp0 hp).mp hid
      exact ⟨heq, by omega⟩
    · intro l id hid
      obtain ⟨hl, heq⟩ := (computeSymbolId_eq_ok_iff hp0 hp).mp hid
      omega
    · intro q l l' id hq0 hq hid hid'
      exact computeSymbolId_inj hp0 hp hq0 hq hid hid'
    · intro q l id hq0 hq hid
      exact mem_range_iff_eq hp0 hp hmem hq0 hq hid

/-- The ids of the first project are right. -/
theorem symbolIdsRight_one : SymbolIdsRight true 1 :=
  (symbolIdsRight_iff true (by decide) (by decide)).mpr (by decide)

/-- **The ids of the last project are not right**, in either build. -/
theorem not_symbolIdsRight_last :
    ¬ SymbolIdsRight true (2 ^ 31 - 1) ∧ ¬ SymbolIdsRight false (2 ^ 31 - 1) := by
  refine ⟨fun h => ?_, fun h => ?_⟩
  · obtain ⟨bounds, hbounds, -, -⟩ := h.range
    rw [show projectSymbolRange true (2 ^ 31 - 1) = none by decide] at hbounds
    cases hbounds
  · obtain ⟨bounds, hbounds, hmem, -⟩ := h.range
    have hzero := (computeSymbolId_eq_ok_iff (by decide : (0 : ℤ) < 2 ^ 31 - 1) (by decide)
      (l := 0)).mpr ⟨⟨by decide, by decide⟩, rfl⟩
    exact projectSymbolRange_last false hbounds _ ((hmem _).mpr ⟨0, hzero⟩)

end Askl
