import Askl.Library.PrefixCode
import Mathlib.Algebra.Order.Ring.Int
import Mathlib.Tactic.Ring
import Mathlib.Tactic.Positivity
import Mathlib.Data.Int.ModEq
import Mathlib.Tactic.Linarith

/-!
# Little-endian words

The bytes of an integer in two's complement, lowest byte first, and what they tell of
the integer.  Words of a fixed number of bytes are cut off a stream without a separator.

## Main definitions

* `Fits` — the integers of a signed word.
* `leBytes` — the bytes of a word.

## Main results

* `leBytes_inj` — **the bytes determine an integer that fits.**
* `leBytes_append_inj` — a word at the head of a stream is read off it.
* `delimits_word`, `delimits_count` — words and counts delimit themselves.
-/

namespace LittleEndian

/-- Whether an integer fits a signed word of `n + 1` bytes. -/
def Fits (n : ℕ) (x : ℤ) : Prop := -(128 * 256 ^ n) ≤ x ∧ x < 128 * 256 ^ n

instance (n : ℕ) (x : ℤ) : Decidable (Fits n x) :=
  inferInstanceAs (Decidable (_ ∧ _))

/-- The `n` lowest bytes of an integer, lowest first. -/
def leBytes : ℕ → ℤ → List UInt8
  | 0, _ => []
  | n + 1, x => UInt8.ofNat (x % 256).toNat :: leBytes n (x / 256)

@[simp] theorem length_leBytes (n : ℕ) (x : ℤ) : (leBytes n x).length = n := by
  induction n generalizing x with
  | zero => rfl
  | succ n ih => rw [leBytes, List.length_cons, ih]

/-- One byte tells the remainder. -/
theorem emod_eq_of_ofNat {x y : ℤ}
    (h : UInt8.ofNat (x % 256).toNat = UInt8.ofNat (y % 256).toNat) : x % 256 = y % 256 := by
  have hnat := congrArg UInt8.toNat h
  rw [UInt8.toNat_ofNat', UInt8.toNat_ofNat'] at hnat
  omega

/-- Equal bytes leave a difference that they do not show. -/
theorem dvd_of_leBytes {n : ℕ} {x y : ℤ} (h : leBytes n x = leBytes n y) :
    (256 ^ n : ℤ) ∣ x - y := by
  induction n generalizing x y with
  | zero => simp
  | succ n ih =>
    rw [leBytes, leBytes, List.cons.injEq] at h
    have hlow := emod_eq_of_ofNat h.1
    obtain ⟨k, hk⟩ := ih h.2
    refine ⟨k, ?_⟩
    have hdiff : x - y = 256 * (x / 256 - y / 256) := by omega
    rw [hdiff, hk, pow_succ]
    ring

/-- **The bytes of a word determine it.** -/
theorem leBytes_inj {n : ℕ} {x y : ℤ} (hx : Fits n x) (hy : Fits n y)
    (h : leBytes (n + 1) x = leBytes (n + 1) y) : x = y := by
  obtain ⟨k, hk⟩ := dvd_of_leBytes h
  have hpos : (0 : ℤ) < 256 ^ n := by positivity
  obtain ⟨hx₁, hx₂⟩ := hx
  obtain ⟨hy₁, hy₂⟩ := hy
  rw [pow_succ] at hk
  -- the difference is a multiple of a number it is smaller than
  have hlt : k < 1 := by
    by_contra hge
    have : (256 ^ n * 256 : ℤ) * 1 ≤ 256 ^ n * 256 * k :=
      mul_le_mul_of_nonneg_left (by omega) (by positivity)
    linarith
  have hgt : -1 < k := by
    by_contra hle
    have : (256 ^ n * 256 : ℤ) * k ≤ 256 ^ n * 256 * (-1) :=
      mul_le_mul_of_nonneg_left (by omega) (by positivity)
    linarith
  obtain rfl : k = 0 := by omega
  omega

/-- A word is cut off the head of a stream. -/
theorem leBytes_append_inj {n : ℕ} {x y : ℤ} {s u : List UInt8} (hx : Fits n x)
    (hy : Fits n y) (h : leBytes (n + 1) x ++ s = leBytes (n + 1) y ++ u) : x = y ∧ s = u := by
  obtain ⟨hword, hrest⟩ := List.append_inj h (by simp)
  exact ⟨leBytes_inj hx hy hword, hrest⟩

/-- **The bytes of an unsigned word determine it.** -/
theorem leBytes_inj_nat {n k l : ℕ} (hk : k < 256 ^ n) (hl : l < 256 ^ n)
    (h : leBytes n k = leBytes n l) : k = l := by
  have hmod : (k : ℤ) ≡ l [ZMOD (256 ^ n : ℕ)] := by
    refine (Int.modEq_iff_dvd.mpr ?_).symm
    simpa using dvd_of_leBytes h
  have hnat := (Int.natCast_modEq_iff).mp hmod
  rwa [Nat.ModEq, Nat.mod_eq_of_lt hk, Nat.mod_eq_of_lt hl] at hnat

/-- A signed word delimits itself. -/
theorem delimits_word (n : ℕ) : PrefixCode.Delimits (Fits n) (leBytes (n + 1)) :=
  .of_length (fun _ _ _ _ => by simp) fun _ _ hx hy h => leBytes_inj hx hy h

/-- A count in an unsigned word delimits itself. -/
theorem delimits_count (n : ℕ) :
    PrefixCode.Delimits (fun k : ℕ => k < 256 ^ n) fun k => leBytes n (k : ℤ) :=
  .of_length (fun _ _ _ _ => by simp) fun _ _ hk hl h => leBytes_inj_nat hk hl h

end LittleEndian
