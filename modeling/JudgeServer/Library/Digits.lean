import Mathlib.Data.Nat.Digits.Lemmas
import Mathlib.Tactic

/-! Digit strings of which every digit from half the base on is read as a negative
number. The reading agrees with the plain one, modulo the power of the base that the
string fills, exactly when there is no such digit below the first. -/

namespace Digits

/-- What is taken for a sign in the digit `d`. -/
def sign (B d : ℕ) : ℕ := if B ≤ 2 * d then 1 else 0

/-- The least significant digit comes first. -/
def signedValue (B : ℕ) : List ℕ → ℤ
  | [] => 0
  | d :: ds => ((d : ℤ) - B * sign B d) + B * signedValue B ds

theorem sign_le (B d : ℕ) : sign B d ≤ 1 := by
  unfold sign
  split_ifs <;> omega

theorem sign_eq_zero_iff {B d : ℕ} : sign B d = 0 ↔ 2 * d < B := by
  unfold sign
  split_ifs with h
  · simp [h]
  · simpa using h

/-- Each negative digit takes one off the digit above it. -/
theorem signedValue_eq (B : ℕ) (ds : List ℕ) :
    signedValue B ds = Nat.ofDigits B ds - B * Nat.ofDigits B (ds.map (sign B)) := by
  induction ds with
  | nil => simp [signedValue]
  | cons d ds ih =>
    rw [signedValue, ih, List.map_cons, Nat.ofDigits_cons, Nat.ofDigits_cons]
    push_cast
    ring

/-- A digit string is divisible by the power of the base that it fills only if it is 0. -/
theorem dvd_ofDigits_iff {B : ℕ} (hB : 1 < B) {ds : List ℕ} (hds : ∀ d ∈ ds, d < B) :
    B ^ ds.length ∣ Nat.ofDigits B ds ↔ ∀ d ∈ ds, d = 0 := by
  constructor
  · intro hdvd
    have hlt := Nat.ofDigits_lt_base_pow_length hB hds
    exact Nat.digits_zero_of_eq_zero (by omega) (Nat.eq_zero_of_dvd_of_lt hdvd hlt)
  · intro hzero
    rw [List.eq_replicate_of_mem hzero, Nat.ofDigits_replicate_zero]
    exact dvd_zero _

theorem signedValue_modEq_iff {B : ℕ} (hB : 1 < B) (low : List ℕ) (high : ℕ) :
    signedValue B (low ++ [high]) ≡ (Nat.ofDigits B (low ++ [high]) : ℕ)
        [ZMOD B ^ (low.length + 1)] ↔
      ∀ d ∈ low, 2 * d < B := by
  have hsigns : ∀ t ∈ low.map (sign B), t < B := by
    intro t ht
    obtain ⟨d, -, rfl⟩ := List.mem_map.1 ht
    have hle := sign_le B d
    omega
  have hpos : (B : ℤ) ≠ 0 := by omega
  -- the sign of the first digit is worth a whole power and drops out
  have hlast : B ^ low.length ∣ Nat.ofDigits B ((low ++ [high]).map (sign B)) ↔
      B ^ low.length ∣ Nat.ofDigits B (low.map (sign B)) := by
    rw [List.map_append, Nat.ofDigits_append, List.length_map]
    exact Nat.dvd_add_left (Nat.dvd_mul_right _ _)
  have hlow := dvd_ofDigits_iff hB hsigns
  rw [List.length_map] at hlow
  rw [signedValue_eq, Int.modEq_iff_dvd, sub_sub_cancel, pow_succ', mul_dvd_mul_iff_left hpos]
  rw [← Nat.cast_pow, Int.natCast_dvd_natCast, hlast, hlow, List.forall_mem_map]
  simp only [sign_eq_zero_iff]

end Digits
