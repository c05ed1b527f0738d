import Mathlib.Tactic

/-! Decimal texts in ASCII. The digits of a number read back as the number, and their
number is bounded by the powers of ten. -/

namespace DecimalText

/-- `'0'` to `'9'` -/
def digit (b : UInt8) : Bool := 48 ≤ b.toNat && b.toNat ≤ 57

/-- The text of a number. -/
def digits (n : ℕ) : List UInt8 := (Nat.toDigits 10 n).map fun ch => UInt8.ofNat ch.toNat

/-- The value of a text, whose bytes are taken for digits. -/
def value (text : List UInt8) : ℕ := text.foldl (fun n b => 10 * n + (b.toNat - 48)) 0

/-- The number that a text stands for. -/
def number (text : List UInt8) : Option ℕ :=
  if text ≠ [] ∧ text.all digit = true then some (value text) else none

theorem byte_of_digit {ch : Char} (h : ch.isDigit = true) :
    (UInt8.ofNat ch.toNat).toNat = ch.toNat ∧ digit (UInt8.ofNat ch.toNat) = true := by
  obtain ⟨hlow, hhigh⟩ := Char.isDigit_iff_toNat.1 h
  have hzero : '0'.toNat = 48 := rfl
  have hnine : '9'.toNat = 57 := rfl
  have hbyte : (UInt8.ofNat ch.toNat).toNat = ch.toNat := UInt8.toNat_ofNat_of_lt' (by
    simp only [UInt8.size]
    omega)
  refine ⟨hbyte, ?_⟩
  rw [digit, hbyte, Bool.and_eq_true, decide_eq_true_iff, decide_eq_true_iff]
  omega

theorem digit_of_mem_digits {n : ℕ} {b : UInt8} (h : b ∈ digits n) : digit b = true := by
  obtain ⟨ch, hch, rfl⟩ := List.mem_map.1 h
  exact (byte_of_digit (Nat.isDigit_of_mem_toDigits (by omega) (by omega) hch)).2

theorem not_mem_digits {b : UInt8} (h : digit b = false) (n : ℕ) : b ∉ digits n := by
  intro hmem
  rw [digit_of_mem_digits hmem] at h
  cases h

theorem digits_ne_nil (n : ℕ) : digits n ≠ [] := by
  simp [digits]

theorem digits_length_le_iff {n k : ℕ} (h : 0 < k) : (digits n).length ≤ k ↔ n < 10 ^ k := by
  rw [digits, List.length_map, Nat.length_toDigits_le_iff (by omega) h]

theorem value_digits (n : ℕ) : value (digits n) = n := by
  have hfold : ∀ (cs : List Char) (init : ℕ), (∀ c ∈ cs, c.isDigit = true) →
      (cs.map fun ch => UInt8.ofNat ch.toNat).foldl (fun n b => 10 * n + (b.toNat - 48)) init =
        Nat.ofDigitChars 10 cs init := by
    intro cs
    induction cs with
    | nil => intro init _; simp
    | cons c cs ih =>
      intro init hcs
      obtain ⟨hc, hcs⟩ := List.forall_mem_cons.1 hcs
      rw [List.map_cons, List.foldl_cons, ih _ hcs, (byte_of_digit hc).1, Nat.ofDigitChars_cons]
      rfl
  rw [value, digits, hfold _ 0 fun c hc => Nat.isDigit_of_mem_toDigits (by omega) (by omega) hc]
  exact Nat.ofDigitChars_ten_toDigits

theorem number_digits (n : ℕ) : number (digits n) = some n := by
  have hall : (digits n).all digit = true :=
    List.all_eq_true.2 fun b hb => digit_of_mem_digits hb
  rw [number, if_pos ⟨digits_ne_nil n, hall⟩, value_digits]

end DecimalText
