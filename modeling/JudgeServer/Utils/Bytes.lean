import Mathlib.Data.Nat.Digits.Defs
import Mathlib.Tactic

/-! Bytes in memory: `memcpy`, and the byte order helpers of the network code. -/

namespace JudgeServer

/-- `memcpy`; `none` is an access out of bounds. -/
def memcpy (dst src : List UInt8) (n : ℕ) : Option (List UInt8) :=
  if n ≤ dst.length ∧ n ≤ src.length then some (src.take n ++ dst.drop n) else none

theorem memcpy_whole {dst src : List UInt8} {n : ℕ} (hdst : dst.length = n) (h : n ≤ src.length)
    (pad : List UInt8) : memcpy (dst ++ pad) src n = some (src.take n ++ pad) := by
  have hbounds : n ≤ (dst ++ pad).length ∧ n ≤ src.length := by
    rw [List.length_append]
    exact ⟨by omega, h⟩
  rw [memcpy, if_pos hbounds, List.drop_left' hdst]

/-- The bytes of `htons(n)` in memory. -/
def be16 (n : UInt16) : List UInt8 := [(n >>> 8).toUInt8, n.toUInt8]

/-- The bytes of `htonl(n)` in memory. -/
def be32 (n : UInt32) : List UInt8 :=
  [(n >>> 24).toUInt8, (n >>> 16).toUInt8, (n >>> 8).toUInt8, n.toUInt8]

/-- `ntohs` of the two bytes at offset `off`. -/
def readBe16 (mem : List UInt8) (off : ℕ) : UInt16 :=
  (mem.getD off 0).toUInt16 <<< 8 ||| (mem.getD (off + 1) 0).toUInt16

/-- `ntohl` of the four bytes at offset `off`. -/
def readBe32 (mem : List UInt8) (off : ℕ) : UInt32 :=
  (mem.getD off 0).toUInt32 <<< 24 ||| (mem.getD (off + 1) 0).toUInt32 <<< 16 |||
    (mem.getD (off + 2) 0).toUInt32 <<< 8 ||| (mem.getD (off + 3) 0).toUInt32

@[simp] theorem be16_length (n : UInt16) : (be16 n).length = 2 := rfl

/-- The high byte shifted back and the low byte make up the value again. -/
theorem bytes_of_uint16 (n : UInt16) :
    (n >>> 8).toUInt8.toUInt16 <<< 8 ||| n.toUInt8.toUInt16 = n := by
  apply UInt16.toNat_inj.1
  have hlt := n.toNat_lt
  have hhigh : n.toNat / 2 ^ 8 % 256 * 2 ^ 8 % 65536 = 2 ^ 8 * (n.toNat / 2 ^ 8) := by omega
  have hor := Nat.two_pow_add_eq_or_of_lt (i := 8) (b := n.toNat % 256) (by omega) (n.toNat / 256)
  have h8 : (8 : UInt16).toNat % 16 = 8 := rfl
  simp only [UInt16.toNat_or, UInt16.toNat_shiftLeft, UInt8.toNat_toUInt16, UInt16.toNat_toUInt8,
    UInt16.toNat_shiftRight, Nat.shiftRight_eq_div_pow, Nat.shiftLeft_eq, h8]
  norm_num at hhigh hor ⊢
  rw [hhigh]
  omega

theorem readBe16_be16 (n : UInt16) (rest : List UInt8) : readBe16 (be16 n ++ rest) 0 = n :=
  bytes_of_uint16 n

@[simp] theorem be32_length (n : UInt32) : (be32 n).length = 4 := rfl

/-- Four bytes shifted back make up the value again. -/
theorem bytes_of_uint32 (n : UInt32) :
    (n >>> 24).toUInt8.toUInt32 <<< 24 ||| (n >>> 16).toUInt8.toUInt32 <<< 16 |||
      (n >>> 8).toUInt8.toUInt32 <<< 8 ||| n.toUInt8.toUInt32 = n := by
  apply UInt32.toNat_inj.1
  have hlt := n.toNat_lt
  have h24 : (24 : UInt32).toNat % 32 = 24 := rfl
  have h16 : (16 : UInt32).toNat % 32 = 16 := rfl
  have h8 : (8 : UInt32).toNat % 32 = 8 := rfl
  simp only [UInt32.toNat_or, UInt32.toNat_shiftLeft, UInt8.toNat_toUInt32, UInt32.toNat_toUInt8,
    UInt32.toNat_shiftRight, Nat.shiftRight_eq_div_pow, Nat.shiftLeft_eq, h24, h16, h8]
  generalize n.toNat = m at hlt ⊢
  -- each byte is or-ed in below the ones before it
  have hor₁ := Nat.two_pow_add_eq_or_of_lt (i := 24) (b := m / 2 ^ 16 % 2 ^ 8 * 2 ^ 16)
    (by omega) (m / 2 ^ 24)
  have hor₂ := Nat.two_pow_add_eq_or_of_lt (i := 16) (b := m / 2 ^ 8 % 2 ^ 8 * 2 ^ 8)
    (by omega) (m / 2 ^ 16)
  have hor₃ := Nat.two_pow_add_eq_or_of_lt (i := 8) (b := m % 2 ^ 8) (by omega) (m / 2 ^ 8)
  have hbyte₁ : m / 2 ^ 24 % 2 ^ 8 * 2 ^ 24 % 2 ^ 32 = 2 ^ 24 * (m / 2 ^ 24) := by omega
  have hbyte₂ : m / 2 ^ 16 % 2 ^ 8 * 2 ^ 16 % 2 ^ 32 = m / 2 ^ 16 % 2 ^ 8 * 2 ^ 16 :=
    Nat.mod_eq_of_lt (by omega)
  have hbyte₃ : m / 2 ^ 8 % 2 ^ 8 * 2 ^ 8 % 2 ^ 32 = m / 2 ^ 8 % 2 ^ 8 * 2 ^ 8 :=
    Nat.mod_eq_of_lt (by omega)
  have hsum₁ : 2 ^ 24 * (m / 2 ^ 24) + m / 2 ^ 16 % 2 ^ 8 * 2 ^ 16 = 2 ^ 16 * (m / 2 ^ 16) := by omega
  have hsum₂ : 2 ^ 16 * (m / 2 ^ 16) + m / 2 ^ 8 % 2 ^ 8 * 2 ^ 8 = 2 ^ 8 * (m / 2 ^ 8) := by omega
  rw [hbyte₁, hbyte₂, hbyte₃, ← hor₁, hsum₁, ← hor₂, hsum₂, ← hor₃]
  omega

theorem readBe32_be32 (n : UInt32) (rest : List UInt8) : readBe32 (be32 n ++ rest) 0 = n :=
  bytes_of_uint32 n

/-- The bytes are the digits in base 256. -/
theorem ofDigits_be32 (n : UInt32) :
    Nat.ofDigits 256 ((be32 n).reverse.map UInt8.toNat) = n.toNat := by
  have h24 : (24 : UInt32).toNat % 32 = 24 := rfl
  have h16 : (16 : UInt32).toNat % 32 = 16 := rfl
  have h8 : (8 : UInt32).toNat % 32 = 8 := rfl
  have hlt := n.toNat_lt
  simp only [be32, List.reverse_cons, List.reverse_nil, List.nil_append, List.cons_append,
    List.map_cons, List.map_nil, Nat.ofDigits_cons, Nat.ofDigits_nil, UInt32.toNat_toUInt8,
    UInt32.toNat_shiftRight, Nat.shiftRight_eq_div_pow, h24, h16, h8]
  omega

end JudgeServer
