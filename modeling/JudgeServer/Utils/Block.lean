import JudgeServer.Library.Digits
import JudgeServer.Utils.Bytes

/-! `read_string` of utils.c: a block taken from its length in network byte order and the
bytes behind it. The four bytes of the length go through `char`, which is signed, so a
byte from 0x80 on takes one off the byte above it. -/

namespace JudgeServer

/-- `data` is the memory that the pointer refers to, `none` for NULL. -/
structure DataBlock where
  data : Option (List UInt8)
  length : UInt32
  deriving DecidableEq, Repr

/-- `malloc`: what stands in the memory that it gives out, or `none` for NULL. -/
structure Malloc where
  alloc : UInt64 → Option (List UInt8)
  size : ∀ {n bytes}, alloc n = some bytes → bytes.length = n.toNat

/-- Memory of zeros, as much as is asked for. -/
def zeroed : Malloc where
  alloc n := some (List.replicate n.toNat 0)
  size h := by
    obtain rfl := Option.some.inj h
    exact List.length_replicate

/-- `memcpy` to memory from `malloc`; `none` is an access out of bounds or through NULL. -/
def fill (dst : Option (List UInt8)) (src : List UInt8) (n : ℕ) : Option (Option (List UInt8)) :=
  match dst with
  | some bytes => (memcpy bytes src n).map some
  | none => if n = 0 then some none else none

/-- `min(a, b)` of utils.h on two `uint32`. -/
def minOf (a b : UInt32) : UInt32 := if a < b then a else b

/-- A `char` in an `int` expression. -/
def charInt (c : UInt8) : Int32 := c.toInt8.toInt32

/-- The sum that `block.length` is set to; `c₀` is the byte at `data`. -/
def lengthSum (c₀ c₁ c₂ c₃ : UInt8) : Int32 :=
  -- a negative `int` is shifted in two's complement, as on the target
  charInt c₃ + (charInt c₂ <<< 8) + (charInt c₁ <<< 16) + (charInt c₀ <<< 24)

/-- `data` is the memory from the pointer on, and `block` what the local variable holds
before the function writes to it. -/
def readString (m : Malloc) (block : DataBlock) (data : List UInt8) (length : UInt32) :
    Option DataBlock :=
  if length < 4 then some block
  else match data with
    | c₀ :: c₁ :: c₂ :: c₃ :: data =>
      let blockLength := (lengthSum c₀ c₁ c₂ c₃).toUInt32
      let length := length - 4
      -- `sizeof(char)` is 1
      let blockData := m.alloc (blockLength.toUInt64 * 1)
      let realLength := (minOf length blockLength).toInt32
      -- a negative `int` would become a huge `size_t`
      (fill blockData data realLength.toInt64.toUInt64.toNat).map fun copied => ⟨copied, blockLength⟩
    | _ => none

/-- The block has these bytes. -/
def DataBlock.Holds (block : DataBlock) (s : List UInt8) : Prop :=
  block.length.toNat = s.length ∧ block.data.getD [] = s

/-- The memory that `read_string` is given: the length of `s`, then `s`, then `rest`. -/
def encoded (s rest : List UInt8) : List UInt8 := be32 (UInt32.ofNat s.length) ++ s ++ rest

/-- `read_string` undoes the encoding of `s`. -/
def ReadsBack (m : Malloc) (block : DataBlock) (s rest : List UInt8) : Prop :=
  ∃ block', readString m block (encoded s rest) (UInt32.ofNat (encoded s rest).length) = some block' ∧
    block'.Holds s

/-! The sum, with the values of the `int` expressions that make it up. -/

theorem charInt_toInt (c : UInt8) :
    (charInt c).toInt = (c.toNat : ℤ) - 256 * Digits.sign 256 c.toNat := by
  have hlt := c.toNat_lt
  rw [charInt, Int8.toInt_toInt32, ← Int8.toInt_toBitVec, UInt8.toBitVec_toInt8,
    BitVec.toInt_eq_toNat_cond, UInt8.toNat_toBitVec, Digits.sign]
  split_ifs <;> omega

theorem charInt_bounds (c : UInt8) : -128 ≤ (charInt c).toInt ∧ (charInt c).toInt < 128 := by
  have hlt := c.toNat_lt
  rw [charInt_toInt, Digits.sign]
  split_ifs <;> omega

theorem charInt_nonneg {c : UInt8} (h : c < 0x80) : 0 ≤ (charInt c).toInt := by
  have hlt : c.toNat < 0x80 := UInt8.lt_iff_toNat_lt.1 h
  rw [charInt_toInt, Digits.sign_eq_zero_iff.2 (by omega)]
  omega

/-- An `int` that does not overflow. -/
theorem bmod_of_fits {x : ℤ} (hle : -2 ^ 31 ≤ x) (hlt : x < 2 ^ 31) : x.bmod (2 ^ 32) = x :=
  Int.bmod_eq_of_le (by omega) (by omega)

theorem shiftLeft_toInt {a k : Int32} {n : ℕ} (hk : (k.toBitVec.smod 32).toNat = n)
    (hle : -2 ^ 31 ≤ a.toInt * 2 ^ n) (hlt : a.toInt * 2 ^ n < 2 ^ 31) :
    (a <<< k).toInt = a.toInt * 2 ^ n := by
  rw [← bmod_of_fits hle hlt, ← Int32.toInt_toBitVec, ← Int32.toInt_toBitVec a,
    Int32.toBitVec_shiftLeft, BitVec.shiftLeft_eq', hk, BitVec.toInt_shiftLeft,
    BitVec.toInt_eq_toNat_bmod a.toBitVec, Int.bmod_mul_bmod, Nat.shiftLeft_eq]
  norm_cast

/-- With a first byte below 0x80 nothing overflows. -/
theorem lengthSum_toInt {c₀ : UInt8} (h : c₀ < 0x80) (c₁ c₂ c₃ : UInt8) :
    (lengthSum c₀ c₁ c₂ c₃).toInt =
      Digits.signedValue 256 ([c₀, c₁, c₂, c₃].reverse.map UInt8.toNat) := by
  have hpos := charInt_nonneg h
  have h₀ := charInt_bounds c₀
  have h₁ := charInt_bounds c₁
  have h₂ := charInt_bounds c₂
  have h₃ := charInt_bounds c₃
  have hshift₂ : (charInt c₂ <<< 8).toInt = (charInt c₂).toInt * 2 ^ 8 :=
    shiftLeft_toInt rfl (by omega) (by omega)
  have hshift₁ : (charInt c₁ <<< 16).toInt = (charInt c₁).toInt * 2 ^ 16 :=
    shiftLeft_toInt rfl (by omega) (by omega)
  have hshift₀ : (charInt c₀ <<< 24).toInt = (charInt c₀).toInt * 2 ^ 24 :=
    shiftLeft_toInt rfl (by omega) (by omega)
  have hsum₂ : (charInt c₃ + (charInt c₂ <<< 8)).toInt =
      (charInt c₃).toInt + (charInt c₂).toInt * 2 ^ 8 := by
    rw [Int32.toInt_add, hshift₂, bmod_of_fits (by omega) (by omega)]
  have hsum₁ : (charInt c₃ + (charInt c₂ <<< 8) + (charInt c₁ <<< 16)).toInt =
      (charInt c₃).toInt + (charInt c₂).toInt * 2 ^ 8 + (charInt c₁).toInt * 2 ^ 16 := by
    rw [Int32.toInt_add, hsum₂, hshift₁, bmod_of_fits (by omega) (by omega)]
  rw [lengthSum, Int32.toInt_add, hsum₁, hshift₀, bmod_of_fits (by omega) (by omega)]
  simp only [List.reverse_cons, List.reverse_nil, List.nil_append, List.cons_append, List.map_cons,
    List.map_nil, Digits.signedValue, charInt_toInt]
  push_cast
  ring

theorem toUInt32_toNat (a : Int32) : (a.toUInt32.toNat : ℤ) = a.toInt % 2 ^ 32 := by
  rw [← Int32.toNat_toBitVec, ← Int32.toInt_toBitVec, BitVec.toInt_eq_toNat_bmod]
  have hlt := a.toBitVec.isLt
  have hmod := Int.bmod_emod (x := a.toBitVec.toNat) (m := 2 ^ 32)
  omega

theorem head_lt_of_be32 {n : UInt32} (hn : n.toNat < 2 ^ 31) {c₀ c₁ c₂ c₃ : UInt8}
    (h : be32 n = [c₀, c₁, c₂, c₃]) : c₀ < 0x80 := by
  obtain ⟨rfl, -⟩ := List.cons.inj h
  have h24 : (24 : UInt32).toNat % 32 = 24 := rfl
  have h128 : (0x80 : UInt8).toNat = 2 ^ 7 := rfl
  rw [UInt8.lt_iff_toNat_lt, UInt32.toNat_toUInt8, UInt32.toNat_shiftRight,
    Nat.shiftRight_eq_div_pow, h24, h128]
  omega

/-- The length comes out right if and only if no byte but the first could be negative. -/
theorem lengthSum_eq_iff {n : UInt32} (hn : n.toNat < 2 ^ 31) {c₀ c₁ c₂ c₃ : UInt8}
    (h : be32 n = [c₀, c₁, c₂, c₃]) :
    (lengthSum c₀ c₁ c₂ c₃).toUInt32 = n ↔ ∀ c ∈ [c₁, c₂, c₃], c < 0x80 := by
  have hdigits := ofDigits_be32 n
  rw [h] at hdigits
  have hmod := Digits.signedValue_modEq_iff (B := 256) (by decide) ([c₃, c₂, c₁].map UInt8.toNat)
    c₀.toNat
  have hreverse : [c₃, c₂, c₁].map UInt8.toNat ++ [c₀.toNat] =
      [c₀, c₁, c₂, c₃].reverse.map UInt8.toNat := rfl
  have hpow : ((256 : ℕ) : ℤ) ^ (([c₃, c₂, c₁].map UInt8.toNat).length + 1) = 2 ^ 32 := by norm_num
  rw [hreverse, hdigits, ← lengthSum_toInt (head_lt_of_be32 hn h), hpow] at hmod
  have hvalue : (lengthSum c₀ c₁ c₂ c₃).toUInt32 = n ↔
      (lengthSum c₀ c₁ c₂ c₃).toInt ≡ n.toNat [ZMOD 2 ^ 32] := by
    rw [← UInt32.toNat_inj, ← Nat.cast_inj (R := ℤ), toUInt32_toNat, Int.ModEq]
    have hsmall : (n.toNat : ℤ) % 2 ^ 32 = n.toNat := by omega
    rw [hsmall]
  have hbyte : ∀ c : UInt8, 2 * c.toNat < 256 ↔ c < 0x80 := by
    intro c
    rw [UInt8.lt_iff_toNat_lt, show (0x80 : UInt8).toNat = 128 from rfl]
    omega
  rw [hvalue, hmod]
  have hlow : ([c₁, c₂, c₃] : List UInt8).reverse = [c₃, c₂, c₁] := rfl
  simp only [List.forall_mem_map, hbyte, ← hlow, List.mem_reverse]

/-! The call on an encoded string. -/

theorem minOf_toNat (a b : UInt32) : (minOf a b).toNat = min a.toNat b.toNat := by
  unfold minOf
  split_ifs with hlt
  · have hlt' := UInt32.lt_iff_toNat_lt.1 hlt
    omega
  · have hle := UInt32.le_iff_toNat_le.1 (UInt32.not_lt.1 hlt)
    omega

/-- A length that is an `int` too is the `size_t` that it was. -/
theorem realLength_toNat {x : UInt32} (h : x.toNat < 2 ^ 31) :
    x.toInt32.toInt64.toUInt64.toNat = x.toNat := by
  have hmsb : x.toBitVec.msb = false := by
    rw [BitVec.msb_eq_decide, UInt32.toNat_toBitVec]
    simpa using h
  have hwide : x.toInt32.toInt64.toUInt64.toBitVec = x.toBitVec.setWidth 64 := by
    rw [← BitVec.signExtend_eq_setWidth_of_msb_false hmsb]
    rfl
  rw [← UInt64.toNat_toBitVec, hwide, BitVec.toNat_setWidth_of_le (by decide), UInt32.toNat_toBitVec]

theorem encoded_length (s rest : List UInt8) :
    (encoded s rest).length = 4 + s.length + rest.length := by
  rw [encoded, List.length_append, List.length_append, be32_length]

/-- What is copied is bounded by what the memory holds, whatever length comes out. -/
theorem readString_encoded (m : Malloc) (block : DataBlock) {s rest : List UInt8}
    (hlen : (encoded s rest).length < 2 ^ 31) {c₀ c₁ c₂ c₃ : UInt8}
    (h : be32 (UInt32.ofNat s.length) = [c₀, c₁, c₂, c₃]) {n : UInt32}
    (hn : (lengthSum c₀ c₁ c₂ c₃).toUInt32 = n) :
    readString m block (encoded s rest) (UInt32.ofNat (encoded s rest).length) =
      (fill (m.alloc n.toUInt64) (s ++ rest) (min (s ++ rest).length n.toNat)).map
        fun copied => ⟨copied, n⟩ := by
  have htotal := encoded_length s rest
  have hfour : (4 : UInt32).toNat = 4 := rfl
  have hnat : (UInt32.ofNat (encoded s rest).length).toNat = (encoded s rest).length :=
    UInt32.toNat_ofNat_of_lt' (hlen.trans (by decide))
  have hle : (4 : UInt32) ≤ UInt32.ofNat (encoded s rest).length := by
    rw [UInt32.le_iff_toNat_le, hfour, hnat]
    omega
  have hbehind : (UInt32.ofNat (encoded s rest).length - 4).toNat = (s ++ rest).length := by
    rw [UInt32.toNat_sub_of_le _ _ hle, hfour, hnat, htotal, List.length_append]
    omega
  have hcopied : (minOf (UInt32.ofNat (encoded s rest).length - 4) n).toInt32.toInt64.toUInt64.toNat =
      min (s ++ rest).length n.toNat := by
    rw [realLength_toNat, minOf_toNat, hbehind]
    rw [minOf_toNat, hbehind, List.length_append]
    omega
  have hmem : encoded s rest = c₀ :: c₁ :: c₂ :: c₃ :: (s ++ rest) := by
    rw [encoded, h, List.append_assoc]
    rfl
  generalize UInt32.ofNat (encoded s rest).length = len at hle hcopied
  unfold readString
  rw [if_neg (UInt32.not_lt.2 hle), hmem]
  dsimp only
  rw [hn, UInt64.mul_one, hcopied]

/-- The length of the block is the sum, whatever `malloc` does. -/
theorem length_of_read {m : Malloc} {block block' : DataBlock} {s rest : List UInt8}
    (hlen : (encoded s rest).length < 2 ^ 31) {c₀ c₁ c₂ c₃ : UInt8}
    (h : be32 (UInt32.ofNat s.length) = [c₀, c₁, c₂, c₃])
    (hread : readString m block (encoded s rest) (UInt32.ofNat (encoded s rest).length) =
      some block') : block'.length = (lengthSum c₀ c₁ c₂ c₃).toUInt32 := by
  rw [readString_encoded m block hlen h rfl, Option.map_eq_some_iff] at hread
  obtain ⟨copied, -, rfl⟩ := hread
  rfl

theorem fill_alloc {m : Malloc} {n : UInt64} {s : List UInt8}
    (hmalloc : s ≠ [] → (m.alloc n).isSome) (hn : n.toNat = s.length) (rest : List UInt8) :
    ∃ copied, fill (m.alloc n) (s ++ rest) s.length = some copied ∧ copied.getD [] = s := by
  cases halloc : m.alloc n with
  | none =>
    have hs : s = [] := by
      by_contra hs
      simpa [halloc] using hmalloc hs
    exact ⟨none, by simp [fill, hs], hs.symm⟩
  | some bytes =>
    have hcopy := memcpy_whole ((m.size halloc).trans hn) (List.prefix_append s rest).length_le []
    rw [List.append_nil, List.append_nil, List.take_left] at hcopy
    exact ⟨some s, by rw [fill, hcopy]; rfl, rfl⟩

/-- The function undoes the encoding if and only if no byte of the length but the first
is 0x80 or above; the first is not, for these lengths. -/
theorem reads_back_iff (m : Malloc) (block : DataBlock) {s rest : List UInt8}
    (hlen : (encoded s rest).length < 2 ^ 31)
    (hmalloc : s ≠ [] → (m.alloc (UInt64.ofNat s.length)).isSome) :
    ReadsBack m block s rest ↔ ∀ c ∈ (be32 (UInt32.ofNat s.length)).tail, c < 0x80 := by
  obtain ⟨c₀, c₁, c₂, c₃, hbytes⟩ : ∃ c₀ c₁ c₂ c₃, be32 (UInt32.ofNat s.length) = [c₀, c₁, c₂, c₃] :=
    ⟨_, _, _, _, rfl⟩
  have htotal := encoded_length s rest
  have hfits : s.length < 2 ^ 32 := by omega
  have hnat : (UInt32.ofNat s.length).toNat = s.length := UInt32.toNat_ofNat_of_lt' hfits
  rw [hbytes, List.tail_cons, ← lengthSum_eq_iff (by omega) hbytes]
  constructor
  · rintro ⟨block', hread, hlength, -⟩
    rw [length_of_read hlen hbytes hread] at hlength
    rw [← UInt32.toNat_inj, hlength, hnat]
  · intro hsum
    have hsize : (UInt32.ofNat s.length).toUInt64 = UInt64.ofNat s.length := by
      rw [← UInt64.toNat_inj, UInt32.toNat_toUInt64, hnat,
        UInt64.toNat_ofNat_of_lt' (hfits.trans (by decide))]
    rw [← hsize] at hmalloc
    obtain ⟨copied, hfill, hdata⟩ :=
      fill_alloc hmalloc ((UInt32.toNat_toUInt64 _).trans hnat) rest
    refine ⟨⟨copied, UInt32.ofNat s.length⟩, ?_, hnat, hdata⟩
    rw [readString_encoded m block hlen hbytes hsum, hnat,
      Nat.min_eq_right (List.prefix_append s rest).length_le, hfill]
    rfl

/-- Three letters, and a byte behind them. -/
theorem reads_back_iff_abc : ReadsBack zeroed ⟨none, 0⟩ [97, 98, 99] [0] := by
  have hbytes : (be32 (UInt32.ofNat ([97, 98, 99] : List UInt8).length)).tail = [0, 0, 3] := rfl
  refine (reads_back_iff zeroed ⟨none, 0⟩ (by decide) fun _ => rfl).2 ?_
  rw [hbytes, List.forall_mem_cons, List.forall_mem_cons, List.forall_mem_singleton]
  decide

/-- The length 128 is one byte of 0x80, which counts as -128. -/
theorem long_string_lost : ¬ ReadsBack zeroed ⟨none, 0⟩ (List.replicate 128 97) [] := by
  rintro ⟨block', hread, hlength, -⟩
  have hfew : (encoded (List.replicate 128 97) []).length < 2 ^ 31 := by
    rw [encoded_length, List.length_replicate]
    decide
  have hbytes : be32 (UInt32.ofNat (List.replicate 128 (97 : UInt8)).length) = [0, 0, 0, 0x80] := by
    rw [List.length_replicate]
    rfl
  rw [length_of_read hfew hbytes hread, List.length_replicate] at hlength
  exact absurd hlength (by decide)

end JudgeServer
