/-
Little-endian byte strings and zigzag words.

A byte string read least significant byte first has the value `leValue bs`, the base-256
number of its bytes.  These are the facts a round trip of a word through bytes needs:

* `leValue_append`, `leValue_lt`, `leValue_take` — a prefix of a string holds the low bytes
  of its value;
* `toNat_foldr_le` — the word a load assembles byte by byte is the string's value;
* `leValue_wordBytes` — the bytes a store writes for a word are its low bytes;
* `unzigzag_zigzag` — the shift-sign-extended ("zigzag") form of a word gives it back.

Nothing here names the filesystem; the srch entry coding uses these at its words.
-/
import Mathlib.Data.Nat.Digits.Defs
import Mathlib.Data.UInt

namespace LeBytes

/-! ### Values of byte strings -/

/-- The value of a little-endian byte string. -/
def leValue (bs : List UInt8) : ℕ := Nat.ofDigits 256 (bs.map UInt8.toNat)

@[simp] theorem leValue_nil : leValue [] = 0 := rfl

@[simp] theorem leValue_cons (b : UInt8) (bs : List UInt8) :
    leValue (b :: bs) = b.toNat + 256 * leValue bs := rfl

theorem leValue_append (l₁ l₂ : List UInt8) :
    leValue (l₁ ++ l₂) = leValue l₁ + 256 ^ l₁.length * leValue l₂ := by
  rw [leValue, List.map_append, Nat.ofDigits_append, List.length_map]
  rfl

theorem leValue_lt (bs : List UInt8) : leValue bs < 256 ^ bs.length := by
  have h := Nat.ofDigits_lt_base_pow_length (b := 256) (l := bs.map UInt8.toNat) (by decide)
    fun x hx => by
      obtain ⟨b, -, rfl⟩ := List.mem_map.mp hx
      exact b.toNat_lt
  rwa [List.length_map] at h

/-- The first `k` bytes of a string hold the low `k` bytes of its value. -/
theorem leValue_take (bs : List UInt8) (k : ℕ) : leValue (bs.take k) = leValue bs % 256 ^ k := by
  by_cases hk : k ≤ bs.length
  · have hsplit := leValue_append (bs.take k) (bs.drop k)
    have hlow := leValue_lt (bs.take k)
    rw [List.take_append_drop, List.length_take_of_le hk] at hsplit
    rw [List.length_take_of_le hk] at hlow
    rw [hsplit, Nat.add_mul_mod_self_left, Nat.mod_eq_of_lt hlow]
  · -- a string shorter than `k` bytes is its own prefix
    rw [List.take_of_length_le (by omega), Nat.mod_eq_of_lt]
    exact lt_of_lt_of_le (leValue_lt bs) (Nat.pow_le_pow_right (by decide) (by omega))

/-! ### Loads and stores of words -/

/-- A load that assembles at most 8 bytes into a word, most significant first, does not
wrap. -/
theorem toNat_foldr_le (bs : List UInt8) (h : bs.length ≤ 8) :
    (bs.foldr (fun (b : UInt8) (acc : UInt64) => acc * 256 + b.toUInt64) 0).toNat =
      leValue bs := by
  induction bs with
  | nil => rfl
  | cons b bs ih =>
    have hlen : bs.length ≤ 7 := by
      rw [List.length_cons] at h
      omega
    have hlt : leValue bs < 256 ^ 7 :=
      lt_of_lt_of_le (leValue_lt bs) (Nat.pow_le_pow_right (by decide) hlen)
    have hb := b.toNat_lt
    rw [List.foldr_cons, leValue_cons, UInt64.toNat_add, UInt64.toNat_mul, ih (by omega),
      UInt8.toNat_toUInt64]
    have h256 : (256 : UInt64).toNat = 256 := rfl
    have hpow : (256 : ℕ) ^ 7 = 72057594037927936 := by norm_num
    rw [h256]
    omega

/-- The bytes a little-endian store writes for a word, `n ≤ 8` of them, are its low `n`
bytes. -/
theorem leValue_wordBytes (v : UInt64) (n : ℕ) (h : n ≤ 8) :
    leValue ((List.range n).map fun i => (v >>> (8 * i).toUInt64).toUInt8) =
      v.toNat % 256 ^ n := by
  induction n with
  | zero => simp [Nat.mod_one]
  | succ n ih =>
    -- byte `n` is the `n`-th base-256 digit of the word
    have hbyte : (v >>> (8 * n).toUInt64).toUInt8.toNat = v.toNat / 256 ^ n % 256 := by
      have hshift : (8 * n).toUInt64.toNat % 64 = 8 * n := by
        rw [Nat.toUInt64_eq, UInt64.toNat_ofNat', Nat.mod_eq_of_lt (by omega),
          Nat.mod_eq_of_lt (by omega)]
      rw [UInt64.toNat_toUInt8, UInt64.toNat_shiftRight, hshift, Nat.shiftRight_eq_div_pow,
        pow_mul]
      rfl
    rw [List.range_succ, List.map_append, leValue_append, ih (by omega), List.length_map,
      List.length_range, List.map_singleton, leValue_cons, leValue_nil, hbyte, pow_succ,
      Nat.mod_mul]
    ring

/-! ### Zigzag words -/

/-- `x ^^^ -1` flips every bit. -/
theorem xor_neg_one (x : UInt64) : x ^^^ -1 = ~~~x :=
  UInt64.toBitVec_inj.1 (by simp)

/-- A word shifted left by one with its sign bit spread over the result. -/
def zigzag (v : UInt64) : UInt64 := (v <<< 1) ^^^ -(v >>> 63)

/-- A zigzag word shifted back with its low bit spread over the result. -/
def unzigzag (z : UInt64) : UInt64 := (z >>> 1) ^^^ -(z &&& 1)

theorem unzigzag_zigzag (v : UInt64) : unzigzag (zigzag v) = v := by
  unfold zigzag unzigzag
  have hv := v.toNat_lt
  by_cases hs : v.toNat < 2 ^ 63
  · -- the sign bit is clear: the word is doubled, then halved back
    have h63 : v >>> 63 = 0 := UInt64.toNat_inj.mp (by simp; omega)
    have hand : (v <<< 1) &&& 1 = 0 :=
      UInt64.toNat_inj.mp (by simp [Nat.and_one_is_mod, Nat.shiftLeft_eq])
    rw [h63, UInt64.neg_zero, UInt64.xor_zero, hand, UInt64.neg_zero, UInt64.xor_zero]
    exact UInt64.toNat_inj.mp (by simp [Nat.shiftLeft_eq, Nat.shiftRight_eq_div_pow]; omega)
  · -- the sign bit is set: the doubled word is complemented, and so is its half
    have h63 : v >>> 63 = 1 := UInt64.toNat_inj.mp (by simp [Nat.shiftRight_eq_div_pow]; omega)
    have hand : (~~~(v <<< 1)) &&& 1 = 1 :=
      UInt64.toNat_inj.mp (by simp [Nat.and_one_is_mod, Nat.shiftLeft_eq]; omega)
    rw [h63, xor_neg_one, hand, xor_neg_one]
    exact UInt64.toNat_inj.mp (by simp [Nat.shiftLeft_eq, Nat.shiftRight_eq_div_pow]; omega)

/-- Masking a word with `2 ^ n - 1` keeps its low `n` bits. -/
theorem toNat_and_low_bits (x m : UInt64) (n : ℕ) (hm : m.toNat = 2 ^ n - 1) :
    (x &&& m).toNat = x.toNat % 2 ^ n := by
  rw [UInt64.toNat_and, hm, Nat.and_two_pow_sub_one_eq_mod]

end LeBytes
