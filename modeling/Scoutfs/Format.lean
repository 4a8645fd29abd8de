/-
The on-disk key of scoutfs and its ordering (`format.h`, `key.h`, `cmp.h`).

Every btree, item cache and forest item is addressed by a `scoutfs_key`:
six fields compared in the order zone, first, type, second, third, fourth.
`scoutfsKeyCompare` is the source's ternary chain; the linear order on keys is
built so that its `compare` *is* that chain, so order facts proved with
Mathlib apply verbatim to the comparisons the code makes.  `ScoutfsKey.toNat` reads a key
as a 216-bit number in the same order, on which `scoutfs_key_inc` and `scoutfs_key_dec` are
one up and one down, wrapping (`toNat_scoutfsKeyInc`, `toNat_scoutfsKeyDec`).

The kernel's negative error returns are kept as `Int`s, with the errno values
of the Linux ABI.
-/
import Mathlib.Order.Basic
import Mathlib.Data.Prod.Lex
import Mathlib.Data.UInt

namespace Scoutfs

/-! ### Error numbers -/

def ENOENT : Int := 2
def EIO : Int := 5
def ENOMEM : Int := 12
def EEXIST : Int := 17
def EINVAL : Int := 22
def ENOSPC : Int := 28
def ERANGE : Int := 34
def ENOBUFS : Int := 105
def EINPROGRESS : Int := 115
def ESTALE : Int := 116

/-- `U64_MAX`. -/
def U64_MAX : UInt64 := UInt64.ofNat (2 ^ 64 - 1)

/-- `SCOUTFS_BLOCK_LG_SIZE`. -/
def SCOUTFS_BLOCK_LG_SIZE : ℕ := 65536

/-! ### Words -/

/-- `fls64`: the position of the most significant set bit counting from one, `0` for `0`. -/
def fls64 (x : UInt64) : ℕ := if x = 0 then 0 else x.toNat.log2 + 1

/-- `le64_to_cpu` of eight bytes, least significant first. -/
def le64ToCpu (b : List UInt8) : UInt64 :=
  b.foldr (fun byte acc => acc * 256 + byte.toUInt64) 0

/-- `cpu_to_le64`: the eight bytes of a word, least significant first. -/
def cpuToLe64 (v : UInt64) : List UInt8 :=
  (List.range 8).map fun i => (v >>> (8 * i).toUInt64).toUInt8

/-! ### Keys -/

/-- `struct scoutfs_key`, fields listed in comparison order. -/
structure ScoutfsKey where
  zone : UInt8
  first : UInt64
  type : UInt8
  second : UInt64
  third : UInt64
  fourth : UInt8
  deriving DecidableEq, Repr

/-- `scoutfs_cmp`: the three-way comparison of `cmp.h`. -/
def scoutfsCmp {α : Type} [LT α] [DecidableLT α] (a b : α) : Ordering :=
  if a < b then .lt else if b < a then .gt else .eq

/-- `scoutfs_key_compare`; `Ordering.then` is the `?:` chain of the source. -/
def scoutfsKeyCompare (a b : ScoutfsKey) : Ordering :=
  (scoutfsCmp a.zone b.zone).then <| (scoutfsCmp a.first b.first).then <|
    (scoutfsCmp a.type b.type).then <| (scoutfsCmp a.second b.second).then <|
      (scoutfsCmp a.third b.third).then (scoutfsCmp a.fourth b.fourth)

/-- `scoutfs_key_set_zeros`. -/
def scoutfsKeySetZeros : ScoutfsKey := ⟨0, 0, 0, 0, 0, 0⟩

/-- `scoutfs_key_set_ones`. -/
def scoutfsKeySetOnes : ScoutfsKey := ⟨255, UInt64.ofNat (2 ^ 64 - 1), 255,
  UInt64.ofNat (2 ^ 64 - 1), UInt64.ofNat (2 ^ 64 - 1), 255⟩

/-- `scoutfs_key_inc`: the next key, carrying from `fourth` up to `zone`. -/
def scoutfsKeyInc (key : ScoutfsKey) : ScoutfsKey :=
  let fourth := key.fourth + 1
  if fourth ≠ 0 then { key with fourth := fourth } else
  let third := key.third + 1
  if third ≠ 0 then { key with fourth := fourth, third := third } else
  let second := key.second + 1
  if second ≠ 0 then { key with fourth := fourth, third := third, second := second } else
  let type := key.type + 1
  if type ≠ 0 then { key with fourth := fourth, third := third, second := second, type := type }
  else
  let first := key.first + 1
  if first ≠ 0 then ⟨key.zone, first, type, second, third, fourth⟩
  else ⟨key.zone + 1, first, type, second, third, fourth⟩

/-- `scoutfs_key_dec`: the previous key, borrowing from `fourth` up to `zone`. -/
def scoutfsKeyDec (key : ScoutfsKey) : ScoutfsKey :=
  let fourth := key.fourth - 1
  if fourth ≠ 255 then { key with fourth := fourth } else
  let third := key.third - 1
  if third ≠ U64_MAX then { key with fourth := fourth, third := third } else
  let second := key.second - 1
  if second ≠ U64_MAX then { key with fourth := fourth, third := third, second := second } else
  let type := key.type - 1
  if type ≠ 255 then { key with fourth := fourth, third := third, second := second, type := type }
  else
  let first := key.first - 1
  if first ≠ U64_MAX then ⟨key.zone, first, type, second, third, fourth⟩
  else ⟨key.zone - 1, first, type, second, third, fourth⟩

namespace ScoutfsKey

/-- The fields as a lexicographic tuple of naturals, most significant first. -/
def fields (k : ScoutfsKey) : ℕ ×ₗ ℕ ×ₗ ℕ ×ₗ ℕ ×ₗ ℕ ×ₗ ℕ :=
  toLex (k.zone.toNat, toLex (k.first.toNat, toLex (k.type.toNat,
    toLex (k.second.toNat, toLex (k.third.toNat, k.fourth.toNat)))))

theorem fields_injective : Function.Injective fields := by
  rintro ⟨a1, a2, a3, a4, a5, a6⟩ ⟨b1, b2, b3, b4, b5, b6⟩ h
  simp only [fields, EmbeddingLike.apply_eq_iff_eq, Prod.mk.injEq] at h
  obtain ⟨h1, h2, h3, h4, h5, h6⟩ := h
  simp only [mk.injEq]
  exact ⟨UInt8.toNat_inj.mp h1, UInt64.toNat_inj.mp h2, UInt8.toNat_inj.mp h3,
    UInt64.toNat_inj.mp h4, UInt64.toNat_inj.mp h5, UInt8.toNat_inj.mp h6⟩

theorem scoutfsCmp_uInt64 (a b : UInt64) : scoutfsCmp a b = compare a.toNat b.toNat := by
  simp only [scoutfsCmp, compare, compareOfLessAndEq, UInt64.lt_iff_toNat_lt]
  split_ifs <;> first | rfl | omega

theorem scoutfsCmp_uInt8 (a b : UInt8) : scoutfsCmp a b = compare a.toNat b.toNat := by
  simp only [scoutfsCmp, compare, compareOfLessAndEq, UInt8.lt_iff_toNat_lt]
  split_ifs <;> first | rfl | omega

/-- The source comparison is the lexicographic comparison of the fields. -/
theorem scoutfsKeyCompare_fields (a b : ScoutfsKey) :
    scoutfsKeyCompare a b = compare (fields a) (fields b) := by
  simp only [scoutfsKeyCompare, fields, Prod.Lex.compare_def, compareLex, compareOn,
    ofLex_toLex, scoutfsCmp_uInt64, scoutfsCmp_uInt8]

instance : Ord ScoutfsKey := ⟨scoutfsKeyCompare⟩

/-- Keys are ordered by `scoutfs_key_compare`. -/
instance : LinearOrder ScoutfsKey :=
  LinearOrder.liftWithOrd' fields fields_injective scoutfsKeyCompare_fields

theorem compare_eq (a b : ScoutfsKey) : compare a b = scoutfsKeyCompare a b := rfl

theorem lt_iff_fields {a b : ScoutfsKey} : a < b ↔ fields a < fields b := Iff.rfl

theorem le_iff_fields {a b : ScoutfsKey} : a ≤ b ↔ fields a ≤ fields b := Iff.rfl

@[simp] theorem scoutfsKeyCompare_eq_lt {a b : ScoutfsKey} : scoutfsKeyCompare a b = .lt ↔ a < b :=
  compare_lt_iff_lt (a := a) (b := b)

@[simp] theorem scoutfsKeyCompare_eq_gt {a b : ScoutfsKey} : scoutfsKeyCompare a b = .gt ↔ b < a :=
  compare_gt_iff_gt (a := a) (b := b)

@[simp] theorem scoutfsKeyCompare_eq_eq {a b : ScoutfsKey} : scoutfsKeyCompare a b = .eq ↔ a = b :=
  compare_eq_iff_eq (a := a) (b := b)

/-- The order of keys, field by field. -/
theorem le_iff {a b : ScoutfsKey} : a ≤ b ↔
    a.zone.toNat < b.zone.toNat ∨ a.zone.toNat = b.zone.toNat ∧
      (a.first.toNat < b.first.toNat ∨ a.first.toNat = b.first.toNat ∧
        (a.type.toNat < b.type.toNat ∨ a.type.toNat = b.type.toNat ∧
          (a.second.toNat < b.second.toNat ∨ a.second.toNat = b.second.toNat ∧
            (a.third.toNat < b.third.toNat ∨ a.third.toNat = b.third.toNat ∧
              a.fourth.toNat ≤ b.fourth.toNat)))) := by
  rw [le_iff_fields]
  simp only [fields, Prod.Lex.toLex_le_toLex]

theorem zone_le_of_le {a b : ScoutfsKey} (h : a ≤ b) : a.zone.toNat ≤ b.zone.toNat := by
  rw [le_iff] at h
  omega

end ScoutfsKey

/-! ### Keys as numbers -/

namespace ScoutfsKey

/-- The key as the number whose order is `scoutfs_key_compare`'s. -/
def toNat (k : ScoutfsKey) : ℕ :=
  ((((k.zone.toNat * 2 ^ 64 + k.first.toNat) * 2 ^ 8 + k.type.toNat) * 2 ^ 64 + k.second.toNat) *
    2 ^ 64 + k.third.toNat) * 2 ^ 8 + k.fourth.toNat

theorem le_iff_toNat {a b : ScoutfsKey} : a ≤ b ↔ a.toNat ≤ b.toNat := by
  have := a.first.toNat_lt
  have := a.second.toNat_lt
  have := a.third.toNat_lt
  have := a.type.toNat_lt
  have := a.fourth.toNat_lt
  have := b.first.toNat_lt
  have := b.second.toNat_lt
  have := b.third.toNat_lt
  have := b.type.toNat_lt
  have := b.fourth.toNat_lt
  rw [le_iff]
  simp only [toNat]
  omega

theorem lt_iff_toNat {a b : ScoutfsKey} : a < b ↔ a.toNat < b.toNat := by
  rw [← not_le, le_iff_toNat, not_le]

theorem toNat_lt (k : ScoutfsKey) : k.toNat < 2 ^ 216 := by
  have := k.first.toNat_lt
  have := k.second.toNat_lt
  have := k.third.toNat_lt
  have := k.type.toNat_lt
  have := k.fourth.toNat_lt
  have := k.zone.toNat_lt
  simp only [toNat]
  omega

/-- A key is its number. -/
theorem toNat_inj {a b : ScoutfsKey} (h : a.toNat = b.toNat) : a = b :=
  le_antisymm (le_iff_toNat.mpr h.le) (le_iff_toNat.mpr h.ge)

theorem toNat_zeros : scoutfsKeySetZeros.toNat = 0 := by decide

theorem toNat_ones : scoutfsKeySetOnes.toNat = 2 ^ 216 - 1 := by decide

theorem zeros_le (k : ScoutfsKey) : scoutfsKeySetZeros ≤ k := by
  rw [le_iff_toNat]
  exact Nat.zero_le _

theorem le_ones (k : ScoutfsKey) : k ≤ scoutfsKeySetOnes := by
  have := k.toNat_lt
  rw [le_iff_toNat, toNat_ones]
  omega

end ScoutfsKey

/-- `scoutfs_key_inc` adds one to the key's number, wrapping at the greatest key. -/
theorem toNat_scoutfsKeyInc (k : ScoutfsKey) :
    (scoutfsKeyInc k).toNat = (k.toNat + 1) % 2 ^ 216 := by
  obtain ⟨z, f, t, s, th, fo⟩ := k
  have := f.toNat_lt
  have := s.toNat_lt
  have := th.toNat_lt
  have := t.toNat_lt
  have := fo.toNat_lt
  have := z.toNat_lt
  -- each carry test of the source is a test on the field's number
  simp only [scoutfsKeyInc, ne_eq, ← UInt8.toNat_inj, ← UInt64.toNat_inj, UInt8.toNat_add,
    UInt64.toNat_add, UInt8.toNat_one, UInt64.toNat_one, UInt8.toNat_zero, UInt64.toNat_zero]
  split_ifs <;> simp only [ScoutfsKey.toNat, UInt8.toNat_add, UInt64.toNat_add, UInt8.toNat_one,
    UInt64.toNat_one] <;> omega

/-- `scoutfs_key_dec` takes one from the key's number, wrapping at the least key. -/
theorem toNat_scoutfsKeyDec (k : ScoutfsKey) :
    (scoutfsKeyDec k).toNat = (k.toNat + (2 ^ 216 - 1)) % 2 ^ 216 := by
  obtain ⟨z, f, t, s, th, fo⟩ := k
  have := f.toNat_lt
  have := s.toNat_lt
  have := th.toNat_lt
  have := t.toNat_lt
  have := fo.toNat_lt
  have := z.toNat_lt
  have hM : U64_MAX.toNat = 2 ^ 64 - 1 := rfl
  have h255 : (255 : UInt8).toNat = 255 := rfl
  simp only [scoutfsKeyDec, ne_eq, ← UInt8.toNat_inj, ← UInt64.toNat_inj, UInt8.toNat_sub,
    UInt64.toNat_sub, UInt8.toNat_one, UInt64.toNat_one, hM, h255]
  split_ifs <;> simp only [ScoutfsKey.toNat, UInt8.toNat_sub, UInt64.toNat_sub, UInt8.toNat_one,
    UInt64.toNat_one] <;> omega

/-- Below a key that is not the greatest, the keys before its successor are those up to it. -/
theorem lt_scoutfsKeyInc_iff {k b x : ScoutfsKey} (h : k < b) : x < scoutfsKeyInc k ↔ x ≤ k := by
  have := b.toNat_lt
  rw [ScoutfsKey.lt_iff_toNat] at h ⊢
  rw [ScoutfsKey.le_iff_toNat, toNat_scoutfsKeyInc]
  omega

theorem lt_scoutfsKeyInc {k b : ScoutfsKey} (h : k < b) : k < scoutfsKeyInc k :=
  (lt_scoutfsKeyInc_iff h).mpr le_rfl

/-- The successor of a key other than the greatest is its number plus one. -/
theorem toNat_scoutfsKeyInc_of_ne {k : ScoutfsKey} (h : k ≠ scoutfsKeySetOnes) :
    (scoutfsKeyInc k).toNat = k.toNat + 1 := by
  have hle := ScoutfsKey.le_iff_toNat.mp k.le_ones
  have hne : k.toNat ≠ scoutfsKeySetOnes.toNat := fun heq => h (ScoutfsKey.toNat_inj heq)
  rw [ScoutfsKey.toNat_ones] at hle hne
  rw [toNat_scoutfsKeyInc, Nat.mod_eq_of_lt (by omega)]

/-- The predecessor of a key other than the least is its number minus one. -/
theorem toNat_scoutfsKeyDec_of_ne {k : ScoutfsKey} (h : k ≠ scoutfsKeySetZeros) :
    (scoutfsKeyDec k).toNat = k.toNat - 1 := by
  have hne : k.toNat ≠ 0 := fun heq =>
    h (ScoutfsKey.toNat_inj (heq.trans ScoutfsKey.toNat_zeros.symm))
  have := k.toNat_lt
  rw [toNat_scoutfsKeyDec]
  omega

/-- **`scoutfs_key_inc` and `scoutfs_key_dec` are successor and predecessor** in
`scoutfs_key_compare` order: a key other than the greatest sorts right before its increment,
with no key between them, and the decrement of the increment is the key again; likewise a key
other than the least sorts right after its decrement. -/
theorem scoutfsKeyInc_succ_scoutfsKeyDec_pred :
    (∀ k, k ≠ scoutfsKeySetOnes →
      scoutfsKeyCompare k (scoutfsKeyInc k) = .lt ∧
        (∀ x, ¬(scoutfsKeyCompare k x = .lt ∧ scoutfsKeyCompare x (scoutfsKeyInc k) = .lt)) ∧
        scoutfsKeyDec (scoutfsKeyInc k) = k) ∧
    (∀ k, k ≠ scoutfsKeySetZeros →
      scoutfsKeyCompare (scoutfsKeyDec k) k = .lt ∧
        (∀ x, ¬(scoutfsKeyCompare (scoutfsKeyDec k) x = .lt ∧ scoutfsKeyCompare x k = .lt)) ∧
        scoutfsKeyInc (scoutfsKeyDec k) = k) := by
  -- every comparison is one of the keys' numbers, and the steps add or take one
  simp only [ScoutfsKey.scoutfsKeyCompare_eq_lt, ScoutfsKey.lt_iff_toNat]
  refine ⟨fun k hk => ?_, fun k hk => ?_⟩
  · have hinc := toNat_scoutfsKeyInc_of_ne hk
    have := k.toNat_lt
    refine ⟨by omega, fun x ⟨h₁, h₂⟩ => by omega, ScoutfsKey.toNat_inj ?_⟩
    rw [toNat_scoutfsKeyDec, hinc]
    omega
  · have hdec := toNat_scoutfsKeyDec_of_ne hk
    have hne : k.toNat ≠ 0 := fun heq =>
      hk (ScoutfsKey.toNat_inj (heq.trans ScoutfsKey.toNat_zeros.symm))
    have := k.toNat_lt
    refine ⟨by omega, fun x ⟨h₁, h₂⟩ => by omega, ScoutfsKey.toNat_inj ?_⟩
    rw [toNat_scoutfsKeyInc, hdec]
    omega

theorem scoutfsKeyInc_zeros_scoutfsKeyDec_ones :
    scoutfsKeyDec (scoutfsKeyInc scoutfsKeySetZeros) = scoutfsKeySetZeros ∧
      scoutfsKeyInc (scoutfsKeyDec scoutfsKeySetOnes) = scoutfsKeySetOnes :=
  ⟨(scoutfsKeyInc_succ_scoutfsKeyDec_pred.1 _ (by decide)).2.2,
    (scoutfsKeyInc_succ_scoutfsKeyDec_pred.2 _ (by decide)).2.2⟩

end Scoutfs
