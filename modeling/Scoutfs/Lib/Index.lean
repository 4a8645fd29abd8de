/-
Finite sorted indexes: the searches and bookkeeping facts an index of keys needs.

* `Seek.seekGE s a` is the least element of `s` at or after `a`, the answer of an
  ordered index's "next" search; `seekGE_eq_some` and `seekGE_eq_none` say
  exactly when it returns what.
* `twoKeys f g E` is the key set of an index that stores every record of `E` under
  two keys; `twoKeys_insert` and `twoKeys_erase` say how it follows the records.
* `sum_len_le_of_disjoint` bounds the summed lengths of pairwise disjoint
  intervals inside `[0, N)` by `N`.
* `UInt64.toNat_sum_of_lt` reads a wrapping `u64` sum as the natural sum when the
  latter stays below `2 ^ 64`.

Nothing here names the filesystem; the allocator proofs use these at their
key and extent types.
-/
import Mathlib.Data.Finset.Max
import Mathlib.Data.Finset.Image
import Mathlib.Order.Interval.Finset.Nat
import Mathlib.Algebra.BigOperators.Group.Finset.Basic
import Mathlib.Data.UInt

namespace Seek

variable {α : Type} [LinearOrder α]

/-- The least element of `s` at or after `a`. -/
def seekGE (s : Finset α) (a : α) : Option α := (s.filter (a ≤ ·)).min

theorem seekGE_eq_some {s : Finset α} {a b : α} :
    seekGE s a = some b ↔ b ∈ s ∧ a ≤ b ∧ ∀ c ∈ s, a ≤ c → b ≤ c := by
  -- `Finset.min` lands in `WithTop α`, which is `Option α` underneath
  change (s.filter (a ≤ ·)).min = (b : WithTop α) ↔ _
  constructor
  · intro h
    have hb := Finset.mem_filter.mp (Finset.mem_of_min h)
    refine ⟨hb.1, hb.2, fun c hc hac => ?_⟩
    have hle := Finset.min_le (Finset.mem_filter.mpr ⟨hc, hac⟩)
    rw [h] at hle
    exact WithTop.coe_le_coe.mp hle
  · rintro ⟨hb, hab, hmin⟩
    apply le_antisymm
    · exact Finset.min_le (Finset.mem_filter.mpr ⟨hb, hab⟩)
    · apply Finset.le_min
      intro c hc
      rw [Finset.mem_filter] at hc
      exact WithTop.coe_le_coe.mpr (hmin c hc.1 hc.2)

example : seekGE ({1, 4, 9} : Finset ℕ) 5 = some 9 := by decide

theorem seekGE_eq_none {s : Finset α} {a : α} :
    seekGE s a = none ↔ ∀ c ∈ s, c < a := by
  change (s.filter (a ≤ ·)).min = ⊤ ↔ _
  rw [Finset.min_eq_top, Finset.filter_eq_empty_iff]
  simp only [not_le]

end Seek

/-! ### Records under two keys -/

section TwoKeys

variable {β κ : Type} [DecidableEq β] [DecidableEq κ] (f g : β → κ)

/-- The keys of an index that stores each record of `E` under `f` and under `g`. -/
def twoKeys (E : Finset β) : Finset κ := E.image f ∪ E.image g

theorem twoKeys_insert (E : Finset β) (e : β) :
    twoKeys f g (insert e E) = insert (g e) (insert (f e) (twoKeys f g E)) := by
  simp only [twoKeys, Finset.image_insert, Finset.insert_union, Finset.union_insert]

/-- No two records of `E` share a key, and no key is used by both indexes. -/
def KeysSeparate (E : Finset β) : Prop :=
  ∀ a ∈ E, ∀ b ∈ E, (f a = f b → a = b) ∧ (g a = g b → a = b) ∧ f a ≠ g b

theorem twoKeys_erase {E : Finset β} (h : KeysSeparate f g E) {e : β} (he : e ∈ E) :
    twoKeys f g (E.erase e) = ((twoKeys f g E).erase (f e)).erase (g e) := by
  ext k
  simp only [twoKeys, Finset.mem_union, Finset.mem_image, Finset.mem_erase]
  constructor
  · rintro (⟨a, ⟨hae, ha⟩, rfl⟩ | ⟨a, ⟨hae, ha⟩, rfl⟩)
    · obtain ⟨hf, -, hfg⟩ := h a ha e he
      exact ⟨hfg, fun hc => hae (hf hc), .inl ⟨a, ha, rfl⟩⟩
    · obtain ⟨-, hg, -⟩ := h a ha e he
      obtain ⟨-, -, hfg⟩ := h e he a ha
      exact ⟨fun hc => hae (hg hc), fun hc => hfg hc.symm, .inr ⟨a, ha, rfl⟩⟩
  · rintro ⟨hg, hf, ⟨a, ha, rfl⟩ | ⟨a, ha, rfl⟩⟩
    · exact .inl ⟨a, ⟨fun hc => hf (hc ▸ rfl), ha⟩, rfl⟩
    · exact .inr ⟨a, ⟨fun hc => hg (hc ▸ rfl), ha⟩, rfl⟩

end TwoKeys

/-! ### Packing intervals -/

/-- Pairwise disjoint intervals `[lo i, hi i)` that end by `N` have lengths summing to at
most `N`: their union is a set of at most `N` naturals. -/
theorem sum_len_le_of_disjoint {ι : Type} (s : Finset ι) (lo hi : ι → ℕ) (N : ℕ)
    (hbound : ∀ i ∈ s, hi i ≤ N)
    (hdisj : ∀ i ∈ s, ∀ j ∈ s, i ≠ j → hi i ≤ lo j ∨ hi j ≤ lo i) :
    ∑ i ∈ s, (hi i - lo i) ≤ N := by
  classical
  have hpair : (s : Set ι).PairwiseDisjoint fun i => Finset.Ico (lo i) (hi i) := by
    intro i hi' j hj hij
    rw [Function.onFun, Finset.disjoint_left]
    intro x hx hx'
    rw [Finset.mem_Ico] at hx hx'
    rcases hdisj i hi' j hj hij with h | h <;> omega
  calc ∑ i ∈ s, (hi i - lo i)
      = ∑ i ∈ s, (Finset.Ico (lo i) (hi i)).card := by simp only [Nat.card_Ico]
    _ = (s.biUnion fun i => Finset.Ico (lo i) (hi i)).card := (Finset.card_biUnion hpair).symm
    _ ≤ (Finset.range N).card := by
        apply Finset.card_le_card
        intro x hx
        simp only [Finset.mem_biUnion, Finset.mem_Ico] at hx
        obtain ⟨i, hi', _, hx⟩ := hx
        exact Finset.mem_range.mpr (lt_of_lt_of_le hx (hbound i hi'))
    _ = N := Finset.card_range N

/-! ### Wrapping sums -/

/-- A `u64` sum is the natural sum of its terms when that sum does not wrap. -/
theorem UInt64.toNat_sum_of_lt {ι : Type} (s : Finset ι) (f : ι → UInt64)
    (h : ∑ i ∈ s, (f i).toNat < 2 ^ 64) :
    (∑ i ∈ s, f i).toNat = ∑ i ∈ s, (f i).toNat := by
  classical
  induction s using Finset.induction_on with
  | empty => simp
  | insert a s ha ih =>
    rw [Finset.sum_insert ha] at h ⊢
    rw [Finset.sum_insert ha, UInt64.toNat_add, ih (by omega)]
    omega
