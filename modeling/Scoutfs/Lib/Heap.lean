/-
Heapsort of an array given as a function from places to entries, in the form of the kernel's
`sort()`: the places `[0, n)` are made a heap by sifting down every parent from the last one,
then the root, the greatest entry, is exchanged with the last place of the heap and the heap,
one place shorter, is sifted down from its root again.

`cmp` compares two entries.  The theorems assume that it compares them by a key in a linear
order (`∀ x y, cmp x y = compare (key x) (key y)`):

* `siftDown_spec`: a sift-down from a place whose subtrees are heaps makes a heap;
* `heapify_spec`: the heapify loop makes a heap of `[0, n)`;
* `sortPriv_spec`: the sort permutes the places `[0, n)` and leaves their keys in
  nondecreasing order.

Nothing here names the filesystem.
-/
import Mathlib.Data.Nat.Init
import Mathlib.Logic.Equiv.Basic
import Mathlib.Order.Basic
import Mathlib.Order.Lattice

namespace Heapsort

section Loops

variable {α : Type} (cmp : α → α → Ordering)

/-- Exchange the entries of places `i` and `j`. -/
def swapAt (a : ℕ → α) (i j : ℕ) : ℕ → α := a ∘ Equiv.swap i j

/-- The child of `r` that the sift-down compares `r` with: the second child when it is in the
heap `[0, n)` and the first child compares below it, the first child otherwise. -/
def bigChild (a : ℕ → α) (n r : ℕ) : ℕ :=
  if 2 * r + 2 < n ∧ cmp (a (2 * r + 1)) (a (2 * r + 2)) = .lt then 2 * r + 2 else 2 * r + 1

theorem bigChild_gt (a : ℕ → α) (n r : ℕ) : r < bigChild cmp a n r := by
  unfold bigChild
  split <;> omega

/-- The sift-down loop of the heap `[0, n)` from place `r`: while `r` has a child, stop when
`r`'s entry does not compare below its bigger child, and exchange the two otherwise. -/
def siftDown (a : ℕ → α) (n r : ℕ) : ℕ → α :=
  if 2 * r + 1 < n then
    if cmp (a r) (a (bigChild cmp a n r)) ≠ .lt then a
    else siftDown (swapAt a r (bigChild cmp a n r)) n (bigChild cmp a n r)
  else a
termination_by n - r
decreasing_by have := bigChild_gt cmp a n r; omega

/-- The heapify loop: sift the heap `[0, n)` down from the places `k - 1` down to `0`. -/
def heapify (n : ℕ) : ℕ → (ℕ → α) → ℕ → α
  | 0, a => a
  | k + 1, a => heapify n k (siftDown cmp a n k)

/-- The sort loop: exchange the root with the last place `i + 1` of the heap `[0, i + 2)` and
sift the heap `[0, i + 1)` down from its root, for the last places down to `1`. -/
def sortLoop : ℕ → (ℕ → α) → ℕ → α
  | 0, a => a
  | i + 1, a => sortLoop i (siftDown cmp (swapAt a 0 (i + 1)) (i + 1) 0)

/-- The sort of the entries of `[0, num)`. -/
def sortPriv (a : ℕ → α) (num : ℕ) : ℕ → α :=
  sortLoop cmp (num - 1) (heapify cmp num (num / 2) a)

end Loops

/-! ### Permutations of a prefix -/

section Perm

variable {α : Type}

/-- `b` is `a` with the places `[0, n)` permuted among themselves. -/
def PermBelow (n : ℕ) (a b : ℕ → α) : Prop :=
  ∃ σ : Equiv.Perm ℕ, (∀ x, n ≤ x → σ x = x) ∧ b = a ∘ σ

theorem PermBelow.refl (n : ℕ) (a : ℕ → α) : PermBelow n a a :=
  ⟨Equiv.refl ℕ, fun _ _ => rfl, rfl⟩

theorem PermBelow.trans {n : ℕ} {a b c : ℕ → α} (hab : PermBelow n a b)
    (hbc : PermBelow n b c) : PermBelow n a c := by
  obtain ⟨σ, hσ, rfl⟩ := hab
  obtain ⟨τ, hτ, rfl⟩ := hbc
  refine ⟨τ.trans σ, fun x hx => ?_, rfl⟩
  rw [Equiv.trans_apply, hτ x hx, hσ x hx]

theorem PermBelow.mono {n m : ℕ} {a b : ℕ → α} (h : PermBelow n a b) (hnm : n ≤ m) :
    PermBelow m a b := by
  obtain ⟨σ, hσ, rfl⟩ := h
  exact ⟨σ, fun x hx => hσ x (by omega), rfl⟩

theorem permBelow_swapAt {n i j : ℕ} (a : ℕ → α) (hi : i < n) (hj : j < n) :
    PermBelow n a (swapAt a i j) :=
  ⟨Equiv.swap i j, fun x hx => Equiv.swap_apply_of_ne_of_ne (by omega) (by omega), rfl⟩

/-- Places past `n` keep their entries. -/
theorem PermBelow.apply_of_le {n x : ℕ} {a b : ℕ → α} (h : PermBelow n a b) (hx : n ≤ x) :
    b x = a x := by
  obtain ⟨σ, hσ, rfl⟩ := h
  rw [Function.comp_apply, hσ x hx]

/-- An entry of a place of `[0, n)` was the entry of a place of `[0, n)`. -/
theorem PermBelow.exists_of_lt {n x : ℕ} {a b : ℕ → α} (h : PermBelow n a b) (hx : x < n) :
    ∃ y < n, b x = a y := by
  obtain ⟨σ, hσ, rfl⟩ := h
  refine ⟨σ x, ?_, rfl⟩
  by_contra hy
  have := hσ (σ x) (by omega)
  rw [σ.injective this] at hy
  exact hy hx

end Perm

/-! ### Heaps -/

section Spec

variable {α β : Type} [LinearOrder β] {cmp : α → α → Ordering} {key : α → β}

/-- The parent of a place `c > 0`. -/
def parent (c : ℕ) : ℕ := (c - 1) / 2

theorem parent_lt {c : ℕ} (hc : 0 < c) : parent c < c := by
  unfold parent; omega

theorem parent_child_iff {c r : ℕ} (hc : 0 < c) :
    parent c = r ↔ c = 2 * r + 1 ∨ c = 2 * r + 2 := by
  unfold parent; omega

/-- Every entry of `[0, n)` whose parent is at or after `i` is not above its parent. -/
def HeapFrom (key : α → β) (a : ℕ → α) (n i : ℕ) : Prop :=
  ∀ c, 0 < c → c < n → i ≤ parent c → key (a c) ≤ key (a (parent c))

/-- During the sift-down from `i`: the heap order holds but at the children of the place `r`
reached, and those children are not above `r`'s parent. -/
structure SiftInv (key : α → β) (a : ℕ → α) (n i r : ℕ) : Prop where
  le : i ≤ r
  except : ∀ c, 0 < c → c < n → i ≤ parent c → parent c ≠ r → key (a c) ≤ key (a (parent c))
  grand : 0 < r → i ≤ parent r →
    ∀ c, 0 < c → c < n → parent c = r → key (a c) ≤ key (a (parent r))

/-- A heap from `i + 1` is ready for the sift-down from `i`. -/
theorem HeapFrom.siftInv {a : ℕ → α} {n i : ℕ} (h : HeapFrom key a n (i + 1)) :
    SiftInv key a n i i where
  le := Nat.le_refl i
  except c hc hcn hi hne := h c hc hcn (by omega)
  grand hi hpi := absurd hpi (by have := parent_lt hi; omega)

/-- The root is the greatest entry of a heap. -/
theorem HeapFrom.le_root {a : ℕ → α} {n : ℕ} (h : HeapFrom key a n 0) :
    ∀ x, x < n → key (a x) ≤ key (a 0) := by
  intro x
  induction x using Nat.strong_induction_on with
  | _ x ih =>
    intro hx
    rcases Nat.eq_zero_or_pos x with rfl | hpos
    · exact le_rfl
    · have hp := parent_lt hpos
      exact (h x hpos hx (Nat.zero_le _)).trans (ih _ hp (by omega))

variable (hcmp : ∀ x y, cmp x y = compare (key x) (key y))
include hcmp

theorem cmp_eq_lt {x y : α} : cmp x y = .lt ↔ key x < key y := by
  rw [hcmp, compare_lt_iff_lt]

/-- The bigger child is a child of `r` and no child of `r` is above it. -/
theorem bigChild_spec {a : ℕ → α} {n r : ℕ} (hr : 2 * r + 1 < n) :
    0 < bigChild cmp a n r ∧ bigChild cmp a n r < n ∧ parent (bigChild cmp a n r) = r ∧
      ∀ c, 0 < c → c < n → parent c = r → key (a c) ≤ key (a (bigChild cmp a n r)) := by
  unfold bigChild
  split_ifs with h
  · -- the second child is in the heap and above the first
    rw [cmp_eq_lt hcmp] at h
    refine ⟨by omega, h.1, by unfold parent; omega, fun c hc hcn hpc => ?_⟩
    rcases (parent_child_iff hc).1 hpc with rfl | rfl
    · exact h.2.le
    · exact le_rfl
  · rw [cmp_eq_lt hcmp, not_and, not_lt] at h
    refine ⟨by omega, hr, by unfold parent; omega, fun c hc hcn hpc => ?_⟩
    rcases (parent_child_iff hc).1 hpc with rfl | rfl
    · exact le_rfl
    · exact h hcn

/-- Exchanging `r` with its bigger child when that child is above it moves the exception to
the child. -/
theorem SiftInv.swap {a : ℕ → α} {n i r : ℕ} (I : SiftInv key a n i r) (hr : 2 * r + 1 < n)
    (hlt : key (a r) < key (a (bigChild cmp a n r))) :
    SiftInv key (swapAt a r (bigChild cmp a n r)) n i (bigChild cmp a n r) := by
  obtain ⟨hc0, hcn, hpc, hmax⟩ := bigChild_spec hcmp (a := a) hr
  generalize bigChild cmp a n r = c at hc0 hcn hpc hmax hlt ⊢
  have hrc : r < c := by have := parent_lt hc0; omega
  -- the entries of the places other than `r` and `c` stay
  have hsw : ∀ x, x ≠ r → x ≠ c → swapAt a r c x = a x := fun x hxr hxc => by
    rw [swapAt, Function.comp_apply, Equiv.swap_apply_of_ne_of_ne hxr hxc]
  have hsr : swapAt a r c r = a c := by rw [swapAt, Function.comp_apply, Equiv.swap_apply_left]
  have hsc : swapAt a r c c = a r := by rw [swapAt, Function.comp_apply, Equiv.swap_apply_right]
  have hic : i ≤ c := by have := I.le; omega
  refine ⟨hic, fun x hx hxn hix hxc => ?_, fun _ _ x hx hxn hpx => ?_⟩
  · by_cases hpr : parent x = r
    · -- a child of `r`: `c` itself, or its sibling
      rw [hpr, hsr]
      by_cases hxc' : x = c
      · rw [hxc', hsc]; exact hlt.le
      · rw [hsw x (by have := parent_lt hx; omega) hxc']; exact hmax x hx hxn hpr
    · by_cases hxr : x = r
      · -- `r` itself: its new entry is `c`'s, not above `r`'s parent
        have hpr' := parent_lt (show 0 < r by omega)
        rw [hxr, hsr, hsw _ (by omega) (by omega)]
        rw [hxr] at hix
        exact I.grand (by omega) hix c hc0 hcn hpc
      · have hxc'' : x ≠ c := fun e => hpr (e ▸ hpc)
        rw [hsw x hxr hxc'', hsw _ hpr hxc]
        exact I.except x hx hxn hix hpr
  · -- the children of `c` are not above `c`'s old entry, now at `r`
    rw [hpc, hsr, hsw x (by have := parent_lt hx; omega) (by have := parent_lt hx; omega)]
    have := I.except x hx hxn (by rw [hpx]; exact hic) (by rw [hpx]; omega)
    rwa [hpx] at this

/-- Stopping at `r` when its bigger child is not above it, or when it has no child, leaves a
heap. -/
theorem SiftInv.stop {a : ℕ → α} {n i r : ℕ} (I : SiftInv key a n i r)
    (hstop : 2 * r + 1 < n → key (a (bigChild cmp a n r)) ≤ key (a r)) : HeapFrom key a n i := by
  intro x hx hxn hix
  by_cases hpr : parent x = r
  · have hr : 2 * r + 1 < n := by have := (parent_child_iff hx).1 hpr; omega
    rw [hpr]
    exact ((bigChild_spec hcmp hr).2.2.2 x hx hxn hpr).trans (hstop hr)
  · exact I.except x hx hxn hix hpr

/-- The sift-down ends in a heap from `i`, with the places permuted. -/
theorem siftDown_spec {a : ℕ → α} {n i r : ℕ} (I : SiftInv key a n i r) :
    HeapFrom key (siftDown cmp a n r) n i ∧ PermBelow n a (siftDown cmp a n r) := by
  induction a, r using siftDown.induct cmp n with
  | case1 a r hr hstop =>
    rw [siftDown, if_pos hr, if_pos hstop]
    rw [ne_eq, cmp_eq_lt hcmp, not_lt] at hstop
    exact ⟨I.stop hcmp fun _ => hstop, PermBelow.refl n a⟩
  | case2 a r hr hlt ih =>
    rw [siftDown, if_pos hr, if_neg hlt]
    rw [not_not, cmp_eq_lt hcmp] at hlt
    obtain ⟨-, hcn, -⟩ := bigChild_spec hcmp (a := a) hr
    have hrn : r < n := by omega
    obtain ⟨hheap, hperm⟩ := ih (I.swap hcmp hr hlt)
    exact ⟨hheap, (permBelow_swapAt a hrn hcn).trans hperm⟩
  | case3 a r hr =>
    rw [siftDown, if_neg hr]
    exact ⟨I.stop hcmp fun h => absurd h hr, PermBelow.refl n a⟩

/-- The heapify loop from `k` makes a heap of `[0, n)` from one from `k`. -/
theorem heapify_spec {n : ℕ} :
    ∀ k (a : ℕ → α), HeapFrom key a n k →
      HeapFrom key (heapify cmp n k a) n 0 ∧ PermBelow n a (heapify cmp n k a)
  | 0, a, h => ⟨h, PermBelow.refl n a⟩
  | k + 1, a, h => by
    obtain ⟨hheap, hperm⟩ := siftDown_spec hcmp h.siftInv
    obtain ⟨hheap', hperm'⟩ := heapify_spec k _ hheap
    exact ⟨hheap', hperm.trans hperm'⟩

omit hcmp in
/-- No place of `[0, n)` has its parent at or after `n / 2`. -/
theorem heapFrom_half (a : ℕ → α) (n : ℕ) : HeapFrom key a n (n / 2) := by
  intro c hc hcn hpc
  unfold parent at hpc
  omega

/-- The sort loop's invariant with the heap `[0, k)`: the places `[k, n)` hold the greatest
entries in nondecreasing order. -/
structure SortInv (key : α → β) (a : ℕ → α) (n k : ℕ) : Prop where
  heap : HeapFrom key a k 0
  sorted : ∀ x y, k ≤ x → x ≤ y → y < n → key (a x) ≤ key (a y)
  bound : ∀ x y, x < k → k ≤ y → y < n → key (a x) ≤ key (a y)

omit hcmp in
/-- Exchanging the root with the last place of the heap and sifting the shorter heap keeps
the invariant. -/
theorem SortInv.step {a : ℕ → α} {n i : ℕ} (I : SortInv key a n (i + 2))
    {b : ℕ → α} (hb : HeapFrom key b (i + 1) 0)
    (hperm : PermBelow (i + 1) (swapAt a 0 (i + 1)) b) : SortInv key b n (i + 1) := by
  have hroot := I.heap.le_root
  have hsw0 : swapAt a 0 (i + 1) (i + 1) = a 0 := by
    rw [swapAt, Function.comp_apply, Equiv.swap_apply_right]
  -- past the heap, `b` is the exchanged array
  have hhigh : ∀ y, i + 1 ≤ y → b y = swapAt a 0 (i + 1) y := fun y hy => hperm.apply_of_le hy
  have hswy : ∀ y, i + 2 ≤ y → swapAt a 0 (i + 1) y = a y := fun y hy => by
    rw [swapAt, Function.comp_apply, Equiv.swap_apply_of_ne_of_ne (by omega) (by omega)]
  -- every entry of the heap `[0, i + 1)` of `b` was an entry of the heap `[0, i + 2)` of `a`
  have hlow : ∀ x, x < i + 1 → ∃ w < i + 2, b x = a w := by
    intro x hx
    obtain ⟨z, hz, hbz⟩ := hperm.exists_of_lt hx
    rw [hbz, swapAt, Function.comp_apply]
    exact ⟨Equiv.swap 0 (i + 1) z, by rw [Equiv.swap_apply_def]; split_ifs <;> omega, rfl⟩
  refine ⟨hb, fun x y hx hxy hy => ?_, fun x y hx hy hyn => ?_⟩
  · rw [hhigh x hx, hhigh y (by omega)]
    rcases Nat.eq_or_lt_of_le hx with rfl | hx'
    · rw [hsw0]
      rcases Nat.eq_or_lt_of_le hxy with rfl | hxy'
      · rw [hsw0]
      · rw [hswy y (by omega)]
        exact I.bound 0 y (by omega) (by omega) hy
    · rw [hswy x (by omega), hswy y (by omega)]
      exact I.sorted x y (by omega) hxy hy
  · obtain ⟨w, hw, hbw⟩ := hlow x hx
    rw [hbw, hhigh y hy]
    rcases Nat.eq_or_lt_of_le hy with rfl | hy'
    · rw [hsw0]
      exact hroot w hw
    · rw [hswy y (by omega)]
      exact I.bound w y hw (by omega) hyn

/-- The sort loop from the heap `[0, i + 1)` ends with `[0, n)` sorted. -/
theorem sortLoop_spec {n : ℕ} :
    ∀ i (a : ℕ → α), i + 1 ≤ n → SortInv key a n (i + 1) →
      PermBelow n a (sortLoop cmp i a) ∧
        ∀ x y, x ≤ y → y < n → key (sortLoop cmp i a x) ≤ key (sortLoop cmp i a y)
  | 0, a, _, I => by
    refine ⟨PermBelow.refl n a, fun x y hxy hy => ?_⟩
    rcases Nat.eq_zero_or_pos x with rfl | hx
    · rcases Nat.eq_zero_or_pos y with rfl | hy'
      · exact le_rfl
      · exact I.bound 0 y (by omega) hy' hy
    · exact I.sorted x y hx hxy hy
  | i + 1, a, hin, I => by
    have hsw : SiftInv key (swapAt a 0 (i + 1)) (i + 1) 0 0 := by
      refine ⟨Nat.le_refl 0, fun c hc hcn _ hpc => ?_, fun h => absurd h (Nat.lt_irrefl 0)⟩
      have hc' : c ≠ i + 1 := by omega
      have hc0 : c ≠ 0 := by omega
      rw [swapAt, Function.comp_apply, Function.comp_apply,
        Equiv.swap_apply_of_ne_of_ne hc0 hc',
        Equiv.swap_apply_of_ne_of_ne hpc (by have := parent_lt hc; omega)]
      exact I.heap c hc (by omega) (Nat.zero_le _)
    obtain ⟨hheap, hperm⟩ := siftDown_spec hcmp hsw
    have I' := I.step hheap hperm
    obtain ⟨hperm', hsorted⟩ := sortLoop_spec i _ (by omega) I'
    exact ⟨((permBelow_swapAt a (by omega) (by omega)).trans (hperm.mono (by omega))).trans
      hperm', hsorted⟩

/-- `sort_priv` permutes the places `[0, num)` and leaves their keys in nondecreasing
order. -/
theorem sortPriv_spec (a : ℕ → α) (num : ℕ) :
    PermBelow num a (sortPriv cmp a num) ∧
      ∀ x y, x ≤ y → y < num → key (sortPriv cmp a num x) ≤ key (sortPriv cmp a num y) := by
  obtain ⟨hheap, hperm⟩ := heapify_spec hcmp (num / 2) a (heapFrom_half a num : HeapFrom key a num (num / 2))
  rcases Nat.eq_zero_or_pos num with rfl | hnum
  · exact ⟨PermBelow.refl 0 a, fun x y _ hy => absurd hy (Nat.not_lt_zero y)⟩
  · -- the heap is all of `[0, num)`, and nothing is sorted yet
    have I : SortInv key (heapify cmp num (num / 2) a) num (num - 1 + 1) := by
      rw [Nat.sub_add_cancel hnum]
      exact ⟨hheap, fun x y hx hxy hy => absurd hy (by omega),
        fun x y hx hy hyn => absurd hyn (by omega)⟩
    obtain ⟨hperm', hsorted⟩ := sortLoop_spec hcmp (num - 1) _ (by omega) I
    exact ⟨hperm.trans hperm', hsorted⟩

end Spec

end Heapsort
