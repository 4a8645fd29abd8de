/-
What the read paths of the btree blocks do on a well-formed btree.

A well-formed subtree (`SubtreeWF`) reads back block by block at its level.  A leaf's items
lie in its key range.  A parent's items form a chain of child ranges (`ChildrenWF`): each
child holds the keys from just after the previous item's key up to its own item's key.
`subtreeItems` lists a subtree's items leaf after leaf, and `subtreeLeaves` its leaves with
the key ranges their parents give them.

* `walkLevel_leafAt` — the walk of `btree_walk` reaches one of the leaves, with that leaf's
  range, which holds the key; the tree's items split into those below the range, the
  leaf's own and those above it;
* `scoutfsBtreeReadItems_range` — `scoutfs_btree_read_items` narrows the caller's range to
  its intersection with the leaf's, and calls back, in key order, for exactly the tree's
  items in it.
-/
import Scoutfs.BtreeBlocks
import Scoutfs.Lib.SortedList
import Mathlib.Data.List.TakeDrop
import Mathlib.Data.List.TakeWhile

namespace Scoutfs

namespace Btree

/-! ### Chains of child ranges -/

/-- Where the range of the child after the items `l` starts: just after the last of their
keys, or at `lo` when there are none. -/
def chainLo {α : Type} (lo : ScoutfsKey) (l : List (ScoutfsKey × α)) : ScoutfsKey :=
  match l.getLast? with
  | some prev => scoutfsKeyInc prev.1
  | none => lo

/-- A parent's items as a chain of child ranges: the child under the item with key `k` holds
the keys from `lo` up to `k`, the next child's range starts just after `k`, and every key is
at most `hi`. -/
def ChildrenWF (P : ScoutfsBlockRef → ScoutfsKey → ScoutfsKey → Prop) :
    ScoutfsKey → List (ScoutfsKey × ScoutfsBtreeItem) → ScoutfsKey → Prop
  | _, [], _ => True
  | lo, (k, v) :: rest, hi =>
    lo ≤ k ∧ k ≤ hi ∧ P (blockRefOfVal v.val) lo k ∧ ChildrenWF P (scoutfsKeyInc k) rest hi

/-- The children's leaves, each child with the range the chain gives it. -/
def childrenLeaves {α : Type} (f : ScoutfsBlockRef → ScoutfsKey → ScoutfsKey → List α) :
    ScoutfsKey → List (ScoutfsKey × ScoutfsBtreeItem) → List α
  | _, [] => []
  | lo, (k, v) :: rest => f (blockRefOfVal v.val) lo k ++ childrenLeaves f (scoutfsKeyInc k) rest

theorem chainLo_nil {α : Type} (lo : ScoutfsKey) : chainLo lo ([] : List (ScoutfsKey × α)) = lo :=
  rfl

theorem chainLo_cons {α : Type} (lo k : ScoutfsKey) (v : α) (l : List (ScoutfsKey × α)) :
    chainLo lo ((k, v) :: l) = chainLo (scoutfsKeyInc k) l := by
  cases hl : l.getLast? with
  | none =>
    rw [List.getLast?_eq_none_iff] at hl
    subst hl
    rfl
  | some p => simp [chainLo, List.getLast?_cons, hl]

theorem childrenWF_append {P : ScoutfsBlockRef → ScoutfsKey → ScoutfsKey → Prop}
    {hi : ScoutfsKey} :
    ∀ {lo : ScoutfsKey} {l₁ l₂ : List (ScoutfsKey × ScoutfsBtreeItem)},
      ChildrenWF P lo (l₁ ++ l₂) hi ↔ ChildrenWF P lo l₁ hi ∧ ChildrenWF P (chainLo lo l₁) l₂ hi
  | lo, [], l₂ => by simp [ChildrenWF, chainLo_nil]
  | lo, (k, v) :: l₁, l₂ => by
    rw [List.cons_append, ChildrenWF, ChildrenWF, childrenWF_append, chainLo_cons, and_assoc,
      and_assoc, and_assoc]

theorem childrenLeaves_append {α : Type} (f : ScoutfsBlockRef → ScoutfsKey → ScoutfsKey → List α) :
    ∀ (lo : ScoutfsKey) (l₁ l₂ : List (ScoutfsKey × ScoutfsBtreeItem)),
      childrenLeaves f lo (l₁ ++ l₂) = childrenLeaves f lo l₁ ++ childrenLeaves f (chainLo lo l₁) l₂
  | lo, [], l₂ => by simp [childrenLeaves, chainLo_nil]
  | lo, (k, v) :: l₁, l₂ => by
    rw [List.cons_append, childrenLeaves, childrenLeaves, childrenLeaves_append, chainLo_cons,
      List.append_assoc]

/-- An item of a chained parent reaches a child whose range lies in the parent's. -/
theorem ChildrenWF.exists_of_mem {P : ScoutfsBlockRef → ScoutfsKey → ScoutfsKey → Prop}
    {hi : ScoutfsKey} :
    ∀ {lo : ScoutfsKey} {l : List (ScoutfsKey × ScoutfsBtreeItem)}, ChildrenWF P lo l hi →
      l.Pairwise (fun a b => a.1 < b.1) → ∀ {p}, p ∈ l →
        ∃ lo', lo ≤ lo' ∧ lo' ≤ p.1 ∧ p.1 ≤ hi ∧ P (blockRefOfVal p.2.val) lo' p.1
  | _, [], _, _, _, hp => absurd hp List.not_mem_nil
  | lo, (k, v) :: rest, h, hs, p, hp => by
    obtain ⟨hlo, hk, hP, hrest⟩ := h
    rw [List.pairwise_cons] at hs
    rcases List.mem_cons.mp hp with rfl | hp
    · exact ⟨lo, le_rfl, hlo, hk, hP⟩
    · -- a later item's range starts after `k`, which is below that item's key
      obtain ⟨lo', hlo', hle, hhi, hP'⟩ := ChildrenWF.exists_of_mem hrest hs.2 hp
      have hinc : k < scoutfsKeyInc k := lt_scoutfsKeyInc (hs.1 p hp)
      exact ⟨lo', hlo.trans (hinc.le.trans hlo'), hle, hhi, hP'⟩

/-- The range after a run of items starts above each of their keys. -/
theorem lt_chainLo {α : Type} {l : List (ScoutfsKey × α)} (hs : l.Pairwise (fun a b => a.1 < b.1))
    {b : ScoutfsKey} (hb : ∀ x ∈ l, x.1 < b) (lo : ScoutfsKey) : ∀ p ∈ l, p.1 < chainLo lo l := by
  intro p hp
  cases hl : l.getLast? with
  | none => simp [List.getLast?_eq_none_iff.mp hl] at hp
  | some last =>
    have hlast : last.1 < scoutfsKeyInc last.1 := lt_scoutfsKeyInc (hb last (List.mem_of_getLast? hl))
    simp only [chainLo, hl]
    obtain ⟨ys, rfl⟩ := List.getLast?_eq_some_iff.mp hl
    rw [List.pairwise_append] at hs
    rcases List.mem_append.mp hp with hp | hp
    · exact (hs.2.2 p hp last List.mem_cons_self).trans hlast
    · rw [List.mem_singleton.mp hp]
      exact hlast

/-- The range after a run of items at or above `lo` starts at or above `lo`. -/
theorem le_chainLo {α : Type} {l : List (ScoutfsKey × α)} {lo b : ScoutfsKey}
    (hlo : ∀ x ∈ l, lo ≤ x.1) (hb : ∀ x ∈ l, x.1 < b) : lo ≤ chainLo lo l := by
  unfold chainLo
  cases hl : l.getLast? with
  | none => exact le_rfl
  | some last =>
    have hmem := List.mem_of_getLast? hl
    exact (hlo last hmem).trans (lt_scoutfsKeyInc (hb last hmem)).le

/-- The range after a run of items below `key` starts at or below `key`. -/
theorem chainLo_le {α : Type} {l : List (ScoutfsKey × α)} {lo key : ScoutfsKey}
    (hlo : lo ≤ key) (hlt : ∀ x ∈ l, x.1 < key) : chainLo lo l ≤ key := by
  unfold chainLo
  cases hl : l.getLast? with
  | none => exact hlo
  | some last =>
    have hlast := hlt last (List.mem_of_getLast? hl)
    rw [← not_lt, lt_scoutfsKeyInc_iff hlast, not_le]
    exact hlast

/-- `searchSplit` cuts the items at the first one at or after the key. -/
theorem searchSplit_eq_some {items : List (ScoutfsKey × ScoutfsBtreeItem)} {key : ScoutfsKey}
    {before after : List (ScoutfsKey × ScoutfsBtreeItem)} {item : ScoutfsKey × ScoutfsBtreeItem}
    (h : searchSplit items key = some (before, item, after)) :
    items = before ++ item :: after ∧ (∀ x ∈ before, x.1 < key) ∧ key ≤ item.1 := by
  simp only [searchSplit, List.span_eq_takeWhile_dropWhile] at h
  cases hd : items.dropWhile (fun it => scoutfsKeyCompare key it.1 = .gt) with
  | nil =>
    rw [hd] at h
    cases h
  | cons item' after' =>
    rw [hd] at h
    simp only [Option.some.injEq, Prod.mk.injEq] at h
    obtain ⟨rfl, rfl, rfl⟩ := h
    refine ⟨by rw [← hd, List.takeWhile_append_dropWhile], fun x hx => ?_, ?_⟩
    · simpa using List.mem_takeWhile_imp hx
    · -- the first item kept by `dropWhile` fails its test
      have hhead : ∀ l', items.dropWhile (fun it => scoutfsKeyCompare key it.1 = .gt) = l' →
          ∀ hl : l' ≠ [], ¬ scoutfsKeyCompare key (l'.head hl).1 = .gt := by
        rintro l' rfl hl
        simpa using List.head_dropWhile_not
          (fun it : ScoutfsKey × ScoutfsBtreeItem => decide (scoutfsKeyCompare key it.1 = .gt)) hl
      simpa using hhead _ hd (List.cons_ne_nil _ _)

/-! ### Well-formed subtrees -/

/-- The subtree of the block of `ref` at `level` is well formed over the keys `[lo, hi]`: its
block reads back at its level, a leaf's items lie in the range, and a parent's items chain
well-formed child ranges. -/
def SubtreeWF (blocks : BtreeBlocks) : ℕ → ScoutfsBlockRef → ScoutfsKey → ScoutfsKey → Prop
  | 0, ref, lo, hi =>
    ∃ bt, getRefBlock blocks ref = .ok bt ∧ bt.level = 0 ∧ ∀ it ∈ bt.items, lo ≤ it.1 ∧ it.1 ≤ hi
  | level + 1, ref, lo, hi =>
    ∃ bt, getRefBlock blocks ref = .ok bt ∧ bt.level = level + 1 ∧
      ChildrenWF (SubtreeWF blocks level) lo bt.items hi

/-- A well-formed btree: empty, or its root's subtree holds all keys. -/
def BtreeWF (blocks : BtreeBlocks) (root : ScoutfsBtreeRoot) : Prop :=
  root.height ≠ 0 →
    SubtreeWF blocks (root.height - 1) root.ref scoutfsKeySetZeros scoutfsKeySetOnes

/-- The items of the subtree of `ref` at `level`, leaf after leaf. -/
def subtreeItems (blocks : BtreeBlocks) :
    ℕ → ScoutfsBlockRef → List (ScoutfsKey × ScoutfsBtreeItem)
  | 0, ref =>
    match getRefBlock blocks ref with
    | .ok bt => bt.items
    | .error _ => []
  | level + 1, ref =>
    match getRefBlock blocks ref with
    | .ok bt => bt.items.flatMap fun it => subtreeItems blocks level (blockRefOfVal it.2.val)
    | .error _ => []

/-- The leaves of the subtree of `ref` at `level` over `[lo, hi]`, with their key ranges. -/
def subtreeLeaves (blocks : BtreeBlocks) :
    ℕ → ScoutfsBlockRef → ScoutfsKey → ScoutfsKey →
      List (ScoutfsBtreeBlock × ScoutfsKey × ScoutfsKey)
  | 0, ref, lo, hi =>
    match getRefBlock blocks ref with
    | .ok bt => [(bt, lo, hi)]
    | .error _ => []
  | level + 1, ref, lo, _ =>
    match getRefBlock blocks ref with
    | .ok bt => childrenLeaves (subtreeLeaves blocks level) lo bt.items
    | .error _ => []

/-- The items of a btree. -/
def btreeItems (blocks : BtreeBlocks) (root : ScoutfsBtreeRoot) :
    List (ScoutfsKey × ScoutfsBtreeItem) :=
  if root.height = 0 then [] else subtreeItems blocks (root.height - 1) root.ref

/-- The leaves of a btree with their key ranges. -/
def btreeLeaves (blocks : BtreeBlocks) (root : ScoutfsBtreeRoot) :
    List (ScoutfsBtreeBlock × ScoutfsKey × ScoutfsKey) :=
  if root.height = 0 then []
  else subtreeLeaves blocks (root.height - 1) root.ref scoutfsKeySetZeros scoutfsKeySetOnes

variable {blocks : BtreeBlocks}

/-- A well-formed subtree's items lie in its range. -/
theorem subtreeItems_bounds :
    ∀ (level : ℕ) {ref : ScoutfsBlockRef} {lo hi : ScoutfsKey}, SubtreeWF blocks level ref lo hi →
      ∀ it ∈ subtreeItems blocks level ref, lo ≤ it.1 ∧ it.1 ≤ hi
  | 0, ref, lo, hi, ⟨bt, hbt, _, hin⟩ => by
    intro it hit
    rw [subtreeItems, hbt] at hit
    exact hin it hit
  | level + 1, ref, lo, hi, ⟨bt, hbt, _, hch⟩ => by
    intro it hit
    rw [subtreeItems, hbt, List.mem_flatMap] at hit
    obtain ⟨p, hp, hit⟩ := hit
    obtain ⟨lo', hlo', _, hhi, hP⟩ := hch.exists_of_mem bt.sorted hp
    have := subtreeItems_bounds level hP it hit
    exact ⟨hlo'.trans this.1, this.2.trans hhi⟩

/-- A chained parent's children hold their keys in the order of the parent's items. -/
theorem ChildrenWF.pairwise_children {P : ScoutfsBlockRef → ScoutfsKey → ScoutfsKey → Prop}
    {g : ScoutfsBlockRef → List (ScoutfsKey × ScoutfsBtreeItem)}
    (hP : ∀ r lo k, P r lo k → ∀ x ∈ g r, lo ≤ x.1 ∧ x.1 ≤ k) {hi : ScoutfsKey} :
    ∀ {lo : ScoutfsKey} {l : List (ScoutfsKey × ScoutfsBtreeItem)}, ChildrenWF P lo l hi →
      l.Pairwise (fun a b => a.1 < b.1) →
        l.Pairwise fun p q => ∀ x ∈ g (blockRefOfVal p.2.val), ∀ y ∈ g (blockRefOfVal q.2.val),
          x.1 < y.1
  | _, [], _, _ => List.Pairwise.nil
  | lo, (k, v) :: rest, h, hs => by
    obtain ⟨_, _, hP0, hrest⟩ := h
    rw [List.pairwise_cons] at hs ⊢
    refine ⟨fun q hq x hx y hy => ?_, ChildrenWF.pairwise_children hP hrest hs.2⟩
    -- the first child ends at `k`, every later child starts after it
    obtain ⟨lo', hlo', _, _, hPq⟩ := hrest.exists_of_mem hs.2 hq
    have hxk : x.1 ≤ k := (hP _ _ _ hP0 x hx).2
    have hy : lo' ≤ y.1 := (hP _ _ _ hPq y hy).1
    have hinc : k < scoutfsKeyInc k := lt_scoutfsKeyInc (hs.1 q hq)
    calc x.1 ≤ k := hxk
      _ < scoutfsKeyInc k := hinc
      _ ≤ y.1 := hlo'.trans hy

/-- A well-formed subtree's items are in key order. -/
theorem subtreeItems_sorted :
    ∀ (level : ℕ) {ref : ScoutfsBlockRef} {lo hi : ScoutfsKey}, SubtreeWF blocks level ref lo hi →
      (subtreeItems blocks level ref).Pairwise (fun a b => a.1 < b.1)
  | 0, ref, lo, hi, ⟨bt, hbt, _, _⟩ => by
    rw [subtreeItems, hbt]
    exact bt.sorted
  | level + 1, ref, lo, hi, ⟨bt, hbt, _, hch⟩ => by
    rw [subtreeItems, hbt, List.pairwise_flatMap]
    refine ⟨fun p hp => ?_,
      hch.pairwise_children (fun _ _ _ hr => subtreeItems_bounds level hr) bt.sorted⟩
    obtain ⟨_, _, _, _, hP⟩ := hch.exists_of_mem bt.sorted hp
    exact subtreeItems_sorted level hP

/-! ### The walk -/

variable {key : ScoutfsKey}

/-- What a walk that reached a leaf read at the bottom level. -/
theorem walkLevel_zero_ok {ref : ScoutfsBlockRef} {start «end» : ScoutfsKey}
    {r : ScoutfsBtreeBlock × ScoutfsKey × ScoutfsKey}
    (h : walkLevel blocks key 0 ref start «end» = .ok r) :
    ∃ bt, getRefBlock blocks ref = .ok bt ∧ r = (bt, start, «end») := by
  rw [walkLevel] at h
  cases hb : getRefBlock blocks ref with
  | error err =>
    rw [hb] at h
    cases h
  | ok bt =>
    rw [hb] at h
    by_cases hlev : bt.level ≠ 0
    · simp [bind, Except.bind, hlev] at h
    · simp only [bind, Except.bind, hlev, if_false, pure, Except.pure, Except.ok.injEq] at h
      exact ⟨bt, rfl, h.symm⟩

/-- What a walk that reached a leaf read at a parent level: the block of `ref`, the split of
its items at the key, and the walk from the child with the narrowed range. -/
theorem walkLevel_succ_ok {level : ℕ} {ref : ScoutfsBlockRef} {start «end» : ScoutfsKey}
    {r : ScoutfsBtreeBlock × ScoutfsKey × ScoutfsKey}
    (h : walkLevel blocks key (level + 1) ref start «end» = .ok r) :
    ∃ bt before item after, getRefBlock blocks ref = .ok bt ∧
      searchSplit bt.items key = some (before, item, after) ∧
      walkLevel blocks key level (blockRefOfVal item.2.val) (chainLo start before) item.1 =
        .ok r := by
  rw [walkLevel] at h
  cases hb : getRefBlock blocks ref with
  | error err =>
    rw [hb] at h
    cases h
  | ok bt =>
    rw [hb] at h
    by_cases hlev : bt.level ≠ level + 1
    · simp [bind, Except.bind, hlev] at h
    · simp only [bind, Except.bind, hlev, if_false] at h
      cases hs : searchSplit bt.items key with
      | none =>
        rw [hs] at h
        cases h
      | some split =>
        obtain ⟨before, item, after⟩ := split
        rw [hs] at h
        refine ⟨bt, before, item, after, rfl, hs, ?_⟩
        -- the walk's `prev_item` test is `chainLo`'s
        cases hl : before.getLast? with
        | none => simpa only [chainLo, hl] using h
        | some prev => simpa only [chainLo, hl] using h

/-- Where a walk ends in a subtree: at one of its leaves, whose range holds the key, with the
subtree's items split around the leaf's. -/
structure LeafAt (blocks : BtreeBlocks) (level : ℕ) (ref : ScoutfsBlockRef)
    (lo hi key : ScoutfsKey) (bt : ScoutfsBtreeBlock) (s e : ScoutfsKey) : Prop where
  mem : (bt, s, e) ∈ subtreeLeaves blocks level ref lo hi
  le_key : s ≤ key
  key_le : key ≤ e
  lo_le : lo ≤ s
  le_hi : e ≤ hi
  split : ∃ A B, subtreeItems blocks level ref = A ++ bt.items ++ B ∧ (∀ x ∈ A, x.1 < s) ∧
    ∀ x ∈ B, e < x.1

/-- The walk from a well-formed subtree, for a key in its range, ends at a leaf of it. -/
theorem walkLevel_leafAt (key : ScoutfsKey) :
    ∀ (level : ℕ) {ref : ScoutfsBlockRef} {lo hi s e : ScoutfsKey} {bt : ScoutfsBtreeBlock},
      SubtreeWF blocks level ref lo hi → lo ≤ key → key ≤ hi →
        walkLevel blocks key level ref lo hi = .ok (bt, s, e) → LeafAt blocks level ref lo hi key bt s e
  | 0, ref, lo, hi, s, e, bt, ⟨bt0, hbt, _, _⟩, hlo, hhi, h => by
    obtain ⟨bt1, hbt1, hr⟩ := walkLevel_zero_ok h
    rw [hbt, Except.ok.injEq] at hbt1
    subst hbt1
    simp only [Prod.mk.injEq] at hr
    obtain ⟨rfl, rfl, rfl⟩ := hr
    refine ⟨?_, hlo, hhi, le_rfl, le_rfl, ⟨[], [], ?_, by simp, by simp⟩⟩
    · rw [subtreeLeaves, hbt]
      exact List.mem_singleton_self _
    · rw [subtreeItems, hbt]
      simp
  | level + 1, ref, lo, hi, s, e, bt, ⟨bt0, hbt, _, hch⟩, hlo, hhi, h => by
    obtain ⟨bt1, before, ⟨k, v⟩, after, hbt1, hsp, hchild⟩ := walkLevel_succ_ok h
    rw [hbt, Except.ok.injEq] at hbt1
    subst hbt1
    obtain ⟨hitems, hbefore, hkey⟩ := searchSplit_eq_some hsp
    have hsorted := bt0.sorted
    rw [hitems, List.pairwise_append, List.pairwise_cons] at hsorted
    rw [hitems, childrenWF_append] at hch
    obtain ⟨hchb, ⟨_, hk_hi, hP, hcha⟩⟩ := hch
    -- the child's range starts at or above `lo` and at or below the key
    have hb_lo : ∀ x ∈ before, lo ≤ x.1 := fun x hx => by
      obtain ⟨lo', h1, h2, -⟩ := hchb.exists_of_mem hsorted.1 hx
      exact h1.trans h2
    have hs0_lo : lo ≤ chainLo lo before := le_chainLo hb_lo hbefore
    have hs0_key : chainLo lo before ≤ key := chainLo_le hlo hbefore
    have ih := walkLevel_leafAt key level hP hs0_key hkey hchild
    refine ⟨?_, ih.le_key, ih.key_le, hs0_lo.trans ih.lo_le, ih.le_hi.trans hk_hi, ?_⟩
    · rw [subtreeLeaves, hbt]
      dsimp only
      rw [hitems, childrenLeaves_append, childrenLeaves]
      exact List.mem_append_right _ (List.mem_append_left _ ih.mem)
    · obtain ⟨A, B, hAB, hA, hB⟩ := ih.split
      let g := fun it : ScoutfsKey × ScoutfsBtreeItem =>
        subtreeItems blocks level (blockRefOfVal it.2.val)
      refine ⟨before.flatMap g ++ A, B ++ after.flatMap g, ?_, fun x hx => ?_, fun x hx => ?_⟩
      · rw [subtreeItems, hbt]
        dsimp only
        rw [hitems, List.flatMap_append, List.flatMap_cons]
        show before.flatMap g ++ (g (k, v) ++ after.flatMap g) = _
        rw [show g (k, v) = A ++ bt.items ++ B from hAB]
        simp only [List.append_assoc]
      · rcases List.mem_append.mp hx with hx | hx
        · -- items of the children before the followed one end below the child's range
          obtain ⟨p, hp, hxp⟩ := List.mem_flatMap.mp hx
          obtain ⟨lo', _, _, _, hPp⟩ := hchb.exists_of_mem hsorted.1 hp
          calc x.1 ≤ p.1 := (subtreeItems_bounds level hPp x hxp).2
            _ < chainLo lo before := lt_chainLo hsorted.1 hbefore lo p hp
            _ ≤ s := ih.lo_le
        · exact hA x hx
      · rcases List.mem_append.mp hx with hx | hx
        · exact hB x hx
        · -- items of the children after it start above its key
          obtain ⟨p, hp, hxp⟩ := List.mem_flatMap.mp hx
          obtain ⟨lo', hlo', _, _, hPp⟩ := hcha.exists_of_mem hsorted.2.1.2 hp
          calc e ≤ k := ih.le_hi
            _ < scoutfsKeyInc k := lt_scoutfsKeyInc (hsorted.2.1.1 p hp)
            _ ≤ x.1 := hlo'.trans (subtreeItems_bounds level hPp x hxp).1

/-! ### Reading items -/

theorem ite_gt_eq_max (a b : ScoutfsKey) :
    (if scoutfsKeyCompare b a = .gt then b else a) = max a b := by
  by_cases hab : a < b
  · rw [if_pos (ScoutfsKey.scoutfsKeyCompare_eq_gt.mpr hab), max_eq_right hab.le]
  · rw [if_neg (mt ScoutfsKey.scoutfsKeyCompare_eq_gt.mp hab), max_eq_left (not_lt.mp hab)]

theorem ite_lt_eq_min (a b : ScoutfsKey) :
    (if scoutfsKeyCompare b a = .lt then b else a) = min a b := by
  by_cases hba : b < a
  · rw [if_pos (ScoutfsKey.scoutfsKeyCompare_eq_lt.mpr hba), min_eq_right hba.le]
  · rw [if_neg (mt ScoutfsKey.scoutfsKeyCompare_eq_lt.mp hba), min_eq_left (not_lt.mp hba)]

/-- The items a leaf's read passes to the callback: those in the narrowed range. -/
theorem readItems_eq_filter (bt : ScoutfsBtreeBlock) (s e : ScoutfsKey) :
    ((bt.items.dropWhile fun it => scoutfsKeyCompare it.1 s = .lt).takeWhile
        fun it => scoutfsKeyCompare it.1 e ≠ .gt) =
      bt.items.filter fun it => s ≤ it.1 ∧ it.1 ≤ e := by
  have hdrop := KeyedList.dropWhile_lt_eq_filter Prod.fst bt.sorted (a := s)
  have hsorted : (bt.items.filter fun it => decide (s ≤ it.1)).Pairwise (fun a b => a.1 < b.1) :=
    bt.sorted.filter _
  have htake := KeyedList.takeWhile_le_eq_filter Prod.fst hsorted (b := e)
  simp only [ScoutfsKey.scoutfsKeyCompare_eq_lt, ne_eq, ScoutfsKey.scoutfsKeyCompare_eq_gt,
    not_lt] at hdrop htake ⊢
  rw [hdrop, htake, List.filter_filter]
  congr 1
  funext it
  simp [Bool.and_comm]

/-- What a read that succeeded did: the walk's leaf and range, the caller's range narrowed to
it, and the callback over the leaf's items in the narrowed range. -/
theorem scoutfsBtreeReadItems_ok {σ : Type} {root : ScoutfsBtreeRoot} {start «end» s e : ScoutfsKey}
    {cb : σ → ScoutfsKey → ScoutfsBtreeItem → Except Int σ} {arg r : σ}
    (h : scoutfsBtreeReadItems blocks root key start «end» cb arg = .ok (s, e, r)) :
    ∃ bt krStart krEnd, btreeWalk blocks root key = .ok (bt, krStart, krEnd) ∧
      s = max start krStart ∧ e = min «end» krEnd ∧
      (bt.items.filter fun it => s ≤ it.1 ∧ it.1 ≤ e).foldlM (fun a it => cb a it.1 it.2) arg =
        .ok r := by
  unfold scoutfsBtreeReadItems at h
  cases hw : btreeWalk blocks root key with
  | error err =>
    rw [hw] at h
    cases h
  | ok w =>
    obtain ⟨bt, krStart, krEnd⟩ := w
    simp only [hw, bind, Except.bind, ite_gt_eq_max, ite_lt_eq_min, readItems_eq_filter] at h
    cases hf : (bt.items.filter fun it => max start krStart ≤ it.1 ∧ it.1 ≤ min «end» krEnd).foldlM
        (fun a it => cb a it.1 it.2) arg with
    | error err =>
      rw [hf] at h
      cases h
    | ok r' =>
      rw [hf] at h
      simp only [pure, Except.pure, Except.ok.injEq, Prod.mk.injEq] at h
      obtain ⟨rfl, rfl, rfl⟩ := h
      exact ⟨bt, krStart, krEnd, rfl, rfl, rfl, hf⟩

/-- `scoutfs_btree_read_items` on a well-formed btree, for a caller's range that holds the key:
the range it returns is the caller's cut to the range of the leaf that holds the key, so it
still holds the key, and the callback was called, in key order, once for each item of the
whole btree in that range and for no other item. -/
theorem scoutfsBtreeReadItems_range {root : ScoutfsBtreeRoot} (hwf : BtreeWF blocks root)
    {start «end» : ScoutfsKey} (hk : start ≤ key ∧ key ≤ «end») {σ : Type}
    (cb : σ → ScoutfsKey → ScoutfsBtreeItem → Except Int σ) (arg : σ) {s e : ScoutfsKey} {r : σ}
    (h : scoutfsBtreeReadItems blocks root key start «end» cb arg = .ok (s, e, r)) :
    ∃ leaf ∈ btreeLeaves blocks root, leaf.2.1 ≤ key ∧ key ≤ leaf.2.2 ∧
      s = max start leaf.2.1 ∧ e = min «end» leaf.2.2 ∧ s ≤ key ∧ key ≤ e ∧
      ((btreeItems blocks root).filter fun it => s ≤ it.1 ∧ it.1 ≤ e).Pairwise
        (fun a b => a.1 < b.1) ∧
      ((btreeItems blocks root).filter fun it => s ≤ it.1 ∧ it.1 ≤ e).foldlM
        (fun a it => cb a it.1 it.2) arg = .ok r := by
  obtain ⟨bt, krStart, krEnd, hw, hs, he, hfold⟩ := scoutfsBtreeReadItems_ok h
  have hheight : root.height ≠ 0 := by
    intro h0
    simp [btreeWalk, h0] at hw
  rw [btreeWalk, if_neg hheight] at hw
  have hleaf := walkLevel_leafAt key _ (hwf hheight) (ScoutfsKey.zeros_le key)
    (ScoutfsKey.le_ones key) hw
  obtain ⟨A, B, hAB, hA, hB⟩ := hleaf.split
  have hsk : s ≤ key := hs ▸ max_le hk.1 hleaf.le_key
  have hke : key ≤ e := he ▸ le_min hk.2 hleaf.key_le
  -- the items below and above the leaf's range are outside the narrowed range
  have hitems : ((btreeItems blocks root).filter fun it => s ≤ it.1 ∧ it.1 ≤ e) =
      bt.items.filter fun it => s ≤ it.1 ∧ it.1 ≤ e := by
    have hAnil : (A.filter fun it => s ≤ it.1 ∧ it.1 ≤ e) = [] := by
      refine List.filter_eq_nil_iff.mpr fun x hx => ?_
      have : x.1 < s := (hA x hx).trans_le (hs ▸ le_max_right _ _)
      simp [not_le.mpr this]
    have hBnil : (B.filter fun it => s ≤ it.1 ∧ it.1 ≤ e) = [] := by
      refine List.filter_eq_nil_iff.mpr fun x hx => ?_
      have : e < x.1 := (he ▸ min_le_right _ _ : e ≤ krEnd).trans_lt (hB x hx)
      simp [not_le.mpr this]
    rw [btreeItems, if_neg hheight, hAB, List.filter_append, List.filter_append, hAnil, hBnil,
      List.nil_append, List.append_nil]
  refine ⟨(bt, krStart, krEnd), ?_, hleaf.le_key, hleaf.key_le, hs, he, hsk, hke, ?_, ?_⟩
  · rw [btreeLeaves, if_neg hheight]
    exact hleaf.mem
  · rw [hitems]
    exact bt.sorted.filter _
  · rw [hitems]
    exact hfold

/-- The btree of height 2 that `try_split` leaves is well formed, and a read of all keys at
the left leaf's key returns the left leaf's range. -/
theorem scoutfsBtreeReadItems_range_splitBlocks :
    BtreeWF splitBlocks ⟨⟨10, 1⟩, 2⟩ ∧
      ∃ leaf ∈ btreeLeaves splitBlocks ⟨⟨10, 1⟩, 2⟩, leaf.2.1 ≤ splitKey ∧ splitKey ≤ leaf.2.2 := by
  have hwf : BtreeWF splitBlocks ⟨⟨10, 1⟩, 2⟩ := fun _ =>
    ⟨splitRoot, rfl, rfl, by decide, by decide, ⟨leftLeaf, rfl, rfl, by decide⟩,
      by decide, by decide, ⟨rightLeaf, rfl, rfl, by decide⟩, trivial⟩
  have hread : scoutfsBtreeReadItems splitBlocks ⟨⟨10, 1⟩, 2⟩ splitKey scoutfsKeySetZeros
      scoutfsKeySetOnes (fun n _ _ => .ok (n + 1)) 0 = .ok (scoutfsKeySetZeros, splitKey, 1) := by
    decide
  obtain ⟨leaf, hmem, hlo, hhi, -⟩ := scoutfsBtreeReadItems_range hwf
    ⟨ScoutfsKey.zeros_le splitKey, ScoutfsKey.le_ones splitKey⟩ _ _ hread
  exact ⟨hwf, leaf, hmem, hlo, hhi⟩

end Btree

end Scoutfs
