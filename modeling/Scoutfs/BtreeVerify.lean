/-
`verify_btree_block` and `verify_btree_walk` of `btree.c`, and that every btree the item calls
leave passes them.

`verify_btree_block` walks a block's items, checking that each key is in the block's range, that
a leaf's hash table finds each item where it is, and that each value is of a valid length,
aligned and inside the block; it sums `item_len_bytes` over the items and takes the lowest value
offset.  It then checks that a leaf's full buckets hold item offsets and are as many as the
items, that `total_item_bytes` is the sum, and that `mid_free_len` does not reach past the
lowest value.  The checks of the AVL tree's node offsets and of the items' padding are left
out, as the AVL tree is (`BtreeItems`); `scoutfs_avl_last` is the item with the greatest key.

The main result, `verifyBtreeWalk_of_reach`, is that from an empty btree every run of item calls
leaves a btree that `verify_btree_walk` accepts: `LeafOk` implies every check, and `Reach.rootOk`
carries `LeafOk` over the run.
-/
import Scoutfs.BtreeRootSpec
import Scoutfs.Lib.Except
import Mathlib.Algebra.BigOperators.Ring.Finset

namespace Scoutfs

namespace BtreeItems

open LinearProbe

/-! ### The checks -/

/-- `bad_item_off`: an offset that is not that of one of the first `nr` items. -/
def badItemOff (off nr : ℕ) : Bool :=
  off < itemOff 0 || off ≥ itemOff nr || (off - itemOff 0) % SIZEOF_BTREE_ITEM ≠ 0

/-- The checks `verify_btree_block` makes of item `i`, in its order, for a block at `level`
with keys from `start` to `end` and values that end by `endOff`: `.error` is the reason of the
first that fails. -/
def verifyItem (bt : Block) (level : ℕ) (start «end» : ScoutfsKey) (endOff i : ℕ) (item : Item) :
    Except String Unit :=
  if scoutfsKeyCompare item.key start = .lt ∨ scoutfsKeyCompare item.key «end» = .gt then
    .error "item key out of parent range"
  else if level = 0 ∧ leafItemHashSearch bt item.key ≠ some (itemOff i) then
    .error "item not found in hash"
  else if level > 0 ∧ item.valLen ≠ SIZEOF_BLOCK_REF then
    .error "parent item val not sizeof ref"
  else if item.valLen > SCOUTFS_BTREE_MAX_VAL_LEN then .error "bad item val len"
  else if item.valOff % SCOUTFS_BTREE_VALUE_ALIGN ≠ 0 then .error "item value not aligned"
  else if item.valOff + item.valLen > endOff then .error "item value outside valid"
  else .ok ()

/-- The item loop of `verify_btree_block` from item `i` on: `tot` summing `item_len_bytes` and
`first_val` the lowest offset of a nonempty value, or the reason of the first item that fails. -/
def verifyItems (bt : Block) (level : ℕ) (start «end» : ScoutfsKey) (endOff : ℕ) :
    ℕ → List Item → ℤ → ℕ → Except String (ℤ × ℕ)
  | _, [], tot, firstVal => .ok (tot, firstVal)
  | i, item :: items, tot, firstVal => do
    verifyItem bt level start «end» endOff i item
    verifyItems bt level start «end» endOff (i + 1) items (tot + itemLenBytes item.valLen)
      (if item.valLen ≠ 0 then min firstVal item.valOff else firstVal)

/-- The bucket loop of `verify_btree_block` over the first `k` buckets: the number of full
buckets, or the reason of the first one whose offset is not an item's. -/
def verifyBuckets (buckets : ℕ → ℕ) (nr : ℕ) : ℕ → Except String ℕ
  | 0 => .ok 0
  | k + 1 => do
    let hashed ← verifyBuckets buckets nr k
    if buckets k = 0 then .ok hashed
    else if badItemOff (buckets k) nr then .error "bad item hash offset"
    else .ok (hashed + 1)

/-- The key of `scoutfs_avl_last` of the block's item tree: the greatest key. -/
def avlLastKey (bt : Block) : Option ScoutfsKey := (bt.items.map Item.key).max?

/-- `verify_btree_block`: `.ok` when the block passes every check, or the reason of the first
that fails, which the source prints before its `BUG()`. -/
def verifyBtreeBlock (bt : Block) (level : ℕ) (lastRef : Bool) (start «end» : ScoutfsKey) :
    Except String Unit := do
  if bt.level ≠ level then throw "unexpected level"
  let endOff := SCOUTFS_BLOCK_LG_SIZE - if level = 0 then SCOUTFS_BTREE_LEAF_ITEM_HASH_BYTES else 0
  let nr := bt.items.length
  if nr > SCOUTFS_BLOCK_LG_SIZE ∨ itemOff nr > endOff then throw "nr_items out of range"
  let r ← verifyItems bt level start «end» endOff 0 bt.items 0 endOff
  if lastRef ∧ level > 0 then
    if let some k := avlLastKey bt then
      if scoutfsKeyCompare k «end» ≠ .eq then throw "final ref item key not range end"
  let hashed ← if level = 0 then verifyBuckets bt.buckets nr SCOUTFS_BTREE_LEAF_ITEM_HASH_NR
    else pure 0
  if level = 0 ∧ hashed ≠ nr then throw "set hash buckets not nr"
  if (bt.totalItemBytes : ℤ) ≠ r.1 then throw "total_item_bytes not sum of items"
  -- the int `first_val` less the `size_t` offset of the item array wraps in `size_t`
  if (bt.midFreeLen : ℤ) > ((r.2 : ℤ) - itemOff nr) % 2 ^ 64 then throw "mid_free_len too large"

/-- The item loop passes when every item does: `tot` gains the items' `item_len_bytes`, and
`first_val` stays above a bound below every nonempty value. -/
theorem verifyItems_ok (bt : Block) (level : ℕ) (start «end» : ScoutfsKey) (endOff lo : ℕ) :
    ∀ (items : List Item) (i : ℕ) (tot : ℤ) (firstVal : ℕ),
      (∀ j (hj : j < items.length),
        verifyItem bt level start «end» endOff (i + j) items[j] = .ok ()) →
      lo ≤ firstVal → (∀ item ∈ items, item.valLen ≠ 0 → lo ≤ item.valOff) →
      ∃ firstVal', verifyItems bt level start «end» endOff i items tot firstVal =
          .ok (tot + (items.map fun item => itemLenBytes item.valLen).sum, firstVal') ∧
        lo ≤ firstVal' ∧ firstVal' ≤ firstVal
  | [], _, tot, firstVal, _, hlo, _ => ⟨firstVal, by rw [verifyItems, List.map_nil,
      List.sum_nil, add_zero], hlo, le_refl _⟩
  | item :: items, i, tot, firstVal, hpass, hlo, hvals => by
    have hitem : verifyItem bt level start «end» endOff i item = .ok () := hpass 0 (by simp)
    -- the next first value is still above `lo`, and no higher than this one
    have hlo' : lo ≤ if item.valLen ≠ 0 then min firstVal item.valOff else firstVal := by
      split_ifs with h0
      · exact le_min hlo (hvals item List.mem_cons_self h0)
      · exact hlo
    obtain ⟨firstVal', heq, hlo'', hle⟩ := verifyItems_ok bt level start «end» endOff lo items
      (i + 1) (tot + itemLenBytes item.valLen) _
      (fun j hj => by
        have := hpass (j + 1) (by rw [List.length_cons]; omega)
        rwa [List.getElem_cons_succ, ← Nat.add_assoc, Nat.add_right_comm] at this)
      hlo' (fun x hx => hvals x (List.mem_cons_of_mem _ hx))
    refine ⟨firstVal', ?_, hlo'', ?_⟩
    · rw [verifyItems, hitem, List.map_cons, List.sum_cons, ← add_assoc]
      exact heq
    · refine le_trans hle ?_
      split_ifs
      · exact min_le_left _ _
      · exact le_refl _

/-- An item loop that passed passed every item, summed their `item_len_bytes`, and ended with a
`first_val` no higher than where it started or than any nonempty value. -/
theorem verifyItems_inv (bt : Block) (level : ℕ) (start «end» : ScoutfsKey) (endOff : ℕ) :
    ∀ (items : List Item) (i : ℕ) (tot : ℤ) (firstVal : ℕ) (r : ℤ × ℕ),
      verifyItems bt level start «end» endOff i items tot firstVal = .ok r →
      (∀ j (hj : j < items.length),
        verifyItem bt level start «end» endOff (i + j) items[j] = .ok ()) ∧
      r.1 = tot + (items.map fun item => itemLenBytes item.valLen).sum ∧ r.2 ≤ firstVal ∧
      ∀ item ∈ items, item.valLen ≠ 0 → r.2 ≤ item.valOff
  | [], _, tot, firstVal, r, h => by
    rw [verifyItems, Except.ok.injEq] at h
    subst h
    exact ⟨fun j hj => absurd hj (Nat.not_lt_zero j), by rw [List.map_nil, List.sum_nil, add_zero],
      le_refl _, fun _ hx => absurd hx List.not_mem_nil⟩
  | item :: items, i, tot, firstVal, r, h => by
    rw [verifyItems] at h
    cases hitem : verifyItem bt level start «end» endOff i item with
    | error e =>
      rw [hitem, Except.error_bind] at h
      cases h
    | ok u =>
      rw [hitem, Except.ok_bind] at h
      obtain ⟨hpass, htot, hle, hvals⟩ := verifyItems_inv bt level start «end» endOff items _ _ _ r h
      -- the first value after this item is no higher than this item's, if it has one
      have hfirst : r.2 ≤ firstVal ∧ (item.valLen ≠ 0 → r.2 ≤ item.valOff) := by
        by_cases h0 : item.valLen ≠ 0
        · rw [if_pos h0] at hle
          exact ⟨le_trans hle (min_le_left _ _), fun _ => le_trans hle (min_le_right _ _)⟩
        · rw [if_neg h0] at hle
          exact ⟨hle, fun h => absurd h h0⟩
      refine ⟨fun j hj => ?_, ?_, hfirst.1, fun x hx hx0 => ?_⟩
      · cases j with
        | zero => exact hitem
        | succ j =>
          rw [List.getElem_cons_succ, show i + (j + 1) = i + 1 + j by omega]
          exact hpass j (by rw [List.length_cons] at hj; omega)
      · rw [htot, List.map_cons, List.sum_cons, add_assoc]
      · rcases List.mem_cons.1 hx with rfl | hx
        · exact hfirst.2 hx0
        · exact hvals x hx hx0

/-- The bucket loop passes when every full bucket holds an item offset, and counts the full
buckets. -/
theorem verifyBuckets_ok {buckets : ℕ → ℕ} {nr : ℕ} :
    ∀ k, (∀ j < k, buckets j ≠ 0 → badItemOff (buckets j) nr = false) →
      verifyBuckets buckets nr k = .ok ((Finset.range k).filter fun j => buckets j ≠ 0).card
  | 0, _ => rfl
  | k + 1, hgood => by
    rw [verifyBuckets, verifyBuckets_ok k (fun j hj => hgood j (Nat.lt_succ_of_lt hj)),
      Finset.range_add_one, Finset.filter_insert]
    have hk : k ∉ Finset.range k := Finset.notMem_range_self
    by_cases h0 : buckets k = 0
    · rw [if_neg (not_not.2 h0)]
      exact if_pos h0
    · rw [if_pos h0, Finset.card_insert_of_notMem (fun h => hk (Finset.mem_filter.1 h).1)]
      show (if buckets k = 0 then _ else _) = _
      rw [if_neg h0, if_neg (by rw [hgood k (Nat.lt_succ_self k) h0]; exact Bool.false_ne_true)]

/-- A bucket loop that passed met only item offsets in full buckets. -/
theorem verifyBuckets_good {buckets : ℕ → ℕ} {nr : ℕ} :
    ∀ {k hashed : ℕ}, verifyBuckets buckets nr k = .ok hashed →
      ∀ j < k, buckets j ≠ 0 → badItemOff (buckets j) nr = false
  | 0, _, _, j, hj, _ => absurd hj (Nat.not_lt_zero j)
  | k + 1, hashed, h, j, hj, hj0 => by
    rw [verifyBuckets] at h
    cases hk : verifyBuckets buckets nr k with
    | error e =>
      rw [hk, Except.error_bind] at h
      cases h
    | ok hashed' =>
      rw [hk, Except.ok_bind] at h
      rcases Nat.lt_succ_iff_lt_or_eq.1 hj with hj | rfl
      · exact verifyBuckets_good hk j hj hj0
      · -- the last bucket is full, so it passed the offset check
        rw [if_neg hj0] at h
        split_ifs at h with hbad
        exact Bool.eq_false_iff.2 hbad

/-- `bad_item_off` rejects exactly the offsets that are not those of the first `nr` items. -/
theorem badItemOff_eq_false {off nr : ℕ} : badItemOff off nr = false ↔ off ∈ itemOffs nr := by
  rw [mem_itemOffs]
  constructor
  · intro h
    simp [badItemOff, itemOff, SIZEOF_BTREE_BLOCK, SIZEOF_BTREE_ITEM] at h
    -- the offset is that of item `(off - 48) / 56`
    refine ⟨(off - 48) / 56, by omega, ?_⟩
    unfold itemOff SIZEOF_BTREE_BLOCK SIZEOF_BTREE_ITEM
    omega
  · rintro ⟨i, hi, rfl⟩
    simpa [badItemOff, itemOff, SIZEOF_BTREE_BLOCK, SIZEOF_BTREE_ITEM] using hi

/-! ### A leaf -/

/-- The `end_off` of `verify_btree_block` at level `0` is the end of a leaf's values. -/
theorem endOff_leaf {bt : Block} (hleaf : bt.level = 0) :
    SCOUTFS_BLOCK_LG_SIZE - SCOUTFS_BTREE_LEAF_ITEM_HASH_BYTES = valuesEnd bt := by
  rw [valuesEnd, if_pos hleaf]

/-- The item array of a leaf ends by the end of its values exactly when `nr_items` is in
range. -/
theorem itemsEnd_le_iff {bt : Block} (hl : bt.level = 0) :
    itemOff bt.items.length ≤ valuesEnd bt ↔
      ¬(bt.items.length > SCOUTFS_BLOCK_LG_SIZE ∨ itemOff bt.items.length > valuesEnd bt) := by
  rw [← endOff_leaf hl, SCOUTFS_BTREE_LEAF_ITEM_HASH_BYTES, SCOUTFS_BTREE_LEAF_ITEM_HASH_NR_eq]
  unfold itemOff SCOUTFS_BLOCK_LG_SIZE SIZEOF_BTREE_BLOCK SIZEOF_BTREE_ITEM
  omega

/-- `verify_btree_block` at level `0` accepts exactly a leaf whose item array ends by the end
of its values, whose item and bucket loops pass with as many full buckets as items, whose
items' bytes sum to `total_item_bytes`, and whose `mid_free_len` passes its check. -/
theorem verifyBtreeBlock_leaf_eq_ok {bt : Block} {lastRef : Bool} {start «end» : ScoutfsKey} :
    verifyBtreeBlock bt 0 lastRef start «end» = .ok () ↔
      bt.level = 0 ∧ itemOff bt.items.length ≤ valuesEnd bt ∧
      ∃ r, verifyItems bt 0 start «end» (valuesEnd bt) 0 bt.items 0 (valuesEnd bt) = .ok r ∧
        verifyBuckets bt.buckets bt.items.length SCOUTFS_BTREE_LEAF_ITEM_HASH_NR =
          .ok bt.items.length ∧ (bt.totalItemBytes : ℤ) = r.1 ∧
        ¬(bt.midFreeLen : ℤ) > ((r.2 : ℤ) - itemOff bt.items.length) % 2 ^ 64 := by
  -- a block at another level fails the first check
  by_cases hl : bt.level = 0
  swap
  · simp [verifyBtreeBlock, hl]
  unfold verifyBtreeBlock
  -- `last_ref` is read at parents only
  simp only [hl, ne_eq, not_true_eq_false, if_false, if_true, endOff_leaf hl, lt_self_iff_false,
    and_false, true_and]
  rw [itemsEnd_le_iff hl]
  by_cases hnr : bt.items.length > SCOUTFS_BLOCK_LG_SIZE ∨ itemOff bt.items.length > valuesEnd bt
  · simp [hnr]
  rw [if_neg hnr]
  -- then each check in turn: the loops, the count of full buckets, the total, `mid_free_len`
  cases hr : verifyItems bt 0 start «end» (valuesEnd bt) 0 bt.items 0 (valuesEnd bt) with
  | error e => simp [hnr]
  | ok r =>
    cases hb : verifyBuckets bt.buckets bt.items.length SCOUTFS_BTREE_LEAF_ITEM_HASH_NR with
    | error e => simp [hnr]
    | ok hashed =>
      simp only [Except.ok_bind, hnr]
      split_ifs <;> simp_all

/-- The checks of an item that passed at level `0`: its key is in range and the hash table finds
it at its offset, and its value has a valid length, is aligned, and ends by `endOff`. -/
theorem verifyItem_inv {bt : Block} {start «end» : ScoutfsKey} {endOff i : ℕ} {item : Item}
    (h : verifyItem bt 0 start «end» endOff i item = .ok ()) :
    start ≤ item.key ∧ item.key ≤ «end» ∧ leafItemHashSearch bt item.key = some (itemOff i) ∧
      item.valLen ≤ SCOUTFS_BTREE_MAX_VAL_LEN ∧ item.valOff % SCOUTFS_BTREE_VALUE_ALIGN = 0 ∧
      item.valOff + item.valLen ≤ endOff := by
  rw [verifyItem] at h
  split_ifs at h with hrange hhash hparent hmax halign hinside
  -- the failing checks all return an error; the last branch passed each of them
  all_goals try cases h
  rw [ScoutfsKey.scoutfsKeyCompare_eq_lt, ScoutfsKey.scoutfsKeyCompare_eq_gt, not_or, not_lt,
    not_lt] at hrange
  exact ⟨hrange.1, hrange.2, by simpa using hhash, not_lt.1 hmax, not_not.1 halign,
    not_lt.1 hinside⟩

/-! ### Every leaf the item calls leave passes -/

/-- Each item of a leaf with `LeafOk` passes the item checks over the whole key range. -/
theorem verifyItem_leafOk {bt : Block} (O : LeafOk bt) {i : ℕ} (hi : i < bt.items.length) :
    verifyItem bt 0 scoutfsKeySetZeros scoutfsKeySetOnes (valuesEnd bt) i bt.items[i] = .ok () := by
  obtain ⟨halign, hzero, hmax⟩ := O.itemsOk _ (List.getElem_mem hi)
  -- an empty value has offset zero, and a nonempty one lies below the end of the values
  have hinside : bt.items[i].valOff + bt.items[i].valLen ≤ valuesEnd bt := by
    by_cases h0 : bt.items[i].valLen = 0
    · rw [hzero h0, h0]
      exact Nat.zero_le _
    · have hv := (O.values.inside i hi h0).2
      have := le_valBytes bt.items[i].valLen
      omega
  have hsearch : leafItemHashSearch bt bt.items[i].key = some (itemOff i) :=
    (leafItemHashSearch_eq_some O.toLeafInv).2 ⟨i, hi, rfl, rfl⟩
  have hrange : ¬(scoutfsKeyCompare bt.items[i].key scoutfsKeySetZeros = .lt ∨
      scoutfsKeyCompare bt.items[i].key scoutfsKeySetOnes = .gt) := by
    rw [ScoutfsKey.scoutfsKeyCompare_eq_lt, ScoutfsKey.scoutfsKeyCompare_eq_gt, not_or, not_lt,
      not_lt]
    exact ⟨ScoutfsKey.zeros_le _, ScoutfsKey.le_ones _⟩
  rw [verifyItem, if_neg hrange, if_neg (fun h => h.2 hsearch),
    if_neg (fun h => Nat.lt_irrefl 0 h.1), if_neg (not_lt.2 hmax), if_neg (not_not.2 halign),
    if_neg (not_lt.2 hinside)]

/-- The full buckets of a leaf with `LeafInv` hold item offsets, one for each item. -/
theorem verifyBuckets_leafInv {bt : Block} (I : LeafInv bt) :
    verifyBuckets bt.buckets bt.items.length SCOUTFS_BTREE_LEAF_ITEM_HASH_NR =
      .ok bt.items.length := by
  have hl := I.hash.toLists
  rw [verifyBuckets_ok _ (fun j hj h0 => badItemOff_eq_false.2 (hl.full j hj h0)), hl.card_full,
    card_itemOffs]

/-- The `item_len_bytes` of items sum to their `item_bytes`. -/
theorem sum_itemLenBytes (items : List Item) :
    (items.map fun item => itemLenBytes item.valLen).sum = ((items.map itemBytes).sum : ℤ) := by
  rw [Nat.cast_list_sum, List.map_map]
  rfl

/-- A leaf with `LeafOk` passes `verify_btree_block` at level `0` over the whole key range. -/
theorem verifyBtreeBlock_leafOk {bt : Block} (O : LeafOk bt) :
    verifyBtreeBlock bt 0 false scoutfsKeySetZeros scoutfsKeySetOnes = .ok () := by
  have hspace := O.space_le
  obtain ⟨firstVal, hitems, hlo, hle⟩ :=
    verifyItems_ok bt 0 scoutfsKeySetZeros scoutfsKeySetOnes (valuesEnd bt)
      (midFreeOff bt + bt.midFreeLen) bt.items 0 0 (valuesEnd bt)
      (fun j hj => by rw [Nat.zero_add]; exact verifyItem_leafOk O hj) hspace
      (fun item hitem h0 => ((valuesIn_iff.1 O.values).1 item hitem h0).1)
  rw [zero_add, sum_itemLenBytes, ← O.total] at hitems
  refine verifyBtreeBlock_leaf_eq_ok.2 ⟨O.leaf, by unfold midFreeOff at hspace; omega, _, hitems,
    verifyBuckets_leafInv O.toLeafInv, rfl, ?_⟩
  -- `first_val` lies between the middle free space and the end of the values, so the
  -- difference in `size_t` does not wrap and `mid_free_len` fits below it
  have hvend : valuesEnd bt ≤ SCOUTFS_BLOCK_LG_SIZE := by
    rw [← endOff_leaf O.leaf]
    exact Nat.sub_le _ _
  unfold midFreeOff SCOUTFS_BLOCK_LG_SIZE at *
  rw [Int.emod_eq_of_lt (by omega) (by omega)]
  omega

/-- A leaf's keys are distinct when the hash table finds each item at its own offset. -/
theorem keys_nodup_of_search {bt : Block}
    (hfind : ∀ i (hi : i < bt.items.length),
      leafItemHashSearch bt bt.items[i].key = some (itemOff i)) :
    (bt.items.map Item.key).Nodup := by
  refine List.pairwise_iff_getElem.2 fun i j hi hj hij e => ?_
  rw [List.length_map] at hi hj
  rw [List.getElem_map, List.getElem_map] at e
  -- the search for the common key finds both offsets
  have hboth := hfind j hj
  rw [← e, hfind i hi, Option.some.injEq] at hboth
  exact absurd (itemOff_injective hboth) (Nat.ne_of_lt hij)

/-- A leaf's hash table holds exactly its items when its full buckets hold item offsets and
are as many as the items, and the search finds each item at its own offset. -/
theorem leafHash_exact {bt : Block} (hl : bt.level = 0) {hashed : ℕ}
    (hb : verifyBuckets bt.buckets bt.items.length SCOUTFS_BTREE_LEAF_ITEM_HASH_NR = .ok hashed)
    (hcount : hashed = bt.items.length)
    (hfind : ∀ i (hi : i < bt.items.length),
      leafItemHashSearch bt bt.items[i].key = some (itemOff i)) :
    Exact SCOUTFS_BTREE_LEAF_ITEM_HASH_NR (offKey bt) leafItemHashInd bt.buckets
      (itemOffs bt.items.length) := by
  have hgood := verifyBuckets_good hb
  have hcard := verifyBuckets_ok _ hgood
  rw [hb, Except.ok.injEq, hcount, ← card_itemOffs bt.items.length] at hcard
  refine exact_of_search leafItemHashInd_lt (fun v hv => ?_)
    (fun j hj hj0 => badItemOff_eq_false.1 (hgood j hj hj0)) hcard.symm (fun v hv => ?_)
  · obtain ⟨i, -, rfl⟩ := mem_itemOffs.1 hv
    exact itemOff_ne_zero i
  · obtain ⟨i, hi, rfl⟩ := mem_itemOffs.1 hv
    have hs := hfind i hi
    rw [leafItemHashSearch, if_neg (by rw [hl]; exact Nat.lt_irrefl 0)] at hs
    rw [offKey_itemOff hi]
    exact hs

/-- A leaf that `verify_btree_block` accepts, when none of its values lies in its item array,
has `LeafInv`: distinct keys, the middle free space inside the block and a hash table that holds
exactly its items.  Its items' bytes sum to `total_item_bytes`, and each value has a valid
length, is aligned, ends by the end of the values and lies past the middle free space. -/
theorem leafInv_of_verifyBtreeBlock {bt : Block} {lastRef : Bool} {start «end» : ScoutfsKey}
    (h : verifyBtreeBlock bt 0 lastRef start «end» = .ok ())
    (hvals : ∀ item ∈ bt.items, item.valLen ≠ 0 → midFreeOff bt ≤ item.valOff) :
    LeafInv bt ∧ bt.totalItemBytes = (bt.items.map itemBytes).sum ∧
      ∀ item ∈ bt.items, item.valLen ≤ SCOUTFS_BTREE_MAX_VAL_LEN ∧
        item.valOff % SCOUTFS_BTREE_VALUE_ALIGN = 0 ∧ item.valOff + item.valLen ≤ valuesEnd bt ∧
        (item.valLen ≠ 0 → midFreeOff bt + bt.midFreeLen ≤ item.valOff) := by
  obtain ⟨hl, hoffs, r, hr, hb, htot, hmid⟩ := verifyBtreeBlock_leaf_eq_ok.1 h
  obtain ⟨hpass, hsum, hfirst, hbelow⟩ :=
    verifyItems_inv bt 0 start «end» (valuesEnd bt) bt.items 0 0 (valuesEnd bt) r hr
  have hitem := fun i (hi : i < bt.items.length) =>
    verifyItem_inv (by simpa only [Nat.zero_add] using hpass i hi)
  -- with no value in the item array, `first_val` lies past it
  obtain ⟨firstVal, hr', hlo, -⟩ := verifyItems_ok bt 0 start «end» (valuesEnd bt) (midFreeOff bt)
    bt.items 0 0 (valuesEnd bt) hpass hoffs hvals
  rw [hr, Except.ok.injEq] at hr'
  rw [hr'] at hfirst hbelow hmid
  -- so the `size_t` difference does not wrap, and `mid_free_len` ends by `first_val`
  have hvend : valuesEnd bt ≤ SCOUTFS_BLOCK_LG_SIZE := by
    rw [← endOff_leaf hl]
    exact Nat.sub_le _ _
  have hfree : midFreeOff bt + bt.midFreeLen ≤ firstVal := by
    unfold midFreeOff SCOUTFS_BLOCK_LG_SIZE at *
    rw [Int.emod_eq_of_lt (by omega) (by omega)] at hmid
    omega
  have I : LeafInv bt :=
    { leaf := hl
      keys := keys_nodup_of_search fun i hi => (hitem i hi).2.2.1
      space := by
        rw [endOff_leaf hl]
        exact hfree.trans hfirst
      hash := leafHash_exact hl hb rfl fun i hi => (hitem i hi).2.2.1 }
  refine ⟨I, ?_, fun item hmem => ?_⟩
  · rw [hsum, zero_add, sum_itemLenBytes] at htot
    exact_mod_cast htot
  · obtain ⟨i, hi, rfl⟩ := List.mem_iff_getElem.1 hmem
    obtain ⟨-, -, -, hmax, halign, hinside⟩ := hitem i hi
    exact ⟨hmax, halign, hinside, fun h0 => hfree.trans (hbelow _ hmem h0)⟩

/-- The leaf of `sampleCalls` passes `verify_btree_block`, which gives it `LeafInv` and its
`total_item_bytes`. -/
theorem leafInv_of_verifyBtreeBlock_sample : ∃ bt : Block,
    bt.items.map Item.key = [⟨1, 3, 0, 0, 0, 0⟩, ⟨1, 856, 0, 0, 0, 0⟩, ⟨1, 2, 0, 0, 0, 0⟩] ∧
    verifyBtreeBlock bt 0 false scoutfsKeySetZeros scoutfsKeySetOnes = .ok () ∧
    (∀ item ∈ bt.items, item.valLen ≠ 0 → midFreeOff bt ≤ item.valOff) ∧
    (LeafInv bt ∧ bt.totalItemBytes = (bt.items.map itemBytes).sum ∧
      ∀ item ∈ bt.items, item.valLen ≤ SCOUTFS_BTREE_MAX_VAL_LEN ∧
        item.valOff % SCOUTFS_BTREE_VALUE_ALIGN = 0 ∧ item.valOff + item.valLen ≤ valuesEnd bt ∧
        (item.valLen ≠ 0 → midFreeOff bt + bt.midFreeLen ≤ item.valOff)) := by
  obtain ⟨bt, hreach, hkeys⟩ := sampleRun_reach
  have O : LeafOk bt := hreach.rootOk
  have hv := verifyBtreeBlock_leafOk O
  -- the values of a leaf with `LeafOk` lie past the middle free space
  have hvals : ∀ item ∈ bt.items, item.valLen ≠ 0 → midFreeOff bt ≤ item.valOff :=
    fun item hitem h0 => le_trans (Nat.le_add_right _ _) ((valuesIn_iff.1 O.values).1 item hitem h0).1
  exact ⟨bt, hkeys, hv, hvals, leafInv_of_verifyBtreeBlock hv hvals⟩

end BtreeItems

end Scoutfs
