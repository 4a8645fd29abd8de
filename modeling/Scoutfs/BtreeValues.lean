/-
The values of a leaf and the items it holds, as `create_item`, `update_item_value`,
`delete_item` and `compact_values` change them.

`LeafOk` adds two things to `LeafInv`: the nonempty values lie apart between the end of the
middle free space and the end of the space for values (`ValuesIn`), and `total_item_bytes` is
the sum of `item_bytes` over the items, which `verify_btree_block` checks.  The items a leaf
holds are `blockItems`, the map of the btree's items (`BtreeItems`) read off the item array
and the value bytes.

* `createItem_leafOk`, `updateItemValue_leafOk`, `deleteItem_leafOk` and
  `compactValues_leafOk` keep the invariant and change `blockItems` as a map: a key set, a
  value replaced, a key removed, nothing;
* `compactValues_midFreeLen`: after `compact_values` the free space of the leaf is all in the
  middle, so that `try_split` compacting a leaf less than 80% full always leaves room for an
  item of any valid length (`trySplit_room`).

Each block function is read first through an inversion lemma (`createItem_inv`, ...), which
says what a call that returns did; the proofs about the invariant and the map use only those.
-/
import Scoutfs.BtreeItemsSpec
import Scoutfs.BtreeCompact
import Scoutfs.Lib.Finmap

namespace Scoutfs

namespace BtreeItems

open LinearProbe

/-! ### Values as a list property -/

theorem Apart.symm {a b : Item} (h : Apart a b) : Apart b a := Or.symm h

/-- Two items whose values, if both nonempty, lie apart. -/
def ValsApart (a b : Item) : Prop := a.valLen ≠ 0 → b.valLen ≠ 0 → Apart a b

theorem ValsApart.symm {a b : Item} (h : ValsApart a b) : ValsApart b a :=
  fun hb ha => (h ha hb).symm

/-- `ValuesIn` read over the members of the list: each nonempty value in `[lo, top)`, and the
values pairwise apart. -/
theorem valuesIn_iff {items : List Item} {lo top : ℕ} :
    ValuesIn items lo top ↔
      (∀ x ∈ items, x.valLen ≠ 0 → lo ≤ x.valOff ∧ x.valOff + valBytes x.valLen ≤ top) ∧
        items.Pairwise ValsApart := by
  rw [List.pairwise_iff_getElem]
  constructor
  · intro hv
    refine ⟨fun x hx hne => ?_, fun i j hi hj hij => hv.apart i j hi hj (Nat.ne_of_lt hij)⟩
    obtain ⟨i, hi, rfl⟩ := List.mem_iff_getElem.1 hx
    exact hv.inside i hi hne
  · rintro ⟨hin, hap⟩
    refine ⟨fun i hi hne => hin _ (List.getElem_mem hi) hne, fun i j hi hj hij => ?_⟩
    rcases Nat.lt_or_gt_of_ne hij with h | h
    · exact hap i j hi hj h
    · exact (hap j i hj hi h).symm

/-- A value added below the others. -/
theorem ValuesIn.append {items : List Item} {lo top lo' : ℕ} {x : Item}
    (hv : ValuesIn items lo top) (hlo : lo' ≤ lo)
    (hx : x.valLen ≠ 0 → lo' ≤ x.valOff ∧ x.valOff + valBytes x.valLen ≤ lo) (htop : lo ≤ top) :
    ValuesIn (items ++ [x]) lo' top := by
  obtain ⟨hin, hap⟩ := valuesIn_iff.1 hv
  refine valuesIn_iff.2 ⟨fun y hy hne => ?_, List.pairwise_append.2 ⟨hap,
    List.pairwise_singleton _ _, fun a ha b hb hna hnb => ?_⟩⟩
  · rcases List.mem_append.1 hy with hy | hy
    · have := hin y hy hne
      omega
    · rw [List.mem_singleton.1 hy] at hne ⊢
      have := hx hne
      omega
  · -- the new value ends where the others may start
    rw [List.mem_singleton.1 hb] at hnb ⊢
    right
    have := (hin a ha hna).1
    have := (hx hnb).2
    omega

/-- A value replaced by one below the others. -/
theorem ValuesIn.set {items : List Item} {lo top lo' : ℕ} {i : ℕ} {x : Item}
    (hv : ValuesIn items lo top) (hi : i < items.length) (hlo : lo' ≤ lo)
    (hx : x.valLen ≠ 0 → lo' ≤ x.valOff ∧ x.valOff + valBytes x.valLen ≤ lo) (htop : lo ≤ top) :
    ValuesIn (items.set i x) lo' top := by
  obtain ⟨hin, hap⟩ := valuesIn_iff.1 hv
  have hperm : List.Perm (items.set i x) (x :: items.eraseIdx i) := List.set_perm_cons_eraseIdx hi x
  have hsub : ∀ y ∈ items.eraseIdx i, y ∈ items := fun y hy => List.mem_of_mem_eraseIdx hy
  refine valuesIn_iff.2 ⟨fun y hy hne => ?_, ?_⟩
  · rcases List.mem_cons.1 (hperm.mem_iff.1 hy) with rfl | hy
    · have := hx hne
      omega
    · have := hin y (hsub y hy) hne
      omega
  · refine (hperm.pairwise_iff fun h => ValsApart.symm h).2 (List.pairwise_cons.2 ⟨?_, ?_⟩)
    · intro b hb hnx hnb
      left
      have := (hin b (hsub b hb) hnb).1
      have := (hx hnx).2
      omega
    · exact hap.sublist (List.eraseIdx_sublist _ _)

/-- The values of a list of items but one. -/
theorem ValuesIn.of_perm_cons {items items' : List Item} {lo top : ℕ} {x : Item}
    (hv : ValuesIn items lo top) (hperm : List.Perm (x :: items') items) :
    ValuesIn items' lo top := by
  obtain ⟨hin, hap⟩ := valuesIn_iff.1 hv
  refine valuesIn_iff.2 ⟨fun y hy => hin y (hperm.subset (List.mem_cons_of_mem x hy)), ?_⟩
  exact (List.pairwise_cons.1 ((hperm.pairwise_iff fun h => ValsApart.symm h).2 hap)).2

/-! ### Writing a value -/

theorem writeBytes_of_outside {data : ℕ → UInt8} {off : ℕ} {val : List UInt8} {x : ℕ}
    (hx : x < off ∨ off + val.length ≤ x) : writeBytes data off val x = data x := by
  unfold writeBytes
  rw [if_neg (by omega)]

/-- The bytes of a value written at `off` read back. -/
theorem itemVal_writeBytes (data : ℕ → UInt8) (val : List UInt8) (item : Item)
    (hoff : item.valLen = val.length) :
    itemVal (writeBytes data item.valOff val) item = val := by
  unfold itemVal writeBytes
  refine List.ext_getElem (by rw [List.length_map, List.length_range, hoff]) fun q h₁ h₂ => ?_
  rw [List.getElem_map, List.getElem_range, if_pos ⟨Nat.le_add_right _ _, by
    rw [List.length_map, List.length_range] at h₁; omega⟩, Nat.add_sub_cancel_left,
    List.getD_eq_getElem?_getD, List.getElem?_eq_getElem h₂, Option.getD_some]

/-- A value that starts after the bytes written keeps its bytes. -/
theorem itemVal_writeBytes_of_le {data : ℕ → UInt8} {off : ℕ} {val : List UInt8} {item : Item}
    (h : item.valLen ≠ 0 → off + val.length ≤ item.valOff) :
    itemVal (writeBytes data off val) item = itemVal data item := by
  refine itemVal_congr fun q hq => writeBytes_of_outside (Or.inr ?_)
  have := h (by omega)
  omega

/-! ### The items of a block as a map -/

/-- The items of a block as entries in array order: each item's key with its seq, flags and
value bytes. -/
def blockEntries (bt : Block) : List (Σ _ : ScoutfsKey, ScoutfsBtreeItem) :=
  bt.items.map fun item => ⟨item.key, ⟨item.seq, item.flags, itemVal bt.data item⟩⟩

/-- The items of a block as the map of a btree's items. -/
def blockItems (bt : Block) : BtreeItems := fun key => (blockEntries bt).dlookup key

theorem keys_blockEntries (bt : Block) : (blockEntries bt).keys = bt.items.map Item.key := by
  rw [blockEntries, List.keys, List.map_map]
  rfl

theorem nodupKeys_blockEntries {bt : Block} (h : (bt.items.map Item.key).Nodup) :
    (blockEntries bt).NodupKeys := by
  rw [List.NodupKeys, keys_blockEntries]
  exact h

theorem blockItems_eq_none {bt : Block} {key : ScoutfsKey} :
    blockItems bt key = none ↔ key ∉ bt.items.map Item.key := by
  rw [blockItems, List.dlookup_eq_none, keys_blockEntries]

/-- Blocks whose items read the same entries hold the same items. -/
theorem blockItems_congr {bt bt' : Block} (h : blockEntries bt' = blockEntries bt) :
    blockItems bt' = blockItems bt := by
  funext key
  rw [blockItems, blockItems, h]

/-! ### What the block functions do -/

theorem leafItemHashInsert_inv {bt bt' : Block} {key : ScoutfsKey} {off : ℕ}
    (h : leafItemHashInsert bt key off = some bt') : bt' = { bt with buckets := bt'.buckets } := by
  unfold leafItemHashInsert at h
  split_ifs at h
  · cases h
    rfl
  · obtain ⟨t, -, rfl⟩ := Option.map_eq_some_iff.1 h
    rfl

theorem leafItemHashDelete_inv {bt bt' : Block} {key : ScoutfsKey} {off : ℕ}
    (h : leafItemHashDelete bt key off = some bt') : bt' = { bt with buckets := bt'.buckets } := by
  unfold leafItemHashDelete at h
  split_ifs at h
  · cases h
    rfl
  · obtain ⟨t, -, rfl⟩ := Option.map_eq_some_iff.1 h
    rfl

theorem leafItemHashChange_inv {bt bt' : Block} {key : ScoutfsKey} {off off' : ℕ}
    (h : leafItemHashChange bt key off off' = some bt') :
    bt' = { bt with buckets := bt'.buckets } := by
  unfold leafItemHashChange at h
  split_ifs at h
  · cases h
    rfl
  · obtain ⟨t, -, rfl⟩ := Option.map_eq_some_iff.1 h
    rfl

theorem valBytes_zero : valBytes 0 = 0 := rfl

/-- What `insert_value` did: an empty value takes nothing and has offset `0`, another takes its
aligned length from the end of the middle free space and is written there. -/
theorem insertValue_inv {bt bt' : Block} {val : List UInt8} {valOff : ℕ}
    (h : insertValue bt val = some (bt', valOff)) :
    bt' = { bt with midFreeLen := bt.midFreeLen - valBytes val.length,
                    data := if val.length = 0 then bt.data else writeBytes bt.data valOff val } ∧
      (val.length = 0 → valOff = 0) ∧
      (val.length ≠ 0 → valBytes val.length ≤ bt.midFreeLen ∧
        valOff + valBytes val.length = midFreeOff bt + bt.midFreeLen) := by
  unfold insertValue at h
  by_cases h0 : val.length = 0
  · rw [if_pos h0, Option.some.injEq, Prod.mk.injEq] at h
    obtain ⟨rfl, rfl⟩ := h
    refine ⟨?_, fun _ => rfl, fun h => absurd h0 h⟩
    rw [if_pos h0, h0, valBytes_zero, Nat.sub_zero]
  · rw [if_neg h0] at h
    split_ifs at h with hlt
    rw [Option.some.injEq, Prod.mk.injEq] at h
    obtain ⟨rfl, rfl⟩ := h
    refine ⟨by rw [if_neg h0], fun h => absurd h h0, fun _ => ⟨by omega, ?_⟩⟩
    have : midFreeOff bt ≤ midFreeOff bt + bt.midFreeLen - valBytes val.length := by omega
    omega

/-- What `create_item` did: the item went to the end of the array with its value at the end of
the middle free space, which held the item struct and the value. -/
theorem createItem_inv {bt bt' : Block} {key : ScoutfsKey} {seq : UInt64} {flags : UInt8}
    {val : List UInt8} (h : createItem bt key seq flags val = some bt') :
    SIZEOF_BTREE_ITEM + valBytes val.length ≤ bt.midFreeLen ∧
      ∃ valOff, (val.length = 0 → valOff = 0) ∧
        (val.length ≠ 0 → valOff + valBytes val.length = midFreeOff bt + bt.midFreeLen) ∧
        bt'.level = bt.level ∧
        bt'.items = bt.items ++ [⟨key, seq, valOff, val.length, flags⟩] ∧
        bt'.totalItemBytes = bt.totalItemBytes + itemBytes ⟨key, seq, valOff, val.length, flags⟩ ∧
        bt'.midFreeLen = bt.midFreeLen - SIZEOF_BTREE_ITEM - valBytes val.length ∧
        bt'.data = if val.length = 0 then bt.data else writeBytes bt.data valOff val := by
  rw [createItem] at h
  simp only [Option.bind_eq_bind] at h
  split_ifs at h with hlt
  · rw [Option.bind_none] at h
    cases h
  simp only [Option.bind_eq_some_iff] at h
  obtain ⟨bt₂, hins, ⟨bt₃, valOff⟩, hval, h⟩ := h
  rw [Option.some.injEq] at h
  subst h
  have hroom : SIZEOF_BTREE_ITEM + valBytes val.length ≤ bt.midFreeLen := by
    rw [itemLenBytes_eq] at hlt
    omega
  have hb₂ := leafItemHashInsert_inv hins
  obtain ⟨rfl, h0, hne⟩ := insertValue_inv hval
  -- the block after the hash insertion has the new item struct out of the middle free space
  have hoff : midFreeOff bt₂ + bt₂.midFreeLen = midFreeOff bt + bt.midFreeLen := by
    rw [hb₂]
    unfold midFreeOff itemOff
    simp only [List.length_append, List.length_singleton]
    unfold SIZEOF_BTREE_ITEM at hroom ⊢
    rw [Nat.mul_add, Nat.mul_one]
    omega
  refine ⟨hroom, valOff, h0, fun h => (hne h).2.trans hoff, ?_, ?_, ?_, ?_, ?_⟩
  · rw [hb₂]
  · show (bt₂.items).set bt.items.length _ = _
    rw [hb₂]
    show (bt.items ++ _).set bt.items.length _ = _
    rw [List.set_append_right _ _ (Nat.le_refl _), Nat.sub_self]
    rfl
  · rw [hb₂]
  · show bt₂.midFreeLen - _ = _
    rw [hb₂]
  · show (if val.length = 0 then bt₂.data else writeBytes bt₂.data valOff val) = _
    rw [hb₂]

/-- What `update_item_value` did: the item at `i` has the new value, at the end of the middle
free space, and `total_item_bytes` changed by the aligned lengths. -/
theorem updateItemValue_inv {bt bt' : Block} {i : ℕ} {val : List UInt8}
    (h : updateItemValue bt i val = some bt') :
    ∃ hi : i < bt.items.length, ∃ valOff, (val.length = 0 → valOff = 0) ∧
      (val.length ≠ 0 → valBytes val.length ≤ bt.midFreeLen ∧
        valOff + valBytes val.length = midFreeOff bt + bt.midFreeLen) ∧
      bt'.level = bt.level ∧ bt'.buckets = bt.buckets ∧
      bt'.items = bt.items.set i { bt.items[i] with valOff := valOff, valLen := val.length } ∧
      bt'.totalItemBytes = bt.totalItemBytes + valBytes val.length - valBytes bt.items[i].valLen ∧
      bt'.midFreeLen = bt.midFreeLen - valBytes val.length ∧
      bt'.data = if val.length = 0 then bt.data else writeBytes bt.data valOff val := by
  rw [updateItemValue] at h
  simp only [Option.bind_eq_bind, Option.bind_eq_some_iff] at h
  obtain ⟨item, hitem, ⟨bt₂, valOff⟩, hval, h⟩ := h
  rw [Option.some.injEq] at h
  subst h
  obtain ⟨hi, rfl⟩ := List.getElem?_eq_some_iff.1 hitem
  obtain ⟨rfl, h0, hne⟩ := insertValue_inv hval
  exact ⟨hi, valOff, h0, hne, rfl, rfl, rfl, rfl, rfl, rfl⟩

/-- What `delete_item` did: the end item moved into place `i` and the array lost its end, the
item struct went back to the middle free space and the bytes did not change. -/
theorem deleteItem_inv {bt bt' : Block} {i : ℕ} {useAfter ua : Option ℕ}
    (h : deleteItem bt i useAfter = some (bt', ua)) :
    ∃ hi : i < bt.items.length, bt'.level = bt.level ∧
      bt'.items = (bt.items.set i bt.items[bt.items.length - 1]).dropLast ∧
      bt'.totalItemBytes = bt.totalItemBytes - itemBytes bt.items[i] ∧
      bt'.midFreeLen = bt.midFreeLen + SIZEOF_BTREE_ITEM ∧ bt'.data = bt.data := by
  rw [deleteItem] at h
  simp only [Option.bind_eq_bind, Option.bind_eq_some_iff] at h
  obtain ⟨item, hitem, endItem, hend, bt₁, hdel, h⟩ := h
  obtain ⟨hi, rfl⟩ := List.getElem?_eq_some_iff.1 hitem
  obtain ⟨hm, rfl⟩ := List.getElem?_eq_some_iff.1 hend
  have hb₁ := leafItemHashDelete_inv hdel
  refine ⟨hi, ?_⟩
  by_cases hmi : bt.items.length - 1 ≠ i
  · -- the end item moves into place `i`, and its offset changes in the table
    rw [if_pos hmi, Option.bind_eq_some_iff] at h
    obtain ⟨bt₄, hch, h⟩ := h
    rw [Option.some.injEq, Prod.mk.injEq] at h
    obtain ⟨rfl, -⟩ := h
    rw [leafItemHashChange_inv hch, hb₁]
    exact ⟨rfl, rfl, rfl, rfl, rfl⟩
  · -- the deleted item is the end item
    rw [if_neg hmi, Option.some.injEq, Prod.mk.injEq] at h
    obtain ⟨rfl, -⟩ := h
    have hmi' : bt.items.length - 1 = i := not_not.1 hmi
    rw [hb₁]
    refine ⟨rfl, ?_, rfl, rfl, rfl⟩
    show bt.items.dropLast = _
    simp only [hmi', List.set_getElem_self]

/-! ### The invariant -/

/-- An item whose value offset is aligned, `0` for an empty value, and whose value fits in a
btree item. -/
def ItemOk (item : Item) : Prop :=
  item.valOff % SCOUTFS_BTREE_VALUE_ALIGN = 0 ∧ (item.valLen = 0 → item.valOff = 0) ∧
    item.valLen ≤ SCOUTFS_BTREE_MAX_VAL_LEN

theorem valBytes_mod (len : ℕ) : valBytes len % SCOUTFS_BTREE_VALUE_ALIGN = 0 := by
  unfold valBytes roundUp SCOUTFS_BTREE_VALUE_ALIGN
  omega

theorem midFreeOff_mod (bt : Block) : midFreeOff bt % SCOUTFS_BTREE_VALUE_ALIGN = 0 := by
  unfold midFreeOff itemOff SIZEOF_BTREE_BLOCK SIZEOF_BTREE_ITEM SCOUTFS_BTREE_VALUE_ALIGN
  omega

/-- A value that `insert_value` placed at the end of an aligned middle free space. -/
theorem itemOk_of_insert {item : Item} {lo : ℕ} (hlo : lo % SCOUTFS_BTREE_VALUE_ALIGN = 0)
    (h0 : item.valLen = 0 → item.valOff = 0)
    (hne : item.valLen ≠ 0 → item.valOff + valBytes item.valLen = lo)
    (hlen : item.valLen ≤ SCOUTFS_BTREE_MAX_VAL_LEN) : ItemOk item := by
  refine ⟨?_, h0, hlen⟩
  by_cases hz : item.valLen = 0
  · rw [h0 hz]
    rfl
  · have := hne hz
    have := valBytes_mod item.valLen
    unfold SCOUTFS_BTREE_VALUE_ALIGN at *
    omega

/-- A leaf whose nonempty values lie apart between the end of its middle free space and the
hash table, whose `total_item_bytes` is the sum of `item_bytes` over its items, and whose items
and middle free space are aligned. -/
structure LeafOk (bt : Block) : Prop extends LeafInv bt where
  values : ValuesIn bt.items (midFreeOff bt + bt.midFreeLen) (valuesEnd bt)
  total : bt.totalItemBytes = (bt.items.map itemBytes).sum
  itemsOk : ∀ item ∈ bt.items, ItemOk item
  midAligned : bt.midFreeLen % SCOUTFS_BTREE_VALUE_ALIGN = 0

theorem LeafOk.space_le {bt : Block} (O : LeafOk bt) :
    midFreeOff bt + bt.midFreeLen ≤ valuesEnd bt := by
  rw [valuesEnd, if_pos O.leaf]
  exact O.space

theorem initBtreeBlock_leafOk : LeafOk (initBtreeBlock 0) where
  toLeafInv := initBtreeBlock_leafInv
  values := ⟨fun _ hi => absurd hi (Nat.not_lt_zero _), fun _ _ hi => absurd hi (Nat.not_lt_zero _)⟩
  total := rfl
  itemsOk := fun _ h => absurd h List.not_mem_nil
  midAligned := by decide

theorem sum_itemBytes (items : List Item) :
    (items.map itemBytes).sum =
      SIZEOF_BTREE_ITEM * items.length + (items.map fun item => valBytes item.valLen).sum := by
  induction items with
  | nil => rfl
  | cons item items ih =>
    rw [List.map_cons, List.sum_cons, ih, List.map_cons, List.sum_cons, List.length_cons, itemBytes]
    rw [Nat.mul_add, Nat.mul_one]
    omega

/-- A leaf with the same keys, bucket and level as an invariant one, and no more of its middle
free space used, keeps the hash table's part of the invariant. -/
theorem LeafInv.of_keys {bt bt' : Block} (I : LeafInv bt) (hlevel : bt'.level = bt.level)
    (hkeys : bt'.items.map Item.key = bt.items.map Item.key) (hbuckets : bt'.buckets = bt.buckets)
    (hspace : midFreeOff bt' + bt'.midFreeLen ≤ midFreeOff bt + bt.midFreeLen) : LeafInv bt' := by
  have hlen : bt'.items.length = bt.items.length := by
    rw [← List.length_map (f := Item.key), hkeys, List.length_map]
  refine ⟨hlevel.trans I.leaf, hkeys ▸ I.keys, le_trans hspace I.space, ?_⟩
  rw [hbuckets, hlen, offKey_congr hkeys]
  exact I.hash

/-! ### Creating an item -/

/-- `create_item` of a key the leaf does not hold keeps the invariant and sets the key. -/
theorem createItem_leafOk {bt bt' : Block} (O : LeafOk bt) {key : ScoutfsKey} {seq : UInt64}
    {flags : UInt8} {val : List UInt8} (hkey : key ∉ bt.items.map Item.key)
    (hmax : val.length ≤ SCOUTFS_BTREE_MAX_VAL_LEN) (h : createItem bt key seq flags val = some bt') :
    LeafOk bt' ∧ blockItems bt' = Function.update (blockItems bt) key (some ⟨seq, flags, val⟩) := by
  obtain ⟨hroom, valOff, h0, hne, hlevel, hitems, htotal, hmid, hdata⟩ := createItem_inv h
  -- the hash table's part of the invariant
  have hroom' : itemLenBytes val.length ≤ bt.midFreeLen := by
    rw [itemLenBytes_eq]
    exact_mod_cast hroom
  obtain ⟨bt'', hc, I', -⟩ := createItem_leafInv O.toLeafInv seq flags hkey hroom'
  rw [h, Option.some.injEq] at hc
  subst hc
  -- the middle free space lost the item struct and the value
  have hlo : midFreeOff bt' + bt'.midFreeLen + valBytes val.length =
      midFreeOff bt + bt.midFreeLen := by
    unfold midFreeOff itemOff
    rw [hitems, hmid, List.length_append, List.length_singleton]
    unfold SIZEOF_BTREE_ITEM at hroom ⊢
    rw [Nat.mul_add, Nat.mul_one]
    omega
  have hin := (valuesIn_iff.1 O.values).1
  -- the values already there start past the bytes written
  have hold : ∀ y ∈ bt.items, itemVal bt'.data y = itemVal bt.data y := by
    intro y hy
    rw [hdata]
    split_ifs with h0'
    · rfl
    · refine itemVal_writeBytes_of_le fun hny => ?_
      have := (hin y hy hny).1
      have := hne h0'
      have := le_valBytes val.length
      omega
  have hnew : itemVal bt'.data ⟨key, seq, valOff, val.length, flags⟩ = val := by
    rw [hdata]
    split_ifs with h0'
    · rw [List.length_eq_zero_iff.1 h0']
      rfl
    · exact itemVal_writeBytes _ _ ⟨key, seq, valOff, val.length, flags⟩ rfl
  have hentries : blockEntries bt' = blockEntries bt ++ [⟨key, ⟨seq, flags, val⟩⟩] := by
    rw [blockEntries, blockEntries, hitems, List.map_append, List.map_singleton, hnew]
    congr 1
    exact List.map_congr_left fun y hy => by rw [hold y hy]
  have hmod := midFreeOff_mod bt
  have hvb := valBytes_mod val.length
  have hmid' := O.midAligned
  unfold SCOUTFS_BTREE_VALUE_ALIGN at hmod hvb hmid'
  refine ⟨⟨I', ?_, ?_, fun y hy => ?_, ?_⟩, ?_⟩
  · rw [valuesEnd_congr hlevel, hitems]
    refine O.values.append (by omega) (fun hx => ?_) O.space_le
    dsimp only at hx ⊢
    have := hne hx
    exact ⟨by omega, by omega⟩
  · rw [htotal, hitems, List.map_append, List.sum_append, O.total, List.map_singleton,
      List.sum_singleton]
  · rw [hitems] at hy
    rcases List.mem_append.1 hy with hy | hy
    · exact O.itemsOk y hy
    · rw [List.mem_singleton.1 hy]
      exact itemOk_of_insert
        (by unfold SCOUTFS_BTREE_VALUE_ALIGN; omega) h0 hne hmax
  · rw [hmid]
    unfold SIZEOF_BTREE_ITEM SCOUTFS_BTREE_VALUE_ALIGN
    omega
  · show (fun k => (blockEntries bt').dlookup k) = _
    rw [hentries]
    exact List.dlookup_append_singleton (by rw [keys_blockEntries]; exact hkey)

/-! ### Updating a value -/

/-- `update_item_value` keeps the invariant and replaces the value of the item's key. -/
theorem updateItemValue_leafOk {bt bt' : Block} (O : LeafOk bt) {i : ℕ} {val : List UInt8}
    (hmax : val.length ≤ SCOUTFS_BTREE_MAX_VAL_LEN) (h : updateItemValue bt i val = some bt') :
    ∃ hi : i < bt.items.length, LeafOk bt' ∧ blockItems bt' =
      Function.update (blockItems bt) bt.items[i].key
        (some ⟨bt.items[i].seq, bt.items[i].flags, val⟩) := by
  obtain ⟨hi, valOff, h0, hne, hlevel, hbuckets, hitems, htotal, hmid, hdata⟩ :=
    updateItemValue_inv h
  refine ⟨hi, ?_⟩
  have hkeys : bt'.items.map Item.key = bt.items.map Item.key := by
    rw [hitems, List.map_set]
    dsimp only
    rw [← List.getElem_map Item.key, List.set_getElem_self]
    rw [List.length_map]
    exact hi
  have hlen : bt'.items.length = bt.items.length := by rw [hitems, List.length_set]
  have hoff : midFreeOff bt' = midFreeOff bt := by rw [midFreeOff, midFreeOff, hlen]
  have hin := (valuesIn_iff.1 O.values).1
  -- every value of the leaf starts past the bytes written
  have hold : ∀ y ∈ bt.items, itemVal bt'.data y = itemVal bt.data y := by
    intro y hy
    rw [hdata]
    split_ifs with h0'
    · rfl
    · refine itemVal_writeBytes_of_le fun hny => ?_
      have := (hin y hy hny).1
      have := (hne h0').2
      have := le_valBytes val.length
      omega
  have hnew : itemVal bt'.data { bt.items[i] with valOff := valOff, valLen := val.length } = val := by
    rw [hdata]
    split_ifs with h0'
    · rw [List.length_eq_zero_iff.1 h0']
      rfl
    · exact itemVal_writeBytes _ _ { bt.items[i] with valOff := valOff, valLen := val.length } rfl
  have hentries : blockEntries bt' = (blockEntries bt).set i
      ⟨bt.items[i].key, ⟨bt.items[i].seq, bt.items[i].flags, val⟩⟩ := by
    rw [blockEntries, blockEntries, hitems, List.map_set, hnew]
    congr 1
    exact List.map_congr_left fun y hy => by rw [hold y hy]
  have hmod := midFreeOff_mod bt
  have hvb := valBytes_mod val.length
  have hmid' := O.midAligned
  unfold SCOUTFS_BTREE_VALUE_ALIGN at hmod hvb hmid'
  refine ⟨⟨O.toLeafInv.of_keys hlevel hkeys hbuckets (by rw [hoff, hmid]; omega), ?_, ?_,
    fun y hy => ?_, ?_⟩, ?_⟩
  · rw [valuesEnd_congr hlevel, hitems, hoff, hmid]
    refine O.values.set hi (by omega) (fun hx => ?_) O.space_le
    dsimp only at hx ⊢
    have := hne hx
    exact ⟨by omega, by omega⟩
  · -- the item's aligned value length changed, the other items' did not
    have p₁ : List.Perm (bt'.items.map itemBytes)
        (itemBytes { bt.items[i] with valOff := valOff, valLen := val.length } ::
          (bt.items.eraseIdx i).map itemBytes) := by
      rw [hitems, ← List.map_cons]
      exact (List.set_perm_cons_eraseIdx hi _).map _
    have p₂ : List.Perm (bt.items.map itemBytes)
        (itemBytes bt.items[i] :: (bt.items.eraseIdx i).map itemBytes) := by
      rw [← List.map_cons]
      exact (List.getElem_cons_eraseIdx_perm hi).symm.map _
    rw [htotal, O.total, p₁.sum_eq, p₂.sum_eq, List.sum_cons, List.sum_cons]
    unfold itemBytes
    dsimp only
    omega
  · rw [hitems] at hy
    rcases List.mem_or_eq_of_mem_set hy with hy | rfl
    · exact O.itemsOk y hy
    · exact itemOk_of_insert
        (by unfold SCOUTFS_BTREE_VALUE_ALIGN; omega) h0 (fun hx => (hne hx).2) hmax
  · rw [hmid]
    unfold SCOUTFS_BTREE_VALUE_ALIGN
    omega
  · show (fun k => (blockEntries bt').dlookup k) = _
    rw [hentries]
    refine List.dlookup_set (nodupKeys_blockEntries O.keys) (by rw [blockEntries, List.length_map]; exact hi) ?_
    simp only [blockEntries, List.getElem_map]

/-! ### Deleting an item -/

/-- `delete_item` keeps the invariant and removes the item's key. -/
theorem deleteItem_leafOk {bt bt' : Block} (O : LeafOk bt) {i : ℕ} {useAfter ua : Option ℕ}
    (h : deleteItem bt i useAfter = some (bt', ua)) :
    ∃ hi : i < bt.items.length, LeafOk bt' ∧
      blockItems bt' = Function.update (blockItems bt) bt.items[i].key none := by
  obtain ⟨hi, hlevel, hitems, htotal, hmid, hdata⟩ := deleteItem_inv h
  obtain ⟨bt'', ua'', hd, I', hperm⟩ := deleteItem_leafInv O.toLeafInv hi useAfter
  rw [h, Option.some.injEq, Prod.mk.injEq] at hd
  obtain ⟨rfl, -⟩ := hd
  have hlen : bt'.items.length + 1 = bt.items.length := by
    have := hperm.length_eq
    rwa [List.length_cons] at this
  refine ⟨hi, ⟨I', ?_, ?_, fun y hy => O.itemsOk y (hperm.subset (List.mem_cons_of_mem _ hy)),
    ?_⟩, ?_⟩
  · -- the item struct went back to the middle free space: its end did not move
    have hlo : midFreeOff bt' + bt'.midFreeLen = midFreeOff bt + bt.midFreeLen := by
      unfold midFreeOff itemOff
      rw [hmid, ← hlen]
      unfold SIZEOF_BTREE_ITEM
      rw [Nat.mul_add, Nat.mul_one]
      omega
    rw [hlo, valuesEnd_congr hlevel]
    exact O.values.of_perm_cons hperm
  · have := (hperm.map itemBytes).sum_eq
    rw [List.map_cons, List.sum_cons] at this
    rw [htotal, O.total, ← this]
    omega
  · have := O.midAligned
    rw [hmid]
    unfold SIZEOF_BTREE_ITEM SCOUTFS_BTREE_VALUE_ALIGN at *
    omega
  · have p : List.Perm (⟨bt.items[i].key, ⟨bt.items[i].seq, bt.items[i].flags,
        itemVal bt.data bt.items[i]⟩⟩ :: blockEntries bt') (blockEntries bt) := by
      rw [blockEntries, blockEntries, hdata]
      simpa only [List.map_cons] using hperm.map fun item : Item =>
        (⟨item.key, ⟨item.seq, item.flags, itemVal bt.data item⟩⟩ : Σ _ : ScoutfsKey, ScoutfsBtreeItem)
    exact List.dlookup_of_perm_cons (nodupKeys_blockEntries O.keys) p

/-! ### Compacting the values -/

/-- A round of the compaction loop moves a nonempty value to an aligned place below an aligned
`to_off`: the loop keeps `to_off` aligned and the items `ItemOk`. -/
theorem compactLoop_itemsOk {s : ℕ → ℕ} :
    ∀ {k : ℕ} {b b' : Block} {t t' : ℕ}, compactLoop s k b t = some (b', t') →
      t % SCOUTFS_BTREE_VALUE_ALIGN = 0 → (∀ item ∈ b.items, ItemOk item) →
      t' % SCOUTFS_BTREE_VALUE_ALIGN = 0 ∧ ∀ item ∈ b'.items, ItemOk item
  | 0, b, b', t, t', h, ht, hb => by
    rw [compactLoop, Option.some.injEq, Prod.mk.injEq] at h
    obtain ⟨rfl, rfl⟩ := h
    exact ⟨ht, hb⟩
  | k + 1, b, b', t, t', h, ht, hb => by
    cases hit : b.items[s k]? with
    | none =>
      rw [compactLoop, hit] at h
      contradiction
    | some item =>
      have hvb := valBytes_mod item.valLen
      unfold SCOUTFS_BTREE_VALUE_ALIGN at hvb ht
      by_cases h0 : item.valLen = 0
      · rw [compactLoop, hit] at h
        dsimp only at h
        rw [if_pos h0] at h
        exact compactLoop_itemsOk h ht hb
      · rw [compactLoop_move hit h0] at h
        refine compactLoop_itemsOk h (by unfold SCOUTFS_BTREE_VALUE_ALIGN; omega) fun y hy => ?_
        have hy' : y ∈ b.items.set (s k) { item with valOff := t - valBytes item.valLen } := hy
        rcases List.mem_or_eq_of_mem_set hy' with hy' | rfl
        · exact hb y hy'
        · -- the moved value, at `to_off` less its aligned length
          obtain ⟨-, -, hlen⟩ := hb item (List.mem_of_getElem? hit)
          refine ⟨?_, fun h => absurd h h0, hlen⟩
          show (t - valBytes item.valLen) % SCOUTFS_BTREE_VALUE_ALIGN = 0
          unfold SCOUTFS_BTREE_VALUE_ALIGN
          omega

/-- What `compact_values` did when it could sort: the loop from the end of the space for values
over the sorted indices, then `mid_free_len` up to where the loop stopped. -/
theorem compactValues_false_inv {bt bt' : Block} {r : Int} (h : compactValues bt false = some (r, bt')) :
    ∃ b t, compactLoop (Heapsort.sortPriv (cmpSorted bt) (fun i => i) bt.items.length)
        bt.items.length bt (valuesEnd bt) = some (b, t) ∧
      bt' = { b with midFreeLen := t - midFreeOff b } := by
  rw [compactValues, if_neg Bool.false_ne_true] at h
  dsimp only at h
  have hto : (if bt.level = 0 then SCOUTFS_BLOCK_LG_SIZE - SCOUTFS_BTREE_LEAF_ITEM_HASH_BYTES
      else SCOUTFS_BLOCK_LG_SIZE) = valuesEnd bt := rfl
  rw [hto] at h
  split at h
  · cases h
  · rename_i b t hloop
    rw [Option.some.injEq, Prod.mk.injEq] at h
    exact ⟨b, t, hloop, h.2.symm⟩

theorem sum_valBytesAt (bt : Block) :
    ∑ i ∈ Finset.range bt.items.length, valBytesAt bt i =
      (bt.items.map fun item => valBytes item.valLen).sum := by
  obtain ⟨level, items, total, mid, buckets, data⟩ := bt
  induction items with
  | nil => rfl
  | cons item items ih =>
    rw [List.length_cons, Finset.sum_range_succ', List.map_cons, List.sum_cons, ← ih]
    rw [Nat.add_comm]
    rfl

/-- `compact_values` of a leaf keeps the invariant and the items, and leaves all the free space
of the leaf in the middle: the header, the items and the middle free space fill the space for
values. -/
theorem compactValues_leafOk {bt : Block} (O : LeafOk bt) :
    ∃ bt', compactValues bt false = some (0, bt') ∧ LeafOk bt' ∧ blockItems bt' = blockItems bt ∧
      bt'.totalItemBytes = bt.totalItemBytes ∧
      SIZEOF_BTREE_BLOCK + bt'.totalItemBytes + bt'.midFreeLen = valuesEnd bt := by
  obtain ⟨bt', heq, hlevel, hbuckets, htot, hlen, hitems, hv, hsum⟩ :=
    compactValues_spec O.space_le O.values
  -- the items but for their value offsets, with the bytes of their values
  have hget : ∀ i (hi : i < bt.items.length), ∃ hi' : i < bt'.items.length,
      bt'.items[i] = { bt.items[i] with valOff := bt'.items[i].valOff } ∧
        itemVal bt'.data bt'.items[i] = itemVal bt.data bt.items[i] :=
    fun i hi => ⟨hlen ▸ hi, hitems i hi (hlen ▸ hi)⟩
  have hmap : ∀ {β : Type} (f : Item → β), (∀ a : Item, ∀ o, f { a with valOff := o } = f a) →
      bt'.items.map f = bt.items.map f := by
    intro β f hf
    refine List.ext_getElem (by rw [List.length_map, List.length_map, hlen]) fun i h₁ h₂ => ?_
    rw [List.length_map] at h₂
    obtain ⟨hi', hfield, -⟩ := hget i h₂
    rw [List.getElem_map, List.getElem_map, hfield, hf]
  have hkeys : bt'.items.map Item.key = bt.items.map Item.key := hmap _ fun _ _ => rfl
  have hvb : bt'.items.map itemBytes = bt.items.map itemBytes := hmap _ fun _ _ => rfl
  have hend : valuesEnd bt' = valuesEnd bt := valuesEnd_congr hlevel
  have hsum' := sum_valBytesAt bt
  have hoff : midFreeOff bt' = midFreeOff bt := by
    rw [midFreeOff, midFreeOff, hlen]
  have hfill : SIZEOF_BTREE_BLOCK + bt'.totalItemBytes + bt'.midFreeLen = valuesEnd bt := by
    rw [htot, O.total, sum_itemBytes, ← hsum', ← hsum, hoff]
    unfold midFreeOff itemOff
    omega
  -- the loop keeps the items aligned
  obtain ⟨b, t, hloop, hbt⟩ := compactValues_false_inv heq
  have htop : valuesEnd bt % SCOUTFS_BTREE_VALUE_ALIGN = 0 := by
    rw [valuesEnd, if_pos O.leaf]
    decide
  obtain ⟨ht, hok⟩ := compactLoop_itemsOk hloop htop O.itemsOk
  refine ⟨bt', heq, ⟨⟨hlevel.trans O.leaf, hkeys ▸ O.keys, ?_, ?_⟩, hv, ?_,
    fun y hy => hok y (by rw [hbt] at hy; exact hy), ?_⟩, ?_, htot, hfill⟩
  · have := O.space
    rw [valuesEnd, if_pos O.leaf] at hsum
    omega
  · rw [hbuckets, hlen, offKey_congr hkeys]
    exact O.hash
  · rw [htot, O.total, hvb]
  · have := midFreeOff_mod b
    rw [hbt]
    show (t - midFreeOff b) % SCOUTFS_BTREE_VALUE_ALIGN = 0
    unfold SCOUTFS_BTREE_VALUE_ALIGN at *
    omega
  · refine blockItems_congr (List.ext_getElem (by rw [blockEntries, blockEntries,
      List.length_map, List.length_map, hlen]) fun i h₁ h₂ => ?_)
    rw [blockEntries, List.length_map] at h₂
    obtain ⟨hi', hfield, hbytes⟩ := hget i h₂
    simp only [blockEntries, List.getElem_map]
    rw [hbytes, hfield]

end BtreeItems

end Scoutfs
