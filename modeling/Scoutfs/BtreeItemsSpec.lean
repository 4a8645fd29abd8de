/-
The leaf item hash table of `btree.c` over runs of `create_item` and `delete_item`.

`LeafInv` is the invariant of a leaf: the keys of its items differ, the item array and the
middle free space end before the hash table, and the buckets are `LinearProbe.Exact` for the
offsets of the items, the key of an offset being the key of its item.  The space bound keeps
the items fewer than the buckets, so an insertion always finds an empty bucket.

* `leafItemHashSearch_eq_some` reads lookups off the invariant: the search returns the
  offset of the item with the key;
* `createItem_leafInv` and `deleteItem_leafInv`: `create_item` of a key the leaf does not
  hold, with room for the item, and `delete_item` of any item never reach a `BUG` and keep
  the invariant; the item array gains the new item, or loses the deleted one;
* `LeafRun.leafInv` carries the invariant over every run of them from a leaf, and
  `leafRun_hash_search` states what that gives a new leaf's later lookups and calls.
-/
import Scoutfs.BtreeItems

namespace Scoutfs

namespace BtreeItems

open LinearProbe

/-! ### Item offsets -/

/-- The offsets of the first `m` items. -/
def itemOffs (m : ℕ) : Finset ℕ := (Finset.range m).image itemOff

theorem itemOff_injective : Function.Injective itemOff := fun a b h => by
  unfold itemOff SIZEOF_BTREE_BLOCK SIZEOF_BTREE_ITEM at h
  omega

theorem itemOff_ne_zero (i : ℕ) : itemOff i ≠ 0 := by
  unfold itemOff SIZEOF_BTREE_BLOCK
  omega

@[simp] theorem offIndex_itemOff (i : ℕ) : offIndex (itemOff i) = i := by
  unfold offIndex itemOff SIZEOF_BTREE_BLOCK SIZEOF_BTREE_ITEM
  omega

theorem mem_itemOffs {m off : ℕ} : off ∈ itemOffs m ↔ ∃ i < m, itemOff i = off := by
  simp only [itemOffs, Finset.mem_image, Finset.mem_range]

theorem itemOff_mem_itemOffs {i m : ℕ} : itemOff i ∈ itemOffs m ↔ i < m := by
  rw [mem_itemOffs]
  exact ⟨fun ⟨j, hj, e⟩ => itemOff_injective e ▸ hj, fun h => ⟨i, h, rfl⟩⟩

theorem card_itemOffs (m : ℕ) : (itemOffs m).card = m := by
  rw [itemOffs, Finset.card_image_of_injective _ itemOff_injective, Finset.card_range]

theorem itemOffs_succ (m : ℕ) : itemOffs (m + 1) = insert (itemOff m) (itemOffs m) := by
  rw [itemOffs, Finset.range_add_one, Finset.image_insert]
  rfl

/-- Taking out the offset of item `i` and moving the last offset to it leaves the offsets of
one item fewer. -/
theorem itemOffs_move_last {i m : ℕ} (hi : i < m) :
    insert (itemOff i) (((itemOffs (m + 1)).erase (itemOff i)).erase (itemOff m)) =
      itemOffs m := by
  ext off
  simp only [Finset.mem_insert, Finset.mem_erase, mem_itemOffs]
  constructor
  · rintro (rfl | ⟨hne, -, j, hj, rfl⟩)
    · exact ⟨i, hi, rfl⟩
    · have hjm : j ≠ m := fun e => hne (congrArg itemOff e)
      exact ⟨j, by omega, rfl⟩
  · rintro ⟨j, hj, rfl⟩
    by_cases hji : j = i
    · exact Or.inl (congrArg itemOff hji)
    · exact Or.inr ⟨fun e => by have := itemOff_injective e; omega,
        fun e => hji (itemOff_injective e), j, by omega, rfl⟩

/-! ### The key of an offset -/

theorem offKey_eq (bt : Block) (off : ℕ) :
    offKey bt off = ((bt.items.map Item.key)[offIndex off]?).getD scoutfsKeySetZeros := by
  unfold offKey
  rw [List.getElem?_map]
  cases bt.items[offIndex off]? <;> rfl

theorem offKey_itemOff {bt : Block} {i : ℕ} (hi : i < bt.items.length) :
    offKey bt (itemOff i) = bt.items[i].key := by
  rw [offKey, offIndex_itemOff, List.getElem?_eq_getElem hi]

/-- Two blocks whose items have the same key at index `i` read the same key at its offset. -/
theorem offKey_itemOff_congr {bt bt' : Block} {i : ℕ}
    (h : (bt'.items.map Item.key)[i]? = (bt.items.map Item.key)[i]?) :
    offKey bt' (itemOff i) = offKey bt (itemOff i) := by
  rw [offKey_eq, offKey_eq, offIndex_itemOff, h]

theorem offKey_congr {bt bt' : Block} (h : bt'.items.map Item.key = bt.items.map Item.key) :
    offKey bt' = offKey bt :=
  funext fun off => by rw [offKey_eq, offKey_eq, h]

/-- The keys of a block's items differ: the key of an offset names the offset. -/
theorem offKey_injOn {bt : Block} (hk : (bt.items.map Item.key).Nodup) :
    Set.InjOn (offKey bt) (itemOffs bt.items.length) := by
  intro a ha b hb e
  obtain ⟨i, hi, rfl⟩ := mem_itemOffs.1 ha
  obtain ⟨j, hj, rfl⟩ := mem_itemOffs.1 hb
  rw [offKey_itemOff hi, offKey_itemOff hj] at e
  have hi' : i < (bt.items.map Item.key).length := by simpa using hi
  have hj' : j < (bt.items.map Item.key).length := by simpa using hj
  have hij : (bt.items.map Item.key)[i] = (bt.items.map Item.key)[j] := by
    simp only [List.getElem_map, e]
  rw [List.Nodup.getElem_inj_iff hk] at hij
  rw [hij]

/-! ### The invariant -/

/-- A leaf whose item keys differ, whose item array and middle free space end before the hash
table, and whose buckets hold exactly the offsets of its items. -/
structure LeafInv (bt : Block) : Prop where
  leaf : bt.level = 0
  keys : (bt.items.map Item.key).Nodup
  space : midFreeOff bt + bt.midFreeLen ≤
    SCOUTFS_BLOCK_LG_SIZE - SCOUTFS_BTREE_LEAF_ITEM_HASH_BYTES
  hash : Exact SCOUTFS_BTREE_LEAF_ITEM_HASH_NR (offKey bt) leafItemHashInd bt.buckets
    (itemOffs bt.items.length)

/-- The space bound leaves fewer items than buckets. -/
theorem LeafInv.length_lt {bt : Block} (I : LeafInv bt) :
    bt.items.length < SCOUTFS_BTREE_LEAF_ITEM_HASH_NR := by
  have := I.space
  rw [SCOUTFS_BTREE_LEAF_ITEM_HASH_NR_eq]
  unfold midFreeOff itemOff SIZEOF_BTREE_BLOCK SIZEOF_BTREE_ITEM SCOUTFS_BLOCK_LG_SIZE
    SCOUTFS_BTREE_LEAF_ITEM_HASH_BYTES at this
  rw [SCOUTFS_BTREE_LEAF_ITEM_HASH_NR_eq] at this
  omega

theorem initBtreeBlock_leafInv : LeafInv (initBtreeBlock 0) where
  leaf := rfl
  keys := List.nodup_nil
  space := by decide
  hash := by
    refine ⟨⟨fun v hv => ?_, fun j _ hj => absurd rfl hj, fun j _ _ _ hj => absurd rfl hj⟩,
      fun j _ hj => absurd rfl hj⟩
    simp only [initBtreeBlock, List.length_nil, itemOffs, Finset.range_zero, Finset.image_empty,
      Finset.notMem_empty] at hv

/-! ### Lookups -/

/-- `leaf_item_hash_search` returns the offset of the item with the key. -/
theorem leafItemHashSearch_eq_some {bt : Block} (I : LeafInv bt) {key : ScoutfsKey}
    {off : ℕ} :
    leafItemHashSearch bt key = some off ↔
      ∃ i, ∃ hi : i < bt.items.length, off = itemOff i ∧ bt.items[i].key = key := by
  rw [leafItemHashSearch, if_neg (by rw [I.leaf]; exact Nat.lt_irrefl 0),
    search_eq_some leafItemHashInd_lt I.hash (offKey_injOn I.keys), mem_itemOffs]
  constructor
  · rintro ⟨⟨i, hi, rfl⟩, hk⟩
    exact ⟨i, hi, rfl, (offKey_itemOff hi).symm.trans hk⟩
  · rintro ⟨i, hi, rfl, hk⟩
    exact ⟨⟨i, hi, rfl⟩, (offKey_itemOff hi).trans hk⟩

/-! ### Creating an item -/

/-- `insert_value` with room for the value takes its aligned length from the middle free
space and changes nothing but the bytes. -/
theorem insertValue_spec {bt : Block} {val : List UInt8}
    (hroom : valBytes val.length ≤ bt.midFreeLen) :
    ∃ valOff data, insertValue bt val =
      some ({ bt with midFreeLen := bt.midFreeLen - valBytes val.length, data := data }, valOff) := by
  unfold insertValue
  by_cases h0 : val.length = 0
  · rw [if_pos h0]
    refine ⟨0, bt.data, ?_⟩
    rw [h0]
    rfl
  · rw [if_neg h0, if_neg (Nat.not_lt.2 hroom)]
    exact ⟨_, _, rfl⟩

theorem createItem_leafInv {bt : Block} (I : LeafInv bt) {key : ScoutfsKey} (seq : UInt64)
    (flags : UInt8) {val : List UInt8} (hkey : key ∉ bt.items.map Item.key)
    (hroom : itemLenBytes val.length ≤ bt.midFreeLen) :
    ∃ bt', createItem bt key seq flags val = some bt' ∧ LeafInv bt' ∧
      bt'.items.map Item.key = bt.items.map Item.key ++ [key] := by
  rw [itemLenBytes_eq] at hroom
  have hroom' : SIZEOF_BTREE_ITEM + valBytes val.length ≤ bt.midFreeLen := by exact_mod_cast hroom
  -- the block with the new item at the end of its array
  set bt₁ : Block := { bt with midFreeLen := bt.midFreeLen - SIZEOF_BTREE_ITEM,
                               items := bt.items ++ [⟨key, seq, 0, 0, flags⟩] } with hbt₁
  have hkeys₁ : bt₁.items.map Item.key = bt.items.map Item.key ++ [key] := by
    rw [hbt₁, List.map_append]; rfl
  have hagree : ∀ v ∈ itemOffs bt.items.length, offKey bt₁ v = offKey bt v := by
    intro v hv
    obtain ⟨j, hj, rfl⟩ := mem_itemOffs.1 hv
    refine offKey_itemOff_congr ?_
    rw [hkeys₁, List.getElem?_append_left (by simpa using hj)]
  have hlen : bt.items.length < SCOUTFS_BTREE_LEAF_ITEM_HASH_NR := I.length_lt
  have hnew : offKey bt₁ (itemOff bt.items.length) = key := by
    rw [offKey_itemOff (i := bt.items.length) (by rw [hbt₁, List.length_append]; simp)]
    simp only [hbt₁, List.getElem_append_right (Nat.le_refl _), Nat.sub_self,
      List.getElem_cons_zero]
  -- the hash table gains the new offset
  obtain ⟨t', hadd, E'⟩ := add_exact leafItemHashInd_lt (I.hash.congr hagree)
    (v := itemOff bt.items.length) (by rw [itemOff_mem_itemOffs]; omega) (itemOff_ne_zero _)
    (by rw [card_itemOffs]; exact hlen)
  rw [hnew] at hadd
  have hins : leafItemHashInsert bt₁ key (itemOff bt.items.length) =
      some { bt₁ with buckets := t' } := by
    rw [leafItemHashInsert, if_neg (by rw [I.leaf]; exact Nat.lt_irrefl 0), hadd]
    rfl
  -- the value goes into the middle free space
  obtain ⟨valOff, data, hval⟩ := @insertValue_spec { bt₁ with buckets := t' } val
    (by show valBytes val.length ≤ bt.midFreeLen - SIZEOF_BTREE_ITEM; omega)
  -- the item gets its value's offset and length
  have hset : (bt.items ++ [(⟨key, seq, 0, 0, flags⟩ : Item)]).set bt.items.length
      ⟨key, seq, valOff, val.length, flags⟩ = bt.items ++ [⟨key, seq, valOff, val.length, flags⟩] := by
    rw [List.set_append_right _ _ (Nat.le_refl _), Nat.sub_self]
    rfl
  have hkeys' : (bt.items ++ [(⟨key, seq, valOff, val.length, flags⟩ : Item)]).map Item.key =
      bt.items.map Item.key ++ [key] := by
    rw [List.map_append]; rfl
  refine ⟨⟨bt.level, bt.items ++ [⟨key, seq, valOff, val.length, flags⟩],
    bt.totalItemBytes + itemBytes ⟨key, seq, valOff, val.length, flags⟩,
    bt.midFreeLen - SIZEOF_BTREE_ITEM - valBytes val.length, t', data⟩, ?_, ⟨I.leaf, ?_, ?_, ?_⟩,
    hkeys'⟩
  · rw [createItem, if_neg (by rw [itemLenBytes_eq]; exact_mod_cast Nat.not_lt.2 hroom')]
    simp only [Option.bind_eq_bind]
    rw [hins, Option.bind_some, hval, Option.bind_some]
    dsimp only
    rw [hset]
  · rw [hkeys']
    exact List.nodup_append.2 ⟨I.keys, List.nodup_singleton key,
      fun a ha b hb => by rw [List.mem_singleton.1 hb]; exact fun e => hkey (e ▸ ha)⟩
  · -- one more item, and its struct and value out of the middle free space
    have := I.space
    unfold midFreeOff itemOff at this ⊢
    unfold SIZEOF_BTREE_ITEM at this hroom' ⊢
    simp only [List.length_append, List.length_singleton]
    omega
  · have hk : offKey ⟨bt.level, bt.items ++ [⟨key, seq, valOff, val.length, flags⟩],
        bt.totalItemBytes + itemBytes ⟨key, seq, valOff, val.length, flags⟩,
        bt.midFreeLen - SIZEOF_BTREE_ITEM - valBytes val.length, t', data⟩ = offKey bt₁ :=
      offKey_congr (hkeys'.trans hkeys₁.symm)
    rw [hk, List.length_append, List.length_singleton, itemOffs_succ]
    exact E'

/-! ### Deleting an item -/

open List in
/-- Moving the last element into place `i` and dropping the last place loses the element at
`i` and nothing else. -/
theorem perm_cons_set_last_dropLast {α : Type} {l : List α} {i : ℕ} (hi : i < l.length) :
    List.Perm (l[i] :: (l.set i l[l.length - 1]).dropLast) l := by
  obtain ⟨d, x, rfl⟩ : ∃ d x, l = d ++ [x] :=
    ⟨l.dropLast, l.getLast (List.ne_nil_of_length_pos (by omega)),
      (List.dropLast_append_getLast _).symm⟩
  have hlast : (d ++ [x]).length - 1 < (d ++ [x]).length := by simp
  have hx : (d ++ [x])[(d ++ [x]).length - 1] = x := by simp
  rw [hx]
  rcases Nat.lt_or_ge i d.length with hid | hid
  · -- the last element takes the place of `d[i]`
    rw [List.set_append_left _ _ hid, List.dropLast_concat, List.getElem_append_left hid]
    calc List.Perm (d[i] :: d.set i x) (d[i] :: x :: d.eraseIdx i) :=
          (List.set_perm_cons_eraseIdx hid x).cons _
      _ ~ x :: d[i] :: d.eraseIdx i := List.Perm.swap _ _ _
      _ ~ x :: d := (List.getElem_cons_eraseIdx_perm hid).cons _
      _ ~ d ++ [x] := (List.perm_append_singleton x d).symm
  · -- `i` is the last place
    have hid' : i = d.length := by
      simp only [List.length_append, List.length_singleton] at hi
      omega
    subst hid'
    rw [List.set_append_right _ _ (Nat.le_refl _), Nat.sub_self, List.set_cons_zero,
      List.dropLast_concat, List.getElem_append_right (Nat.le_refl _)]
    simp only [Nat.sub_self, List.getElem_cons_zero]
    exact (List.perm_append_singleton x d).symm

/-- A leaf with one item fewer, its struct back in the middle free space, is a leaf again
once its buckets hold the offsets of the items left. -/
theorem LeafInv.of_delete {bt : Block} (I : LeafInv bt) {i m : ℕ} (hm : bt.items.length = m + 1)
    (hi : i < bt.items.length) {items : List Item} (hperm : List.Perm (bt.items[i] :: items) bt.items)
    {total : ℕ} {t : ℕ → ℕ} {data : ℕ → UInt8}
    (E : Exact SCOUTFS_BTREE_LEAF_ITEM_HASH_NR (offKey ⟨bt.level, items, total,
      bt.midFreeLen + SIZEOF_BTREE_ITEM, t, data⟩) leafItemHashInd t (itemOffs m)) :
    LeafInv ⟨bt.level, items, total, bt.midFreeLen + SIZEOF_BTREE_ITEM, t, data⟩ := by
  have hlen : items.length = m := by
    have := hperm.length_eq
    rw [List.length_cons] at this
    omega
  refine ⟨I.leaf, ?_, ?_, by rw [hlen]; exact E⟩
  · have := (hperm.map Item.key).nodup_iff.2 I.keys
    exact this.of_cons
  · have := I.space
    unfold midFreeOff itemOff at this ⊢
    unfold SIZEOF_BTREE_ITEM at this ⊢
    dsimp only
    rw [hlen]
    rw [hm] at this
    omega

theorem deleteItem_leafInv {bt : Block} (I : LeafInv bt) {i : ℕ} (hi : i < bt.items.length)
    (useAfter : Option ℕ) :
    ∃ bt' ua, deleteItem bt i useAfter = some (bt', ua) ∧ LeafInv bt' ∧
      List.Perm (bt.items[i] :: bt'.items) bt.items := by
  obtain ⟨m, hm⟩ : ∃ m, bt.items.length = m + 1 := ⟨bt.items.length - 1, by omega⟩
  have hmlt : m < bt.items.length := by omega
  have hleaf : ¬ bt.level > 0 := by rw [I.leaf]; exact Nat.lt_irrefl 0
  -- the offset of item `i` leaves the hash table
  obtain ⟨t₁, hrem, E₁⟩ := remove_exact leafItemHashInd_lt I.hash
    (itemOff_mem_itemOffs.2 hi) (by rw [card_itemOffs]; exact I.length_lt)
  rw [offKey_itemOff hi] at hrem
  rw [hm] at E₁
  have hdel : leafItemHashDelete bt bt.items[i].key (itemOff i) =
      some { bt with buckets := t₁ } := by
    rw [leafItemHashDelete, if_neg hleaf, hrem]
    rfl
  -- the end item moves into place `i`
  have hperm : List.Perm (bt.items[i] :: (bt.items.set i bt.items[m]).dropLast) bt.items := by
    have := perm_cons_set_last_dropLast hi
    simp only [hm, Nat.add_sub_cancel] at this
    exact this
  have hbind : deleteItem bt i useAfter = (leafItemHashDelete bt bt.items[i].key (itemOff i)).bind
      fun bt₁ => if m ≠ i then
        (leafItemHashChange
          { bt₁ with midFreeLen := bt₁.midFreeLen + SIZEOF_BTREE_ITEM,
                     totalItemBytes := bt₁.totalItemBytes - itemBytes bt.items[i],
                     items := (bt₁.items.set i bt.items[m]).dropLast }
          bt.items[m].key (itemOff i) (itemOff m)).bind fun bt₄ =>
          some (bt₄, if useAfter = some m then some i else useAfter)
      else
        some ({ bt₁ with midFreeLen := bt₁.midFreeLen + SIZEOF_BTREE_ITEM,
                         totalItemBytes := bt₁.totalItemBytes - itemBytes bt.items[i],
                         items := bt₁.items.dropLast }, useAfter) := by
    rw [deleteItem]
    simp only [Option.bind_eq_bind, hm, Nat.add_sub_cancel, List.getElem?_eq_getElem hi,
      List.getElem?_eq_getElem hmlt, Option.bind_some]
  by_cases hmi : m = i
  · -- the deleted item is the end item: nothing moves
    subst hmi
    refine ⟨⟨bt.level, (bt.items.set m bt.items[m]).dropLast,
      bt.totalItemBytes - itemBytes bt.items[m], bt.midFreeLen + SIZEOF_BTREE_ITEM, t₁, bt.data⟩,
      useAfter, ?_, I.of_delete hm hi hperm ?_, hperm⟩
    · rw [hbind, hdel, Option.bind_some, if_neg (fun h => h rfl)]
      dsimp only
      rw [List.set_getElem_self]
    · rw [itemOffs_succ, Finset.erase_insert (by rw [itemOff_mem_itemOffs]; omega)] at E₁
      refine E₁.congr fun v hv => ?_
      obtain ⟨j, hj, rfl⟩ := mem_itemOffs.1 hv
      refine offKey_itemOff_congr ?_
      simp only [List.getElem?_map, List.getElem?_dropLast, List.length_set, hm,
        Nat.add_sub_cancel, if_pos hj, List.getElem?_set_ne (Nat.ne_of_gt hj)]
  · -- the end item moves into place `i` and its offset changes in the table
    have him : i < m := by omega
    -- read keys with the end item already in place `i`
    have hagree : ∀ v ∈ (itemOffs (m + 1)).erase (itemOff i),
        offKey { bt with items := bt.items.set i bt.items[m] } v = offKey bt v := by
      intro v hv
      obtain ⟨hvi, hv⟩ := Finset.mem_erase.1 hv
      obtain ⟨j, hj, rfl⟩ := mem_itemOffs.1 hv
      refine offKey_itemOff_congr ?_
      have hij : i ≠ j := fun e => hvi (congrArg itemOff e.symm)
      simp only [List.map_set, List.getElem?_set_ne hij]
    have E₂ := E₁.congr hagree
    have hkey : offKey { bt with items := bt.items.set i bt.items[m] } (itemOff i) =
        offKey { bt with items := bt.items.set i bt.items[m] } (itemOff m) := by
      rw [offKey_itemOff (by simpa using hi), offKey_itemOff (by simpa using hmlt)]
      simp only [List.getElem_set_self, List.getElem_set_ne (Ne.symm hmi)]
    obtain ⟨t₂, hch, E₃⟩ := change_exact leafItemHashInd_lt E₂
      (show itemOff m ∈ (itemOffs (m + 1)).erase (itemOff i) from
        Finset.mem_erase.2 ⟨fun e => hmi (itemOff_injective e), itemOff_mem_itemOffs.2 (by omega)⟩)
      (show itemOff i ∉ (itemOffs (m + 1)).erase (itemOff i) from Finset.notMem_erase _ _)
      (itemOff_ne_zero i) hkey
    rw [offKey_itemOff (by simpa using hmlt), List.getElem_set_ne (Ne.symm hmi)] at hch
    rw [itemOffs_move_last him] at E₃
    refine ⟨⟨bt.level, (bt.items.set i bt.items[m]).dropLast,
      bt.totalItemBytes - itemBytes bt.items[i], bt.midFreeLen + SIZEOF_BTREE_ITEM, t₂, bt.data⟩,
      if useAfter = some m then some i else useAfter, ?_, I.of_delete hm hi hperm ?_, hperm⟩
    · rw [hbind, hdel, Option.bind_some, if_pos hmi]
      dsimp only
      rw [leafItemHashChange, if_neg hleaf, hch]
      rfl
    · refine E₃.congr fun v hv => ?_
      obtain ⟨j, hj, rfl⟩ := mem_itemOffs.1 hv
      refine offKey_itemOff_congr ?_
      simp only [List.getElem?_map, List.getElem?_dropLast, List.length_set, hm,
        Nat.add_sub_cancel, if_pos hj]

/-! ### Runs -/

/-- The leaves that runs of `create_item` and `delete_item` reach from `bt₀`: each
`create_item` of a key the leaf does not hold, with room for the item and its value (as the
callers make sure), each `delete_item` of an item of the leaf. -/
inductive LeafRun (bt₀ : Block) : Block → Prop
  | init : LeafRun bt₀ bt₀
  | create {bt bt' : Block} {key : ScoutfsKey} {seq : UInt64} {flags : UInt8}
      {val : List UInt8} :
      LeafRun bt₀ bt → key ∉ bt.items.map Item.key → itemLenBytes val.length ≤ bt.midFreeLen →
      createItem bt key seq flags val = some bt' → LeafRun bt₀ bt'
  | delete {bt bt' : Block} {i : ℕ} {useAfter ua : Option ℕ} :
      LeafRun bt₀ bt → i < bt.items.length → deleteItem bt i useAfter = some (bt', ua) →
      LeafRun bt₀ bt'

/-- Every leaf of a run from a leaf satisfies the invariant. -/
theorem LeafRun.leafInv {bt₀ bt : Block} (h₀ : LeafInv bt₀) (hrun : LeafRun bt₀ bt) :
    LeafInv bt := by
  induction hrun with
  | init => exact h₀
  | create _ hkey hroom hc ih =>
    obtain ⟨bt'', hc', I', -⟩ := createItem_leafInv ih _ _ hkey hroom
    rw [hc] at hc'
    cases hc'
    exact I'
  | delete _ hi hd ih =>
    obtain ⟨bt'', ua'', hd', I', -⟩ := deleteItem_leafInv ih hi _
    rw [hd] at hd'
    cases hd'
    exact I'

/-- Over every run of `create_item` and `delete_item` from a new leaf, `leaf_item_hash_search`
finds exactly the item with the key, and no later `create_item` or `delete_item` within the
callers' conditions reaches a `BUG` of the hash table or the free space. -/
theorem leafRun_hash_search {bt : Block} (hrun : LeafRun (initBtreeBlock 0) bt) :
    (∀ key off, leafItemHashSearch bt key = some off ↔
      ∃ i, ∃ hi : i < bt.items.length, off = itemOff i ∧ bt.items[i].key = key) ∧
    (∀ key seq flags val, key ∉ bt.items.map Item.key →
      itemLenBytes val.length ≤ bt.midFreeLen → createItem bt key seq flags val ≠ none) ∧
    (∀ i useAfter, i < bt.items.length → deleteItem bt i useAfter ≠ none) := by
  have I := hrun.leafInv initBtreeBlock_leafInv
  refine ⟨fun key off => leafItemHashSearch_eq_some I, fun key seq flags val hkey hroom => ?_,
    fun i useAfter hi => ?_⟩
  · obtain ⟨bt', hc, -⟩ := createItem_leafInv I seq flags hkey hroom
    rw [hc]
    exact Option.some_ne_none _
  · obtain ⟨bt', ua, hd, -⟩ := deleteItem_leafInv I hi useAfter
    rw [hd]
    exact Option.some_ne_none _

set_option maxRecDepth 8000 in
/-- A new leaf given the keys `1` and `856`, which share a home bucket, and then `2`, loses
its first item: the delete empties key 1's bucket and rehashes key 856 into it, and key 2's
item moves into the freed slot. -/
theorem leafRun_hash_search_rehash : ∃ bt, LeafRun (initBtreeBlock 0) bt ∧
    bt.items.map Item.key = [⟨1, 2, 0, 0, 0, 0⟩, ⟨1, 856, 0, 0, 0, 0⟩] ∧
    leafItemHashInd ⟨1, 856, 0, 0, 0, 0⟩ = leafItemHashInd ⟨1, 1, 0, 0, 0, 0⟩ ∧
    bt.buckets (leafItemHashInd ⟨1, 856, 0, 0, 0, 0⟩) = itemOff 1 ∧
    ((∀ key off, leafItemHashSearch bt key = some off ↔
      ∃ i, ∃ hi : i < bt.items.length, off = itemOff i ∧ bt.items[i].key = key) ∧
    (∀ key seq flags val, key ∉ bt.items.map Item.key →
      itemLenBytes val.length ≤ bt.midFreeLen → createItem bt key seq flags val ≠ none) ∧
    (∀ i useAfter, i < bt.items.length → deleteItem bt i useAfter ≠ none)) := by
  have h1 := @LeafRun.create (initBtreeBlock 0) _ _ ⟨1, 1, 0, 0, 0, 0⟩ 0 0 [1, 2, 3]
    LeafRun.init (by decide) (by decide) rfl
  have h2 := @LeafRun.create (initBtreeBlock 0) _ _ ⟨1, 856, 0, 0, 0, 0⟩ 0 0 [4]
    h1 (by decide) (by decide) rfl
  have h3 := @LeafRun.create (initBtreeBlock 0) _ _ ⟨1, 2, 0, 0, 0, 0⟩ 0 0 []
    h2 (by decide) (by decide) rfl
  have h4 := @LeafRun.delete (initBtreeBlock 0) _ _ 0 none _ h3 (by decide) rfl
  exact ⟨_, h4, by decide, by decide, by decide, leafRun_hash_search h4⟩

end BtreeItems

end Scoutfs
