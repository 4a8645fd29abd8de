/-
The item calls of a btree of at most one block meet the operations on the map of its items.

The abstract model is a btree as the map of its items (`BtreeItems`), with `itemsLookup`,
`itemsInsert`, `itemsUpdate`, `itemsForce` and `itemsDelete` saying what each call is for.  A
root's block holds the items `rootItems`.  `RootOk` (the leaf invariant `LeafOk`, when there is
a leaf) holds of every root the calls reach from an empty btree (`Reach.rootOk`), and from any
such root every call meets its operation (`Refines`): it returns the operation's result and the
items after it, or fails in a call out of the btree and leaves the items as they were, or splits
a leaf at least 80% full without room for the item, which makes the btree taller.

What carries this is `btreeWalk_spec`: the walk reaches a leaf holding the root's items with
room for the item, because `try_split` compacts a leaf less than 80% full and compaction leaves
all the free space of a leaf in the middle (`trySplit_spec`).  So `create_item` and
`update_item_value` never reach their `BUG_ON` of too little space.
-/
import Scoutfs.BtreeRoot
import Scoutfs.BtreeValues

namespace Scoutfs

namespace BtreeItems

/-! ### The btree as a map of items -/

/-- A lookup: the value of the key's item. -/
def itemsLookup (m : BtreeItems) (key : ScoutfsKey) : Except Int (List UInt8) :=
  match m key with
  | some item => .ok item.val
  | none => .error (-ENOENT)

/-- An insertion of a new item, with seq and flags zero. -/
def itemsInsert (m : BtreeItems) (key : ScoutfsKey) (val : List UInt8) : Int × BtreeItems :=
  if val.length > SCOUTFS_BTREE_MAX_VAL_LEN then (-EINVAL, m)
  else
    match m key with
    | some _ => (-EEXIST, m)
    | none => (0, Function.update m key (some ⟨0, 0, val⟩))

/-- A new value for an existing item, which keeps its seq and flags. -/
def itemsUpdate (m : BtreeItems) (key : ScoutfsKey) (val : List UInt8) : Int × BtreeItems :=
  if val.length > SCOUTFS_BTREE_MAX_VAL_LEN then (-EINVAL, m)
  else
    match m key with
    | some item => (0, Function.update m key (some { item with val := val }))
    | none => (-ENOENT, m)

/-- An update, or an insertion when the key is missing. -/
def itemsForce (m : BtreeItems) (key : ScoutfsKey) (val : List UInt8) : Int × BtreeItems :=
  if val.length > SCOUTFS_BTREE_MAX_VAL_LEN then (-EINVAL, m)
  else
    match m key with
    | some item => (0, Function.update m key (some { item with val := val }))
    | none => (0, Function.update m key (some ⟨0, 0, val⟩))

/-- A deletion of an existing item. -/
def itemsDelete (m : BtreeItems) (key : ScoutfsKey) : Int × BtreeItems :=
  match m key with
  | some _ => (0, Function.update m key none)
  | none => (-ENOENT, m)

/-! ### Roots -/

/-- The items of a btree of at most one block. -/
def rootItems : Option Block → BtreeItems
  | none => fun _ => none
  | some bt => blockItems bt

/-- The invariant of a root: its block, if any, is a leaf with `LeafOk`. -/
def RootOk : Option Block → Prop
  | none => True
  | some bt => LeafOk bt

/-- A failure of a call out of the btree: the allocation of a new block, the `kmalloc_array`
of `compact_values`, or `scoutfs_free_meta`. -/
def EnvFailure (env : Env) (r : Int) : Prop :=
  (r = env.allocRet ∧ env.allocRet ≠ 0) ∨ (r = - ENOMEM ∧ env.sortAllocFails = true) ∨
    (r = env.freeRet ∧ env.freeRet ≠ 0)

/-- A call on a root meets an operation on its items: it splits a leaf at least 80% full
without room for an item of `valLen`, or it returns with the invariant kept, and with the
operation's result or a failure out of the btree that leaves the items. -/
def Refines (env : Env) (root : Option Block) (valLen : ℕ) (call : Option (Int × Option Block))
    (op : BtreeItems → Int × BtreeItems) : Prop :=
  (∃ bt, root = some bt ∧ midFreeItemRoom bt valLen = false ∧ 80 ≤ itemFullPct bt ∧
      call = none) ∨
    ∃ r root', call = some (r, root') ∧ RootOk root' ∧
      ((r, rootItems root') = op (rootItems root) ∨
        EnvFailure env r ∧ rootItems root' = rootItems root)

/-! ### Lookups in a leaf -/

theorem blockItems_initBtreeBlock : blockItems (initBtreeBlock 0) = rootItems none := rfl

/-- The item at index `i` is what the map holds at its key. -/
theorem blockItems_getElem {bt : Block} (hk : (bt.items.map Item.key).Nodup) {i : ℕ}
    (hi : i < bt.items.length) :
    blockItems bt bt.items[i].key =
      some ⟨bt.items[i].seq, bt.items[i].flags, itemVal bt.data bt.items[i]⟩ := by
  show (blockEntries bt).dlookup bt.items[i].key = _
  refine (List.mem_dlookup_iff (nodupKeys_blockEntries hk)).2 ?_
  exact List.mem_map.2 ⟨bt.items[i], List.getElem_mem hi, rfl⟩

/-- What `leaf_item_hash_search` finds in a leaf: the item of the key, or no item and the key
is missing from the map. -/
theorem leafItemHashSearch_cases {bt : Block} (O : LeafOk bt) (key : ScoutfsKey) :
    (∃ i, ∃ hi : i < bt.items.length, leafItemHashSearch bt key = some (itemOff i) ∧
      bt.items[i].key = key) ∨
    (leafItemHashSearch bt key = none ∧ blockItems bt key = none) := by
  cases hs : leafItemHashSearch bt key with
  | some off =>
    obtain ⟨i, hi, rfl, hk⟩ := (leafItemHashSearch_eq_some O.toLeafInv).1 hs
    exact Or.inl ⟨i, hi, rfl, hk⟩
  | none =>
    refine Or.inr ⟨rfl, blockItems_eq_none.2 fun hmem => ?_⟩
    obtain ⟨item, hitem, hk⟩ := List.mem_map.1 hmem
    obtain ⟨i, hi, rfl⟩ := List.mem_iff_getElem.1 hitem
    have := (leafItemHashSearch_eq_some O.toLeafInv).2 ⟨i, hi, rfl, hk⟩
    rw [hs] at this
    cases this

/-! ### Room for an item -/

theorem valBytes_le (len : ℕ) : valBytes len ≤ len + 7 := by
  unfold valBytes roundUp SCOUTFS_BTREE_VALUE_ALIGN
  omega

theorem midFreeItemRoom_iff {bt : Block} {valLen : ℕ} :
    midFreeItemRoom bt valLen = true ↔ SIZEOF_BTREE_ITEM + valBytes valLen ≤ bt.midFreeLen := by
  rw [midFreeItemRoom, decide_eq_true_iff, itemLenBytes_eq]
  exact Int.ofNat_le

/-- A leaf less than 80% full holds an item of any valid length once its free space is all in
the middle. -/
theorem room_of_fill {bt bt' : Block} (hleaf : bt.level = 0) {valLen : ℕ}
    (hlen : valLen ≤ SCOUTFS_BTREE_MAX_VAL_LEN) (hpct : itemFullPct bt < 80)
    (hfill : SIZEOF_BTREE_BLOCK + bt.totalItemBytes + bt'.midFreeLen = valuesEnd bt) :
    midFreeItemRoom bt' valLen = true := by
  rw [midFreeItemRoom_iff]
  have := valBytes_le valLen
  rw [valuesEnd, if_pos hleaf, SCOUTFS_BTREE_LEAF_ITEM_HASH_BYTES,
    SCOUTFS_BTREE_LEAF_ITEM_HASH_NR_eq] at hfill
  unfold itemFullPct at hpct
  unfold SCOUTFS_BTREE_MAX_VAL_LEN at hlen
  unfold SIZEOF_BTREE_ITEM
  unfold SIZEOF_BTREE_BLOCK SCOUTFS_BLOCK_LG_SIZE at hfill hpct
  omega

/-- `try_split` of a leaf without a parent: it splits a leaf at least 80% full without room
for the item; otherwise the leaf keeps its items and the invariant, and has room for the item
unless the `kmalloc_array` of `compact_values` failed. -/
theorem trySplit_spec {bt : Block} (O : LeafOk bt) {valLen : ℕ}
    (hlen : valLen ≤ SCOUTFS_BTREE_MAX_VAL_LEN) (env : Env) :
    (midFreeItemRoom bt valLen = false ∧ 80 ≤ itemFullPct bt ∧ trySplit env valLen bt = none) ∨
    ∃ r bt', trySplit env valLen bt = some (r, bt') ∧ LeafOk bt' ∧ blockItems bt' = blockItems bt ∧
      (r = 0 ∧ midFreeItemRoom bt' valLen = true ∨
        r = - ENOMEM ∧ env.sortAllocFails = true ∧ bt' = bt) := by
  have hlevel : ¬ bt.level > 0 := by rw [O.leaf]; exact Nat.lt_irrefl 0
  unfold trySplit
  dsimp only
  rw [if_neg hlevel]
  by_cases hroom : midFreeItemRoom bt valLen = true
  · -- the item fits
    rw [if_pos hroom]
    exact Or.inr ⟨0, bt, rfl, O, rfl, Or.inl ⟨rfl, hroom⟩⟩
  rw [if_neg hroom]
  by_cases hpct : itemFullPct bt < 80
  · -- the leaf is compacted
    rw [if_pos hpct]
    right
    cases hfail : env.sortAllocFails with
    | true => exact ⟨- ENOMEM, bt, rfl, O, rfl, Or.inr ⟨rfl, rfl, rfl⟩⟩
    | false =>
      obtain ⟨bt', heq, O', hitems, htot, hfill⟩ := compactValues_leafOk O
      rw [htot] at hfill
      exact ⟨0, bt', heq, O', hitems, Or.inl ⟨rfl, room_of_fill O.leaf hlen hpct hfill⟩⟩
  · -- the split
    rw [if_neg hpct]
    exact Or.inl ⟨Bool.eq_false_iff.2 hroom, by omega, rfl⟩

/-! ### The walk -/

/-- A new leaf has room for an item of any valid length. -/
theorem initBtreeBlock_room {valLen : ℕ} (hlen : valLen ≤ SCOUTFS_BTREE_MAX_VAL_LEN) :
    midFreeItemRoom (initBtreeBlock 0) valLen = true := by
  rw [midFreeItemRoom_iff]
  have := valBytes_le valLen
  unfold SCOUTFS_BTREE_MAX_VAL_LEN at hlen
  show SIZEOF_BTREE_ITEM + valBytes valLen ≤ initMidFreeLen 0
  rw [initMidFreeLen, if_pos rfl, SCOUTFS_BTREE_LEAF_ITEM_HASH_BYTES,
    SCOUTFS_BTREE_LEAF_ITEM_HASH_NR_eq]
  unfold SIZEOF_BTREE_ITEM SIZEOF_BTREE_BLOCK SCOUTFS_BLOCK_LG_SIZE
  omega

/-- `btree_walk` in a btree of at most one block: it splits the leaf, or fails (`-ENOENT` in
an empty btree without `BTW_INSERT`, or a failure out of the btree), or reaches a leaf that
holds the root's items, with room for the item when it inserts. -/
theorem btreeWalk_spec {root : Option Block} (h : RootOk root) (env : Env) (insert delete : Bool)
    {valLen : ℕ} (hlen : valLen ≤ SCOUTFS_BTREE_MAX_VAL_LEN) :
    (∃ bt, root = some bt ∧ midFreeItemRoom bt valLen = false ∧ 80 ≤ itemFullPct bt ∧
      btreeWalk env root insert delete valLen = none) ∨
    (∃ ret, btreeWalk env root insert delete valLen = some (.error ret) ∧
      (ret = -ENOENT ∧ root = none ∧ insert = false ∨ EnvFailure env ret)) ∨
    ∃ bt, btreeWalk env root insert delete valLen = some (.ok bt) ∧ LeafOk bt ∧
      blockItems bt = rootItems root ∧ (insert = true → midFreeItemRoom bt valLen = true) := by
  cases root with
  | none =>
    -- an empty btree gets a new leaf when inserting
    unfold btreeWalk
    cases insert with
    | false => exact Or.inr (Or.inl ⟨-ENOENT, rfl, Or.inl ⟨rfl, rfl, rfl⟩⟩)
    | true =>
      by_cases halloc : env.allocRet ≠ 0
      · refine Or.inr (Or.inl ⟨env.allocRet, ?_, Or.inr (Or.inl ⟨rfl, halloc⟩)⟩)
        rw [if_neg (by decide), if_pos halloc]
      · refine Or.inr (Or.inr ⟨initBtreeBlock 0, ?_, initBtreeBlock_leafOk, rfl,
          fun _ => initBtreeBlock_room hlen⟩)
        rw [if_neg (by decide), if_neg halloc]
  | some bt =>
    have O : LeafOk bt := h
    simp only [btreeWalk]
    rw [if_neg (by rw [O.leaf]; exact fun h => h rfl)]
    by_cases hflags : (insert || delete) = true
    · rw [if_pos hflags]
      rcases trySplit_spec O hlen env with ⟨hroom, hpct, hsplit⟩ | ⟨r, bt', hsplit, O', hitems, hr⟩
      · exact Or.inl ⟨bt, rfl, hroom, hpct, by rw [hsplit]; rfl⟩
      · rw [hsplit]
        rcases hr with ⟨rfl, hroom⟩ | ⟨rfl, hfail, rfl⟩
        · exact Or.inr (Or.inr ⟨bt', rfl, O', hitems, fun _ => hroom⟩)
        · exact Or.inr (Or.inl ⟨- ENOMEM, rfl, Or.inr (Or.inr (Or.inl ⟨rfl, hfail⟩))⟩)
    · -- a lookup does not change the leaf
      rw [if_neg hflags]
      refine Or.inr (Or.inr ⟨bt, rfl, O, rfl, fun hins => ?_⟩)
      rw [hins, Bool.true_or] at hflags
      exact absurd rfl hflags

/-! ### The calls -/

/-- A call that walks the btree and then works on the leaf meets an operation when its work on
any leaf the walk reaches does: the walk's split and failures are the call's, and an empty
btree without `BTW_INSERT` is a missing key. -/
theorem Refines.of_walk {root : Option Block} (h : RootOk root) (env : Env) {insert delete : Bool}
    {valLen : ℕ} (hlen : valLen ≤ SCOUTFS_BTREE_MAX_VAL_LEN) {call : Option (Int × Option Block)}
    {op : BtreeItems → Int × BtreeItems}
    (hsplit : btreeWalk env root insert delete valLen = none → call = none)
    (herr : ∀ ret, btreeWalk env root insert delete valLen = some (.error ret) →
      call = some (ret, root))
    (hnoent : insert = false → op (rootItems none) = (-ENOENT, rootItems none))
    (hok : ∀ bt, btreeWalk env root insert delete valLen = some (.ok bt) → LeafOk bt →
      (insert = true → midFreeItemRoom bt valLen = true) →
      ∃ r root', call = some (r, root') ∧ RootOk root' ∧
        ((r, rootItems root') = op (blockItems bt) ∨
          EnvFailure env r ∧ rootItems root' = blockItems bt)) :
    Refines env root valLen call op := by
  rcases btreeWalk_spec h env insert delete hlen with
    ⟨bt, hroot, hroom, hpct, hw⟩ | ⟨ret, hw, hret⟩ | ⟨bt, hw, O, hitems, hroom⟩
  · exact Or.inl ⟨bt, hroot, hroom, hpct, hsplit hw⟩
  · -- the walk failed and the root is as it was
    refine Or.inr ⟨ret, root, herr ret hw, h, ?_⟩
    rcases hret with ⟨rfl, rfl, hins⟩ | hfail
    · exact Or.inl (hnoent hins).symm
    · exact Or.inr ⟨hfail, rfl⟩
  · obtain ⟨r, root', hcall, O', hop⟩ := hok bt hw O hroom
    rw [hitems] at hop
    exact Or.inr ⟨r, root', hcall, O', hop⟩

/-- A value of a valid length. -/
theorem valLen_le_of_invalidItem {len : ℕ} (h : ¬ invalidItem len = true) :
    len ≤ SCOUTFS_BTREE_MAX_VAL_LEN := by
  rw [invalidItem, decide_eq_true_iff] at h
  omega

/-- A value too long for an item is refused and changes nothing. -/
theorem refines_invalid {root : Option Block} (h : RootOk root) (env : Env) {len : ℕ}
    {op : BtreeItems → Int × BtreeItems} (hop : op (rootItems root) = (-EINVAL, rootItems root)) :
    Refines env root len (some (-EINVAL, root)) op :=
  Or.inr ⟨-EINVAL, root, rfl, h, Or.inl hop.symm⟩

theorem updateItemValue_isSome {bt : Block} {i : ℕ} (hi : i < bt.items.length)
    {val : List UInt8} (hroom : valBytes val.length ≤ bt.midFreeLen) :
    ∃ bt', updateItemValue bt i val = some bt' := by
  rw [updateItemValue, List.getElem?_eq_getElem hi]
  simp only [Option.bind_eq_bind, Option.bind_some]
  unfold insertValue
  dsimp only
  by_cases h0 : val.length = 0
  · rw [if_pos h0]
    exact ⟨_, rfl⟩
  · rw [if_neg h0, if_neg (Nat.not_lt.2 hroom)]
    exact ⟨_, rfl⟩

/-- The leaf part of a call that creates the item of a missing key. -/
theorem createItem_refines {bt : Block} (O : LeafOk bt) {key : ScoutfsKey} {val : List UInt8}
    (hmax : val.length ≤ SCOUTFS_BTREE_MAX_VAL_LEN) (hroom : midFreeItemRoom bt val.length = true)
    (hnone : blockItems bt key = none) :
    ∃ bt', (createItem bt key 0 0 val).map (fun bt' => ((0 : Int), some bt')) = some (0, some bt') ∧
      LeafOk bt' ∧ blockItems bt' = Function.update (blockItems bt) key (some ⟨0, 0, val⟩) := by
  have hkey := blockItems_eq_none.1 hnone
  have hroom' : itemLenBytes val.length ≤ bt.midFreeLen := by
    rw [midFreeItemRoom, decide_eq_true_iff] at hroom
    exact hroom
  obtain ⟨bt', hc, -⟩ := createItem_leafInv O.toLeafInv 0 0 hkey hroom'
  obtain ⟨O', hitems⟩ := createItem_leafOk O hkey hmax hc
  exact ⟨bt', by rw [hc]; rfl, O', hitems⟩

/-- The leaf part of a call that replaces the value of the item at index `i`. -/
theorem updateItemValue_refines {bt : Block} (O : LeafOk bt) {i : ℕ} (hi : i < bt.items.length)
    {val : List UInt8} (hmax : val.length ≤ SCOUTFS_BTREE_MAX_VAL_LEN)
    (hroom : midFreeItemRoom bt val.length = true) :
    ∃ bt', (updateItemValue bt (offIndex (itemOff i)) val).map
        (fun bt' => ((0 : Int), some bt')) = some (0, some bt') ∧ LeafOk bt' ∧
      blockItems bt' = Function.update (blockItems bt) bt.items[i].key
        (some { (⟨bt.items[i].seq, bt.items[i].flags, itemVal bt.data bt.items[i]⟩ :
          ScoutfsBtreeItem) with val := val }) := by
  rw [midFreeItemRoom_iff] at hroom
  obtain ⟨bt', hu⟩ := @updateItemValue_isSome bt i hi val (by omega)
  obtain ⟨_, O', hitems⟩ := updateItemValue_leafOk O hmax hu
  rw [offIndex_itemOff]
  exact ⟨bt', by rw [hu]; rfl, O', hitems⟩

/-- `scoutfs_btree_lookup` reads the map of the items. -/
theorem scoutfsBtreeLookup_eq {root : Option Block} (h : RootOk root) (env : Env)
    (key : ScoutfsKey) : scoutfsBtreeLookup env root key = some (itemsLookup (rootItems root) key) := by
  cases root with
  | none => rfl
  | some bt =>
    have O : LeafOk bt := h
    have hw : btreeWalk env (some bt) false false 0 = some (.ok bt) := by
      simp only [btreeWalk]
      rw [if_neg (by rw [O.leaf]; exact fun h => h rfl), if_neg (by decide)]
    rw [scoutfsBtreeLookup, hw]
    dsimp only
    rcases leafItemHashSearch_cases O key with ⟨i, hi, hs, rfl⟩ | ⟨hs, hnone⟩
    · rw [hs]
      dsimp only
      rw [offItem, offIndex_itemOff, List.getElem?_eq_getElem hi]
      show _ = some (itemsLookup (blockItems bt) bt.items[i].key)
      rw [itemsLookup, blockItems_getElem O.keys hi]
      rfl
    · rw [hs]
      show _ = some (itemsLookup (blockItems bt) key)
      rw [itemsLookup, hnone]

/-- `scoutfs_btree_insert` meets `itemsInsert`. -/
theorem scoutfsBtreeInsert_refines {root : Option Block} (h : RootOk root) (env : Env)
    (key : ScoutfsKey) (val : List UInt8) :
    Refines env root val.length (scoutfsBtreeInsert env root key val) (itemsInsert · key val) := by
  by_cases hinv : invalidItem val.length = true
  · rw [scoutfsBtreeInsert, if_pos hinv]
    refine refines_invalid h env ?_
    rw [itemsInsert, if_pos (by rw [invalidItem, decide_eq_true_iff] at hinv; exact hinv)]
  have hlen := valLen_le_of_invalidItem hinv
  have hok : ¬ val.length > SCOUTFS_BTREE_MAX_VAL_LEN := Nat.not_lt.2 hlen
  refine Refines.of_walk h env hlen (fun hw => by rw [scoutfsBtreeInsert, if_neg hinv, hw])
    (fun ret hw => by rw [scoutfsBtreeInsert, if_neg hinv, hw]) (fun h => absurd h (by decide))
    fun bt hw O hroom => ?_
  rw [scoutfsBtreeInsert, if_neg hinv, hw]
  dsimp only
  rcases leafItemHashSearch_cases O key with ⟨i, hi, hs, rfl⟩ | ⟨hs, hnone⟩
  · -- the key is present
    rw [hs]
    refine ⟨-EEXIST, some bt, rfl, O, Or.inl ?_⟩
    rw [itemsInsert, if_neg hok, blockItems_getElem O.keys hi]
    rfl
  · rw [hs]
    obtain ⟨bt', hc, O', hitems⟩ := createItem_refines O hlen (hroom rfl) hnone
    refine ⟨0, some bt', hc, O', Or.inl ?_⟩
    rw [itemsInsert, if_neg hok, hnone]
    exact congrArg _ hitems

/-- `scoutfs_btree_update` meets `itemsUpdate`. -/
theorem scoutfsBtreeUpdate_refines {root : Option Block} (h : RootOk root) (env : Env)
    (key : ScoutfsKey) (val : List UInt8) :
    Refines env root val.length (scoutfsBtreeUpdate env root key val) (itemsUpdate · key val) := by
  by_cases hinv : invalidItem val.length = true
  · rw [scoutfsBtreeUpdate, if_pos hinv]
    refine refines_invalid h env ?_
    rw [itemsUpdate, if_pos (by rw [invalidItem, decide_eq_true_iff] at hinv; exact hinv)]
  have hlen := valLen_le_of_invalidItem hinv
  have hok : ¬ val.length > SCOUTFS_BTREE_MAX_VAL_LEN := Nat.not_lt.2 hlen
  refine Refines.of_walk h env hlen (fun hw => by rw [scoutfsBtreeUpdate, if_neg hinv, hw])
    (fun ret hw => by rw [scoutfsBtreeUpdate, if_neg hinv, hw]) (fun h => absurd h (by decide))
    fun bt hw O hroom => ?_
  rw [scoutfsBtreeUpdate, if_neg hinv, hw]
  dsimp only
  rcases leafItemHashSearch_cases O key with ⟨i, hi, hs, rfl⟩ | ⟨hs, hnone⟩
  · rw [hs]
    obtain ⟨bt', hu, O', hitems⟩ := updateItemValue_refines O hi hlen (hroom rfl)
    refine ⟨0, some bt', hu, O', Or.inl ?_⟩
    rw [itemsUpdate, if_neg hok, blockItems_getElem O.keys hi]
    exact congrArg _ hitems
  · -- the key is missing
    rw [hs]
    refine ⟨-ENOENT, some bt, rfl, O, Or.inl ?_⟩
    rw [itemsUpdate, if_neg hok, hnone]
    rfl

/-- `scoutfs_btree_force` meets `itemsForce`. -/
theorem scoutfsBtreeForce_refines {root : Option Block} (h : RootOk root) (env : Env)
    (key : ScoutfsKey) (val : List UInt8) :
    Refines env root val.length (scoutfsBtreeForce env root key val) (itemsForce · key val) := by
  by_cases hinv : invalidItem val.length = true
  · rw [scoutfsBtreeForce, if_pos hinv]
    refine refines_invalid h env ?_
    rw [itemsForce, if_pos (by rw [invalidItem, decide_eq_true_iff] at hinv; exact hinv)]
  have hlen := valLen_le_of_invalidItem hinv
  have hok : ¬ val.length > SCOUTFS_BTREE_MAX_VAL_LEN := Nat.not_lt.2 hlen
  refine Refines.of_walk h env hlen (fun hw => by rw [scoutfsBtreeForce, if_neg hinv, hw])
    (fun ret hw => by rw [scoutfsBtreeForce, if_neg hinv, hw]) (fun h => absurd h (by decide))
    fun bt hw O hroom => ?_
  rw [scoutfsBtreeForce, if_neg hinv, hw]
  dsimp only
  rcases leafItemHashSearch_cases O key with ⟨i, hi, hs, rfl⟩ | ⟨hs, hnone⟩
  · rw [hs]
    obtain ⟨bt', hu, O', hitems⟩ := updateItemValue_refines O hi hlen (hroom rfl)
    refine ⟨0, some bt', hu, O', Or.inl ?_⟩
    rw [itemsForce, if_neg hok, blockItems_getElem O.keys hi]
    exact congrArg _ hitems
  · rw [hs]
    obtain ⟨bt', hc, O', hitems⟩ := createItem_refines O hlen (hroom rfl) hnone
    refine ⟨0, some bt', hc, O', Or.inl ?_⟩
    rw [itemsForce, if_neg hok, hnone]
    exact congrArg _ hitems

/-- The only item of a leaf removed leaves no items. -/
theorem update_none_of_length_one {bt : Block} (hlen : bt.items.length = 1) (key : ScoutfsKey)
    (hkey : bt.items[0].key = key) : Function.update (blockItems bt) key none = rootItems none := by
  funext k
  by_cases hk : k = key
  · rw [hk, Function.update_self]
    rfl
  · rw [Function.update_of_ne hk]
    refine blockItems_eq_none.2 fun hmem => hk ?_
    obtain ⟨item, hitem, rfl⟩ := List.mem_map.1 hmem
    obtain ⟨i, hi, rfl⟩ := List.mem_iff_getElem.1 hitem
    have : i = 0 := by omega
    subst this
    exact hkey

/-- `scoutfs_btree_delete` meets `itemsDelete`. -/
theorem scoutfsBtreeDelete_refines {root : Option Block} (h : RootOk root) (env : Env)
    (key : ScoutfsKey) :
    Refines env root 0 (scoutfsBtreeDelete env root key) (itemsDelete · key) := by
  refine Refines.of_walk h env (Nat.zero_le _) (fun hw => by rw [scoutfsBtreeDelete, hw])
    (fun ret hw => by rw [scoutfsBtreeDelete, hw]) (fun _ => rfl) fun bt hw O _ => ?_
  rw [scoutfsBtreeDelete, hw]
  dsimp only
  rcases leafItemHashSearch_cases O key with ⟨i, hi, hs, rfl⟩ | ⟨hs, hnone⟩
  · rw [hs]
    dsimp only
    have hfound : itemsDelete (blockItems bt) bt.items[i].key =
        (0, Function.update (blockItems bt) bt.items[i].key none) := by
      rw [itemsDelete, blockItems_getElem O.keys hi]
    by_cases hone : bt.items.length = 1
    · -- the last item: the block is freed and the btree emptied
      rw [if_pos hone]
      have hi0 : i = 0 := by omega
      subst hi0
      by_cases hfree : env.freeRet = 0
      · rw [if_pos hfree]
        refine ⟨0, none, rfl, trivial, Or.inl ?_⟩
        rw [hfound, update_none_of_length_one hone _ rfl]
      · rw [if_neg hfree]
        exact ⟨env.freeRet, some bt, rfl, O, Or.inr ⟨Or.inr (Or.inr ⟨rfl, hfree⟩), rfl⟩⟩
    · rw [if_neg hone, offIndex_itemOff]
      obtain ⟨bt', ua, hd, -⟩ := deleteItem_leafInv O.toLeafInv hi none
      obtain ⟨_, O', hitems⟩ := deleteItem_leafOk O hd
      refine ⟨0, some bt', by rw [hd]; rfl, O', Or.inl ?_⟩
      rw [hfound]
      exact congrArg _ hitems
  · rw [hs]
    refine ⟨-ENOENT, some bt, rfl, O, Or.inl ?_⟩
    rw [itemsDelete, hnone]
    rfl

/-! ### Runs of calls -/

/-- An item call that changes the btree, with its arguments. -/
inductive Call
  | insert (key : ScoutfsKey) (val : List UInt8)
  | update (key : ScoutfsKey) (val : List UInt8)
  | force (key : ScoutfsKey) (val : List UInt8)
  | delete (key : ScoutfsKey)

/-- A call on the root's block. -/
def Call.run (env : Env) (root : Option Block) : Call → Option (Int × Option Block)
  | .insert key val => scoutfsBtreeInsert env root key val
  | .update key val => scoutfsBtreeUpdate env root key val
  | .force key val => scoutfsBtreeForce env root key val
  | .delete key => scoutfsBtreeDelete env root key

/-- What a call is for, on the items. -/
def Call.op : Call → BtreeItems → Int × BtreeItems
  | .insert key val => (itemsInsert · key val)
  | .update key val => (itemsUpdate · key val)
  | .force key val => (itemsForce · key val)
  | .delete key => (itemsDelete · key)

/-- The value length a call walks the btree with. -/
def Call.valLen : Call → ℕ
  | .insert _ val => val.length
  | .update _ val => val.length
  | .force _ val => val.length
  | .delete _ => 0

theorem Call.refines {root : Option Block} (h : RootOk root) (env : Env) (c : Call) :
    Refines env root c.valLen (c.run env root) c.op := by
  cases c with
  | insert key val => exact scoutfsBtreeInsert_refines h env key val
  | update key val => exact scoutfsBtreeUpdate_refines h env key val
  | force key val => exact scoutfsBtreeForce_refines h env key val
  | delete key => exact scoutfsBtreeDelete_refines h env key

/-- The roots that item calls reach from an empty btree, each call returning, whatever the
calls out of the btree return. -/
inductive Reach : Option Block → Prop
  | empty : Reach none
  | call {root root' : Option Block} {env : Env} {c : Call} {r : Int} :
      Reach root → c.run env root = some (r, root') → Reach root'

/-- Every root the calls reach has the invariant. -/
theorem Reach.rootOk {root : Option Block} (h : Reach root) : RootOk root := by
  induction h with
  | empty => trivial
  | @call root root' env c r _ hrun ih =>
    rcases c.refines ih env with ⟨bt, -, -, -, hsplit⟩ | ⟨r', root'', hcall, O, -⟩
    · rw [hrun] at hsplit
      cases hsplit
    · rw [hrun, Option.some.injEq, Prod.mk.injEq] at hcall
      rw [hcall.2]
      exact O

/-- The calls of a list made one after the other: the root they leave, or `none` at a split. -/
def Call.runAll (env : Env) : Option Block → List Call → Option (Option Block)
  | root, [] => some root
  | root, c :: cs =>
    match c.run env root with
    | some (_, root') => Call.runAll env root' cs
    | none => none

/-- What the calls of a list leave is reached. -/
theorem Reach.runAll {env : Env} : ∀ {cs : List Call} {root root' : Option Block}, Reach root →
    Call.runAll env root cs = some root' → Reach root'
  | [], _, _, h, hr => by
    rw [Call.runAll, Option.some.injEq] at hr
    exact hr ▸ h
  | c :: cs, root, root', h, hr => by
    rw [Call.runAll] at hr
    split at hr
    · exact Reach.runAll (Reach.call h ‹_›) hr
    · cases hr

/-- Item calls of every kind from an empty btree: the keys 1 and 856, which share a hash bucket,
and 2 are inserted; key 1 is updated; key 856 is forced, which replaces its value, and key 3,
which creates it; then key 1 is deleted, which rehashes key 856 into its home bucket and moves
key 3's item into the freed slot. -/
def sampleCalls : List Call :=
  [.insert ⟨1, 1, 0, 0, 0, 0⟩ [1, 2, 3], .insert ⟨1, 856, 0, 0, 0, 0⟩ [4],
    .insert ⟨1, 2, 0, 0, 0, 0⟩ [], .update ⟨1, 1, 0, 0, 0, 0⟩ [5, 6],
    .force ⟨1, 856, 0, 0, 0, 0⟩ [7, 8, 9], .force ⟨1, 3, 0, 0, 0, 0⟩ [10],
    .delete ⟨1, 1, 0, 0, 0, 0⟩]

set_option maxRecDepth 8000 in
/-- The leaf `sampleCalls` leave holds the keys 3, 856 and 2. -/
theorem sampleRun_reach : ∃ bt : Block, Reach (some bt) ∧
    bt.items.map Item.key = [⟨1, 3, 0, 0, 0, 0⟩, ⟨1, 856, 0, 0, 0, 0⟩, ⟨1, 2, 0, 0, 0, 0⟩] := by
  have h := @Reach.runAll ⟨0, false, 0⟩ sampleCalls none _ Reach.empty rfl
  exact ⟨_, h, by decide⟩

/-- After `sampleCalls`, seventy updates of key 856 to a value of
`SCOUTFS_BTREE_MAX_VAL_LEN` bytes: each takes its value from the middle free space, which
seventy such values overrun, so a walk finds a leaf far under 80% full without room and
`try_split` compacts its values, after which the middle free space is most of the leaf. -/
theorem compactRun_reach : ∃ root : Option Block, Reach root ∧
    (∃ bt, root = some bt ∧ 60000 < bt.midFreeLen) ∧
    scoutfsBtreeLookup ⟨0, false, 0⟩ root ⟨1, 1, 0, 0, 0, 0⟩ = some (.error (-ENOENT)) ∧
    (scoutfsBtreeLookup ⟨0, false, 0⟩ root ⟨1, 856, 0, 0, 0, 0⟩).map
      (fun r => r.map fun v => (v.length, v.head?, v.getLast?)) =
        some (.ok (896, some 11, some 11)) ∧
    scoutfsBtreeLookup ⟨0, false, 0⟩ root ⟨1, 2, 0, 0, 0, 0⟩ = some (.ok []) ∧
    scoutfsBtreeLookup ⟨0, false, 0⟩ root ⟨1, 3, 0, 0, 0, 0⟩ = some (.ok [10]) := by
  -- the run is evaluated once, and every fact is read off the root it leaves
  have hcheck : (Call.runAll ⟨0, false, 0⟩ none
      (sampleCalls ++ List.replicate 70 (.update ⟨1, 856, 0, 0, 0, 0⟩ (List.replicate 896 11)))).any
      (fun root => decide ((∃ bt, root = some bt ∧ 60000 < bt.midFreeLen) ∧
        scoutfsBtreeLookup ⟨0, false, 0⟩ root ⟨1, 1, 0, 0, 0, 0⟩ = some (.error (-ENOENT)) ∧
        (scoutfsBtreeLookup ⟨0, false, 0⟩ root ⟨1, 856, 0, 0, 0, 0⟩).map
          (fun r => r.map fun v => (v.length, v.head?, v.getLast?)) =
            some (.ok (896, some 11, some 11)) ∧
        scoutfsBtreeLookup ⟨0, false, 0⟩ root ⟨1, 2, 0, 0, 0, 0⟩ = some (.ok []) ∧
        scoutfsBtreeLookup ⟨0, false, 0⟩ root ⟨1, 3, 0, 0, 0, 0⟩ = some (.ok [10]))) = true := by
    decide +kernel
  obtain ⟨root, hroot, hp⟩ := (Option.any_eq_true _ _).mp hcheck
  exact ⟨root, Reach.empty.runAll hroot, of_decide_eq_true hp⟩

/-- A btree of at most one block, over every run of item calls from an empty btree, is the map
of its items: a lookup reads the map, and each further call splits a leaf at least 80% full
without room for the item, or returns what its operation on the map returns and leaves the map
the operation leaves, or fails in a call out of the btree and leaves the map as it was. -/
theorem reach_refines {root : Option Block} (h : Reach root) (env : Env) :
    (∀ key, scoutfsBtreeLookup env root key = some (itemsLookup (rootItems root) key)) ∧
      ∀ c : Call, Refines env root c.valLen (c.run env root) c.op :=
  ⟨scoutfsBtreeLookup_eq h.rootOk env, fun c => c.refines h.rootOk env⟩

theorem reach_refines_compacted : ∃ root : Option Block, Reach root ∧
    (∃ bt, root = some bt ∧ 60000 < bt.midFreeLen) ∧
    scoutfsBtreeLookup ⟨0, false, 0⟩ root ⟨1, 1, 0, 0, 0, 0⟩ = some (.error (-ENOENT)) ∧
    (scoutfsBtreeLookup ⟨0, false, 0⟩ root ⟨1, 856, 0, 0, 0, 0⟩).map
      (fun r => r.map fun v => (v.length, v.head?, v.getLast?)) =
        some (.ok (896, some 11, some 11)) ∧
    scoutfsBtreeLookup ⟨0, false, 0⟩ root ⟨1, 2, 0, 0, 0, 0⟩ = some (.ok []) ∧
    scoutfsBtreeLookup ⟨0, false, 0⟩ root ⟨1, 3, 0, 0, 0, 0⟩ = some (.ok [10]) ∧
    ((∀ key, scoutfsBtreeLookup ⟨0, false, 0⟩ root key = some (itemsLookup (rootItems root) key)) ∧
      ∀ c : Call, Refines ⟨0, false, 0⟩ root c.valLen (c.run ⟨0, false, 0⟩ root) c.op) := by
  obtain ⟨root, hreach, hbt, h1, h856, h2, h3⟩ := compactRun_reach
  exact ⟨root, hreach, hbt, h1, h856, h2, h3, reach_refines hreach ⟨0, false, 0⟩⟩

end BtreeItems

end Scoutfs
