/-
The items of one btree block, as the block functions of `btree.c` change them.

A block holds a dense array of `struct scoutfs_btree_item`s after its header, the values of
the items packed from the end of the block towards the middle, and, in a leaf, a table of
`SCOUTFS_BTREE_LEAF_ITEM_HASH_NR` buckets at the very end that holds the offsets of the
items by the hash of their keys.  The free space between the item array and the values is
`mid_free_len`.

* `leafItemHashSearch`, `leafItemHashInsert`, `leafItemHashDelete` and
  `leafItemHashChange` are the leaf hash table functions: the loops of
  `LinearProbe` over the buckets, with `leaf_item_hash_ind` as the home bucket of a key
  and the key of the item at an offset as the key of a bucket's entry;
* `insertValue`, `createItem`, `deleteItem` and `updateItemValue` are `insert_value`,
  `create_item`, `delete_item` and `update_item_value`;
* `compactValues` is `compact_values`: `sort_priv` (the heapsort of `Heapsort`) of the item
  indices by `cmp_sorted`, then the loop that packs the values against the end of the block.

The AVL tree of the items (`item_root` and each item's `node`) is not modelled: the
functions here only insert into it, delete from it and relocate a node, which does not change
what the item array and the hash table hold.  The `le16` counters of the block are numbers;
the block size keeps them below `2 ^ 16`.
-/
import Scoutfs.BtreeMerge
import Scoutfs.Lib.Heap
import Scoutfs.Lib.LinearProbe

namespace Scoutfs

namespace BtreeItems

/-! ### Sizes -/

/-- `sizeof(struct scoutfs_btree_block)`: the block header, the AVL root, the three `le16`
counters, the level and padding. -/
def SIZEOF_BTREE_BLOCK : ℕ := 48

/-- `sizeof(struct scoutfs_btree_item)`: the AVL node, the key, the seq, the value offset and
length, the flags and padding. -/
def SIZEOF_BTREE_ITEM : ℕ := 56

/-- `round_up(x, y)`. -/
def roundUp (x y : ℕ) : ℕ := (x + y - 1) / y * y

/-- `SCOUTFS_BTREE_LEAF_ITEM_HASH_NR_UNALIGNED`: a 75% load for a leaf of items without
values. -/
def SCOUTFS_BTREE_LEAF_ITEM_HASH_NR_UNALIGNED : ℕ :=
  (SCOUTFS_BLOCK_LG_SIZE - SIZEOF_BTREE_BLOCK) / (SIZEOF_BTREE_ITEM + 2) * 100 / 75

/-- `SCOUTFS_BTREE_LEAF_ITEM_HASH_NR`. -/
def SCOUTFS_BTREE_LEAF_ITEM_HASH_NR : ℕ :=
  roundUp SCOUTFS_BTREE_LEAF_ITEM_HASH_NR_UNALIGNED SCOUTFS_BTREE_VALUE_ALIGN

/-- `SCOUTFS_BTREE_LEAF_ITEM_HASH_BYTES`: the buckets are `le16` offsets. -/
def SCOUTFS_BTREE_LEAF_ITEM_HASH_BYTES : ℕ := SCOUTFS_BTREE_LEAF_ITEM_HASH_NR * 2

theorem SCOUTFS_BTREE_LEAF_ITEM_HASH_NR_eq : SCOUTFS_BTREE_LEAF_ITEM_HASH_NR = 1512 := by
  decide

/-- `val_bytes`: the value rounded up to `SCOUTFS_BTREE_VALUE_ALIGN`. -/
def valBytes (valLen : ℕ) : ℕ := roundUp valLen SCOUTFS_BTREE_VALUE_ALIGN

theorem itemLenBytes_eq (valLen : ℕ) :
    itemLenBytes valLen = ((SIZEOF_BTREE_ITEM + valBytes valLen : ℕ) : ℤ) := rfl

/-! ### Keys hashed -/

/-- `fnv1a32`. -/
def fnv1a32 (data : List UInt8) : UInt32 :=
  data.foldl (fun hash b => (hash ^^^ b.toUInt32) * 0x01000193) 0x811c9dc5

/-- `scoutfs_hash32`. -/
def scoutfsHash32 (data : List UInt8) : UInt32 := fnv1a32 data

/-- The 32 bytes of a `struct scoutfs_key` in memory: the three `le64` words, the fourth
byte, the zone, the type and five bytes of padding, which keys keep zero. -/
def keyBytes (key : ScoutfsKey) : List UInt8 :=
  cpuToLe64 key.first ++ cpuToLe64 key.second ++ cpuToLe64 key.third ++
    [key.fourth, key.zone, key.type, 0, 0, 0, 0, 0]

/-- `leaf_item_hash_ind`. -/
def leafItemHashInd (key : ScoutfsKey) : ℕ :=
  (scoutfsHash32 (keyBytes key)).toNat % SCOUTFS_BTREE_LEAF_ITEM_HASH_NR

theorem leafItemHashInd_lt (key : ScoutfsKey) :
    leafItemHashInd key < SCOUTFS_BTREE_LEAF_ITEM_HASH_NR :=
  Nat.mod_lt _ (by decide)

/-! ### Blocks -/

/-- A `struct scoutfs_btree_item` in a block's item array, without its AVL node. -/
structure Item where
  key : ScoutfsKey
  seq : UInt64
  valOff : ℕ
  valLen : ℕ
  flags : UInt8
  deriving DecidableEq, Repr

/-- A `struct scoutfs_btree_block`: its level, its item array (`nr_items` is its length),
its `total_item_bytes` and `mid_free_len`, the buckets of the leaf item hash table and the
bytes of the block by offset. -/
structure Block where
  level : ℕ
  items : List Item
  totalItemBytes : ℕ
  midFreeLen : ℕ
  buckets : ℕ → ℕ
  data : ℕ → UInt8

/-- `ptr_off(bt, &bt->items[i])`. -/
def itemOff (i : ℕ) : ℕ := SIZEOF_BTREE_BLOCK + SIZEOF_BTREE_ITEM * i

/-- The item index of an offset, as `off_item` reads the item there. -/
def offIndex (off : ℕ) : ℕ := (off - SIZEOF_BTREE_BLOCK) / SIZEOF_BTREE_ITEM

/-- `item_key(off_item(bt, off))`; an offset past the items reads the zero key. -/
def offKey (bt : Block) (off : ℕ) : ScoutfsKey :=
  match bt.items[offIndex off]? with
  | some item => item.key
  | none => scoutfsKeySetZeros

/-- `mid_free_off`: the offset just past the item array. -/
def midFreeOff (bt : Block) : ℕ := itemOff bt.items.length

/-- `item_bytes`: the item struct and its aligned value. -/
def itemBytes (item : Item) : ℕ := SIZEOF_BTREE_ITEM + valBytes item.valLen

/-- `item_val` read for `val_len` bytes: the bytes of an item's value at `val_off`. -/
def itemVal (data : ℕ → UInt8) (item : Item) : List UInt8 :=
  (List.range item.valLen).map fun q => data (item.valOff + q)

/-- The bytes `val` written at `off` (`memcpy`). -/
def writeBytes (data : ℕ → UInt8) (off : ℕ) (val : List UInt8) : ℕ → UInt8 :=
  fun x => if off ≤ x ∧ x < off + val.length then val.getD (x - off) 0 else data x

/-- `init_mid_free_len`. -/
def initMidFreeLen (level : ℕ) : ℕ :=
  if level = 0 then SCOUTFS_BLOCK_LG_SIZE - SIZEOF_BTREE_BLOCK - SCOUTFS_BTREE_LEAF_ITEM_HASH_BYTES
  else SCOUTFS_BLOCK_LG_SIZE - SIZEOF_BTREE_BLOCK

/-- A new block: `scoutfs_block_dirty_ref` zeroes it and `init_btree_block` sets its level
and `mid_free_len`. -/
def initBtreeBlock (level : ℕ) : Block :=
  ⟨level, [], 0, initMidFreeLen level, fun _ => 0, fun _ => 0⟩

/-! ### The leaf item hash table -/

/-- `leaf_item_hash_search`: the offset of the item with the key.  A parent has no table. -/
def leafItemHashSearch (bt : Block) (key : ScoutfsKey) : Option ℕ :=
  if bt.level > 0 then none
  else LinearProbe.search SCOUTFS_BTREE_LEAF_ITEM_HASH_NR (offKey bt) leafItemHashInd
    bt.buckets key

/-- `leaf_item_hash_insert`; `none` is the `BUG()` of a full table. -/
def leafItemHashInsert (bt : Block) (key : ScoutfsKey) (off : ℕ) : Option Block :=
  if bt.level > 0 then some bt
  else (LinearProbe.add SCOUTFS_BTREE_LEAF_ITEM_HASH_NR leafItemHashInd bt.buckets key off).map
    fun buckets => { bt with buckets := buckets }

/-- `leaf_item_hash_delete`: the re-insertions after the emptied bucket read the keys of the
items of `bt`; `none` is the `BUG_ON` of an empty bucket before the offset, or a `BUG()` of
an insertion. -/
def leafItemHashDelete (bt : Block) (key : ScoutfsKey) (delOff : ℕ) : Option Block :=
  if bt.level > 0 then some bt
  else (LinearProbe.remove SCOUTFS_BTREE_LEAF_ITEM_HASH_NR (offKey bt) leafItemHashInd
    bt.buckets key delOff).map fun buckets => { bt with buckets := buckets }

/-- `leaf_item_hash_change`: the bucket holding `from` gets `to`; `none` is the `BUG_ON` of an
empty bucket before it. -/
def leafItemHashChange (bt : Block) (key : ScoutfsKey) («to» «from» : ℕ) : Option Block :=
  if bt.level > 0 then some bt
  else (LinearProbe.change SCOUTFS_BTREE_LEAF_ITEM_HASH_NR leafItemHashInd bt.buckets key
    «from» «to»).map fun buckets => { bt with buckets := buckets }

/-! ### Creating and deleting items -/

/-- `insert_value`: the value goes at the end of the middle free space, and its offset is
returned; an empty value has offset `0`.  `none` is the `BUG_ON` of too little space. -/
def insertValue (bt : Block) (val : List UInt8) : Option (Block × ℕ) :=
  if val.length = 0 then some (bt, 0)
  else if bt.midFreeLen < valBytes val.length then none
  else
    let valOff := midFreeOff bt + bt.midFreeLen - valBytes val.length
    some ({ bt with midFreeLen := bt.midFreeLen - valBytes val.length,
                    data := writeBytes bt.data valOff val }, valOff)

/-- `create_item` without the AVL insertion: the new item goes at the end of the array, its
offset into the hash table and its value into the middle free space.  `none` is the
`BUG_ON` of too little space or a `BUG()` of the hash table. -/
def createItem (bt : Block) (key : ScoutfsKey) (seq : UInt64) (flags : UInt8)
    (val : List UInt8) : Option Block := do
  if (bt.midFreeLen : ℤ) < itemLenBytes val.length then none
  -- `le16_add_cpu` of `mid_free_len` and `nr_items`, and the fields of `end_item`
  let bt₁ : Block := { bt with midFreeLen := bt.midFreeLen - SIZEOF_BTREE_ITEM,
                               items := bt.items ++ [⟨key, seq, 0, 0, flags⟩] }
  let bt₂ ← leafItemHashInsert bt₁ key (itemOff bt.items.length)
  let (bt₃, valOff) ← insertValue bt₂ val
  let item : Item := ⟨key, seq, valOff, val.length, flags⟩
  some { bt₃ with items := bt₃.items.set bt.items.length item,
                  totalItemBytes := bt₃.totalItemBytes + itemBytes item }

/-- `delete_item` of the item at index `i` without the AVL deletion and relocation: the
offset leaves the hash table, and the end item of the array moves into the hole with its
offset changed in the table.  `useAfter` is the index of the item `*use_after` points to;
it follows the end item when that moves.  `none` is a `BUG_ON` of the hash table or an index
past the array. -/
def deleteItem (bt : Block) (i : ℕ) (useAfter : Option ℕ) : Option (Block × Option ℕ) := do
  let item ← bt.items[i]?
  let endIdx := bt.items.length - 1
  let endItem ← bt.items[endIdx]?
  let bt₁ ← leafItemHashDelete bt item.key (itemOff i)
  let bt₂ : Block := { bt₁ with midFreeLen := bt₁.midFreeLen + SIZEOF_BTREE_ITEM,
                                totalItemBytes := bt₁.totalItemBytes - itemBytes item }
  if endIdx ≠ i then
    -- the end item's fields are copied into the deleted item
    let bt₃ : Block := { bt₂ with items := (bt₂.items.set i endItem).dropLast }
    let bt₄ ← leafItemHashChange bt₃ endItem.key (itemOff i) (itemOff endIdx)
    some (bt₄, if useAfter = some endIdx then some i else useAfter)
  else
    some ({ bt₂ with items := bt₂.items.dropLast }, useAfter)

/-- `update_item_value` of the item at index `i`: the new value goes into the middle free space
like a new item's, and the bytes of the old value stay where they are until `compact_values`
reclaims them.  `none` is the `BUG_ON` of `insert_value` or an index past the array. -/
def updateItemValue (bt : Block) (i : ℕ) (val : List UInt8) : Option Block := do
  let item ← bt.items[i]?
  let bt₁ : Block := { bt with totalItemBytes :=
    bt.totalItemBytes + valBytes val.length - valBytes item.valLen }
  let (bt₂, valOff) ← insertValue bt₁ val
  some { bt₂ with items := bt₂.items.set i { item with valOff := valOff, valLen := val.length } }

/-! ### Free space -/

/-- `SCOUTFS_BTREE_MAX_VAL_LEN`. -/
def SCOUTFS_BTREE_MAX_VAL_LEN : ℕ := 896

/-- `sizeof(struct scoutfs_block_ref)`: the `blkno` and `seq` of a child. -/
def SIZEOF_BLOCK_REF : ℕ := 16

/-- `invalid_item`: a value longer than a btree item can hold. -/
def invalidItem (valLen : ℕ) : Bool := valLen > SCOUTFS_BTREE_MAX_VAL_LEN

/-- `mid_free_item_room`: the middle free space holds an item struct and its value. -/
def midFreeItemRoom (bt : Block) (valLen : ℕ) : Bool := itemLenBytes valLen ≤ bt.midFreeLen

/-- `item_full_pct`: the percentage of the block past its header that the items use. -/
def itemFullPct (bt : Block) : ℕ :=
  bt.totalItemBytes * 100 / (SCOUTFS_BLOCK_LG_SIZE - SIZEOF_BTREE_BLOCK)

/-! ### Compacting values -/

/-- `memmove`: the `len` bytes at `src` copied to `dst`, all read before any is written. -/
def memmove (data : ℕ → UInt8) (dst src len : ℕ) : ℕ → UInt8 :=
  fun x => if dst ≤ x ∧ x < dst + len then data (src + (x - dst)) else data x

/-- `memcpy`, defined for regions that do not overlap. -/
def memcpy (data : ℕ → UInt8) (dst src len : ℕ) : Option (ℕ → UInt8) :=
  if dst + len ≤ src ∨ src + len ≤ dst then some (memmove data dst src len) else none

/-- The value offset of the item at index `i`, as `cmp_sorted` reads it. -/
def itemValOff (bt : Block) (i : ℕ) : ℕ :=
  match bt.items[i]? with
  | some item => item.valOff
  | none => 0

/-- `cmp_sorted`: item indices compared by the offsets of their values. -/
def cmpSorted (bt : Block) (a b : ℕ) : Ordering :=
  scoutfsCmp (itemValOff bt a) (itemValOff bt b)

/-- The loop of `compact_values` over `sorted[i]` for `i` from `k - 1` down to `0`: each
nonempty value moves to just below `to_off`, by `memcpy` when it lies wholly below its new
place and by `memmove` otherwise.  `none` is an index past the item array, or a `memcpy` of
overlapping regions. -/
def compactLoop (sorted : ℕ → ℕ) : ℕ → Block → ℕ → Option (Block × ℕ)
  | 0, bt, toOff => some (bt, toOff)
  | k + 1, bt, toOff =>
    match bt.items[sorted k]? with
    | none => none
    | some item =>
      if item.valLen = 0 then compactLoop sorted k bt toOff
      else
        let toOff' := toOff - valBytes item.valLen
        if item.valOff ≠ toOff' then
          let data := if toOff' ≥ item.valOff + valBytes item.valLen
            then memcpy bt.data toOff' item.valOff (valBytes item.valLen)
            else some (memmove bt.data toOff' item.valOff (valBytes item.valLen))
          match data with
          | none => none
          | some data =>
            compactLoop sorted k
              { bt with data := data,
                        items := bt.items.set (sorted k) { item with valOff := toOff' } } toOff'
        else compactLoop sorted k bt toOff'

/-- `compact_values`: the item indices sorted by the offsets of their values, the values moved
against the end of the block from the last one down, and `mid_free_len` set to the space left
between the item array and the values.  `allocFails` is a failure of the `kmalloc_array` of
the sorted indices. -/
def compactValues (bt : Block) (allocFails : Bool) : Option (Int × Block) :=
  if allocFails then some (- ENOMEM, bt)
  else
    let sorted := Heapsort.sortPriv (cmpSorted bt) (fun i => i) bt.items.length
    let toOff := if bt.level = 0 then SCOUTFS_BLOCK_LG_SIZE - SCOUTFS_BTREE_LEAF_ITEM_HASH_BYTES
      else SCOUTFS_BLOCK_LG_SIZE
    match compactLoop sorted bt.items.length bt toOff with
    | none => none
    | some (bt', toOff') => some (0, { bt' with midFreeLen := toOff' - midFreeOff bt' })

end BtreeItems

end Scoutfs
