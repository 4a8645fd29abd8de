/-
`btree_walk` and the item calls of `btree.c` on a btree of at most one block.

A btree root of height `0` has no block, and one of height `1` has a single leaf, reached
without a parent.  A root is modelled by its block, `none` for height `0`.  On such a btree:

* `btreeWalk` is `btree_walk`: with `BTW_INSERT` an empty btree gets a new leaf, and with
  `BTW_INSERT` or `BTW_DELETE` the leaf goes through `try_split` (`trySplit`), which finds room
  for the item, compacts the leaf's values when it is less than 80% full, or splits it;
* `scoutfsBtreeLookup`, `scoutfsBtreeInsert`, `scoutfsBtreeUpdate`, `scoutfsBtreeForce` and
  `scoutfsBtreeDelete` are the item calls: the walk, then `leaf_item_hash_search` in the leaf
  and `create_item`, `update_item_value` or `delete_item`.

A split makes the btree taller, which this model does not follow: the walk returns `none`
there, as the block functions return `none` for a `BUG`.  The calls out of the btree (the
allocation of a new block, the `kmalloc_array` of `compact_values`, `scoutfs_free_meta`) are
given by their results (`Env`).  Blocks are not copied on write: the dirty leaf is the leaf.
The AVL search of `scoutfs_btree_insert` after the hash search is left out; it finds what the
hash search finds.
-/
import Scoutfs.BtreeItems

namespace Scoutfs

namespace BtreeItems

/-- What the calls out of the btree return: `get_ref_block` allocating a new block, the
`kmalloc_array` of `compact_values` failing, and `scoutfs_free_meta`. -/
structure Env where
  allocRet : Int
  sortAllocFails : Bool
  freeRet : Int

/-- `try_split` of a block without a parent: `0` when the item fits in the middle free space,
`compact_values` when the block is less than 80% full; `none` is the split. -/
def trySplit (env : Env) (valLen : ℕ) (right : Block) : Option (Int × Block) :=
  -- parents need to leave room for child references
  let valLen := if right.level > 0 then SIZEOF_BLOCK_REF else valLen
  if midFreeItemRoom right valLen then some (0, right)
  else if itemFullPct right < 80 then compactValues right env.sortAllocFails
  else none

/-- `btree_walk` to the leaf of a btree of height at most one, with `insert` and `delete` for
`BTW_INSERT` and `BTW_DELETE`: `.ok` is the leaf, the root's block from then on, and `.error`
a failure that leaves the root as it was. -/
def btreeWalk (env : Env) (root : Option Block) (insert delete : Bool) (valLen : ℕ) :
    Option (Except Int Block) :=
  match root with
  | none =>
    if !insert then some (.error (-ENOENT))
    else if env.allocRet ≠ 0 then some (.error env.allocRet)
    else some (.ok (initBtreeBlock 0))
  | some bt =>
    -- the block of a root of height one is at level zero
    if bt.level ≠ 0 then some (.error (- EIO))
    else if insert || delete then
      (trySplit env valLen bt).map fun r => if r.1 = 0 then .ok r.2 else .error r.1
    else some (.ok bt)

/-- The item at an offset the hash table gives. -/
def offItem (bt : Block) (off : ℕ) : Option Item := bt.items[offIndex off]?

/-- `scoutfs_btree_lookup`: the value of the item with the key, or `-ENOENT`.  `none` is a
split, or an offset past the items. -/
def scoutfsBtreeLookup (env : Env) (root : Option Block) (key : ScoutfsKey) :
    Option (Except Int (List UInt8)) :=
  match btreeWalk env root false false 0 with
  | none => none
  | some (.error ret) => some (.error ret)
  | some (.ok bt) =>
    match leafItemHashSearch bt key with
    | some off => (offItem bt off).map fun item => .ok (itemVal bt.data item)
    | none => some (.error (-ENOENT))

/-- `scoutfs_btree_insert`: `ret` and the root's block after the call; `-EEXIST` when the key
is present. -/
def scoutfsBtreeInsert (env : Env) (root : Option Block) (key : ScoutfsKey) (val : List UInt8) :
    Option (Int × Option Block) :=
  if invalidItem val.length then some (-EINVAL, root)
  else
    match btreeWalk env root true false val.length with
    | none => none
    | some (.error ret) => some (ret, root)
    | some (.ok bt) =>
      match leafItemHashSearch bt key with
      | some _ => some (-EEXIST, some bt)
      | none => (createItem bt key 0 0 val).map fun bt' => (0, some bt')

/-- `scoutfs_btree_update`: the item's value replaced; `-ENOENT` when the key is missing. -/
def scoutfsBtreeUpdate (env : Env) (root : Option Block) (key : ScoutfsKey) (val : List UInt8) :
    Option (Int × Option Block) :=
  if invalidItem val.length then some (-EINVAL, root)
  else
    match btreeWalk env root true false val.length with
    | none => none
    | some (.error ret) => some (ret, root)
    | some (.ok bt) =>
      match leafItemHashSearch bt key with
      | some off => (updateItemValue bt (offIndex off) val).map fun bt' => (0, some bt')
      | none => some (-ENOENT, some bt)

/-- `scoutfs_btree_force`: the item's value replaced, or a new item created. -/
def scoutfsBtreeForce (env : Env) (root : Option Block) (key : ScoutfsKey) (val : List UInt8) :
    Option (Int × Option Block) :=
  if invalidItem val.length then some (-EINVAL, root)
  else
    match btreeWalk env root true false val.length with
    | none => none
    | some (.error ret) => some (ret, root)
    | some (.ok bt) =>
      match leafItemHashSearch bt key with
      | some off => (updateItemValue bt (offIndex off) val).map fun bt' => (0, some bt')
      | none => (createItem bt key 0 0 val).map fun bt' => (0, some bt')

/-- `scoutfs_btree_delete`: the item deleted, or the block freed and the btree emptied when it
is the last one; `-ENOENT` when the key is missing. -/
def scoutfsBtreeDelete (env : Env) (root : Option Block) (key : ScoutfsKey) :
    Option (Int × Option Block) :=
  match btreeWalk env root false true 0 with
  | none => none
  | some (.error ret) => some (ret, root)
  | some (.ok bt) =>
    match leafItemHashSearch bt key with
    | some off =>
      if bt.items.length = 1 then
        -- remove final empty block
        if env.freeRet = 0 then some (0, none) else some (env.freeRet, some bt)
      else (deleteItem bt (offIndex off) none).map fun r => (0, some r.1)
    | none => some (-ENOENT, some bt)

end BtreeItems

end Scoutfs
