/-
The btree blocks of `btree.c` as its read-only paths see them.

A btree is a map from blknos to blocks.  A block has the blkno and seq of its header, its
level, and its items, which the AVL item tree keeps in key order.  A parent's item values
hold the `struct scoutfs_block_ref`s of its children, copied out as `le64` words.

* `btreeWalk` is `btree_walk` without flags, the read path: from the root's ref down to a
  leaf, with the key range (`struct btree_walk_key_range` `start` and `end`) that each parent
  narrows to its child's;
* `scoutfsBtreeReadItems` is `scoutfs_btree_read_items` over it;
* `scoutfsBtreeFreeBlocks` is `scoutfs_btree_free_blocks`, with `scoutfs_free_meta`
  recording the blknos it is passed and taking its outcome from a list.

`scoutfsBtreeFreeBlocks_keeps_root` runs the freeing of a btree of height 2 to its end: both
leaves are passed to `scoutfs_free_meta`, the root never is.
-/
import Scoutfs.BtreeMerge

namespace Scoutfs

namespace Btree

/-! ### Blocks and refs -/

/-- `struct scoutfs_block_ref`. -/
structure ScoutfsBlockRef where
  blkno : UInt64
  seq : UInt64
  deriving DecidableEq, Repr

/-- `struct scoutfs_btree_root`. -/
structure ScoutfsBtreeRoot where
  ref : ScoutfsBlockRef
  height : ℕ
  deriving DecidableEq, Repr

/-- A btree block: its header's blkno and seq, its level, and its items in key order. -/
structure ScoutfsBtreeBlock where
  blkno : UInt64
  seq : UInt64
  level : ℕ
  items : List (ScoutfsKey × ScoutfsBtreeItem)
  sorted : items.Pairwise (fun a b => a.1 < b.1)

/-- The blocks of the metadata device by blkno; `none` is a read that fails. -/
abbrev BtreeBlocks := UInt64 → Option ScoutfsBtreeBlock

/-- `SCOUTFS_BTREE_MAX_HEIGHT`. -/
def SCOUTFS_BTREE_MAX_HEIGHT : ℕ := 20

/-- A parent item's value read as a ref: `memcpy(&ref, item_val(bt, item), sizeof(ref))`. -/
def blockRefOfVal (val : List UInt8) : ScoutfsBlockRef :=
  ⟨le64ToCpu (val.take 8), le64ToCpu ((val.drop 8).take 8)⟩

/-- The value of a parent item that references `ref`, as `create_parent_item` stores it. -/
def blockRefVal (ref : ScoutfsBlockRef) : List UInt8 :=
  cpuToLe64 ref.blkno ++ cpuToLe64 ref.seq

/-- `get_ref_block` without flags.  A zero blkno is `-ENOENT`; `scoutfs_block_read_ref`
gives `-ESTALE` for a block whose header does not match the ref and `-EIO` for a failed
read. -/
def getRefBlock (blocks : BtreeBlocks) (ref : ScoutfsBlockRef) : Except Int ScoutfsBtreeBlock :=
  if ref.blkno = 0 then .error (-ENOENT)
  else
    match blocks ref.blkno with
    | none => .error (- EIO)
    | some bt => if bt.blkno = ref.blkno ∧ bt.seq = ref.seq then .ok bt else .error (- ESTALE)

/-- `scoutfs_avl_search` for `key`, falling back on `next` when no item has the key: the
first item at or after `key`, with the items before it (`prev_item`) and after it
(`next_item`). -/
def searchSplit (items : List (ScoutfsKey × ScoutfsBtreeItem)) (key : ScoutfsKey) :
    Option (List (ScoutfsKey × ScoutfsBtreeItem) × (ScoutfsKey × ScoutfsBtreeItem) ×
      List (ScoutfsKey × ScoutfsBtreeItem)) :=
  match items.span fun it => scoutfsKeyCompare key it.1 = .gt with
  | (before, item :: after) => some (before, item, after)
  | (_, []) => none

/-! ### Reading -/

/-- The descent of `btree_walk` without flags from the block of `ref` expected at `level`,
with the key range so far: a parent narrows it to the child it follows, `start` just after
the previous item's key (when there is one) and `end` at the followed item's key.  Returns the
leaf and its range. -/
def walkLevel (blocks : BtreeBlocks) (key : ScoutfsKey) :
    ℕ → ScoutfsBlockRef → ScoutfsKey → ScoutfsKey →
      Except Int (ScoutfsBtreeBlock × ScoutfsKey × ScoutfsKey)
  | 0, ref, start, «end» => do
    let bt ← getRefBlock blocks ref
    -- corrupt_btree_block_level
    if bt.level ≠ 0 then .error (- EIO)
    -- done at the leaf
    else return (bt, start, «end»)
  | level + 1, ref, start, _ => do
    let bt ← getRefBlock blocks ref
    if bt.level ≠ level + 1 then .error (- EIO)
    else
      match searchSplit bt.items key with
      -- corrupt_btree_block_level: no child ref for the key
      | none => .error (- EIO)
      | some (before, item, _) =>
        let start :=
          match before.getLast? with
          | some prev => scoutfsKeyInc prev.1
          | none => start
        walkLevel blocks key level (blockRefOfVal item.2.val) start item.1

/-- `btree_walk` without flags: an empty btree is `-ENOENT`; the first block read is at
level `height - 1` and the range starts as all keys. -/
def btreeWalk (blocks : BtreeBlocks) (root : ScoutfsBtreeRoot) (key : ScoutfsKey) :
    Except Int (ScoutfsBtreeBlock × ScoutfsKey × ScoutfsKey) :=
  if root.height = 0 then .error (-ENOENT)
  else walkLevel blocks key (root.height - 1) root.ref scoutfsKeySetZeros scoutfsKeySetOnes

/-- `scoutfs_btree_read_items`: the leaf holding `key` narrows `[start, end]` to its range, and
its items in that range go to `cb` in key order until `cb` fails. -/
def scoutfsBtreeReadItems {σ : Type} (blocks : BtreeBlocks) (root : ScoutfsBtreeRoot)
    (key start «end» : ScoutfsKey) (cb : σ → ScoutfsKey → ScoutfsBtreeItem → Except Int σ)
    (arg : σ) : Except Int (ScoutfsKey × ScoutfsKey × σ) := do
  let (bt, krStart, krEnd) ← btreeWalk blocks root key
  let start := if scoutfsKeyCompare krStart start = .gt then krStart else start
  let «end» := if scoutfsKeyCompare krEnd «end» = .lt then krEnd else «end»
  let items := (bt.items.dropWhile fun it => scoutfsKeyCompare it.1 start = .lt).takeWhile
    fun it => scoutfsKeyCompare it.1 «end» ≠ .gt
  let arg ← items.foldlM (fun a it => cb a it.1 it.2) arg
  return (start, «end», arg)

/-! ### Freeing -/

/-- The calls made to `scoutfs_free_meta`: the blknos passed, in order, and the outcomes of
the calls to come (`true` fails the call; past the list every call succeeds). -/
structure FreeMetaLog where
  passed : List UInt64
  outcomes : List Bool
  deriving DecidableEq, Repr

/-- `scoutfs_free_meta` of `blkno`: the blkno is passed; a failing call returns `-ENOSPC`, what
a full freed list block gives. -/
def scoutfsFreeMeta (log : FreeMetaLog) (blkno : UInt64) : Int × FreeMetaLog :=
  (if log.outcomes.headD false then -ENOSPC else 0, ⟨log.passed ++ [blkno], log.outcomes.tail⟩)

/-- The descent of `scoutfs_btree_free_blocks` from the block of `ref`, `d` levels above the
last parent.  Each parent follows its item at or after `key`: an item that is not the
parent's last resets the parents to free and moves `par_next` past its key, the last item
records the parent in `blknos`.  At the last parent the walk stops before recording it and
returns its items from the one found, with `par_next` and `blknos`. -/
def freeDescend (blocks : BtreeBlocks) (key : ScoutfsKey) :
    ℕ → ScoutfsBlockRef → ScoutfsKey → List UInt64 →
      Except Int (List (ScoutfsKey × ScoutfsBtreeItem) × ScoutfsKey × List UInt64)
  | 0, ref, parNext, blknos => do
    let bt ← getRefBlock blocks ref
    match searchSplit bt.items key with
    -- should never descend into parent with no more refs
    | none => .error (- EIO)
    -- we'll free refs in the last parent
    | some (_, item, after) => return (item :: after, parNext, blknos)
  | d + 1, ref, parNext, blknos => do
    let bt ← getRefBlock blocks ref
    match searchSplit bt.items key with
    | none => .error (- EIO)
    | some (_, item, after) =>
      if after ≠ [] then
        -- didn't take last ref, still need parents
        freeDescend blocks key d (blockRefOfVal item.2.val) (scoutfsKeyInc item.1) []
      else
        -- final ref, could free after all leaves
        freeDescend blocks key d (blockRefOfVal item.2.val) parNext (blknos ++ [bt.blkno])

/-- The loop over the leaf refs of the last parent from the item found.  It stops with 0
before a free that would leave no budget for the parents, and with the error of a failed
free; past each freed leaf but the parent's last, `key` moves after it.  `.inl` ends the call
with its result, `.inr` goes on to the parents with `nr_freed` and the log. -/
def freeLeaves (budget : ℤ) (nrPar : ℕ) :
    List (ScoutfsKey × ScoutfsBtreeItem) → ScoutfsKey → ℤ → FreeMetaLog →
      (Int × ScoutfsKey × FreeMetaLog) ⊕ (ℤ × FreeMetaLog)
  | [], _, nrFreed, log => .inr (nrFreed, log)
  | item :: rest, key, nrFreed, log =>
    -- make sure we can always free parents after leaves
    if nrFreed + 1 + nrPar > budget then .inl (0, key, log)
    else
      let r := scoutfsFreeMeta log (blockRefOfVal item.2.val).blkno
      if r.1 < 0 then .inl (r.1, key, r.2)
      else
        -- done with keys in child we just freed
        freeLeaves budget nrPar rest (if rest ≠ [] then scoutfsKeyInc item.1 else key)
          (nrFreed + 1) r.2

/-- Freeing the recorded parents after their leaves; `none` is the `BUG_ON` of a failed
free. -/
def freeParents : List UInt64 → ℤ → FreeMetaLog → Option (ℤ × FreeMetaLog)
  | [], nrFreed, log => some (nrFreed, log)
  | blkno :: rest, nrFreed, log =>
    let r := scoutfsFreeMeta log blkno
    if r.1 ≠ 0 then none else freeParents rest (nrFreed + 1) r.2

/-- The walks of `scoutfs_btree_free_blocks` over a btree of height at least 2, on `fuel`:
each descends from `key` to a last parent, frees its leaves and then the recorded parents,
and restarts at `par_next` unless that is all ones. -/
def freeWalks (blocks : BtreeBlocks) (root : ScoutfsBtreeRoot) (budget : ℤ) :
    ℕ → ScoutfsKey → ℤ → FreeMetaLog → Option (Int × ScoutfsKey × FreeMetaLog)
  | 0, _, _, _ => none
  | fuel + 1, key, nrFreed, log =>
    match freeDescend blocks key (root.height - 2) root.ref scoutfsKeySetOnes [] with
    | .error ret => some (ret, key, log)
    | .ok (items, parNext, blknos) =>
      match freeLeaves budget blknos.length items key nrFreed log with
      | .inl res => some res
      | .inr (nrFreed, log) =>
        match freeParents blknos nrFreed log with
        | none => none
        | some (nrFreed, log) =>
          -- restart walk past the subtree we just freed, done after the right spine
          if parNext = scoutfsKeySetOnes then some (0, parNext, log)
          else freeWalks blocks root budget fuel parNext nrFreed log

/-- `scoutfs_btree_free_blocks`: its result, the caller's key after the call and the calls to
`scoutfs_free_meta`; `none` for `BUG_ON` or walks that outrun `fuel`. -/
def scoutfsBtreeFreeBlocks (fuel : ℕ) (blocks : BtreeBlocks) (key : ScoutfsKey)
    (root : ScoutfsBtreeRoot) (freeBudget : ℤ) (log : FreeMetaLog) :
    Option (Int × ScoutfsKey × FreeMetaLog) :=
  if freeBudget ≤ 0 then some (-EINVAL, key, log)
  else if root.height > SCOUTFS_BTREE_MAX_HEIGHT then some (- EIO, key, log)
  else if root.height = 0 then some (0, scoutfsKeySetOnes, log)
  else if key = scoutfsKeySetOnes then some (0, key, log)
  else if root.height = 1 then
    -- just free a single leaf block
    let r := scoutfsFreeMeta log root.ref.blkno
    some (r.1, if r.1 = 0 then scoutfsKeySetOnes else key, r.2)
  else freeWalks blocks root freeBudget fuel key 0 log

/-! ### A btree whose root is never freed -/

/-- The key of the one item of the left leaf, and the left leaf's parent item. -/
def splitKey : ScoutfsKey := ⟨1, 5, 0, 0, 0, 0⟩

/-- The left leaf, blkno 11. -/
def leftLeaf : ScoutfsBtreeBlock := ⟨11, 1, 0, [(splitKey, ⟨1, 0, []⟩)], by decide⟩

/-- The right leaf, blkno 12. -/
def rightLeaf : ScoutfsBtreeBlock := ⟨12, 1, 0, [(⟨1, 6, 0, 0, 0, 0⟩, ⟨2, 0, []⟩)], by decide⟩

/-- The root, blkno 10 at level 1, as `try_split` leaves it after splitting a root leaf: the
left leaf under its last key, the right leaf under all ones. -/
def splitRoot : ScoutfsBtreeBlock :=
  ⟨10, 1, 1, [(splitKey, ⟨1, 0, blockRefVal ⟨11, 1⟩⟩),
    (scoutfsKeySetOnes, ⟨1, 0, blockRefVal ⟨12, 1⟩⟩)], by decide⟩

/-- The three blocks of a btree of height 2. -/
def splitBlocks : BtreeBlocks := fun b =>
  if b = 10 then some splitRoot else if b = 11 then some leftLeaf
  else if b = 12 then some rightLeaf else none

/-- One call from the zero key with the server's budget frees both leaves and sets the key
to all ones, after which the caller deletes its freeing item: block 10 is never freed. -/
theorem scoutfsBtreeFreeBlocks_keeps_root :
    scoutfsBtreeFreeBlocks 1 splitBlocks scoutfsKeySetZeros ⟨⟨10, 1⟩, 2⟩ 250 ⟨[], []⟩ =
      some (0, scoutfsKeySetOnes, ⟨[11, 12], []⟩) := by
  decide

end Btree

end Scoutfs
