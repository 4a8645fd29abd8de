/-
The item merge of `btree.c`: `scoutfs_btree_merge` merges the items of read-only input
btrees, the finalized log trees, into a writable destination btree over a key range.

It works window by window.  `read_merged_range` reads each input in turn from the
window's start, leaf after leaf, and records every item in the window's rbtree with
`merge_read_item`: the values of totl items combine as deltas
(`scoutfs_forest_combine_deltas`), and of other items the one with the greater seq is
kept.  The window's end falls to the end of the last leaf an input's read reached
(`trim_range_end`), and below its greatest items when it outgrows `merge_window`
(`trim_range_size`).  The merged items are then applied to the destination in key order,
created, updated, combined with the destination's delta or deleted, and the next window
starts after the end of this one.

An input btree is given by its leaves, each with the key range its parents give it and
its items in key order.  The destination btree is the map of its items: its blocks, and
the splits and joins after which the source walks again to the same merged item, are not
modelled.  Whether the dirty or allocator limits stop the merge with `-ERANGE` before a
merged item is applied is read from a list of outcomes, so that every stopping point is
one run.

`scoutfsBtreeMerge_keeps_null_delta` shows that a null totl delta, which log trees keep
for the merge to drop, is created in a destination that has items, but none for its key.
-/
import Scoutfs.XattrTotals

namespace Scoutfs

/-! ### Items and deltas -/

/-- `SCOUTFS_ITEM_FLAG_DELETION`. -/
def SCOUTFS_ITEM_FLAG_DELETION : UInt8 := 1

/-- `SCOUTFS_XATTR_TOTL_ZONE`. -/
def SCOUTFS_XATTR_TOTL_ZONE : UInt8 := 12

/-- `SCOUTFS_BTREE_VALUE_ALIGN`. -/
def SCOUTFS_BTREE_VALUE_ALIGN : ℕ := 8

/-- `item_len_bytes`: a 56-byte `struct scoutfs_btree_item` and the value rounded up to
`SCOUTFS_BTREE_VALUE_ALIGN`. -/
def itemLenBytes (valLen : ℕ) : ℤ :=
  56 + ((valLen + SCOUTFS_BTREE_VALUE_ALIGN - 1) / SCOUTFS_BTREE_VALUE_ALIGN *
    SCOUTFS_BTREE_VALUE_ALIGN : ℕ)

/-- A btree item as the merge reads and writes it: its seq, flags and value bytes. -/
structure ScoutfsBtreeItem where
  seq : UInt64
  flags : UInt8
  val : List UInt8
  deriving DecidableEq, Repr

/-- A value read as `struct scoutfs_xattr_totl_val`. -/
def totlValOfBytes (b : List UInt8) : ScoutfsXattrTotlVal :=
  ⟨le64ToCpu (b.take 8), le64ToCpu ((b.drop 8).take 8)⟩

/-- The bytes of a `struct scoutfs_xattr_totl_val`. -/
def totlValBytes (v : ScoutfsXattrTotlVal) : List UInt8 :=
  cpuToLe64 v.total ++ cpuToLe64 v.count

/-- `scoutfs_xattr_combine_totl` on value bytes: values of another size than the totl
struct are `-EIO`; otherwise the destination becomes the sum. -/
def scoutfsXattrCombineTotlBytes (dst src : List UInt8) :
    Except Int (List UInt8 × DeltaResult) :=
  if src.length ≠ 16 ∨ dst.length ≠ src.length then .error (- EIO)
  else
    let r := scoutfsXattrCombineTotl (totlValOfBytes dst) (totlValOfBytes src)
    .ok (totlValBytes r.1, r.2)

/-- `scoutfs_forest_combine_deltas`: the values of totl items combine; `none` for items
that are not deltas. -/
def scoutfsForestCombineDeltas (key : ScoutfsKey) (dst src : List UInt8) :
    Except Int (Option (List UInt8 × DeltaResult)) :=
  if key.zone = SCOUTFS_XATTR_TOTL_ZONE then (scoutfsXattrCombineTotlBytes dst src).map some
  else .ok none

/-! ### The window of merged items -/

/-- `struct merged_item`. -/
structure MergedItem where
  key : ScoutfsKey
  seq : UInt64
  flags : UInt8
  val : List UInt8
  deriving DecidableEq, Repr

/-- `struct merged_range`: the window's bounds, its rbtree of merged items in key order,
and the bytes they take. -/
structure MergedRange where
  start : ScoutfsKey
  «end» : ScoutfsKey
  items : List MergedItem
  size : ℤ
  deriving Repr

namespace MergedRange

/-- `find_mitem`. -/
def findMitem (rng : MergedRange) (key : ScoutfsKey) : Option MergedItem :=
  rng.items.find? (·.key = key)

/-- `insert_mitem`: the item is linked at its key's place. -/
def insertMitem (rng : MergedRange) (mitem : MergedItem) : MergedRange :=
  { rng with
    items := rng.items.orderedInsert (fun a b => scoutfsKeyCompare a.key b.key ≠ .gt) mitem
    size := rng.size + itemLenBytes mitem.val.length }

/-- `replace_mitem` and the `free_mitem` of the unlinked victim. -/
def replaceMitem (rng : MergedRange) (victim new : MergedItem) : MergedRange :=
  { rng with
    items := rng.items.map fun m => if m.key = victim.key then new else m
    size := rng.size - itemLenBytes victim.val.length + itemLenBytes new.val.length }

/-- `free_mitem` of a linked item. -/
def freeMitem (rng : MergedRange) (mitem : MergedItem) : MergedRange :=
  { rng with
    items := rng.items.filter (·.key ≠ mitem.key)
    size := rng.size - itemLenBytes mitem.val.length }

/-- `merge_read_item`: record an input item in the window.  A delta combines into the
recorded item, which keeps its seq, and a null sum frees it; of other items the one with
the greater seq stays, the recorded one on equal seqs. -/
def mergeReadItem (rng : MergedRange) (key : ScoutfsKey) (it : ScoutfsBtreeItem) :
    Except Int MergedRange :=
  match rng.findMitem key with
  | some found =>
    match scoutfsForestCombineDeltas key found.val it.val with
    | .error ret => .error ret
    | .ok (some (v, .combined)) => .ok (rng.replaceMitem found { found with val := v })
    | .ok (some (_, .combinedNull)) => .ok (rng.freeMitem found)
    | .ok none =>
      if found.seq ≥ it.seq then .ok rng
      else .ok (rng.replaceMitem found ⟨key, it.seq, it.flags, it.val⟩)
  | none => .ok (rng.insertMitem ⟨key, it.seq, it.flags, it.val⟩)

end MergedRange

/-- The loop of `trim_range_size`, from the last item back: while the window is over
`merge_window` its last item is freed and `end` falls below it. -/
def trimRangeSizeLoop (window : ℤ) : List MergedItem → MergedRange → MergedRange
  | [], rng => rng
  | mitem :: prev, rng =>
    if rng.size > window then
      trimRangeSizeLoop window prev { rng.freeMitem mitem with «end» := scoutfsKeyDec mitem.key }
    else rng

/-- `trim_range_size`. -/
def trimRangeSize (rng : MergedRange) (window : ℤ) : MergedRange :=
  trimRangeSizeLoop window rng.items.reverse rng

/-- The loop of `trim_range_end`, from the last item back: items after `end` are freed. -/
def trimRangeEndLoop : List MergedItem → MergedRange → MergedRange
  | [], rng => rng
  | mitem :: prev, rng =>
    if scoutfsKeyCompare mitem.key rng.«end» = .gt then trimRangeEndLoop prev (rng.freeMitem mitem)
    else rng

/-- `trim_range_end`. -/
def trimRangeEnd (rng : MergedRange) : MergedRange :=
  trimRangeEndLoop rng.items.reverse rng

/-! ### Reading the inputs -/

/-- A leaf block of an input btree: the key range its parents give it (`kr.start`,
`kr.end`) and its items in key order. -/
structure BtreeLeaf where
  start : ScoutfsKey
  «end» : ScoutfsKey
  items : List (ScoutfsKey × ScoutfsBtreeItem)

/-- The leaf `btree_walk` reaches for `key` in a read-only btree given by its leaves:
`-ENOENT` for an empty btree.  Leaves that do not cover `key` are no btree, `-EIO`. -/
def btreeWalkLeaf (leaves : List BtreeLeaf) (key : ScoutfsKey) : Except Int BtreeLeaf :=
  if leaves = [] then .error (-ENOENT)
  else
    match leaves.find? fun l =>
        scoutfsKeyCompare key l.start ≠ .lt ∧ scoutfsKeyCompare key l.«end» ≠ .gt with
    | some l => .ok l
    | none => .error (- EIO)

/-- `scoutfs_btree_read_items`: the leaf holding `key` narrows `[start, end]` to its own
range, and its items in that range go to `cb` in key order. -/
def scoutfsBtreeReadItems {σ : Type} (leaves : List BtreeLeaf) (key start «end» : ScoutfsKey)
    (cb : σ → ScoutfsKey → ScoutfsBtreeItem → Except Int σ) (arg : σ) :
    Except Int (ScoutfsKey × ScoutfsKey × σ) := do
  let leaf ← btreeWalkLeaf leaves key
  let start := if scoutfsKeyCompare leaf.start start = .gt then leaf.start else start
  let «end» := if scoutfsKeyCompare leaf.«end» «end» = .lt then leaf.«end» else «end»
  let items := (leaf.items.dropWhile fun it => scoutfsKeyCompare it.1 start = .lt).takeWhile
    fun it => scoutfsKeyCompare it.1 «end» ≠ .gt
  let arg ← items.foldlM (fun a it => cb a it.1 it.2) arg
  return (start, «end», arg)

/-- The leaves `read_merged_range` reads from one input at most: its loop runs while
`i < merge_window` in steps of `SCOUTFS_BLOCK_LG_SIZE`. -/
def mergeWindowReads (window : ℕ) : ℕ :=
  (window + SCOUTFS_BLOCK_LG_SIZE - 1) / SCOUTFS_BLOCK_LG_SIZE

/-- The leaf loop of `read_merged_range` over one input with `n` reads left, from `key`:
returns the `end` of the last leaf read.  The source leaves `end` unset when
`merge_window` allows no read; the model takes the window's end. -/
def readInputLeaves (leaves : List BtreeLeaf) : ℕ → ScoutfsKey → MergedRange →
    Except Int (ScoutfsKey × MergedRange)
  | 0, _, rng => .ok (rng.«end», rng)
  | n + 1, key, rng => do
    let r ← scoutfsBtreeReadItems leaves key key rng.«end» MergedRange.mergeReadItem rng
    let «end» := r.2.1
    let rng := r.2.2
    if scoutfsKeyCompare «end» rng.«end» ≠ .lt then return («end», rng)
    else if n = 0 then return («end», rng)
    else readInputLeaves leaves n (scoutfsKeyInc «end») rng

/-- One input of `read_merged_range`: its leaves are read from the window's start, then
the window's end falls to the end of the last leaf read and the window is trimmed to
`merge_window`. -/
def readMergedInput (window : ℕ) (rng : MergedRange) (leaves : List BtreeLeaf) :
    Except Int MergedRange := do
  let r ← readInputLeaves leaves (mergeWindowReads window) rng.start rng
  let rng :=
    if scoutfsKeyCompare r.1 r.2.«end» = .lt then trimRangeEnd { r.2 with «end» := r.1 } else r.2
  return if rng.size > window then trimRangeSize rng window else rng

/-- `read_merged_range`: the inputs in list order. -/
def readMergedRange (rng : MergedRange) (inputs : List (List BtreeLeaf)) (window : ℕ) :
    Except Int MergedRange :=
  inputs.foldlM (readMergedInput window) rng

/-! ### Applying the merged items -/

/-- The destination btree as the map of its items. -/
abbrev BtreeItems := ScoutfsKey → Option ScoutfsBtreeItem

/-- One merged item applied to the destination, the body of the inner loop of
`scoutfs_btree_merge`: a delta combines with the destination's item and takes the merged
seq, a null sum deletes it; a deletion deletes; any other item is created or overwrites
the destination's seq, flags and value. -/
def mergeApplyItem (root : BtreeItems) (mitem : MergedItem) : Except Int BtreeItems := do
  let isDel := mitem.flags &&& SCOUTFS_ITEM_FLAG_DELETION ≠ 0
  match root mitem.key with
  | none =>
    -- "insert missing non-deletion merge items"
    return if isDel then root
      else Function.update root mitem.key (some ⟨mitem.seq, mitem.flags, mitem.val⟩)
  | some item =>
    if isDel then return Function.update root mitem.key none
    else
      match ← scoutfsForestCombineDeltas mitem.key item.val mitem.val with
      | some (v, .combined) =>
        return Function.update root mitem.key (some { item with seq := mitem.seq, val := v })
      | some (_, .combinedNull) => return Function.update root mitem.key none
      | none => return Function.update root mitem.key (some ⟨mitem.seq, mitem.flags, mitem.val⟩)

/-- What `scoutfs_btree_merge` returns: `ret`, `*next_ret` when it sets it, and the
destination's items. -/
structure MergeOut where
  ret : Int
  next : Option ScoutfsKey
  root : BtreeItems

/-- The loop of `scoutfs_btree_merge` on `fuel`: an empty window either ends the merge at
the range's end or reads the next window after it; otherwise its first item is applied,
unless the outcome stops the merge with `-ERANGE` there. -/
def mergeLoop (inputs : List (List BtreeLeaf)) (window : ℕ) («end» : ScoutfsKey) :
    ℕ → List Bool → MergedRange → BtreeItems → Option MergeOut
  | 0, _, _, _ => none
  | fuel + 1, stops, rng, root =>
    match rng.items with
    | [] =>
      -- "done if the read range hit the end"
      if scoutfsKeyCompare rng.«end» «end» ≠ .lt then some ⟨0, none, root⟩
      else
        match readMergedRange { rng with start := scoutfsKeyInc rng.«end», «end» := «end» }
            inputs window with
        | .error ret => some ⟨ret, none, root⟩
        | .ok rng => mergeLoop inputs window «end» fuel stops rng root
    | mitem :: _ =>
      if stops.head? = some true then some ⟨-ERANGE, some mitem.key, root⟩
      else
        match mergeApplyItem root mitem with
        | .error ret => some ⟨ret, none, root⟩
        | .ok root => mergeLoop inputs window «end» fuel stops.tail (rng.freeMitem mitem) root

/-- `scoutfs_btree_merge` of `inputs` into `root` over `[start, end]`; `none` when the
loop outruns `fuel`. -/
def scoutfsBtreeMerge (fuel : ℕ) (stops : List Bool) (start «end» : ScoutfsKey)
    (root : BtreeItems) (inputs : List (List BtreeLeaf)) (mergeWindow : ℕ) : Option MergeOut :=
  match readMergedRange ⟨start, «end», [], 0⟩ inputs mergeWindow with
  | .error ret => some ⟨ret, none, root⟩
  | .ok rng => mergeLoop inputs mergeWindow «end» fuel stops rng root

/-! ### A null delta reaches the destination -/

/-- A totl key. -/
def nullDeltaKey : ScoutfsKey := ⟨SCOUTFS_XATTR_TOTL_ZONE, 1, 0, 2, 3, 0⟩

/-- A finalized log tree of one leaf whose only item is a null totl delta: a delta and its
reversal combined by `scoutfs_btree_insert_list`, which leaves null deltas for the merge. -/
def nullDeltaLog : List BtreeLeaf :=
  [⟨scoutfsKeySetZeros, scoutfsKeySetOnes, [(nullDeltaKey, ⟨5, 0, totlValBytes ⟨0, 0⟩⟩)]⟩]

/-- A destination that holds the totl item of another name, the total 7 of one xattr, and none
at `nullDeltaKey`. -/
def nullDeltaDest : BtreeItems :=
  fun k => if k = ⟨SCOUTFS_XATTR_TOTL_ZONE, 1, 0, 2, 2, 0⟩ then some ⟨3, 0, totlValBytes ⟨7, 1⟩⟩
    else none

theorem scoutfsBtreeMerge_keeps_null_delta :
    (scoutfsBtreeMerge 4 [] scoutfsKeySetZeros scoutfsKeySetOnes nullDeltaDest [nullDeltaLog]
        (2 * 1024 * 1024)).map (fun out => (out.ret, out.root nullDeltaKey)) =
      some (0, some ⟨5, 0, totlValBytes ⟨0, 0⟩⟩) := by
  decide

end Scoutfs
