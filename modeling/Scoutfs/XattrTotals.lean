/-
The `.totl.` xattr totals of one name, from the delta items the mounts commit to their
log trees to what `scoutfs_ioc_read_xattr_totals` reports.

A mount adds a delta with `scoutfs_item_delta`; a commit writes it into its log tree,
combining it with the tree's item for the name (`scoutfs_btree_insert_list`).  The
server finalizes log trees and merges the finalized ones into the fs root, where
`merge_read_item` combines the inputs' items and `scoutfs_btree_merge` combines the
result with the fs item.  A merge may reach the fs root before its input trees are
removed.  The reader sums the fs item, the finalized items and the active items by the
rules of `scoutfs_ioc_read_xattr_totals`.  `TotlStep` is every move of the server and
the mounts for the name; `committed` is the sum of every delta committed so far.

`xattrTotals_double_count` shows a reachable state where the reader adds two merged
finalized deltas a second time.
-/
import Mathlib.Data.UInt
import Scoutfs.Format

namespace Scoutfs

/-! ### Totl values and delta items -/

/-- `struct scoutfs_xattr_totl_val`. -/
structure ScoutfsXattrTotlVal where
  total : UInt64
  count : UInt64
  deriving DecidableEq, Repr

/-- `SCOUTFS_DELTA_COMBINED` and `SCOUTFS_DELTA_COMBINED_NULL`. -/
inductive DeltaResult
  | combined
  | combinedNull
  deriving DecidableEq, Repr

/-- `scoutfs_xattr_combine_totl`: the destination plus the source, null when both sums
are zero. -/
def scoutfsXattrCombineTotl (dst src : ScoutfsXattrTotlVal) : ScoutfsXattrTotlVal × DeltaResult :=
  let d : ScoutfsXattrTotlVal := ⟨dst.total + src.total, dst.count + src.count⟩
  (d, if d.total = 0 ∧ d.count = 0 then .combinedNull else .combined)

/-- A btree item of the name: its seq and its value. -/
structure TotlItem where
  seq : UInt64
  val : ScoutfsXattrTotlVal
  deriving DecidableEq, Repr

/-- `scoutfs_btree_insert_list` writing a committed delta item over the log tree's item:
the values combine and the item takes the commit's seq; a null result stays for the merge
to drop. -/
def logTreeInsertDelta : Option TotlItem → TotlItem → Option TotlItem
  | none, it => some it
  | some found, it => some ⟨it.seq, (scoutfsXattrCombineTotl found.val it.val).1⟩

/-- `merge_read_item` for a totl item: a new key is recorded; otherwise the delta combines
into the recorded merged item, which keeps its seq, and a null result is freed. -/
def mergeReadItem : Option TotlItem → TotlItem → Option TotlItem
  | none, it => some it
  | some found, it =>
    match scoutfsXattrCombineTotl found.val it.val with
    | (d, .combined) => some ⟨found.seq, d⟩
    | (_, .combinedNull) => none

/-- `scoutfs_btree_merge` applying the merged item to the fs item: a missing item is
created, a present one combines and takes the merged item's seq, and a null result is
deleted. -/
def btreeMergeItem : Option TotlItem → Option TotlItem → Option TotlItem
  | fs, none => fs
  | none, some m => some m
  | some item, some m =>
    match scoutfsXattrCombineTotl item.val m.val with
    | (d, .combined) => some ⟨m.seq, d⟩
    | (_, .combinedNull) => none

/-! ### The log trees and the server -/

/-- The part of `struct scoutfs_log_trees` the name's totals depend on, with the tree's
item for the name. -/
structure LogTrees where
  rid : UInt64
  nr : UInt64
  finalized : Bool
  finalizeSeq : UInt64
  item : Option TotlItem
  deriving DecidableEq, Repr

/-- Whether a log tree is an input of the merge with seq `seq`: finalized before it. -/
def LogTrees.mergeInput (lt : LogTrees) (seq : UInt64) : Bool :=
  lt.finalized && lt.finalizeSeq < seq

/-- `struct scoutfs_log_merge_status` for the name: the merge's seq and whether its range
holding the name has been merged into the fs root. -/
structure LogMergeStatus where
  seq : UInt64
  merged : Bool
  deriving DecidableEq, Repr

/-- The server's items for one totl name.  `logs` are in the order of their
`(rid, nr)` keys in `logs_root`; `seq` is the next `scoutfs_server_next_seq`. -/
structure TotlServer where
  fsItem : Option TotlItem
  logs : List LogTrees
  merge : Option LogMergeStatus
  seq : UInt64
  /-- The sum of every delta committed so far; nothing in the file system reads it. -/
  committed : ScoutfsXattrTotlVal

/-- The merged item of the merge with seq `seq`, read from its inputs in key order. -/
def readMergedItem (logs : List LogTrees) (seq : UInt64) : Option TotlItem :=
  (logs.filter (·.mergeInput seq)).foldl
    (fun found lt => match lt.item with
      | some it => mergeReadItem found it
      | none => found) none

/-- A mount commits the delta `d` to the open log tree at index `i` in the transaction
with seq `st.seq`; a null delta writes nothing (`apply_totl_delta`). -/
def TotlServer.commit (st : TotlServer) (i : ℕ) (d : ScoutfsXattrTotlVal) : TotlServer :=
  if d.total = 0 ∧ d.count = 0 then st
  else
    { st with
      logs := st.logs.modify i fun lt => { lt with item := logTreeInsertDelta lt.item ⟨st.seq, d⟩ }
      seq := st.seq + 1
      committed := ⟨st.committed.total + d.total, st.committed.count + d.count⟩ }

/-- The server finalizes the log tree at index `i`, also when reclaiming a departed
mount during a merge. -/
def TotlServer.finalize (st : TotlServer) (i : ℕ) : TotlServer :=
  { st with
    logs := st.logs.modify i fun lt => { lt with finalized := true, finalizeSeq := st.seq }
    seq := st.seq + 1 }

/-- The server starts a log merge of the trees finalized so far. -/
def TotlServer.startMerge (st : TotlServer) : TotlServer :=
  { st with merge := some ⟨st.seq, false⟩, seq := st.seq + 1 }

/-- The merge of the range holding the name is spliced into the fs root. -/
def TotlServer.mergeName (st : TotlServer) (m : LogMergeStatus) : TotlServer :=
  { st with
    fsItem := btreeMergeItem st.fsItem (readMergedItem st.logs m.seq)
    merge := some { m with merged := true } }

/-- The merge completes: its input log trees are deleted. -/
def TotlServer.finishMerge (st : TotlServer) (m : LogMergeStatus) : TotlServer :=
  { st with logs := st.logs.filter fun lt => !lt.mergeInput m.seq, merge := none }

/-- Every move of the mounts and the server for the name. -/
inductive TotlStep : TotlServer → TotlServer → Prop
  | commit {st : TotlServer} {i : ℕ} {lt : LogTrees} (h : st.logs[i]? = some lt)
      (hopen : lt.finalized = false) (d : ScoutfsXattrTotlVal) : TotlStep st (st.commit i d)
  | finalize {st : TotlServer} {i : ℕ} {lt : LogTrees} (h : st.logs[i]? = some lt)
      (hopen : lt.finalized = false) : TotlStep st (st.finalize i)
  | startMerge {st : TotlServer} (h : st.merge = none) : TotlStep st st.startMerge
  | mergeName {st : TotlServer} {m : LogMergeStatus} (h : st.merge = some m)
      (hm : m.merged = false) : TotlStep st (st.mergeName m)
  | finishMerge {st : TotlServer} {m : LogMergeStatus} (h : st.merge = some m)
      (hm : m.merged = true) : TotlStep st (st.finishMerge m)

/-- A server with open, empty log trees, no fs item and no merge. -/
def TotlServer.init (logs : List LogTrees) : TotlServer :=
  ⟨none, logs.map fun lt => { lt with finalized := false, finalizeSeq := 0, item := none }, none, 1,
    ⟨0, 0⟩⟩

/-- The states reached from an initial server by any moves. -/
inductive TotlReachable : TotlServer → Prop
  | init (logs : List LogTrees) : TotlReachable (TotlServer.init logs)
  | step {st st' : TotlServer} : TotlReachable st → TotlStep st st' → TotlReachable st'

/-! ### The reader -/

/-- `FIC_*`: where the forest reader found an item. -/
inductive ForestItemClass
  | fsRoot
  | finalized
  | active
  deriving DecidableEq, Repr

/-- The items of the name in the order `scoutfs_forest_read_items` passes them: the fs
root's, then each log tree's in key order. -/
def forestReadItems (st : TotlServer) : List (TotlItem × ForestItemClass) :=
  (st.fsItem.map fun it => (it, ForestItemClass.fsRoot)).toList ++
    st.logs.filterMap fun lt =>
      lt.item.map fun it => (it, if lt.finalized then .finalized else .active)

/-- `struct xattr_total_entry` of the name. -/
structure XattrTotalEntry where
  total : UInt64
  count : UInt64
  fsSeq : UInt64
  fsTotal : UInt64
  fsCount : UInt64
  finSeq : UInt64
  finTotal : UInt64
  finCount : Int64
  logSeq : UInt64
  logTotal : UInt64
  logCount : Int64

/-- The zeroed entry `kzalloc` gives. -/
def XattrTotalEntry.zero : XattrTotalEntry :=
  ⟨0, 0, 0, 0, 0, 0, 0, 0, 0, 0, 0⟩

/-- `read_xattr_total_item`: the fs item is recorded, finalized and active items are summed,
each class remembering the seq of the last item read. -/
def readXattrTotalItem (ent : XattrTotalEntry) (it : TotlItem) : ForestItemClass → XattrTotalEntry
  | .fsRoot => { ent with fsSeq := it.seq, fsTotal := it.val.total, fsCount := it.val.count }
  | .finalized =>
    { ent with finSeq := it.seq, finTotal := ent.finTotal + it.val.total,
               finCount := ent.finCount + it.val.count.toInt64 }
  | .active =>
    { ent with logSeq := it.seq, logTotal := ent.logTotal + it.val.total,
               logCount := ent.logCount + it.val.count.toInt64 }

/-- The copy loop of `scoutfs_ioc_read_xattr_totals` for the entry: the fs item, the
finalized sums if they are newer than it or create it, and the active sums; a total and
count both zero is not copied. -/
def xattrTotalCopy (ent : XattrTotalEntry) : Option ScoutfsXattrTotlVal :=
  let ent := if ent.fsSeq ≠ 0 then { ent with total := ent.fsTotal, count := ent.fsCount } else ent
  let ent :=
    if (ent.fsSeq ≠ 0 ∧ ent.finSeq > ent.fsSeq) ∨ (ent.fsSeq = 0 ∧ ent.finCount > 0) then
      { ent with total := ent.total + ent.finTotal, count := ent.count + ent.finCount.toUInt64 }
    else ent
  let ent :=
    if ent.logSeq > 0 then
      { ent with total := ent.total + ent.logTotal, count := ent.count + ent.logCount.toUInt64 }
    else ent
  if ent.total ≠ 0 ∨ ent.count ≠ 0 then some ⟨ent.total, ent.count⟩ else none

/-- `scoutfs_ioc_read_xattr_totals` for the name: what it copies to the user, if anything. -/
def scoutfsIocReadXattrTotals (st : TotlServer) : Option ScoutfsXattrTotlVal :=
  match forestReadItems st with
  | [] => none
  | items => xattrTotalCopy (items.foldl (fun ent p => readXattrTotalItem ent p.1 p.2)
      XattrTotalEntry.zero)

/-! ### Two merged deltas counted twice -/

/-- **The reader counts merged finalized deltas twice.**  Two mounts' log trees, keyed
`(1, 0)` and `(2, 0)`, commit the deltas `(5, 1)` at seq 1 and `(7, 1)` at seq 2 and are
finalized; a merge of both reaches the fs root before they are removed.  The merged item
keeps the seq 1 of the first input, while the reader's `fin_seq` is the seq 2 of the last
finalized item it reads, so it adds the finalized deltas on top of the fs item that
already holds them: it reports `(24, 4)` for the committed `(12, 2)`. -/
theorem xattrTotals_double_count :
    ∃ st, TotlReachable st ∧ st.committed = ⟨12, 2⟩ ∧
      scoutfsIocReadXattrTotals st = some ⟨24, 4⟩ := by
  have r₀ := TotlReachable.init [⟨1, 0, false, 0, none⟩, ⟨2, 0, false, 0, none⟩]
  -- each mount commits a delta to its open log tree
  have r₂ := (r₀.step (TotlStep.commit (i := 0) rfl rfl ⟨5, 1⟩)).step
    (TotlStep.commit (i := 1) rfl rfl ⟨7, 1⟩)
  -- both trees are finalized, then a merge of both starts and reaches the fs root
  have r₄ := (r₂.step (TotlStep.finalize (i := 0) rfl rfl)).step
    (TotlStep.finalize (i := 1) rfl rfl)
  have r₆ := (r₄.step (TotlStep.startMerge rfl)).step (TotlStep.mergeName rfl rfl)
  exact ⟨_, r₆, by decide, by decide⟩

end Scoutfs
