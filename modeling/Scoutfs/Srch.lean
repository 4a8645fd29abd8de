/-
The srch search of `srch.c`: finding the inodes whose entries for an xattr hash are
live across the srch files.

An entry `(hash, ino, id)` records that an inode gained an xattr; a second occurrence
of the same entry records its removal, so an entry is live when it occurs an odd number
of times across all files.  `scoutfs_srch_search_xattrs` reads every file whose bounds
meet the search range: log files entry by entry, sorted files from the block a binary
search finds.  `track_found` toggles each found `(ino, id)` in the tracking root; once
the root holds `SRCH_LIMIT` nodes it drops the greatest and lowers the end of the range
before it (`set_end_before`).  A pass that tracks nothing retries after its end.

A file is given by its blocks' decoded entries; `decode_entry` and the block encoding
are not modelled.  `SrchSpec.lean` proves what the search leaves in the tracking root.
-/
import Mathlib.Data.Finset.Max
import Mathlib.Data.List.Sort
import Scoutfs.Format

namespace Scoutfs

/-! ### Entries -/

/-- `struct scoutfs_srch_entry`. -/
structure ScoutfsSrchEntry where
  hash : UInt64
  ino : UInt64
  id : UInt64
  deriving DecidableEq, Repr

namespace ScoutfsSrchEntry

/-- The entry as the 192-bit number whose order is `sre_cmp`'s. -/
def toNat (e : ScoutfsSrchEntry) : ℕ :=
  (e.hash.toNat * 2 ^ 64 + e.ino.toNat) * 2 ^ 64 + e.id.toNat

theorem toNat_injective : Function.Injective toNat := by
  rintro ⟨h, i, d⟩ ⟨h', i', d'⟩ heq
  simp only [toNat] at heq
  have := h.toNat_lt
  have := i.toNat_lt
  have := d.toNat_lt
  have := h'.toNat_lt
  have := i'.toNat_lt
  have := d'.toNat_lt
  simp only [mk.injEq]
  refine ⟨UInt64.toNat_inj.mp ?_, UInt64.toNat_inj.mp ?_, UInt64.toNat_inj.mp ?_⟩ <;> omega

end ScoutfsSrchEntry

/-- `sre_cmp`: hash, then ino, then id. -/
def sreCmp (a b : ScoutfsSrchEntry) : Ordering :=
  (scoutfsCmp a.hash b.hash).then <| (scoutfsCmp a.ino b.ino).then <| scoutfsCmp a.id b.id

/-- Two 64-bit digits compare as their high digits, then their low digits. -/
theorem compare_mul_add {a b c d : ℕ} (hb : b < 2 ^ 64) (hd : d < 2 ^ 64) :
    compare (a * 2 ^ 64 + b) (c * 2 ^ 64 + d) = (compare a c).then (compare b d) := by
  rcases lt_trichotomy a c with h | rfl | h
  · rw [compare_lt_iff_lt.mpr h, compare_lt_iff_lt.mpr (by omega)]
    rfl
  · rw [compare_eq_iff_eq.mpr (rfl : a = a)]
    show compare (a * 2 ^ 64 + b) (a * 2 ^ 64 + d) = compare b d
    rcases lt_trichotomy b d with h' | rfl | h'
    · rw [compare_lt_iff_lt.mpr h', compare_lt_iff_lt.mpr (by omega)]
    · rw [compare_eq_iff_eq.mpr rfl, compare_eq_iff_eq.mpr rfl]
    · rw [compare_gt_iff_gt.mpr h', compare_gt_iff_gt.mpr (by omega)]
  · rw [compare_gt_iff_gt.mpr h, compare_gt_iff_gt.mpr (by omega)]
    rfl

/-- `sre_cmp` is the order of the entries' numbers. -/
theorem sreCmp_toNat (a b : ScoutfsSrchEntry) : sreCmp a b = compare a.toNat b.toNat := by
  simp only [sreCmp, ScoutfsKey.scoutfsCmp_uInt64, ScoutfsSrchEntry.toNat]
  rw [compare_mul_add a.id.toNat_lt b.id.toNat_lt, compare_mul_add a.ino.toNat_lt b.ino.toNat_lt,
    Ordering.then_assoc]

instance : Ord ScoutfsSrchEntry := ⟨sreCmp⟩

/-- Entries are ordered by `sre_cmp`. -/
instance : LinearOrder ScoutfsSrchEntry :=
  LinearOrder.liftWithOrd' ScoutfsSrchEntry.toNat ScoutfsSrchEntry.toNat_injective sreCmp_toNat

theorem ScoutfsSrchEntry.le_def {a b : ScoutfsSrchEntry} : a ≤ b ↔ a.toNat ≤ b.toNat := Iff.rfl

theorem ScoutfsSrchEntry.lt_def {a b : ScoutfsSrchEntry} : a < b ↔ a.toNat < b.toNat := Iff.rfl

@[simp] theorem sreCmp_eq_lt {a b : ScoutfsSrchEntry} : sreCmp a b = .lt ↔ a < b :=
  compare_lt_iff_lt (a := a) (b := b)

@[simp] theorem sreCmp_eq_gt {a b : ScoutfsSrchEntry} : sreCmp a b = .gt ↔ b < a :=
  compare_gt_iff_gt (a := a) (b := b)

@[simp] theorem sreCmp_eq_eq {a b : ScoutfsSrchEntry} : sreCmp a b = .eq ↔ a = b :=
  compare_eq_iff_eq (a := a) (b := b)

/-- `sre_inc`: the next entry, carrying into `ino` and `hash`. -/
def sreInc (sre : ScoutfsSrchEntry) : ScoutfsSrchEntry :=
  let id := sre.id + 1
  if id ≠ 0 then { sre with id := id }
  else
    let ino := sre.ino + 1
    if ino ≠ 0 then { sre with ino := ino, id := id }
    else ⟨sre.hash + 1, ino, id⟩

/-- `sre_dec`: the previous entry, borrowing from `ino` and `hash`. -/
def sreDec (sre : ScoutfsSrchEntry) : ScoutfsSrchEntry :=
  let id := sre.id - 1
  if id ≠ U64_MAX then { sre with id := id }
  else
    let ino := sre.ino - 1
    if ino ≠ U64_MAX then { sre with ino := ino, id := id }
    else ⟨sre.hash - 1, ino, id⟩

/-! ### The tracking root -/

/-- An `(ino, id)` node of the tracking rbtree. -/
structure SrchNode where
  ino : UInt64
  id : UInt64
  deriving DecidableEq, Repr

namespace SrchNode

/-- The node as the number whose order is the rbtree's `scoutfs_cmp(ino) ?: scoutfs_cmp(id)`. -/
def toNat (n : SrchNode) : ℕ :=
  n.ino.toNat * 2 ^ 64 + n.id.toNat

theorem toNat_injective : Function.Injective toNat := by
  rintro ⟨i, d⟩ ⟨i', d'⟩ heq
  simp only [toNat] at heq
  have := d.toNat_lt
  have := d'.toNat_lt
  simp only [mk.injEq]
  refine ⟨UInt64.toNat_inj.mp ?_, UInt64.toNat_inj.mp ?_⟩ <;> omega

/-- The rbtree's comparison of `track_found`. -/
def cmp (a b : SrchNode) : Ordering :=
  (scoutfsCmp a.ino b.ino).then (scoutfsCmp a.id b.id)

theorem cmp_toNat (a b : SrchNode) : cmp a b = compare a.toNat b.toNat := by
  simp only [cmp, ScoutfsKey.scoutfsCmp_uInt64, toNat]
  rw [compare_mul_add a.id.toNat_lt b.id.toNat_lt]

instance : Ord SrchNode := ⟨cmp⟩

instance : LinearOrder SrchNode :=
  LinearOrder.liftWithOrd' toNat toNat_injective cmp_toNat

theorem lt_def {a b : SrchNode} : a < b ↔ a.toNat < b.toNat := Iff.rfl

end SrchNode

/-- `struct scoutfs_srch_rb_root`: the tracked nodes, the greatest of them (`last`), and
their number. -/
structure ScoutfsSrchRbRoot where
  nodes : Finset SrchNode
  last : Option SrchNode
  nr : ℕ

/-- `srch_init_rb_root`. -/
def ScoutfsSrchRbRoot.empty : ScoutfsSrchRbRoot :=
  ⟨∅, none, 0⟩

/-- `rb_last`: the greatest node. -/
def rbLast (nodes : Finset SrchNode) : Option SrchNode :=
  nodes.max

/-- `rb_prev`: the greatest node below `n`. -/
def rbPrev (nodes : Finset SrchNode) (n : SrchNode) : Option SrchNode :=
  (nodes.filter (· < n)).max

/-- `set_end_before`: lower `end` to the entry before the dropped `(ino, id)`. -/
def setEndBefore (e : ScoutfsSrchEntry) (ino id : UInt64) : ScoutfsSrchEntry :=
  let sre := sreDec ⟨e.hash, ino, id⟩
  if sreCmp sre e = .lt then sre else e

/-- `cmp > 0 && parent == sroot->last` in `track_found`: `n` is linked to the right of the
last node, as it is greater than every node. -/
def rbLinksAfterLast (sroot : ScoutfsSrchRbRoot) (n : SrchNode) : Bool :=
  decide (∀ m ∈ sroot.nodes, m < n) && decide (sroot.last = rbLast sroot.nodes)

/-- `track_found`: a tracked node is found again and removed as a deletion; at the limit a
node greater than every tracked one is dropped, and inserting below the greatest drops
the greatest instead; each drop lowers `end`. -/
def trackFound (sroot : ScoutfsSrchRbRoot) (ino id : UInt64) (limit : ℕ)
    (e : ScoutfsSrchEntry) : ScoutfsSrchRbRoot × ScoutfsSrchEntry :=
  let n : SrchNode := ⟨ino, id⟩
  if n ∈ sroot.nodes then
    -- "update last if removed as a dupe"
    (⟨sroot.nodes.erase n, if sroot.last = some n then rbPrev sroot.nodes n else sroot.last,
      sroot.nr - 1⟩, e)
  else
    if sroot.nr ≥ limit ∧ rbLinksAfterLast sroot n then (sroot, setEndBefore e ino id)
    else
      let nodes := insert n sroot.nodes
      let last := if rbLinksAfterLast sroot n then some n else sroot.last
      let nr := sroot.nr + 1
      match last with
      | some l =>
        if nr > limit ∧ l ≠ n then
          (⟨nodes.erase l, rbPrev nodes l, nr - 1⟩, setEndBefore e l.ino l.id)
        else (⟨nodes, last, nr⟩, e)
      | none => (⟨nodes, last, nr⟩, e)

/-! ### Files -/

/-- `SCOUTFS_SRCH_LOG_TYPE` and `SCOUTFS_SRCH_BLOCKS_TYPE`. -/
inductive SrchFileType
  | log
  | sorted
  deriving DecidableEq, Repr

/-- A `struct scoutfs_srch_block` with its decoded entries in order. -/
structure ScoutfsSrchBlock where
  first : ScoutfsSrchEntry
  last : ScoutfsSrchEntry
  entries : List ScoutfsSrchEntry

/-- A `struct scoutfs_srch_file` with its blocks in order. -/
structure ScoutfsSrchFile where
  first : ScoutfsSrchEntry
  last : ScoutfsSrchEntry
  blocks : List ScoutfsSrchBlock

/-- Every entry of a file, block after block. -/
def ScoutfsSrchFile.entries (sfl : ScoutfsSrchFile) : List ScoutfsSrchEntry :=
  sfl.blocks.flatMap (·.entries)

/-- The search's state as it reads entries: the tracking root and `end`. -/
abbrev SrchAcc := ScoutfsSrchRbRoot × ScoutfsSrchEntry

/-- One entry of `search_log_file`: tracked when it lies in `[start, end]`. -/
def srchLogEntry (start : ScoutfsSrchEntry) (limit : ℕ) (acc : SrchAcc) (sre : ScoutfsSrchEntry) :
    SrchAcc :=
  if sreCmp start sre = .gt ∨ sreCmp sre acc.2 = .gt then acc
  else trackFound acc.1 sre.ino sre.id limit acc.2

/-- `search_log_file`: every entry of every block. -/
def searchLogFile (sfl : ScoutfsSrchFile) (start : ScoutfsSrchEntry) (limit : ℕ) (acc : SrchAcc) :
    SrchAcc :=
  sfl.entries.foldl (srchLogEntry start limit) acc

/-- The binary search of `search_sorted_file` for the first block whose bounds meet
`[start, end]`, `none` for `U64_MAX`. -/
def sortedFirstBlock (blocks : List ScoutfsSrchBlock) (start e : ScoutfsSrchEntry)
    (left right : ℤ) (first : Option ℕ) : Option ℕ :=
  if left ≤ right then
    let blk := (left + right) / 2
    match blocks[blk.toNat]? with
    | none => first
    | some srb =>
      if sreCmp e srb.first = .lt then sortedFirstBlock blocks start e left (blk - 1) first
      else if sreCmp start srb.last = .gt then sortedFirstBlock blocks start e (blk + 1) right first
      else sortedFirstBlock blocks start e left (blk - 1) (some (min blk.toNat (first.getD blk.toNat)))
  else first
termination_by (right - left + 1).toNat
decreasing_by all_goals omega

/-- The entry stream of `search_sorted_file`: entries before `start` are passed over and
the first entry after `end` stops it. -/
def searchSortedStream (start : ScoutfsSrchEntry) (limit : ℕ) : List ScoutfsSrchEntry → SrchAcc →
    SrchAcc
  | [], acc => acc
  | sre :: rest, acc =>
    if sreCmp start sre = .gt then searchSortedStream start limit rest acc
    else if sreCmp sre acc.2 = .gt then acc
    else searchSortedStream start limit rest (trackFound acc.1 sre.ino sre.id limit acc.2)

/-- `search_sorted_file`. -/
def searchSortedFile (sfl : ScoutfsSrchFile) (start : ScoutfsSrchEntry) (limit : ℕ)
    (acc : SrchAcc) : SrchAcc :=
  if sfl.blocks = [] then acc
  else
    match sortedFirstBlock sfl.blocks start acc.2 0 (sfl.blocks.length - 1 : ℕ) none with
    | none => acc
    | some first => searchSortedStream start limit ((sfl.blocks.drop first).flatMap (·.entries)) acc

/-- `search_file`: files whose bounds miss `[start, end]` are not read. -/
def searchFile (type : SrchFileType) (sfl : ScoutfsSrchFile) (start : ScoutfsSrchEntry)
    (limit : ℕ) (acc : SrchAcc) : SrchAcc :=
  if sreCmp start sfl.last = .gt ∨ sreCmp acc.2 sfl.first = .lt then acc
  else
    match type with
    | .log => searchLogFile sfl start limit acc
    | .sorted => searchSortedFile sfl start limit acc

def SRCH_LIMIT : ℕ := 1000000

/-- One pass of `scoutfs_srch_search_xattrs` over the files in the order it reads them (the
sorted and log files of `srch_root`, then each log tree's file), from an empty root. -/
def srchSearchPass (files : List (SrchFileType × ScoutfsSrchFile)) (start final : ScoutfsSrchEntry) :
    SrchAcc :=
  files.foldl (fun acc f => searchFile f.1 f.2 start SRCH_LIMIT acc) (ScoutfsSrchRbRoot.empty, final)

/-- The passes of `scoutfs_srch_search_xattrs`: a pass that tracks nothing before the final
bound retries after its end.  `none` when the passes outrun `fuel`. -/
def srchSearchRetry (files : List (SrchFileType × ScoutfsSrchFile)) (final : ScoutfsSrchEntry) :
    ℕ → ScoutfsSrchEntry → Option SrchAcc
  | 0, _ => none
  | fuel + 1, start =>
    let acc := srchSearchPass files start final
    if acc.1.nr = 0 ∧ sreCmp acc.2 final = .lt then srchSearchRetry files final fuel (sreInc acc.2)
    else some acc

/-- `scoutfs_srch_search_xattrs`: the tracking root and `*done`. -/
def scoutfsSrchSearchXattrs (fuel : ℕ) (files : List (SrchFileType × ScoutfsSrchFile))
    (hash ino lastIno : UInt64) : Option (ScoutfsSrchRbRoot × Bool) :=
  let final : ScoutfsSrchEntry := ⟨hash, lastIno, U64_MAX⟩
  (srchSearchRetry files final fuel ⟨hash, ino, 0⟩).map fun acc => (acc.1, sreCmp acc.2 final == .eq)

end Scoutfs
