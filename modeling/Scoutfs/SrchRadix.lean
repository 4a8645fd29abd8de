/-
The radix of parent blocks that addresses the blocks of a srch file (`srch.c`).

A srch file of height `h` is a tree of blocks: the leaves, at level 0, are the file's blocks
in logical order, and each parent above them holds `SCOUTFS_SRCH_PARENT_REFS` refs to the
blocks of the level below.  The ref followed through the parent at `level` on the way to
logical block `blk` is the `level`-th base-`SCOUTFS_SRCH_PARENT_REFS` digit of `blk`
(`calc_ref_ind`), and `height_for_blk` gives the height that `blk` needs.

* `getFileBlock` is `get_file_block`: it grows the file by new roots, the old root hung at
  `refs[0]`, until it is high enough for `blk`, then walks down to the leaf, dirtying every
  block on the way with `scoutfs_block_dirty_ref` (`blockDirtyRef`), which copies a clean
  block to a newly allocated blkno and frees the original;
* `readPathBlock` is `read_path_block`, the read-only walk down to one level;
* `deleteFile` is `delete_file`: it frees the children of the parents of each level, from
  the leaves' parents up, then the root, and saves where it stopped in the compact input so
  that a later call resumes there.

Blocks live in a map from blknos to blocks, with the blknos dirtied in this transaction.
`scoutfs_alloc_meta` hands out the blkno after the highest one handed out so far (the
metadata allocator itself is modelled in `Alloc.lean`), and `scoutfs_free_meta` records the
blknos it is passed.  Whether an allocation, the allocation of a cached block, a free, or
`should_commit` says stop is read from a list of outcomes.  The other fields of
`struct scoutfs_srch_file` (`first`, `last`, `entries`) and the headers' seqs and fsids are
not read here; `SrchLog.lean` models the leaves' contents.

`u64` counters (`blk`, `blocks`, `total`, `inc`) are `UInt64`; levels and heights, which stay
far below 256, are naturals.
-/
import Scoutfs.Format

namespace Scoutfs

/-! ### Addressing -/

/-- `SCOUTFS_SRCH_PARENT_REFS`: the 16-byte refs that fit a parent block after its 32-byte
header. -/
def SCOUTFS_SRCH_PARENT_REFS : ℕ := (SCOUTFS_BLOCK_LG_SIZE - 32) / 16

/-- `calc_ref_ind`: the index of the ref to follow through the parent at `level` to `blk`,
the remainder of the `level`-th division of `blk` by `SCOUTFS_SRCH_PARENT_REFS`.  Levels
start at 1 (`BUG_ON(level < 1)`). -/
def calcRefInd (blk : UInt64) : ℕ → ℕ
  | 0 => 0
  | 1 => (blk % UInt64.ofNat SCOUTFS_SRCH_PARENT_REFS).toNat
  | level + 2 => calcRefInd (blk / UInt64.ofNat SCOUTFS_SRCH_PARENT_REFS) (level + 1)

/-- The loop of `height_for_blk`: while `blk ≥ total`, one more level and `total` times
`SCOUTFS_SRCH_PARENT_REFS`, in `u64`.  The refs per parent are even, so after 63 rounds
`total` is `0` and no later round could stop: fuel 64 runs out (`none`) exactly when the
source loops forever. -/
def heightForBlkLoop (blk : UInt64) : ℕ → UInt64 → ℕ → Option ℕ
  | 0, _, _ => none
  | fuel + 1, total, hei =>
    if blk ≥ total then
      heightForBlkLoop blk fuel (total * UInt64.ofNat SCOUTFS_SRCH_PARENT_REFS) (hei + 1)
    else some hei

/-- `height_for_blk`: the height of a file whose largest logical block is `blk`; `none` when
the source never returns. -/
def heightForBlk (blk : UInt64) : Option ℕ :=
  if blk = 0 then some 1
  else heightForBlkLoop blk 64 (UInt64.ofNat SCOUTFS_SRCH_PARENT_REFS) 2

/-! ### Blocks -/

/-- A srch block as the radix reads it: a parent (`struct scoutfs_srch_parent`) with the
blknos of its refs, or a leaf (`struct scoutfs_srch_block`) with its contents. -/
inductive SrchRadixBlock (α : Type) where
  | parent (refs : ℕ → ℕ)
  | leaf (data : α)

namespace SrchRadixBlock

variable {α : Type}

/-- Whether the block carries the magic of `level` (`srch_level_magic`): parents above the
leaves. -/
def atLevel : SrchRadixBlock α → ℕ → Bool
  | .parent _, level => level ≠ 0
  | .leaf _, level => level = 0

/-- The refs of a parent.  The callers read a block as a parent only above the leaves, where
the magic check has passed only parents. -/
def refs : SrchRadixBlock α → ℕ → ℕ
  | .parent refs => refs
  | .leaf _ => fun _ => 0

/-- A block initialized by `memset(0)` for `level`: a parent of zero refs, or a zeroed leaf. -/
def zero [Inhabited α] (level : ℕ) : SrchRadixBlock α :=
  if level = 0 then .leaf default else .parent fun _ => 0

end SrchRadixBlock

/-- The blocks, the transaction and the allocator that the radix walks work on. -/
structure SrchRadixState (α : Type) where
  /-- The block stored at each blkno. -/
  store : ℕ → Option (SrchRadixBlock α)
  /-- Whether the block is dirty in the current transaction. -/
  dirty : ℕ → Bool
  /-- The highest blkno handed out by `scoutfs_alloc_meta`. -/
  next : ℕ
  /-- The blknos passed to `scoutfs_free_meta`, the latest first. -/
  freed : List ℕ
  /-- The outcomes of the allocations, frees and `should_commit` calls to come (`true` fails
  the allocation or free, or says commit); past the list they all succeed. -/
  faults : List Bool

/-- The fields of a `struct scoutfs_srch_file` that the radix walks read and write: the ref
of the root, the blocks written and the height. -/
structure SrchRadixFile where
  ref : ℕ
  blocks : UInt64
  height : ℕ
  deriving DecidableEq, Repr

namespace SrchRadixState

variable {α : Type}

/-- The next outcome. -/
def takeFault (st : SrchRadixState α) : Bool × SrchRadixState α :=
  match st.faults with
  | [] => (false, st)
  | fail :: rest => (fail, { st with faults := rest })

/-- `scoutfs_block_read_ref` of `blkno` with the magic of `level`: a missing block, or one of
the other kind, fails the header check as stale. -/
def readRef (st : SrchRadixState α) (level blkno : ℕ) : Except Int (SrchRadixBlock α) :=
  match st.store blkno with
  | some b => if b.atLevel level then .ok b else .error (- ESTALE)
  | none => .error (- ESTALE)

/-- Store `value` in `refs[ind]` of the parent at `blkno`. -/
def setRef (st : SrchRadixState α) (blkno ind value : ℕ) : SrchRadixState α :=
  match st.store blkno with
  | some (.parent refs) =>
    { st with
      store := Function.update st.store blkno (some (.parent (Function.update refs ind value))) }
  | _ => st

/-- Record a free of `blkno`. -/
def free (st : SrchRadixState α) (blkno : ℕ) : SrchRadixState α :=
  { st with freed := blkno :: st.freed }

/-- A commit: every block is clean again. -/
def commit (st : SrchRadixState α) : SrchRadixState α :=
  { st with dirty := fun _ => false }

end SrchRadixState

namespace SrchRadix

variable {α : Type}

/-- `scoutfs_alloc_meta`: the blkno after the highest one handed out, or `-ENOSPC`. -/
def scoutfsAllocMeta (st : SrchRadixState α) : Int × SrchRadixState α × ℕ :=
  let (fail, st) := st.takeFault
  if fail then (- ENOSPC, st, 0)
  else (0, { st with next := st.next + 1 }, st.next + 1)

/-- `scoutfs_free_meta` of `blkno`: recorded, or `-ENOSPC`, what a full freed list block
gives. -/
def scoutfsFreeMeta (st : SrchRadixState α) (blkno : ℕ) : Int × SrchRadixState α :=
  let (fail, st) := st.takeFault
  if fail then (- ENOSPC, st) else (0, st.free blkno)

/-- The existing block that `scoutfs_block_dirty_ref` reads, if the ref has a blkno. -/
def readOrig (st : SrchRadixState α) (level ref : ℕ) : Except Int (Option (SrchRadixBlock α)) :=
  if ref = 0 then .ok none else (st.readRef level ref).map some

/-- `scoutfs_block_dirty_ref` of the ref `ref` with the magic of `level`, without a caller's
`dirty_blkno` or `ref_blkno`: the error, the state and the ref's new blkno.  A dirty block is
returned as it is.  Otherwise a new blkno is allocated, the cached block allocated (which can
fail with `-ENOMEM`), the original freed, and the new block holds a copy of the original or
zeroes and is dirty.  A failure after the allocation frees the new blkno again
(`undo_alloc`, which cannot fail: `BUG_ON(err)`). -/
def blockDirtyRef [Inhabited α] (st : SrchRadixState α) (level ref : ℕ) :
    Int × SrchRadixState α × ℕ :=
  match readOrig st level ref with
  | .error e => (e, st, ref)
  | .ok orig =>
    if ref ≠ 0 ∧ st.dirty ref = true then (0, st, ref)
    else
      match scoutfsAllocMeta st with
      | (ret, st, blkno) =>
        if ret < 0 then (ret, st, ref)
        else
          let (fail, st) := st.takeFault
          -- block_alloc of the cached block
          if fail then (- ENOMEM, st.free blkno, ref)
          else
            -- free the original referenced blkno
            match (if ref ≠ 0 then scoutfsFreeMeta st ref else (0, st)) with
            | (ret, st) =>
              if ret < 0 then (ret, st.free blkno, ref)
              else
                ((0 : Int),
                  { st with
                    store := Function.update st.store blkno (some (orig.getD (.zero level)))
                    dirty := Function.update st.dirty blkno true },
                  blkno)

/-! ### `get_file_block` -/

/-- The bits `GFB_INSERT` and `GFB_DIRTY` of `get_file_block`'s flags. -/
structure GfbFlags where
  insert : Bool
  dirty : Bool
  deriving DecidableEq, Repr

/-- Where a `struct scoutfs_block_ref *` points: the file's root ref, or `refs[ind]` of the
parent block at `blkno`. -/
inductive RefLoc where
  | root
  | parent (blkno ind : ℕ)
  deriving DecidableEq, Repr

/-- The blkno the ref at `loc` holds. -/
def refAt (st : SrchRadixState α) (sfl : SrchRadixFile) : RefLoc → ℕ
  | .root => sfl.ref
  | .parent blkno ind => ((st.store blkno).map fun b => b.refs ind).getD 0

/-- Store `value` in the ref at `loc`. -/
def setRefAt (st : SrchRadixState α) (sfl : SrchRadixFile) (value : ℕ) :
    RefLoc → SrchRadixState α × SrchRadixFile
  | .root => (st, { sfl with ref := value })
  | .parent blkno ind => (st.setRef blkno ind value, sfl)

/-- The growth loop of `get_file_block`, `rounds` times: a new root at the file's height,
dirtied from a zero ref, with the old root at `refs[0]` when the old root is a parent slot
(a file of height 0 has no root to hang).  The source loops while the height is below
`hei`, and each round raises it by one, so it runs `hei - height` rounds. -/
def gfbGrow [Inhabited α] (insert : Bool) :
    ℕ → SrchRadixState α → SrchRadixFile → Int × SrchRadixState α × SrchRadixFile
  | 0, st, sfl => (0, st, sfl)
  | rounds + 1, st, sfl =>
    if ¬insert then (- ENOENT, st, sfl)
    else
      let level := sfl.height
      match blockDirtyRef st level 0 with
      | (ret, st, newRoot) =>
        if ret < 0 then (ret, st, sfl)
        else
          let st := if level ≠ 0 then st.setRef newRoot 0 sfl.ref else st
          gfbGrow insert rounds st { sfl with ref := newRoot, height := sfl.height + 1 }

/-- One round of the walk of `get_file_block`: the block the ref at `loc` leads to, at
`level`, dirtied with `GFB_DIRTY` (its new blkno stored in the ref) or read.  Returns the
error, the state, the file and the block's blkno. -/
def gfbStep [Inhabited α] (flags : GfbFlags) (level : ℕ) (st : SrchRadixState α)
    (sfl : SrchRadixFile) (loc : RefLoc) : Int × SrchRadixState α × SrchRadixFile × ℕ :=
  let ref := refAt st sfl loc
  -- searching an unused part of the tree
  if ref = 0 ∧ ¬flags.insert then (- ENOENT, st, sfl, 0)
  else if flags.dirty then
    match blockDirtyRef st level ref with
    | (ret, st, bl) =>
      if ret < 0 then (ret, st, sfl, 0)
      else
        let (st, sfl) := setRefAt st sfl bl loc
        (0, st, sfl, bl)
  else
    match st.readRef level ref with
    | .error e => (e, st, sfl, 0)
    | .ok _ => (0, st, sfl, ref)

/-- The walk of `get_file_block` from the ref at `loc`, which leads to the block at `level`
on the way to `blk`, down to the leaf: the error, the state, the file and the leaf's blkno. -/
def gfbWalk [Inhabited α] (flags : GfbFlags) (blk : UInt64) :
    ℕ → SrchRadixState α → SrchRadixFile → RefLoc → Int × SrchRadixState α × SrchRadixFile × ℕ
  | 0, st, sfl, loc => gfbStep flags 0 st sfl loc
  | level + 1, st, sfl, loc =>
    match gfbStep flags (level + 1) st sfl loc with
    | (ret, st, sfl, bl) =>
      if ret < 0 then (ret, st, sfl, bl)
      else gfbWalk flags blk level st sfl (.parent bl (calcRefInd blk (level + 1)))

/-- `get_file_block` of `blk`: the error, the state, the file and the blkno of the leaf
(`*bl_ret`, `0` for `NULL`), or `none` when `height_for_blk` never returns.  A successful
insertion at or past the file's blocks records `blk + 1` blocks. -/
def getFileBlock [Inhabited α] (st : SrchRadixState α) (sfl : SrchRadixFile) (flags : GfbFlags)
    (blk : UInt64) : Option (Int × SrchRadixState α × SrchRadixFile × ℕ) :=
  (heightForBlk blk).map fun hei =>
    match gfbGrow flags.insert (hei - sfl.height) st sfl with
    | (ret, st, sfl) =>
      if ret < 0 then (ret, st, sfl, 0)
      else
        let walked := match sfl.height with
          | 0 => (0, st, sfl, 0)
          | level + 1 => gfbWalk flags blk level st sfl .root
        match walked with
        | (ret, st, sfl, bl) =>
          -- record that we successfully grew the file
          if ret = 0 ∧ flags.insert ∧ blk ≥ sfl.blocks then (ret, st, { sfl with blocks := blk + 1 }, bl)
          else (ret, st, sfl, bl)

/-! ### `read_path_block` -/

/-- The loop of `read_path_block` from the block `ref` at `level` down to `atLevel`. -/
def readPathLoop (st : SrchRadixState α) (blk : UInt64) (atLevel : ℕ) :
    ℕ → ℕ → Except Int (SrchRadixBlock α)
  | 0, ref => if ref = 0 then .error (- ENOENT) else st.readRef 0 ref
  | level + 1, ref =>
    if ref = 0 then .error (- ENOENT)
    else
      match st.readRef (level + 1) ref with
      | .error e => .error e
      | .ok b =>
        if level + 1 = atLevel then .ok b
        else readPathLoop st blk atLevel level (b.refs (calcRefInd blk (level + 1)))

/-- `read_path_block`: the block at `atLevel` on the way to `blk`. -/
def readPathBlock (st : SrchRadixState α) (sfl : SrchRadixFile) (blk : UInt64) (atLevel : ℕ) :
    Except Int (SrchRadixBlock α) :=
  match sfl.height with
  | 0 => .error (- EINVAL)
  | level + 1 => if atLevel > level then .error (- EINVAL) else readPathLoop st blk atLevel level sfl.ref

/-! ### `delete_file` -/

/-- The fields of a `struct scoutfs_srch_compact_input` that `delete_file` reads and writes:
the file, and the logical block and level where its deletion stands. -/
structure SrchRadixInput where
  sfl : SrchRadixFile
  blk : UInt64
  pos : ℕ
  deriving DecidableEq, Repr

/-- `inc` of `delete_file`: the logical blocks below one ref of a parent at `level`,
`SCOUTFS_SRCH_PARENT_REFS ^ (level - 1)` multiplied out in `u64`. -/
def deleteInc : ℕ → UInt64
  | 0 => 1
  | 1 => 1
  | level + 2 => deleteInc (level + 1) * UInt64.ofNat SCOUTFS_SRCH_PARENT_REFS

/-- The inner loop of `delete_file` over `refs[i]` of one parent, `left` refs from the end:
free each nonzero ref while `blk` is below the file's blocks, `blk` advancing by `inc` per
ref.  `some ret` leaves `delete_file` (`should_commit`, or a free that failed) with `blk`
at the ref not freed; `none` goes on to the next parent. -/
def deleteRefs (refs : ℕ → ℕ) (blocks inc : UInt64) :
    ℕ → ℕ → SrchRadixState α → UInt64 → Option Int × SrchRadixState α × UInt64
  | 0, _, st, blk => (none, st, blk)
  | left + 1, i, st, blk =>
    if blk < blocks then
      if refs i = 0 then deleteRefs refs blocks inc left (i + 1) st (blk + inc)
      else
        -- free below, then final root block
        let (commit, st) := st.takeFault
        if commit then (some 0, st, blk)
        else
          match scoutfsFreeMeta st (refs i) with
          | (ret, st) =>
            if ret < 0 then (some ret, st, blk)
            else deleteRefs refs blocks inc left (i + 1) st (blk + inc)
    else (none, st, blk)

/-- The loop of `delete_file` over the parents at `level`, while `blk` is below the file's
blocks.  Each parent advances `blk` by at least `inc`, so a run of `fuel` parents more than the
blocks has wrapped `blk` past `2 ^ 64`: `none` there. -/
def deleteLevel (sfl : SrchRadixFile) (level : ℕ) (inc : UInt64) :
    ℕ → SrchRadixState α → UInt64 → Option (Option Int × SrchRadixState α × UInt64)
  | 0, _, _ => none
  | fuel + 1, st, blk =>
    if blk < sfl.blocks then
      match readPathBlock st sfl blk level with
      | .error e => some (some e, st, blk)
      | .ok b =>
        let i := calcRefInd blk level
        match deleteRefs b.refs sfl.blocks inc (SCOUTFS_SRCH_PARENT_REFS - i) i st blk with
        | (some ret, st, blk) => some (some ret, st, blk)
        | (none, st, blk) => deleteLevel sfl level inc fuel st blk
    else some (none, st, blk)

/-- The loop of `delete_file` over the levels from `level` up to below the height, `left` of
them: each level starts again from `blk = 0`.  Returns the exit, the state, `blk` and the
level reached. -/
def deleteLevels (sfl : SrchRadixFile) :
    ℕ → ℕ → SrchRadixState α → UInt64 → Option (Option Int × SrchRadixState α × UInt64 × ℕ)
  | 0, level, st, blk => some (none, st, blk, level)
  | left + 1, level, st, blk =>
    match deleteLevel sfl level (deleteInc level) (sfl.blocks.toNat + 1) st blk with
    | none => none
    | some (some ret, st, blk) => some (some ret, st, blk, level)
    | some (none, st, _) => deleteLevels sfl left (level + 1) st 0

/-- `delete_file`: free the blocks of the input's file from where its `blk` and `pos` stand,
the root last, and save where it stopped.  `none` when `blk` wraps. -/
def deleteFile (st : SrchRadixState α) (inp : SrchRadixInput) :
    Option (Int × SrchRadixState α × SrchRadixInput) :=
  let level := max inp.pos 1
  if level > inp.sfl.height then some (0, st, { inp with pos := level })
  else
    match deleteLevels inp.sfl (inp.sfl.height - level) level st inp.blk with
    | none => none
    | some (some ret, st, blk, level) => some (ret, st, { inp with blk := blk, pos := level })
    | some (none, st, blk, level) =>
      match scoutfsFreeMeta st inp.sfl.ref with
      | (ret, st) =>
        if ret < 0 then some (ret, st, { inp with blk := blk, pos := level })
        else some (0, st, { inp with blk := blk, pos := level + 1 })

end SrchRadix

end Scoutfs
