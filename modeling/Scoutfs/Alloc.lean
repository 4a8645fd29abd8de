/-
The allocator operations of `alloc.c` over free extent roots, and the
invariant every root keeps.

The operations are the extent helpers of `ext.c` run with `alloc_ext_ops`:
`scoutfs_free_data`, `scoutfs_alloc_insert` and `scoutfs_dalloc_return_cached`
insert extents, `scoutfs_alloc_remove` removes one, `scoutfs_alloc_data` and
`scoutfs_alloc_fill_list` allocate from the order index, `scoutfs_alloc_empty_list`
inserts runs of list blknos, and `scoutfs_alloc_move` moves extents between two
roots, searching zone bitmaps first.  What the metadata allocator decides (is
it running low, can a list block be dirtied or freed) is read from the same
outcome list as the btree failures.  The loops run on explicit fuel: a run of
the source that finishes is a run of the model with enough fuel.

`AllocSpec.lean` proves what these operations keep.
-/
import Scoutfs.AllocExt

namespace Scoutfs

/-! ### Constants and conversions -/

/-- `SCOUTFS_ALLOC_DATA_LG_THRESH`: 8MiB of small blocks. -/
def SCOUTFS_ALLOC_DATA_LG_THRESH : UInt64 := (8 * 1024 * 1024 : UInt64) >>> 12

/-- `SCOUTFS_ALLOC_FLAG_LOW`. -/
def SCOUTFS_ALLOC_FLAG_LOW : UInt32 := 1

/-- `SCOUTFS_DATA_DEV_START_BLKNO`. -/
def SCOUTFS_DATA_DEV_START_BLKNO : UInt64 := (256 * 1024 : UInt64) >>> 12

/-- `SCOUTFS_BLOCK_SM_MAX`. -/
def SCOUTFS_BLOCK_SM_MAX : UInt64 := U64_MAX >>> 12

/-- `SCOUTFS_DATA_ALLOC_MAX_ZONES`. -/
def SCOUTFS_DATA_ALLOC_MAX_ZONES : ℕ := 1024

/-- `SCOUTFS_ALLOC_LIST_MAX_BLOCKS`: the blknos after the 56 header bytes of a 64KiB list
block. -/
def SCOUTFS_ALLOC_LIST_MAX_BLOCKS : ℕ := (65536 - 56) / 8

/-- A `u64` stored in an `int`: its low 32 bits, read as a signed number. -/
def u64ToInt (x : UInt64) : Int :=
  let t : ℕ := x.toNat % 2 ^ 32
  if t < 2 ^ 31 then (t : Int) else (t : Int) - 2 ^ 32

/-- An `int` passed as an `unsigned long`. -/
def intToULong (i : Int) : ℕ := (i % 2 ^ 64).toNat

/-- `find_next_bit_le`: the first set bit at or after `offset` below `size`, else `size`. -/
def findNextBit (zones : ℕ → Bool) (size offset : ℕ) : ℕ :=
  ((List.range size).find? fun i => offset ≤ i && zones i).getD size

/-! ### Data extents -/

/-- `invalid_extent`. -/
def invalidExtent (start endb first last : UInt64) : Bool :=
  start > endb || start < first || endb > last

/-- `invalid_data_extent`, for a data device whose last block is `lastData`. -/
def invalidDataExtent (lastData start len : UInt64) : Bool :=
  invalidExtent start (start + len - 1) SCOUTFS_DATA_DEV_START_BLKNO lastData

/-- `scoutfs_free_data`: free data blocks into root `root`. -/
def scoutfsFreeData (lastData : UInt64) (st : AllocState) (root : ℕ) (blkno count : UInt64) :
    Option (Int × AllocState) :=
  if invalidDataExtent lastData blkno count then some (-EINVAL, st)
  else scoutfsExtInsert (allocExtOps root .blkno) st blkno count 0 0

/-- `scoutfs_alloc_insert`: new free space, from the server. -/
def scoutfsAllocInsert (st : AllocState) (root : ℕ) (start len : UInt64) :
    Option (Int × AllocState) :=
  scoutfsExtInsert (allocExtOps root .blkno) st start len 0 0

/-- `scoutfs_alloc_remove`. -/
def scoutfsAllocRemove (st : AllocState) (root : ℕ) (start len : UInt64) :
    Option (Int × AllocState) :=
  scoutfsExtRemove (allocExtOps root .blkno) st start len

/-- `struct scoutfs_data_alloc`: its root, one of the allocator roots, the cached extent that
small allocations are carved from, and the total it reports. -/
structure ScoutfsDataAlloc where
  root : ℕ
  cached : ScoutfsExtent
  totalLen : UInt64

/-- `scoutfs_dalloc_return_cached`. -/
def scoutfsDallocReturnCached (st : AllocState) (dalloc : ScoutfsDataAlloc) :
    Option (Int × AllocState × ScoutfsDataAlloc) :=
  if dalloc.cached.len ≠ 0 then
    match scoutfsExtInsert (allocExtOps dalloc.root .blkno) st dalloc.cached.start
        dalloc.cached.len 0 0 with
    | none => none
    | some (ret, st) => some (ret, st, if ret = 0 then { dalloc with cached := extZero } else dalloc)
  else some (0, st, dalloc)

/-- The `out:` of `scoutfs_alloc_data`: the error reported for an empty allocator, or the
updated total; the result, the allocator and the returned blkno and count. -/
def allocDataOut (st : AllocState) (dalloc : ScoutfsDataAlloc) (ret : Int) (blkno count : UInt64) :
    Int × ScoutfsDataAlloc × UInt64 × UInt64 :=
  if ret < 0 then
    let ret :=
      if ret = -ENOENT then
        if (st.roots dalloc.root).flags &&& SCOUTFS_ALLOC_FLAG_LOW ≠ 0 then -ENOSPC else -ENOBUFS
      else ret
    (ret, dalloc, 0, 0)
  else
    -- dalloc_update_total_len
    (ret, { dalloc with totalLen := (st.roots dalloc.root).totalLen + dalloc.cached.len },
      blkno, count)

/-- The refill of `scoutfs_alloc_data`'s cached extent from the order index, when it is
empty. -/
def allocDataRefill (st : AllocState) (dalloc : ScoutfsDataAlloc) :
    Option (Int × AllocState × ScoutfsDataAlloc) :=
  if dalloc.cached.len = 0 then
    (scoutfsExtAlloc (allocExtOps dalloc.root .order) st 0 0 SCOUTFS_ALLOC_DATA_LG_THRESH).map
      fun (ret, st, ext) => (ret, st, { dalloc with cached := ext })
  else some (0, st, dalloc)

/-- A small allocation of `scoutfs_alloc_data`: the first blocks of the cached extent. -/
def allocDataCarve (st : AllocState) (ret : Int) (dalloc : ScoutfsDataAlloc) (count : UInt64) :
    AllocState × Int × ScoutfsDataAlloc × UInt64 × UInt64 :=
  if ret < 0 then (st, allocDataOut st dalloc ret 0 0)
  else
    let len := min count dalloc.cached.len
    let blkno := dalloc.cached.start
    let cached := { dalloc.cached with
      start := dalloc.cached.start + len, len := dalloc.cached.len - len }
    (st, allocDataOut st { dalloc with cached := cached } 0 blkno len)

/-- `scoutfs_alloc_data`: the state, the result, the allocator and the returned blkno and
count. -/
def scoutfsAllocData (st : AllocState) (dalloc : ScoutfsDataAlloc) (count : UInt64) :
    Option (AllocState × Int × ScoutfsDataAlloc × UInt64 × UInt64) :=
  if count ≥ SCOUTFS_ALLOC_DATA_LG_THRESH then
    -- large allocations come straight from the allocator
    (scoutfsExtAlloc (allocExtOps dalloc.root .order) st 0 0 count).map fun (ret, st, ext) =>
      if ret < 0 then (st, allocDataOut st dalloc ret 0 0)
      else (st, allocDataOut st dalloc 0 ext.start ext.len)
  else
    -- smaller allocations come from a cached extent
    (allocDataRefill st dalloc).map fun (ret, st, dalloc) => allocDataCarve st ret dalloc count

/-! ### Allocator lists -/

/-- A list block: its `start` index and the blknos of `blknos[start, start + nr)`. -/
structure ScoutfsAllocListBlock where
  start : ℕ
  blknos : List UInt64

/-- `struct scoutfs_alloc_list_head` with the blocks its `ref` chain reaches, first block
first: `ref.blkno` is set exactly when there is a block, and `first_nr` is the first block's
count. -/
structure ScoutfsAllocListHead where
  blocks : List ScoutfsAllocListBlock

/-- `lhead->first_nr`. -/
def ScoutfsAllocListHead.firstNr (lhead : ScoutfsAllocListHead) : ℕ :=
  match lhead.blocks with
  | [] => 0
  | lblk :: _ => lblk.blknos.length

/-- `list_block_add`: append, or prepend once the end of the array is reached.  Callers never
add past `SCOUTFS_ALLOC_LIST_MAX_BLOCKS`, so its `BUG_ON` is not modelled. -/
def listBlockAdd (lblk : ScoutfsAllocListBlock) (blkno : UInt64) : ScoutfsAllocListBlock :=
  if lblk.start + lblk.blknos.length < SCOUTFS_ALLOC_LIST_MAX_BLOCKS then
    { lblk with blknos := lblk.blknos ++ [blkno] }
  else ⟨lblk.start - 1, blkno :: lblk.blknos⟩

/-- `list_block_remove`: drop `count` blknos from the front. -/
def listBlockRemove (lblk : ScoutfsAllocListBlock) (count : ℕ) : ScoutfsAllocListBlock :=
  let blknos := lblk.blknos.drop count
  ⟨if blknos = [] then 0 else lblk.start + count, blknos⟩

/-- `list_block_sort`. -/
def listBlockSort (lblk : ScoutfsAllocListBlock) : ScoutfsAllocListBlock :=
  { lblk with blknos := lblk.blknos.mergeSort fun a b => a ≤ b }

/-- The blocks `scoutfs_alloc_fill_list` adds for an allocated extent, one `list_block_add`
each. -/
def listBlockAddExtent (lblk : ScoutfsAllocListBlock) (ext : ScoutfsExtent) :
    ScoutfsAllocListBlock :=
  (List.range ext.len.toNat).foldl (fun lblk i => listBlockAdd lblk (ext.start + UInt64.ofNat i))
    lblk

/-- The inner loop of `scoutfs_alloc_empty_list`: grow `[start, start + len)` while the next
blkno continues it. -/
def extendRun (start len : UInt64) : List UInt64 → UInt64
  | [] => len
  | b :: bs => if b = start + len then extendRun start (len + 1) bs else len

/-- `trim_empty_first_block`: free the empty first block.  Reading the blocks and freeing the
first one take one outcome. -/
def trimEmptyFirstBlock (st : AllocState) (lhead : ScoutfsAllocListHead) :
    Int × AllocState × ScoutfsAllocListHead :=
  match lhead.blocks with
  | [] => (0, st, lhead)
  | one :: rest =>
    if one.blknos ≠ [] then (0, st, lhead)
    else
      let (fail, st) := st.takeFault
      if fail then (-ENOMEM, st, lhead) else (0, st, ⟨rest⟩)

/-- The loop of `scoutfs_alloc_fill_list`: allocate from the order index of root `root` into
the first list block until it holds `target` blknos, or the metadata allocator runs low. -/
def fillListLoop (root : ℕ) (target : UInt64) :
    ℕ → AllocState → ScoutfsAllocListBlock → Option (Int × AllocState × ScoutfsAllocListBlock)
  | 0, _, _ => none
  | fuel + 1, st, lblk =>
    if UInt64.ofNat lblk.blknos.length < target then
      -- list_has_blocks
      let (low, st) := st.takeFault
      if low then some (0, st, lblk)
      else
        match scoutfsExtAlloc (allocExtOps root .order) st 0 0
            (target - UInt64.ofNat lblk.blknos.length) with
        | none => none
        | some (ret, st, ext) =>
          if ret < 0 then some (if ret = -ENOENT then -ENOSPC else ret, st, lblk)
          else fillListLoop root target fuel st (listBlockAddExtent lblk ext)
    else some (0, st, lblk)

/-- `scoutfs_alloc_fill_list`.  `inAlloc` says whether `lhead` is one of the allocator's own
lists (`lhead_in_alloc`). -/
def scoutfsAllocFillList (fuel : ℕ) (st : AllocState) (lhead : ScoutfsAllocListHead) (root : ℕ)
    (lo target : UInt64) (inAlloc : Bool) : Option (Int × AllocState × ScoutfsAllocListHead) :=
  if target < lo ∨ lo.toNat > SCOUTFS_ALLOC_LIST_MAX_BLOCKS ∨
      target.toNat > SCOUTFS_ALLOC_LIST_MAX_BLOCKS ∨ inAlloc then
    some (-EINVAL, st, lhead)
  else if lhead.firstNr ≥ lo.toNat then some (0, st, lhead)
  else
    -- dirty_list_block, allocating a block for an empty list
    let (fail, st) := st.takeFault
    if fail then some (-ENOMEM, st, lhead)
    else
      let (lblk, rest) := match lhead.blocks with
        | [] => (⟨0, []⟩, [])
        | lblk :: rest => (lblk, rest)
      (fillListLoop root target fuel st lblk).map fun (ret, st, lblk) => (ret, st, ⟨lblk :: rest⟩)

/-- `dirty_list_block` and `list_block_sort` in `scoutfs_alloc_empty_list`, done once for the
first block (`bl == NULL`): whether dirtying failed, the state, and the block. -/
def emptyListDirty (st : AllocState) (lblk : ScoutfsAllocListBlock) (dirty : Bool) :
    Bool × AllocState × ScoutfsAllocListBlock :=
  if dirty then (false, st, lblk)
  else
    let (fail, st) := st.takeFault
    -- sort to encourage forming extents
    (fail, st, listBlockSort lblk)

/-- One pass of `scoutfs_alloc_empty_list` over the dirty first block `lblk`: insert the run
of consecutive blknos at its front into root `root`, then remove the run from the block.
`.inl` ends the loop with its result, `.inr` continues with the state and list; `none` is the
`BUG_ON` of peeking into an empty block. -/
def emptyListInsertRun (root : ℕ) (st : AllocState) (lblk : ScoutfsAllocListBlock)
    (rest : List ScoutfsAllocListBlock) :
    Option ((Int × AllocState × ScoutfsAllocListHead) ⊕ (AllocState × ScoutfsAllocListHead)) :=
  match lblk.blknos with
  | [] => none
  | start :: more =>
    -- combine free blknos into extents and insert them
    let len := extendRun start 1 more
    match scoutfsExtInsert (allocExtOps root .blkno) st start len 0 0 with
    | none => none
    | some (ret, st) =>
      if ret < 0 then some (.inl (ret, st, ⟨lblk :: rest⟩))
      else some (.inr (st, ⟨listBlockRemove lblk len.toNat :: rest⟩))

/-- The loop of `scoutfs_alloc_empty_list`: insert the runs of the first block's sorted
blknos into root `root`, trimming emptied blocks.  `dirty` is whether the first block has
been dirtied and sorted (`bl != NULL`). -/
def emptyListLoop (root : ℕ) :
    ℕ → AllocState → ScoutfsAllocListHead → Bool → Option (Int × AllocState × ScoutfsAllocListHead)
  | 0, _, _, _ => none
  | fuel + 1, st, lhead, dirty =>
    match lhead.blocks with
    | [] => some (0, st, lhead)
    | lblk :: rest =>
      -- list_has_blocks
      let (low, st) := st.takeFault
      if low then some (0, st, lhead)
      else if lblk.blknos = [] then
        let (ret, st, lhead) := trimEmptyFirstBlock st lhead
        if ret < 0 then some (ret, st, lhead) else emptyListLoop root fuel st lhead false
      else
        let (fail, st, lblk) := emptyListDirty st lblk dirty
        if fail then some (-ENOMEM, st, lhead)
        else
          match emptyListInsertRun root st lblk rest with
          | none => none
          | some (.inl res) => some res
          | some (.inr (st, lhead)) => emptyListLoop root fuel st lhead true

/-- `scoutfs_alloc_empty_list`. -/
def scoutfsAllocEmptyList (fuel : ℕ) (st : AllocState) (root : ℕ) (lhead : ScoutfsAllocListHead)
    (inAlloc : Bool) : Option (Int × AllocState × ScoutfsAllocListHead) :=
  if inAlloc then some (-EINVAL, st, lhead) else emptyListLoop root fuel st lhead false

/-! ### Moving extents between roots -/

/-- `first_extent_zone`: the first zone bit set among the zones the extent intersects. -/
def firstExtentZone (ext : ScoutfsExtent) (zones : ℕ → Bool) (zoneBlocks : UInt64) : ℕ :=
  let first := u64ToInt (ext.start / zoneBlocks)
  let last := u64ToInt ((ext.start + ext.len - 1) / zoneBlocks)
  let nr := findNextBit zones SCOUTFS_DATA_ALLOC_MAX_ZONES (intToULong first)
  if (nr : Int) ≤ last then nr else SCOUTFS_DATA_ALLOC_MAX_ZONES

/-- The loop of `find_zone_extent`: search the order index of root `root` from the zone `nr`
at the order of `len`, down to smaller orders, for an extent in a zone of `zones`.  Returns
the found extent and the start and length of the part to allocate. -/
def findZoneExtentLoop (st : AllocState) (root : ℕ) (zones : ℕ → Bool) (zoneBlocks count : UInt64) :
    ℕ → Int → UInt64 → Option (Except Int (ScoutfsExtent × UInt64 × UInt64))
  | 0, _, _ => none
  | fuel + 1, nr, len =>
    -- search for extents in the next zone at our order
    let nr := findNextBit zones SCOUTFS_DATA_ALLOC_MAX_ZONES (intToULong nr)
    -- wrap down to next smaller order if we run out of bits
    if nr ≥ SCOUTFS_DATA_ALLOC_MAX_ZONES ∧ len >>> 3 = 0 then some (.error (-ENOENT))
    else
      let (nr, len) :=
        if nr ≥ SCOUTFS_DATA_ALLOC_MAX_ZONES then
          (findNextBit zones SCOUTFS_DATA_ALLOC_MAX_ZONES 0, len >>> 3)
        else (nr, len)
      let (ret, found) := allocExtNext root .order st (UInt64.ofNat nr * zoneBlocks) len
      if ret < 0 then some (.error ret)
      else
        -- see if the next extent intersects any zones
        let nr := firstExtentZone found zones zoneBlocks
        if nr < SCOUTFS_DATA_ALLOC_MAX_ZONES then
          let start := max (UInt64.ofNat nr * zoneBlocks) found.start
          some (.ok (found, start, min count (found.start + found.len - start)))
        else
          -- continue searching past extent
          findZoneExtentLoop st root zones zoneBlocks count fuel
            (u64ToInt ((found.start + found.len - 1) / zoneBlocks) + 1)
            (smallestOrderLength found.len)

/-- `find_zone_extent`. -/
def findZoneExtent (fuel : ℕ) (st : AllocState) (root : ℕ) (zones : ℕ → Bool)
    (zoneBlocks count : UInt64) : Option (Except Int (ScoutfsExtent × UInt64 × UInt64)) :=
  -- don't bother when there are no bits set
  if findNextBit zones SCOUTFS_DATA_ALLOC_MAX_ZONES 0 = SCOUTFS_DATA_ALLOC_MAX_ZONES then
    some (.error (-ENOENT))
  else
    findZoneExtentLoop st root zones zoneBlocks count fuel 0
      (smallestOrderLength SCOUTFS_BLOCK_SM_MAX)

/-- One extent move of `scoutfs_alloc_move`, after the search: the metadata budget checks,
then remove `[start, start + len)` from `src` and insert it into `dst`, putting it back into
`src` when the insert fails.  `none` stands for `BUG_ON`; `.inl` is the loop's end with its
result, `.inr` the state to continue from. -/
def allocMoveExtent (st : AllocState) (dst src : ℕ) (metaBudget moved : UInt64)
    (found : ScoutfsExtent) (start len : UInt64) : Option ((Int × AllocState) ⊕ AllocState) :=
  let (lowSince, st) := if metaBudget ≠ 0 then st.takeFault else (false, st)
  if lowSince then some (.inl (-EINPROGRESS, st))
  else
    -- return partial if the server alloc can't dirty any more
    let (low, st) := st.takeFault
    if low then some (.inl (if moved = 0 then -ENOSPC else 0, st))
    else
      let map := if found.map ≠ 0 then start - found.start + found.map else 0
      let flags := found.flags
      match scoutfsExtRemove (allocExtOps src .blkno) st start len with
      | none => none
      | some (ret, st) =>
        if ret < 0 then some (.inl (ret, st))
        else
          match scoutfsExtInsert (allocExtOps dst .blkno) st start len map flags with
          | none => none
          | some (ret, st) =>
            if ret < 0 then
              -- and put it back in src if insertion failed
              match scoutfsExtInsert (allocExtOps src .blkno) st start len map flags with
              | none => none
              | some (err, st) => if err ≠ 0 then none else some (.inl (ret, st))
            else some (.inr st)

/-- The search of `scoutfs_alloc_move` for the next extent to move from `src`: in the
exclusive zones, else in the vacant zones, else anywhere.  Returns the found extent and the
start and length of the part to move. -/
def allocMoveFind (fuel : ℕ) (st : AllocState) (src : ℕ) (exclusive vacant : Option (ℕ → Bool))
    (zoneBlocks count : UInt64) : Option (Except Int (ScoutfsExtent × UInt64 × UInt64)) :=
  match exclusive, vacant with
  | some zones, _ => findZoneExtent fuel st src zones zoneBlocks count
  | none, some zones => findZoneExtent fuel st src zones zoneBlocks count
  | none, none =>
    -- otherwise fall back to finding extents anywhere
    let (ret, found) := allocExtNext src .order st 0 0
    some (if ret < 0 then .error ret else .ok (found, found.start, min count found.len))

/-- The loop of `scoutfs_alloc_move`: move extents until `total` blocks have moved.  A zone
search that finds nothing drops that kind of search (`continue`). -/
def allocMoveLoop (dst src : ℕ) (total zoneBlocks metaBudget : UInt64) :
    ℕ → AllocState → Option (ℕ → Bool) → Option (ℕ → Bool) → UInt64 → Option (Int × AllocState)
  | 0, _, _, _, _ => none
  | fuel + 1, st, exclusive, vacant, moved =>
    if moved < total then
      match allocMoveFind fuel st src exclusive vacant zoneBlocks (total - moved) with
      | none => none
      | some (.error ret) =>
        if ret = -ENOENT ∧ exclusive.isSome then
          allocMoveLoop dst src total zoneBlocks metaBudget fuel st none vacant moved
        else if ret = -ENOENT ∧ vacant.isSome then
          allocMoveLoop dst src total zoneBlocks metaBudget fuel st none none moved
        else some (ret, st)
      | some (.ok (found, start, len)) =>
        match allocMoveExtent st dst src metaBudget moved found start len with
        | none => none
        | some (.inl res) => some res
        | some (.inr st) =>
          allocMoveLoop dst src total zoneBlocks metaBudget fuel st exclusive vacant (moved + len)
    else some (0, st)

/-- `scoutfs_alloc_move`: move `total` blocks of free extents from root `src` to root `dst`. -/
def scoutfsAllocMove (fuel : ℕ) (st : AllocState) (dst src : ℕ) (total : UInt64)
    (exclusive vacant : Option (ℕ → Bool)) (zoneBlocks metaBudget : UInt64) :
    Option (Int × AllocState) :=
  let (exclusive, vacant) := if zoneBlocks = 0 then (none, none) else (exclusive, vacant)
  allocMoveLoop dst src total zoneBlocks metaBudget fuel st exclusive vacant 0

end Scoutfs
