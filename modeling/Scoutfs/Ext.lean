/-
The extent helpers of `ext.c`.

Extents track free block regions (the allocator) and map logical file blocks
to device blocks (file data).  The helpers are generic over the storage of the
extents: the caller hands in `struct scoutfs_ext_ops`, three callbacks that
find, insert and remove single extents.  Every helper first looks up the
neighbours it needs and decides on at most four changes, then
`apply_changes` performs them in order and undoes the ones already made, in
reverse, if one fails.

The model keeps that shape: each helper is a planning function, which only
calls `next` and either returns an early error or the list of changes, and
the helper itself, which runs `applyChanges` on the plan.  A callback that
stops at `BUG_ON` returns `none`, as does `applyChanges` when an undo fails.

`extMeaning` is the pointwise reading of a set of extents, block by block;
`scoutfsExtInsert_loses_mapping` shows that `scoutfs_ext_can_merge` lets an
unmapped extent absorb a mapped neighbour whose mapping equals its length.
-/
import Scoutfs.Format

namespace Scoutfs

/-! ### Extents -/

/-- `struct scoutfs_extent`. -/
structure ScoutfsExtent where
  start : UInt64
  len : UInt64
  map : UInt64
  flags : UInt8
  deriving DecidableEq, Repr

/-- `ext_zero`. -/
def extZero : ScoutfsExtent := ⟨0, 0, 0, 0⟩

/-- `ext_overlap`: does `ext` intersect `[start, start + len)`, with the source's `u64` ends. -/
def extOverlap (ext : ScoutfsExtent) (start len : UInt64) : Bool :=
  let eLast := ext.start + ext.len - 1
  let last := start + len - 1
  !(eLast < start || ext.start > last)

/-- `scoutfs_ext_inside`: is `[start, start + len)` inside `out`. -/
def scoutfsExtInside (start len : UInt64) (out : ScoutfsExtent) : Bool :=
  let inLast := start + len - 1
  let outLast := out.start + out.len - 1
  out.start ≤ start && outLast ≥ inLast

/-- `ext_map_add`: mappings are only translated when they exist. -/
def extMapAdd (map diff : UInt64) : UInt64 :=
  if map ≠ 0 then map + diff else 0

/-- `scoutfs_ext_can_merge`. -/
def scoutfsExtCanMerge (left right : ScoutfsExtent) : Bool :=
  left.start + left.len == right.start &&
    ((left.map == 0 && right.map == 0) || left.map + left.len == right.map) &&
    left.flags == right.flags

/-- `ext_split`: the parts of `ext` left and right of `[start, start + len)`, each zeroed
when the range reaches that end of the extent. -/
def extSplit (ext : ScoutfsExtent) (start len : UInt64) : ScoutfsExtent × ScoutfsExtent :=
  (if ext.start < start then ⟨ext.start, start - ext.start, ext.map, ext.flags⟩ else extZero,
   if ext.start + ext.len > start + len then
     ⟨start + len, ext.start + ext.len - (start + len),
       extMapAdd ext.map (start + len - ext.start), ext.flags⟩
   else extZero)

/-! ### Callbacks and changes -/

/-- `struct scoutfs_ext_ops` over a store `σ` (the callbacks' `sb` and `arg`).  `next`
returns its status and the extent it fills in; `insert` and `remove` return `none` where
the callback stops at `BUG_ON`.  `insert_overlap_warn` only selects a log message. -/
structure ScoutfsExtOps (σ : Type) where
  next : σ → UInt64 → UInt64 → Int × ScoutfsExtent
  insert : σ → UInt64 → UInt64 → UInt64 → UInt8 → Option (Int × σ)
  remove : σ → UInt64 → UInt64 → UInt64 → UInt8 → Option (Int × σ)

/-- `struct extent_changes`: the extents to insert (`true`) or remove, in order. -/
abbrev ExtentChanges := List (ScoutfsExtent × Bool)

/-- `add_change`: zero-length extents are not recorded. -/
def addChange (chg : ExtentChanges) (ext : ScoutfsExtent) (ins : Bool) : ExtentChanges :=
  if ext.len ≠ 0 then chg ++ [(ext, ins)] else chg

section Helpers

variable {σ : Type} (ops : ScoutfsExtOps σ)

/-- The `insert` or `remove` callback call for one change. -/
def opCall (s : σ) (ext : ScoutfsExtent) (ins : Bool) : Option (Int × σ) :=
  if ins then ops.insert s ext.start ext.len ext.map ext.flags
  else ops.remove s ext.start ext.len ext.map ext.flags

/-- `apply_changes`: make the changes in order; after the first failure undo the changes
already made, latest first, and return the failure.  `ret` is the last callback's result. -/
def applyChanges : Int → σ → ExtentChanges → Option (Int × σ)
  | ret, s, [] => some (ret, s)
  | _, s, (ext, ins) :: chg =>
    match opCall ops s ext ins with
    | none => none
    | some (ret, s₁) =>
      if ret < 0 then some (ret, s₁)
      else
        match applyChanges ret s₁ chg with
        | none => none
        | some (ret₂, s₂) =>
          if ret₂ < 0 then
            -- BUG_ON(err): an undo that fails leaves the store inconsistent
            match opCall ops s₂ ext (!ins) with
            | none => none
            | some (err, s₃) => if err ≠ 0 then none else some (ret₂, s₃)
          else some (ret₂, s₂)

/-- Apply the planned changes, or return the error the lookups ended with (`goto out`). -/
def applyPlan (s : σ) : Except Int ExtentChanges → Option (Int × σ)
  | .error ret => some (ret, s)
  | .ok chg => applyChanges ops 0 s chg

/-- The right-hand lookup of `scoutfs_ext_insert`: the overlap check, and the merge with a
right neighbour. -/
def extInsertRight (s : σ) (ins : ScoutfsExtent) : Except Int (ScoutfsExtent × ExtentChanges) :=
  -- find right neighbour and check for overlap
  let (ret, found) := ops.next s ins.start 1
  if ret < 0 ∧ ret ≠ -ENOENT then .error ret
  -- inserting extent must not overlap
  else if found.len ≠ 0 ∧ extOverlap ins found.start found.len then .error (-EINVAL)
  -- merge with right if we can
  else if found.len ≠ 0 ∧ scoutfsExtCanMerge ins found then
    .ok ({ ins with len := ins.len + found.len }, addChange [] found false)
  else .ok (ins, [])

/-- The left-hand lookup of `scoutfs_ext_insert`: the merge with a left neighbour, then the
insertion itself. -/
def extInsertLeft (s : σ) (start : UInt64) (ins : ScoutfsExtent) (chg : ExtentChanges) :
    Except Int ExtentChanges :=
  if start > 0 then
    let (ret, found) := ops.next s (start - 1) 1
    if ret < 0 ∧ ret ≠ -ENOENT then .error ret
    else if ret = 0 ∧ scoutfsExtCanMerge found ins then
      .ok (addChange (addChange chg found false)
        { ins with start := found.start, map := found.map, len := ins.len + found.len } true)
    else .ok (addChange chg ins true)
  else .ok (addChange chg ins true)

/-- The lookups of `scoutfs_ext_insert`: an early error, or the changes to make. -/
def extInsertChanges (s : σ) (start len map : UInt64) (flags : UInt8) :
    Except Int ExtentChanges :=
  match extInsertRight ops s ⟨start, len, map, flags⟩ with
  | .error ret => .error ret
  | .ok (ins, chg) => extInsertLeft ops s start ins chg

/-- `scoutfs_ext_insert`. -/
def scoutfsExtInsert (s : σ) (start len map : UInt64) (flags : UInt8) : Option (Int × σ) :=
  applyPlan ops s (extInsertChanges ops s start len map flags)

/-- The lookup of `scoutfs_ext_remove`. -/
def extRemoveChanges (s : σ) (start len : UInt64) : Except Int ExtentChanges :=
  let (ret, found) := ops.next s start 1
  if ret < 0 then .error ret
  -- removed extent must be entirely within found
  else if !scoutfsExtInside start len found then .error (-EINVAL)
  else
    let (left, right) := extSplit found start len
    .ok (addChange (addChange (addChange [] found false) left true) right true)

/-- `scoutfs_ext_remove`. -/
def scoutfsExtRemove (s : σ) (start len : UInt64) : Option (Int × σ) :=
  applyPlan ops s (extRemoveChanges ops s start len)

/-- The lookup of `scoutfs_ext_alloc`: the found extent and the changes that remove its
first `count` blocks. -/
def extAllocChanges (s : σ) (start len count : UInt64) :
    Except Int (ScoutfsExtent × ExtentChanges) :=
  let (ret, found) := ops.next s start len
  if ret < 0 then .error ret
  else
    let chg := addChange [] found false
    if found.len > count then
      .ok (found, addChange chg
        ⟨found.start + count, found.len - count, extMapAdd found.map count, found.flags⟩ true)
    else .ok (found, chg)

/-- `scoutfs_ext_alloc`: the result, the store and the allocated extent. -/
def scoutfsExtAlloc (s : σ) (start len count : UInt64) :
    Option (Int × σ × ScoutfsExtent) :=
  match extAllocChanges ops s start len count with
  | .error ret => some (ret, s, extZero)
  | .ok (found, chg) =>
    match applyChanges ops 0 s chg with
    | none => none
    | some (ret, s') =>
      if ret = 0 then some (ret, s', ⟨found.start, min found.len count, found.map, found.flags⟩)
      else some (ret, s', extZero)

/-- The left edge of `scoutfs_ext_set`: the split remainder, or a left neighbour that may
merge into `set`. -/
def extSetLeft (s : σ) (start : UInt64) (set left : ScoutfsExtent) (chg : ExtentChanges) :
    Except Int (ScoutfsExtent × ExtentChanges) :=
  if left.len ≠ 0 then
    -- inserting split left, won't merge
    .ok (set, addChange chg left true)
  else if start > 0 then
    let (ret, left) := ops.next s (start - 1) 1
    if ret < 0 ∧ ret ≠ -ENOENT then .error ret
    else if ret = 0 ∧ scoutfsExtCanMerge left set then
      -- remove found left, merging
      .ok ({ set with start := left.start, map := left.map, len := set.len + left.len },
        addChange chg left false)
    else .ok (set, chg)
  else .ok (set, chg)

/-- The right edge of `scoutfs_ext_set`. -/
def extSetRight (s : σ) (start len : UInt64) (set right : ScoutfsExtent)
    (chg : ExtentChanges) : Except Int (ScoutfsExtent × ExtentChanges) :=
  if right.len ≠ 0 then
    -- inserting split right, won't merge
    .ok (set, addChange chg right true)
  else
    let (ret, right) := ops.next s (start + len) 1
    if ret < 0 ∧ ret ≠ -ENOENT then .error ret
    else if ret = 0 ∧ scoutfsExtCanMerge set right then
      -- remove found right, merging
      .ok ({ set with len := set.len + right.len }, addChange chg right false)
    else .ok (set, chg)

/-- The lookups of `scoutfs_ext_set`. -/
def extSetChanges (s : σ) (start len map : UInt64) (flags : UInt8) :
    Except Int ExtentChanges :=
  let set : ScoutfsExtent := ⟨start, len, map, flags⟩
  -- find extent to remove
  let (ret, found) := ops.next s start 1
  if ret < 0 ∧ ret ≠ -ENOENT then .error ret
  else
    let overlaps := ret = 0 ∧ extOverlap found start len
    -- set extent must be entirely within found
    if overlaps ∧ !scoutfsExtInside start len found then .error (-EINVAL)
    else
      let chg : ExtentChanges := if overlaps then addChange [] found false else []
      let (left, right) := if overlaps then extSplit found start len else (extZero, extZero)
      match extSetLeft ops s start set left chg with
      | .error ret => .error ret
      | .ok (set, chg) =>
        match extSetRight ops s start len set right chg with
        | .error ret => .error ret
        | .ok (set, chg) => .ok (if set.flags ≠ 0 ∨ set.map ≠ 0 then addChange chg set true else chg)

/-- `scoutfs_ext_set`: extents whose map and flags are both zero are removed. -/
def scoutfsExtSet (s : σ) (start len map : UInt64) (flags : UInt8) : Option (Int × σ) :=
  applyPlan ops s (extSetChanges ops s start len map flags)

end Helpers

end Scoutfs

namespace Scoutfs

/-! ### A store of extent items -/

/-- The key of an extent item, `(end, len)` as `item_from_extent` builds it. -/
def extItemKey (e : ScoutfsExtent) : UInt64 × UInt64 := (e.start + e.len - 1, e.len)

/-- The order of extent item keys. -/
def extKeyLE (a b : UInt64 × UInt64) : Bool :=
  a.1 < b.1 || (a.1 == b.1 && a.2 ≤ b.2)

/-- The extent items of one file as `data_ext_ops` sees them, a list in key order:
`next` is the first item at or after the key of `[start, start + len)`, `insert` creates an
item (`-EEXIST` when its key is taken), `remove` deletes the item with that key. -/
def extItemsOps : ScoutfsExtOps (List ScoutfsExtent) where
  next s start len :=
    match s.find? (fun e => extKeyLE (start + len - 1, len) (extItemKey e)) with
    | some e => (0, e)
    | none => (-ENOENT, extZero)
  insert s start len map flags :=
    let e : ScoutfsExtent := ⟨start, len, map, flags⟩
    if s.any (fun f => extItemKey f == extItemKey e) then some (-EEXIST, s)
    else some (0, s.orderedInsert (fun a b => extKeyLE (extItemKey a) (extItemKey b)) e)
  remove s start len map flags :=
    let e : ScoutfsExtent := ⟨start, len, map, flags⟩
    if s.any (fun f => extItemKey f == extItemKey e) then
      some (0, s.filter (fun f => extItemKey f != extItemKey e))
    else some (-ENOENT, s)

/-- What a store says about logical block `b`: the device block (`0` where the extent is
unmapped) and the flags of the extent holding `b`, translated by `ext_map_add`. -/
def extMeaning (s : List ScoutfsExtent) (b : UInt64) : Option (UInt64 × UInt8) :=
  (s.find? fun e => e.start ≤ b && b - e.start < e.len).map
    fun e => (extMapAdd e.map (b - e.start), e.flags)

/-- Inserting blocks 5..7 mapped to device blocks 5..7 next to an unmapped extent 0..4 with
the same flags merges both into one unmapped extent: `scoutfs_ext_can_merge` takes the
unmapped left extent's `map + len = 0 + 5` for a contiguous mapping, and block 5 loses the
mapping it was just given. -/
theorem scoutfsExtInsert_loses_mapping :
    scoutfsExtInsert extItemsOps [⟨0, 5, 0, 1⟩] 5 3 5 1 = some (0, [⟨0, 8, 0, 1⟩]) ∧
      extMeaning [⟨0, 8, 0, 1⟩] 5 = some (0, 1) := by
  decide

end Scoutfs
