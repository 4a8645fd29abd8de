/-
The server's bookkeeping of srch files and compactions (`srch.c`, server side).

The srch root btree holds four kinds of items of the srch zone: a `LOG` item for each log
file that a client's commit rotated in, a `BLOCKS` item for each sorted file, keyed by its
size and blkno, and the records of compactions: `PENDING` ones waiting for a client and
`BUSY` ones that client `rid` works on.  `scoutfs_srch_rotate_log` adds log files,
`scoutfs_srch_get_compact` hands a client a pending compaction or starts a new one from
files that no busy compaction reads, and `scoutfs_srch_commit_compact` takes the client's
result back: a failed or partial result goes back to pending, a finished one has
`commit_files` replace its input file items by its output and goes on to delete the input
files, and a finished deletion drops the record.

The root is a finite map from keys to items (`SrchRoot`), whose values are the fields the
server reads: a file's blkno and size, a compaction's id, flags, output and inputs.  The
allocators that the records carry are not modelled.  Every btree insert, delete and update
may fail, the outcome of each taken from a list as `AllocState.takeFault` does for the
allocator btrees, and a `BUG_ON` that fires ends the call with `none`.  The loops over the
btree run on fuel, one more than the number of items.

`SrchStep` is every call of the server from any client, with the client's result made from
the busy record it was given, and `SrchServerSpec.lean` proves what every run keeps.
-/
import Scoutfs.SrchCompact
import Scoutfs.Lib.Index
import Mathlib.Data.Finmap

namespace Scoutfs

/-! ### Keys and items -/

/-- `SCOUTFS_SRCH_ZONE`. -/
def SCOUTFS_SRCH_ZONE : UInt8 := 32
/-- `SCOUTFS_SRCH_LOG_TYPE`. -/
def SCOUTFS_SRCH_LOG_TYPE : UInt8 := 4
/-- `SCOUTFS_SRCH_BLOCKS_TYPE`. -/
def SCOUTFS_SRCH_BLOCKS_TYPE : UInt8 := 8
/-- `SCOUTFS_SRCH_PENDING_TYPE`. -/
def SCOUTFS_SRCH_PENDING_TYPE : UInt8 := 12
/-- `SCOUTFS_SRCH_BUSY_TYPE`. -/
def SCOUTFS_SRCH_BUSY_TYPE : UInt8 := 16

/-- `SCOUTFS_SRCH_LOG_BLOCK_LIMIT`: a log file of a megabyte is rotated in. -/
def SCOUTFS_SRCH_LOG_BLOCK_LIMIT : UInt64 := (1024 * 1024 / SCOUTFS_BLOCK_LG_SIZE : ℕ).toUInt64
/-- `SCOUTFS_SRCH_COMPACT_ORDER`. -/
def SCOUTFS_SRCH_COMPACT_ORDER : ℕ := 2
/-- `SCOUTFS_SRCH_COMPACT_NR`. -/
def SCOUTFS_SRCH_COMPACT_NR : ℕ := 1 <<< SCOUTFS_SRCH_COMPACT_ORDER

/-- `SCOUTFS_SRCH_COMPACT_FLAG_DELETE`. -/
def SCOUTFS_SRCH_COMPACT_FLAG_DELETE : UInt8 := (1 : UInt8) <<< 2
/-- `SCOUTFS_SRCH_COMPACT_FLAG_ERROR`. -/
def SCOUTFS_SRCH_COMPACT_FLAG_ERROR : UInt8 := (1 : UInt8) <<< 5

/-- `init_srch_key`. -/
def initSrchKey (type : UInt8) (major minor : UInt64) : ScoutfsKey :=
  ⟨SCOUTFS_SRCH_ZONE, 0, type, major, minor, 0⟩

/-- The fields of a `struct scoutfs_srch_file` that the server reads: the blkno of its
reference and its number of blocks. -/
structure SrchFileRef where
  blkno : UInt64
  blocks : UInt64
  deriving DecidableEq, Repr

/-- A `struct scoutfs_srch_compact_input` as the server stores it. -/
structure SrchCompactIn where
  sfl : SrchFileRef
  blk : UInt64
  pos : UInt64
  deriving DecidableEq, Repr

/-- A `struct scoutfs_srch_compact` as the server stores it in a pending or busy item; `nr`
is the length of `in`. -/
structure SrchCompactRec where
  id : UInt64
  flags : UInt8
  out : SrchFileRef
  «in» : List SrchCompactIn
  deriving DecidableEq, Repr

/-- The zeroed record that `scoutfs_srch_get_compact` returns when it has nothing to give. -/
def SrchCompactRec.zero : SrchCompactRec := ⟨0, 0, ⟨0, 0⟩, []⟩

/-- The input files of a compaction. -/
def SrchCompactRec.inputs (sc : SrchCompactRec) : List SrchFileRef :=
  sc.in.map fun i => i.sfl

/-- The type of a compaction's input file items: log files for a compaction of logs, sorted
files otherwise (`commit_files`). -/
def srchCompactType (flags : UInt8) : UInt8 :=
  if flags &&& SCOUTFS_SRCH_COMPACT_FLAG_LOG ≠ 0 then SCOUTFS_SRCH_LOG_TYPE
  else SCOUTFS_SRCH_BLOCKS_TYPE

/-- The value of a srch item: a file reference or a compaction record, which the source
tells apart by `val_len`. -/
inductive SrchItem
  | file (sfl : SrchFileRef)
  | compact (sc : SrchCompactRec)
  deriving DecidableEq, Repr

/-- The srch root btree, as a map from keys to item values. -/
abbrev SrchRoot := Finmap fun _ : ScoutfsKey => SrchItem

/-- `init_file_key`: a log file by its blkno, a sorted file by its size and then blkno. -/
def initFileKey (type : UInt8) (sfl : SrchFileRef) : ScoutfsKey :=
  if type = SCOUTFS_SRCH_LOG_TYPE then initSrchKey type sfl.blkno 0
  else initSrchKey type sfl.blocks sfl.blkno

/-! ### The root's btree -/

/-- The srch root and the outcomes of the coming btree modifications (`true`: the
modification fails); nothing fails once the outcomes run out. -/
structure SrchState where
  root : SrchRoot
  faults : List Bool

/-- The outcome of the next btree modification. -/
def SrchState.takeFault (st : SrchState) : Bool × SrchState :=
  match st.faults with
  | [] => (false, st)
  | fail :: rest => (fail, { st with faults := rest })

/-- `scoutfs_btree_insert` into the srch root. -/
def srchBtreeInsert (st : SrchState) (key : ScoutfsKey) (val : SrchItem) : Int × SrchState :=
  let (fail, st) := st.takeFault
  if fail then (-ENOMEM, st)
  else if key ∈ st.root then (-EEXIST, st)
  else (0, { st with root := st.root.insert key val })

/-- `scoutfs_btree_delete` from the srch root. -/
def srchBtreeDelete (st : SrchState) (key : ScoutfsKey) : Int × SrchState :=
  let (fail, st) := st.takeFault
  if fail then (-ENOMEM, st)
  else if key ∈ st.root then (0, { st with root := st.root.erase key })
  else (-ENOENT, st)

/-- `scoutfs_btree_update` of an item of the srch root: `-ENOENT` if there is none. -/
def srchBtreeUpdate (st : SrchState) (key : ScoutfsKey) (val : SrchItem) : Int × SrchState :=
  let (fail, st) := st.takeFault
  if fail then (-ENOMEM, st)
  else if key ∈ st.root then (0, { st with root := st.root.insert key val })
  else (-ENOENT, st)

/-- `scoutfs_btree_next`: the first item at or after `key`. -/
def srchBtreeNext (root : SrchRoot) (key : ScoutfsKey) : Option (ScoutfsKey × SrchItem) :=
  match Seek.seekGE root.keys key with
  | none => none
  | some k => (root.lookup k).map fun v => (k, v)

/-! ### Rotating log files -/

/-- `scoutfs_srch_rotate_log`: a client's log file of at least
`SCOUTFS_SRCH_LOG_BLOCK_LIMIT` blocks, or any with `force`, becomes a `LOG` item.  The
`SRCH_FORCE_LOG_ROTATE` trigger only sets `force`. -/
def scoutfsSrchRotateLog (st : SrchState) (sfl : SrchFileRef) (force : Bool) : Int × SrchState :=
  if sfl.blkno = 0 ∨ (force = false ∧ sfl.blocks < SCOUTFS_SRCH_LOG_BLOCK_LIMIT) then (0, st)
  else
    let (ret, st) := srchBtreeInsert st (initSrchKey SCOUTFS_SRCH_LOG_TYPE sfl.blkno 0) (.file sfl)
    -- a replayed rotation finds its item and warns
    (if ret = -EEXIST then 0 else ret, st)

/-! ### Getting a compaction -/

/-- The first loop of `scoutfs_srch_get_compact`, from `key` on: the inputs of busy
compactions go into the `busy` bitmap until the first pending compaction, which is
returned.  Pending and busy items sort last, so the loop sees nothing else. -/
def getCompactScan (root : SrchRoot) :
    ℕ → ScoutfsKey → List UInt64 → Option (Except Int (Option SrchCompactRec × List UInt64))
  | 0, _, _ => none
  | fuel + 1, key, busy =>
    match srchBtreeNext root key with
    | none => some (.ok (none, busy))
    | some (_, .file _) => some (.error (- EIO))
    | some (k, .compact sc) =>
      if k.type = SCOUTFS_SRCH_BUSY_TYPE then
        getCompactScan root fuel (scoutfsKeyInc k) (busy ++ sc.inputs.map fun sfl => sfl.blkno)
      else some (.ok (some sc, busy))

/-- In the second loop of `scoutfs_srch_get_compact`, the order and the files gathered once a
file of size order `order` comes: reset if we iterated into the next size category. -/
def getCompactRegroup (type : UInt8) (order curOrder : ℤ) (ins : List SrchFileRef) :
    ℤ × List SrchFileRef :=
  if type = SCOUTFS_SRCH_BLOCKS_TYPE ∧ order ≠ curOrder then (order, []) else (curOrder, ins)

/-- The second loop of `scoutfs_srch_get_compact` over the files of `type`, from `key` on:
files in the `busy` bitmap are skipped, and among sorted files one of another size order
than those gathered starts the gathering again.  `some ins` once
`SCOUTFS_SRCH_COMPACT_NR` files are gathered, `none` when the files of the type run out. -/
def getCompactSelect (root : SrchRoot) (busy : List UInt64) (type : UInt8) :
    ℕ → ScoutfsKey → ℤ → List SrchFileRef → Option (Except Int (Option (List SrchFileRef)))
  | 0, _, _, _ => none
  | fuel + 1, key, curOrder, ins =>
    match srchBtreeNext root key with
    | none => some (.ok none)
    | some (k, item) =>
      if k.type ≠ type then some (.ok none)
      else
        match item with
        | .compact _ => some (.error (- EIO))
        | .file sfl =>
          -- skip any files already being compacted
          if sfl.blkno ∈ busy then
            getCompactSelect root busy type fuel (scoutfsKeyInc k) curOrder ins
          else
            let order : ℤ := (fls64 sfl.blocks / SCOUTFS_SRCH_COMPACT_ORDER : ℕ)
            let (curOrder, ins) := getCompactRegroup type order curOrder ins
            let ins := ins ++ [sfl]
            if ins.length = SCOUTFS_SRCH_COMPACT_NR then some (.ok (some ins))
            -- the body's increment, then the loop's
            else getCompactSelect root busy type fuel (scoutfsKeyInc (scoutfsKeyInc k)) curOrder ins

/-- The record `scoutfs_srch_get_compact` fills for the files `ins` of `type`: the flags of
the kind, and the first input's blkno as the id. -/
def getCompactNew (type : UInt8) (ins : List SrchFileRef) : SrchCompactRec :=
  let flags :=
    if type = SCOUTFS_SRCH_LOG_TYPE then SCOUTFS_SRCH_COMPACT_FLAG_LOG
    else SCOUTFS_SRCH_COMPACT_FLAG_SORTED
  ⟨(ins.headD ⟨0, 0⟩).blkno, flags, ⟨0, 0⟩, ins.map fun sfl => ⟨sfl, 0, 0⟩⟩

/-- The end of `scoutfs_srch_get_compact` with the files `ins` of `type`: the new record goes
in as busy for the client. -/
def getCompactStart (st : SrchState) (rid : UInt64) (type : UInt8) (ins : List SrchFileRef) :
    Int × SrchState × SrchCompactRec :=
  let sc := getCompactNew type ins
  let (ret, st) := srchBtreeInsert st (initSrchKey SCOUTFS_SRCH_BUSY_TYPE rid sc.id) (.compact sc)
  (ret, st, if ret < 0 then { sc with «in» := [] } else sc)

/-- `scoutfs_srch_get_compact` for client `rid`: the first pending compaction moves to busy,
or else four files of a kind that no busy compaction reads start one, log files first. -/
def scoutfsSrchGetCompact (st : SrchState) (rid : UInt64) :
    Option (Int × SrchState × SrchCompactRec) :=
  let fuel := st.root.keys.card + 1
  match getCompactScan st.root fuel (initSrchKey SCOUTFS_SRCH_PENDING_TYPE 0 0) [] with
  | none => none
  | some (.error ret) => some (ret, st, .zero)
  | some (.ok (some sc, _)) =>
    -- move the first pending to busy and return it
    let (ret, st) :=
      srchBtreeInsert st (initSrchKey SCOUTFS_SRCH_BUSY_TYPE rid sc.id) (.compact sc)
    if ret < 0 then some (ret, st, { sc with «in» := [] })
    else
      let (ret, st) := srchBtreeDelete st (initSrchKey SCOUTFS_SRCH_PENDING_TYPE sc.id 0)
      if ret < 0 then
        let (err, st) := srchBtreeDelete st (initSrchKey SCOUTFS_SRCH_BUSY_TYPE rid sc.id)
        -- `BUG_ON(err)`: both pending and busy
        if err ≠ 0 then none else some (ret, st, { sc with «in» := [] })
      else some (0, st, sc)
  | some (.ok (none, busy)) =>
    -- no pending: look for log files, then sorted files of one size order
    match getCompactSelect st.root busy SCOUTFS_SRCH_LOG_TYPE fuel
        (initSrchKey SCOUTFS_SRCH_LOG_TYPE 0 0) (-1) [] with
    | none => none
    | some (.error ret) => some (ret, st, .zero)
    | some (.ok (some ins)) => some (getCompactStart st rid SCOUTFS_SRCH_LOG_TYPE ins)
    | some (.ok none) =>
      -- the loop's increment follows the switch to sorted files
      match getCompactSelect st.root busy SCOUTFS_SRCH_BLOCKS_TYPE fuel
          (scoutfsKeyInc (initSrchKey SCOUTFS_SRCH_BLOCKS_TYPE 0 0)) (-1) [] with
      | none => none
      | some (.error ret) => some (ret, st, .zero)
      | some (.ok none) => some (0, st, .zero)
      | some (.ok (some ins)) => some (getCompactStart st rid SCOUTFS_SRCH_BLOCKS_TYPE ins)

/-- `scoutfs_srch_update_compact`: the client's copy replaces its busy record. -/
def scoutfsSrchUpdateCompact (st : SrchState) (rid : UInt64) (sc : SrchCompactRec) :
    Int × SrchState :=
  srchBtreeUpdate st (initSrchKey SCOUTFS_SRCH_BUSY_TYPE rid sc.id) (.compact sc)

/-! ### Committing a compaction -/

/-- The undo of `commit_files`: the input files already deleted, `done` with the last one
first, go back in; a failure there is `BUG_ON(err)`, a lost srch file. -/
def commitFilesUndo (type : UInt8) : SrchState → List SrchFileRef → Option SrchState
  | st, [] => some st
  | st, sfl :: done =>
    let (err, st) := srchBtreeInsert st (initFileKey type sfl) (.file sfl)
    if err ≠ 0 then none else commitFilesUndo type st done

/-- The loop of `commit_files` that deletes the input file items, `done` holding those
already deleted, the last one first.  A failed delete puts them back and deletes the output
file's item. -/
def commitFilesDelete (type : UInt8) (out : SrchFileRef) :
    SrchState → List SrchFileRef → List SrchFileRef → Option (Int × SrchState)
  | st, [], _ => some (0, st)
  | st, sfl :: rest, done =>
    let (ret, st) := srchBtreeDelete st (initFileKey type sfl)
    if ret < 0 then
      match commitFilesUndo type st done with
      | none => none
      | some st =>
        if out.blocks ≠ 0 then
          let (err, st) := srchBtreeDelete st (initFileKey SCOUTFS_SRCH_BLOCKS_TYPE out)
          -- `BUG_ON(err)`: duplicate srch files data
          if err ≠ 0 then none else some (ret, st)
        else some (ret, st)
    else commitFilesDelete type out st rest (sfl :: done)

/-- `commit_files`: the output file's item goes in, if it has blocks, and the input files'
items go out. -/
def commitFiles (st : SrchState) (sc : SrchCompactRec) : Option (Int × SrchState) :=
  let type := srchCompactType sc.flags
  if sc.out.blocks ≠ 0 then
    let (ret, st) :=
      srchBtreeInsert st (initFileKey SCOUTFS_SRCH_BLOCKS_TYPE sc.out) (.file sc.out)
    if ret < 0 then some (ret, st)
    else commitFilesDelete type sc.out st sc.inputs []
  else commitFilesDelete type sc.out st sc.inputs []

/-- The `update:` label of `scoutfs_srch_commit_compact`: the `pending` record, if any, goes
in as a pending item, and the busy item of `rid` and `id` goes out. -/
def commitCompactUpdate (st : SrchState) (rid id : UInt64) (pending : Option SrchCompactRec) :
    Option (Int × SrchState) :=
  let (ret, st) :=
    match pending with
    | some p => srchBtreeInsert st (initSrchKey SCOUTFS_SRCH_PENDING_TYPE p.id 0) (.compact p)
    | none => (0, st)
  if ret < 0 then some (ret, st)
  else
    let (ret, st) := srchBtreeDelete st (initSrchKey SCOUTFS_SRCH_BUSY_TYPE rid id)
    match pending with
    | some p =>
      if ret < 0 then
        let (err, st) := srchBtreeDelete st (initSrchKey SCOUTFS_SRCH_PENDING_TYPE p.id 0)
        -- `BUG_ON(err)`: both busy and pending present
        if err ≠ 0 then none else some (ret, st)
      else some (ret, st)
    | none => some (ret, st)

/-- A finished result after `commit_files`: its inputs start over and it moves on to deleting
the input files. -/
def commitCompactDeleting (res : SrchCompactRec) : SrchCompactRec :=
  { res with
    flags := (res.flags &&& ~~~(SCOUTFS_SRCH_COMPACT_FLAG_DONE ||| SCOUTFS_SRCH_COMPACT_FLAG_LOG |||
      SCOUTFS_SRCH_COMPACT_FLAG_SORTED)) ||| SCOUTFS_SRCH_COMPACT_FLAG_DELETE
    «in» := res.in.map fun i => { i with blk := 0, pos := 0 } }

/-- `scoutfs_srch_commit_compact` of client `rid`'s result `res`: a failed result returns the
busy record to pending, a partial one is stored as pending, a finished compaction has
`commit_files` replace its files and goes to pending to delete its inputs, and a finished
deletion drops the busy record. -/
def scoutfsSrchCommitCompact (st : SrchState) (rid : UInt64) (res : SrchCompactRec) :
    Option (Int × SrchState) :=
  -- find the record of our compaction
  match st.root.lookup (initSrchKey SCOUTFS_SRCH_BUSY_TYPE rid res.id) with
  | none => some (-ENOENT, st)
  | some (.file _) => some (- EIO, st)
  | some (.compact busy) =>
    if res.flags &&& SCOUTFS_SRCH_COMPACT_FLAG_ERROR ≠ 0 then
      commitCompactUpdate st rid res.id (some busy)
    else if res.flags &&& SCOUTFS_SRCH_COMPACT_FLAG_DONE = 0 then
      commitCompactUpdate st rid res.id (some res)
    else if res.flags &&& SCOUTFS_SRCH_COMPACT_FLAG_DELETE = 0 then
      match commitFiles st res with
      | none => none
      | some (ret, st) =>
        if ret < 0 then some (ret, st)
        else commitCompactUpdate st rid res.id (some (commitCompactDeleting res))
    else commitCompactUpdate st rid res.id none

/-- `scoutfs_srch_cancel_compact`: the first busy item of client `rid` goes out. -/
def scoutfsSrchCancelCompact (st : SrchState) (rid : UInt64) : Int × SrchState :=
  match srchBtreeNext st.root (initSrchKey SCOUTFS_SRCH_BUSY_TYPE rid 0) with
  | none => (-ENOENT, st)
  | some (k, item) =>
    if k > initSrchKey SCOUTFS_SRCH_BUSY_TYPE rid U64_MAX then (-ENOENT, st)
    else
      match item with
      | .file _ => (- EIO, st)
      | .compact _ => srchBtreeDelete st k

/-! ### Runs of the server -/

/-- What a client's result keeps of the busy record it was given:
`scoutfs_srch_compact_worker` sets `DONE` or `ERROR` and moves the inputs' positions and the
output, and leaves the id, the input files and the phase flags as they were. -/
def SrchResultOf (busy res : SrchCompactRec) : Prop :=
  res.id = busy.id ∧ res.inputs = busy.inputs ∧
    res.flags &&& (SCOUTFS_SRCH_COMPACT_FLAG_LOG ||| SCOUTFS_SRCH_COMPACT_FLAG_SORTED |||
      SCOUTFS_SRCH_COMPACT_FLAG_DELETE) =
    busy.flags &&& (SCOUTFS_SRCH_COMPACT_FLAG_LOG ||| SCOUTFS_SRCH_COMPACT_FLAG_SORTED |||
      SCOUTFS_SRCH_COMPACT_FLAG_DELETE)

/-- A result whose commit runs `commit_files`. -/
def SrchCommitsFiles (res : SrchCompactRec) : Prop :=
  res.flags &&& SCOUTFS_SRCH_COMPACT_FLAG_ERROR = 0 ∧
    res.flags &&& SCOUTFS_SRCH_COMPACT_FLAG_DONE ≠ 0 ∧
    res.flags &&& SCOUTFS_SRCH_COMPACT_FLAG_DELETE = 0

/-- A blkno that no file item and no compaction's input names: a block that the allocator
has just given out. -/
def SrchFresh (root : SrchRoot) (blkno : UInt64) : Prop :=
  (∀ k sfl, root.lookup k = some (.file sfl) → sfl.blkno ≠ blkno) ∧
    ∀ k sc, root.lookup k = some (.compact sc) → ∀ sfl ∈ sc.inputs, sfl.blkno ≠ blkno

/-- One call of the server on the srch root, with any outcomes of its btree modifications:
a client's log file rotated in is a new file, and a client's result is made from its busy
record, with a new file as the output that a finished compaction commits. -/
inductive SrchStep : SrchRoot → SrchRoot → Prop
  | rotateLog {root : SrchRoot} (faults : List Bool) (sfl : SrchFileRef) (force : Bool)
      (hfresh : SrchFresh root sfl.blkno) :
      SrchStep root (scoutfsSrchRotateLog ⟨root, faults⟩ sfl force).2.root
  | getCompact {root : SrchRoot} (faults : List Bool) (rid : UInt64) {ret : Int}
      {st : SrchState} {sc : SrchCompactRec}
      (h : scoutfsSrchGetCompact ⟨root, faults⟩ rid = some (ret, st, sc)) :
      SrchStep root st.root
  | updateCompact {root : SrchRoot} (faults : List Bool) (rid : UInt64) (sc : SrchCompactRec)
      (hres : ∀ busy, root.lookup (initSrchKey SCOUTFS_SRCH_BUSY_TYPE rid sc.id) =
        some (.compact busy) → SrchResultOf busy sc) :
      SrchStep root (scoutfsSrchUpdateCompact ⟨root, faults⟩ rid sc).2.root
  | commitCompact {root : SrchRoot} (faults : List Bool) (rid : UInt64) (res : SrchCompactRec)
      (hres : ∀ busy, root.lookup (initSrchKey SCOUTFS_SRCH_BUSY_TYPE rid res.id) =
        some (.compact busy) → SrchResultOf busy res)
      (hout : SrchCommitsFiles res → res.out.blocks ≠ 0 → SrchFresh root res.out.blkno)
      {ret : Int} {st : SrchState}
      (h : scoutfsSrchCommitCompact ⟨root, faults⟩ rid res = some (ret, st)) :
      SrchStep root st.root
  | cancelCompact {root : SrchRoot} (faults : List Bool) (rid : UInt64) :
      SrchStep root (scoutfsSrchCancelCompact ⟨root, faults⟩ rid).2.root

/-- The roots that runs of the server reach from a new filesystem's empty srch root. -/
def SrchReachable (root : SrchRoot) : Prop :=
  Relation.ReflTransGen SrchStep ∅ root

end Scoutfs
