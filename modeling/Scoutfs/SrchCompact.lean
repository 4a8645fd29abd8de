/-
Compacting srch files: the k-way merge of `srch.c` and the two compactions built on it.

`kway_merge` merges `nr` sorted input streams into an output file through a tournament
tree: `tnodes[1]` is the root, the `nr` leaves follow the `nr_parents` parents, and every
parent holds the smaller of its two children (`tourn_update`).  Each round writes the root's
entry into the output's current block, or, when the root equals the last entry written in
that block, takes the entry written before back out (a second occurrence is a deletion), and
then advances the root's input.  A block is closed once it is past
`SCOUTFS_SRCH_BLOCK_SAFE_BYTES`, and the merge stops, to be resumed by a later operation,
whenever `should_commit` fires before a new block.

`compact_logs` decodes every entry of its log files into pages of `SRES_PER_PAGE` entries,
sorts each page, and merges the pages.  `compact_sorted` merges sorted files through readers
that decode one block at a time and resume from a saved block and offset.

An input stream is a state with the `kway_get` and `kway_adv` of its kind, as in the
source.  The outcomes of `should_commit` are read from a list.  Shutdown, failed block reads
and allocations, and the testing triggers (`SRCH_COMPACT_LOGS_PAD_SAFE`,
`SRCH_MERGE_STOP_SAFE`) are not modelled.
-/
import Scoutfs.SrchLog
import Mathlib.Data.List.Sort

namespace Scoutfs

/-! ### The tournament -/

/-- A `struct tourn_node`: an entry and the index of the input it came from. -/
structure TournNode where
  sre : ScoutfsSrchEntry
  ind : ℤ
  deriving DecidableEq, Repr

/-- A node as the `0xff` fill leaves it: the greatest entry and index -1. -/
def TournNode.pad : TournNode :=
  ⟨⟨U64_MAX, U64_MAX, U64_MAX⟩, -1⟩

/-- `tourn_update` from node `j` up to the root at 1: each parent on the way takes the smaller
of its two children, the sibling on ties.  The index halves at each step, so `fuel = j`
steps reach the root. -/
def tournUpdateFrom : ℕ → List TournNode → ℕ → List TournNode
  | 0, tnodes, _ => tnodes
  | fuel + 1, tnodes, j =>
    if j = 1 then tnodes
    else
      let tn := tnodes.getD j TournNode.pad
      let sib := tnodes.getD (j ^^^ 1) TournNode.pad
      let par := if sreCmp tn.sre sib.sre = .lt then tn else sib
      tournUpdateFrom fuel (tnodes.set (j >>> 1) par) (j >>> 1)

/-- `tourn_update`. -/
def tournUpdate (tnodes : List TournNode) (j : ℕ) : List TournNode :=
  tournUpdateFrom j tnodes j

/-- `roundup_pow_of_two`: `1 << fls_long(n - 1)`. -/
def roundupPowOfTwo (n : ℕ) : ℕ :=
  1 <<< fls64 (n - 1).toUInt64

/-! ### The merge -/

/-- An input kind of `kway_merge`: `get` is `kway_get`, the entry at the input's position or
an error, `-ENOENT` once the input is done, with the input as the read leaves it; `adv` is
`kway_adv`. -/
structure KwayOps (σ : Type) where
  get : σ → σ × Except Int ScoutfsSrchEntry
  adv : σ → σ

/-- The state `kway_merge` carries through its loop.  The output's last block is the one being
written when `held` (`bl != NULL`); `blk` is its index, or the index of the next block. -/
structure KwayState (σ : Type) where
  tnodes : List TournNode
  args : List σ
  sfl : SrchFileData
  held : Bool
  empty : ℕ
  lastBytes : ℕ
  lastTail : ScoutfsSrchEntry

/-- Writing the root's entry `sre` into block `srb`, of index `blk`, of the output `sfl`: an
entry other than the block's last is encoded after it; an equal one is a deletion and takes
back the encoding before it, restoring `last_bytes` and `last_tail`.  The source tests
`entry_bytes == 0` in the second case before it restores `entry_bytes`. -/
def kwayEmit (sre : ScoutfsSrchEntry) (blk : ℕ) (sfl : SrchFileData) (srb : SrchBlockData)
    (lastBytes : ℕ) (lastTail : ScoutfsSrchEntry) :
    SrchFileData × SrchBlockData × ℕ × ScoutfsSrchEntry :=
  if sreCmp sre srb.last ≠ .eq then
    let ret := encodeEntry sre srb.tail
    let sflFirst := if srb.entryBytes = 0 ∧ blk = 0 then sre else sfl.first
    let srbFirst := if srb.entryBytes = 0 then sre else srb.first
    (⟨sflFirst, sre, sfl.blocks, sfl.entries + 1⟩,
      ⟨srbFirst, sre, sre, srb.entryNr + 1, srb.entries ++ ret⟩, srb.entryBytes, srb.last)
  else if (srb.entryBytes : ℤ) - lastBytes ≠ 0 then
    let sflFirst := if srb.entryBytes = 0 ∧ blk = 0 then lastTail else sfl.first
    let srbFirst := if srb.entryBytes = 0 then lastTail else srb.first
    (⟨sflFirst, lastTail, sfl.blocks, sfl.entries - 1⟩,
      ⟨srbFirst, lastTail, lastTail, srb.entryNr - 1, srb.entries.take lastBytes⟩, lastBytes,
      lastTail)
  else (sfl, srb, lastBytes, lastTail)

variable {σ : Type} (ops : KwayOps σ)

/-- The first loop of `kway_merge`: leaf `i` reads its input's first entry and updates the
tournament, or counts the input as empty; any other error ends the merge.  The result is the
last `kway_get`'s, which `kway_merge` returns when every input is empty. -/
def kwayInit (nrParents : ℕ) : List ℕ → Int → KwayState σ → Except (Int × KwayState σ) (Int × KwayState σ)
  | [], ret, st => .ok (ret, st)
  | i :: is, _, st =>
    match st.args[i]? with
    | none => .ok (0, st)
    | some a =>
      let leaf := 1 + nrParents + i
      let (a, r) := ops.get a
      let st := { st with
        args := st.args.set i a
        tnodes := st.tnodes.set leaf ⟨TournNode.pad.sre, i⟩ }
      match r with
      | .ok sre =>
        kwayInit nrParents is 0 { st with tnodes := tournUpdate (st.tnodes.set leaf ⟨sre, i⟩) leaf }
      | .error ret =>
        if ret = -ENOENT then kwayInit nrParents is ret { st with empty := st.empty + 1 }
        else .error (ret, st)

/-- The main loop of `kway_merge`, one root entry a round, until every input is empty.
`commits` are the outcomes of `should_commit` before each new block, `true` to stop.  `none`
when the root is a padding node, whose index -1 would read before the leaves, or when the
loop outruns `fuel`. -/
def kwayLoop (nr nrParents : ℕ) : ℕ → Int → List Bool → KwayState σ → Option (Int × KwayState σ)
  | 0, _, _, _ => none
  | fuel + 1, ret, commits, st =>
    if nr ≤ st.empty then some (ret, st)
    else if st.held = false ∧ commits.headD false = true then some (0, st)
    else
      -- always append new blocks
      let commits := if st.held then commits else commits.tail
      let blocks := if st.held then st.sfl.blocks else st.sfl.blocks ++ [SrchBlockData.zero]
      let root := st.tnodes.getD 1 TournNode.pad
      let (sfl, srb, lastBytes, lastTail) := kwayEmit root.sre (blocks.length - 1)
        { st.sfl with blocks } (blocks.getLastD SrchBlockData.zero) st.lastBytes st.lastTail
      let sfl := { sfl with blocks := blocks.dropLast ++ [srb] }
      let held := decide (srb.entryBytes ≤ SCOUTFS_SRCH_BLOCK_SAFE_BYTES)
      -- get the next
      if root.ind < 0 then none
      else
        let i := root.ind.toNat
        match st.args[i]? with
        | none => none
        | some a =>
          let leaf := 1 + nrParents + i
          let (a, r) := ops.get (ops.adv a)
          let st : KwayState σ :=
            ⟨st.tnodes, st.args.set i a, sfl, held, st.empty, lastBytes, lastTail⟩
          match r with
          | .ok sre =>
            kwayLoop nr nrParents fuel 0 commits
              { st with tnodes := tournUpdate (st.tnodes.set leaf ⟨sre, i⟩) leaf }
          | .error err =>
            -- this index is done
            if err = -ENOENT then
              kwayLoop nr nrParents fuel 0 commits
                { st with
                  tnodes := tournUpdate (st.tnodes.set leaf ⟨TournNode.pad.sre, i⟩) leaf
                  empty := st.empty + 1 }
            else some (err, st)

/-- `kway_merge` of the inputs `args` into `sfl`: its result, the output and the inputs as it
leaves them. -/
def kwayMerge (fuel : ℕ) (commits : List Bool) (sfl : SrchFileData) (args : List σ) :
    Option (Int × SrchFileData × List σ) :=
  let nr := args.length
  if nr = 0 then some (-EINVAL, sfl, args)
  else
    -- always at least one parent for single leaf; root at [1], final pad for odd sib
    let nrParents := max 1 (roundupPowOfTwo nr - 1)
    let nrNodes := 1 + nrParents + nr + 1
    let st : KwayState σ := ⟨List.replicate nrNodes TournNode.pad, args, sfl, false, 0, 0, .zero⟩
    match kwayInit ops nrParents (List.range nr) 0 st with
    | .error (ret, st) => some (ret, st.sfl, st.args)
    | .ok (ret, st) =>
      (kwayLoop ops nr nrParents fuel ret commits st).map fun r => (r.1, r.2.sfl, r.2.args)

/-! ### Compactions -/

/-- `SCOUTFS_SRCH_COMPACT_FLAG_LOG`. -/
def SCOUTFS_SRCH_COMPACT_FLAG_LOG : UInt8 := (1 : UInt8) <<< 0
/-- `SCOUTFS_SRCH_COMPACT_FLAG_SORTED`. -/
def SCOUTFS_SRCH_COMPACT_FLAG_SORTED : UInt8 := (1 : UInt8) <<< 1
/-- `SCOUTFS_SRCH_COMPACT_FLAG_DONE`. -/
def SCOUTFS_SRCH_COMPACT_FLAG_DONE : UInt8 := (1 : UInt8) <<< 4

/-- A `struct scoutfs_srch_compact_input`: an input file and where its compaction is. -/
structure SrchCompactInput where
  sfl : SrchFileData
  blk : ℕ
  pos : ℕ
  deriving DecidableEq, Repr

/-- The fields of a `struct scoutfs_srch_compact` that the compactions read and write. -/
structure ScoutfsSrchCompact where
  flags : UInt8
  out : SrchFileData
  «in» : List SrchCompactInput
  deriving DecidableEq, Repr

/-- `SRES_PER_PAGE`: the entries that fit a 4096-byte page. -/
def SRES_PER_PAGE : ℕ := 4096 / 24

/-- The entries `compact_logs` decodes from a block, from offset `pos` against `prev` until
the offset reaches `entry_bytes`, at least one; `false` once an offset past the safe bytes
stops the decoding (`EIO`).  Each entry takes at least its two-byte lengths word, so
`entry_bytes + 1` steps are enough. -/
def compactLogsBlock (srb : SrchBlockData) :
    ℕ → ℕ → ScoutfsSrchEntry → List ScoutfsSrchEntry × Bool
  | 0, _, _ => ([], true)
  | fuel + 1, pos, prev =>
    if pos > SCOUTFS_SRCH_BLOCK_SAFE_BYTES then ([], false)
    else
      let (sre, ret) := decodeEntry (srb.entries.drop pos) prev
      if srb.entryBytes ≤ pos + ret then ([sre], true)
      else
        let (rest, ok) := compactLogsBlock srb fuel (pos + ret) sre
        (sre :: rest, ok)

/-- The entries `compact_logs` decodes from blocks in turn, each from offset 0 against zeros. -/
def compactLogsBlocks : List SrchBlockData → List ScoutfsSrchEntry × Bool
  | [] => ([], true)
  | srb :: rest =>
    let (es, ok) := compactLogsBlock srb (srb.entryBytes + 1) 0 .zero
    if ok then
      let (more, ok) := compactLogsBlocks rest
      (es ++ more, ok)
    else (es, false)

/-- The entries `compact_logs` decodes from its log files in turn; reading block 0 of a file
without blocks fails with `-ENOENT`. -/
def compactLogsDecode : List SrchFileData → Except Int (List ScoutfsSrchEntry)
  | [] => .ok []
  | sfl :: rest =>
    if sfl.blocks = [] then .error (-ENOENT)
    else
      let (es, ok) := compactLogsBlocks sfl.blocks
      if ok then (compactLogsDecode rest).map (es ++ ·) else .ok es

/-- The pages the decoded entries fill in turn, `SRES_PER_PAGE` to a page. -/
def compactLogsPages (entries : List ScoutfsSrchEntry) : List (List ScoutfsSrchEntry) :=
  entries.foldl (fun pages sre =>
    match pages.getLast? with
    | some page =>
      if page.length < SRES_PER_PAGE then pages.dropLast ++ [page ++ [sre]] else pages ++ [[sre]]
    | none => [[sre]]) []

/-- The `sort` of a page by `sre_cmp`.  Equal entries are identical, so every sort gives the
same page. -/
def sortPage (page : List ScoutfsSrchEntry) : List ScoutfsSrchEntry :=
  page.insertionSort fun a b => sreCmp a b ≠ .gt

/-- `kway_get_page` and `kway_adv_page` on a page from its position on: the page ends after its
last entry, or at an entry of inode 0, which marks the end of the last page. -/
def pageOps : KwayOps (List ScoutfsSrchEntry) where
  get page :=
    match page with
    | [] => (page, .error (-ENOENT))
    | sre :: _ => (page, if sre.ino = 0 then .error (-ENOENT) else .ok sre)
  adv page := page.tail

/-- `compact_logs`: its result and the compaction as it leaves it; `none` where the merge is. -/
def compactLogs (fuel : ℕ) (commits : List Bool) (sc : ScoutfsSrchCompact) :
    Option (Int × ScoutfsSrchCompact) :=
  if sc.in.length ≤ 1 then some (-EINVAL, sc)
  else
    match compactLogsDecode (sc.in.map (·.sfl)) with
    | .error ret => some (ret, sc)
    | .ok entries =>
      match kwayMerge pageOps fuel commits sc.out ((compactLogsPages entries).map sortPage) with
      | none => none
      | some (ret, out, pages) =>
        let sc := { sc with out }
        if ret < 0 then some (ret, sc)
        -- make sure we finished all the pages
        else if pages.any (fun page => (page.head?.map fun sre => decide (sre.ino ≠ 0)).getD false) then
          some (-ENOSPC, sc)
        else some (0, { sc with flags := sc.flags ||| SCOUTFS_SRCH_COMPACT_FLAG_DONE })

/-- A `struct kway_file_reader`; `held` is `bl != NULL`. -/
structure KwayFileReader where
  sfl : SrchFileData
  held : Bool
  prev : ScoutfsSrchEntry
  decodedSre : ScoutfsSrchEntry
  blk : ℕ
  skip : ℕ
  pos : ℕ
  decodedBytes : ℕ
  deriving DecidableEq, Repr

/-- The decoding loop of `kway_get_reader`: decode the entry at `pos`, and step past it while
`pos` is before `skip`.  A step passes at least two bytes, so `skip + 1` steps are enough. -/
def readerDecode (srb : SrchBlockData) : ℕ → KwayFileReader → KwayFileReader
  | 0, rdr => rdr
  | fuel + 1, rdr =>
    if rdr.decodedBytes = 0 ∨ rdr.pos < rdr.skip then
      let (sre, ret) := decodeEntry (srb.entries.drop rdr.pos) rdr.prev
      if rdr.pos < rdr.skip then
        let pos := rdr.pos + ret
        readerDecode srb fuel { rdr with
          decodedSre := sre
          prev := sre
          pos := pos
          skip := if rdr.skip ≤ pos then 0 else rdr.skip
          decodedBytes := 0 }
      else { rdr with decodedSre := sre, decodedBytes := ret }
    else rdr

/-- `kway_get_reader` and `kway_adv_reader`.  A block read from the file starts against
zeros; an offset or skip past the safe bytes, or a skip at or past the block's
`entry_bytes`, is an inconsistency (`-EIO`). -/
def readerOps : KwayOps KwayFileReader where
  get rdr :=
    if rdr.blk = rdr.sfl.blocks.length then (rdr, .error (-ENOENT))
    else
      let rdr := if rdr.held then rdr else { rdr with held := true, prev := .zero }
      let srb := rdr.sfl.blocks.getD rdr.blk .zero
      if rdr.pos > SCOUTFS_SRCH_BLOCK_SAFE_BYTES ∨ rdr.skip > SCOUTFS_SRCH_BLOCK_SAFE_BYTES ∨
          srb.entryBytes ≤ rdr.skip then (rdr, .error (- EIO))
      else
        let rdr := readerDecode srb (rdr.skip + 1) rdr
        (rdr, .ok rdr.decodedSre)
  adv rdr :=
    let srb := rdr.sfl.blocks.getD rdr.blk .zero
    let pos := rdr.pos + rdr.decodedBytes
    let rdr := { rdr with prev := rdr.decodedSre, pos, decodedBytes := 0 }
    if srb.entryBytes ≤ pos then { rdr with pos := 0, held := false, blk := rdr.blk + 1 } else rdr

/-- `compact_sorted`: its result and the compaction as it leaves it, each input's `blk` and
`pos` saved from its reader; `none` where the merge is. -/
def compactSorted (fuel : ℕ) (commits : List Bool) (sc : ScoutfsSrchCompact) :
    Option (Int × ScoutfsSrchCompact) :=
  if sc.in.length ≤ 1 then some (-EINVAL, sc)
  else if sc.in.any fun i => i.sfl.blocks.length < i.blk then some (-EINVAL, sc)
  else
    let rdrs := sc.in.map fun i => (⟨i.sfl, false, .zero, .zero, i.blk, i.pos, 0, 0⟩ : KwayFileReader)
    match kwayMerge readerOps fuel commits sc.out rdrs with
    | none => none
    | some (ret, out, rdrs) =>
      let ins := (sc.in.zip rdrs).map fun p => { p.1 with blk := p.2.blk, pos := p.2.pos }
      let flags := sc.flags ||| SCOUTFS_SRCH_COMPACT_FLAG_DONE
      let flags := if (sc.in.zip rdrs).any (fun p => p.2.blk < p.1.sfl.blocks.length) then
        flags &&& ~~~SCOUTFS_SRCH_COMPACT_FLAG_DONE else flags
      some (ret, ⟨flags, out, ins⟩)

end Scoutfs
