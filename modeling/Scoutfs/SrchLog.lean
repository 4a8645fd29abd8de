/-
Appending to srch log files: `scoutfs_srch_add` and the entry encoding of `srch.c`.

A log block stores each entry as the differences of its three fields from the block's
previous entry (`srb->tail`), each shift-sign-extended and cut to the bytes below its highest
set bit, after a 16-bit word of the three byte counts (`encode_entry`); `decode_entry` reads
one back against the previous entry.  `encodeEntry` gives the bytes an entry leaves in the
block; `encodeEntryAt` runs `encode_entry` on a buffer, with its whole-word stores whose
high bytes the next field overwrites.  `scoutfs_srch_add` encodes into the file's last block
until its `entry_bytes` pass `SCOUTFS_SRCH_BLOCK_SAFE_BYTES`, then into a new block, and
widens the block's and the file's bounds to the entry.

A file being written, a log file or the output of a compaction, is its blocks in logical
order, each with its header fields and its encoded bytes (`SrchFileData`).  Here a new block is
a zeroed one; the radix of parent blocks that `get_file_block` walks, and the allocator it
dirties blocks from, are the model of `SrchRadix.lean`.  `SrchFileData.toSrchFile` decodes the blocks as `search_log_file`
does, into the file that the search of `Srch.lean` reads.  `SrchLogSpec.lean` proves what a
run of additions leaves.
-/
import Scoutfs.Srch

namespace Scoutfs

/-! ### Words -/

/-- `encode_u64`: the low bytes of the shift-sign-extended word, up to its highest set bit.
The source stores the whole word and returns how many of its bytes count. -/
def encodeU64 (val : UInt64) : List UInt8 :=
  -- `(s64)val >> 63` is all ones exactly when the sign bit is set
  let val := (val <<< 1) ^^^ -(val >>> 63)
  (cpuToLe64 val).take ((fls64 val + 7) >>> 3)

/-- `BYTE_MASK`. -/
def BYTE_MASK (b : ℕ) : UInt64 :=
  ((1 : UInt64) <<< (b <<< 3).toUInt64) - 1

/-- `byte_masks`. -/
def byteMasks : List UInt64 :=
  [0, BYTE_MASK 1, BYTE_MASK 2, BYTE_MASK 3, BYTE_MASK 4, BYTE_MASK 5, BYTE_MASK 6, BYTE_MASK 7,
    U64_MAX]

/-- `decode_u64`: the word loaded at the buffer, cut to its low `bytes` bytes and shifted back
with its sign restored. -/
def decodeU64 (buf : List UInt8) (bytes : ℕ) : UInt64 :=
  let val := le64ToCpu (buf.take 8) &&& byteMasks.getD bytes 0
  (val >>> 1) ^^^ -(val &&& 1)

/-- `put_unaligned_le16`. -/
def cpuToLe16 (v : ℕ) : List UInt8 :=
  [(v % 256).toUInt8, (v / 256 % 256).toUInt8]

/-- `put_unaligned_le64` at offset `off` of a buffer. -/
def putUnalignedLe64 (buf : List UInt8) (off : ℕ) (v : UInt64) : List UInt8 :=
  buf.take off ++ cpuToLe64 v ++ buf.drop (off + 8)

/-- `put_unaligned_le16` at the start of a buffer. -/
def putUnalignedLe16 (buf : List UInt8) (v : ℕ) : List UInt8 :=
  cpuToLe16 v ++ buf.drop 2

/-- `encode_u64` at offset `off` of a buffer, as the source runs it: the whole
shift-sign-extended word is stored, and the count of its bytes up to the highest set bit
returned. -/
def encodeU64At (buf : List UInt8) (off : ℕ) (val : UInt64) : List UInt8 × ℕ :=
  let val := (val <<< 1) ^^^ -(val >>> 63)
  (putUnalignedLe64 buf off val, (fls64 val + 7) >>> 3)

/-- `get_unaligned_le16`. -/
def le16ToCpu (b : List UInt8) : ℕ :=
  (b.getD 0 0).toNat + 256 * (b.getD 1 0).toNat

/-! ### Entries -/

/-- The all-zero entry: the `tail` of a new block and the `prev` of a block's first entry. -/
def ScoutfsSrchEntry.zero : ScoutfsSrchEntry := ⟨0, 0, 0⟩

/-- `encode_entry` against `prev`: the lengths word, then each field's difference. -/
def encodeEntry (sre prev : ScoutfsSrchEntry) : List UInt8 :=
  let d0 := encodeU64 (sre.hash - prev.hash)
  let d1 := encodeU64 (sre.ino - prev.ino)
  let d2 := encodeU64 (sre.id - prev.id)
  -- `lengths |= bytes << (i << 2)` for the three differences in turn
  let lengths := d0.length ||| d1.length <<< 4 ||| d2.length <<< 8
  cpuToLe16 lengths ++ d0 ++ d1 ++ d2

/-- `encode_entry` at the start of a buffer, as the source runs it: each difference's word is
stored after the counted bytes of the ones before, over their uncounted high bytes, and the
lengths word last. -/
def encodeEntryAt (buf : List UInt8) (sre prev : ScoutfsSrchEntry) : List UInt8 × ℕ :=
  let (buf, b0) := encodeU64At buf 2 (sre.hash - prev.hash)
  let (buf, b1) := encodeU64At buf (2 + b0) (sre.ino - prev.ino)
  let (buf, b2) := encodeU64At buf (2 + b0 + b1) (sre.id - prev.id)
  (putUnalignedLe16 buf (b0 ||| b1 <<< 4 ||| b2 <<< 8), 2 + b0 + b1 + b2)

/-- `decode_entry` against `prev`: the entry and the number of bytes it took. -/
def decodeEntry (buf : List UInt8) (prev : ScoutfsSrchEntry) : ScoutfsSrchEntry × ℕ :=
  let lengths := le16ToCpu (buf.take 2)
  let b0 := min 8 (lengths &&& 15)
  let b1 := min 8 ((lengths >>> 4) &&& 15)
  let b2 := min 8 ((lengths >>> 8) &&& 15)
  let d0 := decodeU64 (buf.drop 2) b0
  let d1 := decodeU64 (buf.drop (2 + b0)) b1
  let d2 := decodeU64 (buf.drop (2 + b0 + b1)) b2
  (⟨prev.hash + d0, prev.ino + d1, prev.id + d2⟩, 2 + b0 + b1 + b2)

/-- `SCOUTFS_SRCH_ENTRY_MAX_BYTES`. -/
def SCOUTFS_SRCH_ENTRY_MAX_BYTES : ℕ := 2 + 8 * 3

/-- `SCOUTFS_SRCH_BLOCK_SAFE_BYTES`; a `struct scoutfs_srch_block` is 112 bytes before its
entries: the block header, three entries and two 32-bit counts. -/
def SCOUTFS_SRCH_BLOCK_SAFE_BYTES : ℕ :=
  SCOUTFS_BLOCK_LG_SIZE - 112 - SCOUTFS_SRCH_ENTRY_MAX_BYTES

/-- The inner loop of `search_log_file`: `nr` entries decoded from `pos` on, each against
the one before.  The loop stops with `EIO` at an offset past
`SCOUTFS_SRCH_BLOCK_SAFE_BYTES`; the entries before it have been read. -/
def decodeLogEntries (bytes : List UInt8) : ℕ → ℕ → ScoutfsSrchEntry → List ScoutfsSrchEntry
  | 0, _, _ => []
  | nr + 1, pos, prev =>
    if pos > SCOUTFS_SRCH_BLOCK_SAFE_BYTES then []
    else
      let (sre, ret) := decodeEntry (bytes.drop pos) prev
      sre :: decodeLogEntries bytes nr (pos + ret) sre

/-! ### Files as written -/

/-- The header fields of a `struct scoutfs_srch_block` that the writers set, and the bytes of
its encoded entries. -/
structure SrchBlockData where
  first : ScoutfsSrchEntry
  last : ScoutfsSrchEntry
  tail : ScoutfsSrchEntry
  entryNr : ℕ
  entries : List UInt8
  deriving DecidableEq, Repr

namespace SrchBlockData

/-- `entry_bytes`: how many bytes the encoded entries take. -/
def entryBytes (srb : SrchBlockData) : ℕ :=
  srb.entries.length

/-- A block as `scoutfs_block_dirty_ref` gives a new one: zeroed. -/
def zero : SrchBlockData :=
  ⟨ScoutfsSrchEntry.zero, ScoutfsSrchEntry.zero, ScoutfsSrchEntry.zero, 0, []⟩

/-- The block as `search_log_file` reads it: its bounds, and `entry_nr` entries decoded from
offset 0, the first against zeros. -/
def toSrchBlock (srb : SrchBlockData) : ScoutfsSrchBlock :=
  ⟨srb.first, srb.last, decodeLogEntries srb.entries srb.entryNr 0 ScoutfsSrchEntry.zero⟩

end SrchBlockData

/-- The fields of a `struct scoutfs_srch_file` that the writers set, with its blocks in logical
order (`blocks` is their number). -/
structure SrchFileData where
  first : ScoutfsSrchEntry
  last : ScoutfsSrchEntry
  blocks : List SrchBlockData
  entries : ℕ
  deriving DecidableEq, Repr

namespace SrchFileData

/-- A new file: zeroed. -/
def empty : SrchFileData :=
  ⟨ScoutfsSrchEntry.zero, ScoutfsSrchEntry.zero, [], 0⟩

/-- The file as the search reads it. -/
def toSrchFile (sfl : SrchFileData) : ScoutfsSrchFile :=
  ⟨sfl.first, sfl.last, sfl.blocks.map SrchBlockData.toSrchBlock⟩

end SrchFileData

/-- The bounds after an entry that is not its block's first: lowered to it, or else raised to
it. -/
def srchWiden (sre first last : ScoutfsSrchEntry) : ScoutfsSrchEntry × ScoutfsSrchEntry :=
  if sreCmp sre first = .lt then (sre, last)
  else if sreCmp sre last = .gt then (first, sre)
  else (first, last)

/-- `scoutfs_srch_add` of the entry `(hash, ino, id)`.  Block `blk` is the file's last block,
or the one after it once the last is full, which `get_file_block` with `GFB_INSERT` adds;
the file keeps its blocks before `blk`.  `encode_entry` returns at least the two bytes of
its lengths word, so the source's `ret > 0` always holds. -/
def scoutfsSrchAdd (sfl : SrchFileData) (hash ino id : UInt64) : SrchFileData :=
  let sre : ScoutfsSrchEntry := ⟨hash, ino, id⟩
  -- start with a new block or the last existing block
  let blk := if sfl.blocks.length > 1 then sfl.blocks.length - 1 else 0
  let srb := sfl.blocks.getD blk SrchBlockData.zero
  -- stop encoding once we might overflow the block
  let (blk, srb) :=
    if srb.entryBytes > SCOUTFS_SRCH_BLOCK_SAFE_BYTES then (blk + 1, SrchBlockData.zero)
    else (blk, srb)
  let ret := encodeEntry sre srb.tail
  -- a block's first entry sets its bounds, and the file's only in block 0
  let (sflBounds, srbBounds) :=
    if srb.entryBytes = 0 then ((if blk = 0 then (sre, sre) else (sfl.first, sfl.last)), (sre, sre))
    else (srchWiden sre sfl.first sfl.last, srchWiden sre srb.first srb.last)
  let srb : SrchBlockData := ⟨srbBounds.1, srbBounds.2, sre, srb.entryNr + 1, srb.entries ++ ret⟩
  ⟨sflBounds.1, sflBounds.2, sfl.blocks.take blk ++ [srb], sfl.entries + 1⟩

/-- A run of `scoutfs_srch_add` calls, one for each entry in turn. -/
def srchAddAll (sfl : SrchFileData) (sres : List ScoutfsSrchEntry) : SrchFileData :=
  sres.foldl (fun sfl sre => scoutfsSrchAdd sfl sre.hash sre.ino sre.id) sfl

end Scoutfs
