/-
What the take-back of `kway_merge` leaves in a compaction's output.

When the root entry equals the last entry of the current block, `kway_merge` takes back the
encoding before it and restores the block's and the file's last entry to `last_tail`, the
block's last entry before that encoding.  For a pair of equal entries that starts a block,
`last_tail` is the zero entry of the new block: the block is left without entries and the
file's `last` is zero.  `kwayLoop_input_done` states one round of the merge in which the
root's input ends, and `kwayLoop_pair_new_block` runs two of them for such a pair at any
block of the output.

* `compactSorted_pair_new_block` — a `compact_sorted` whose inputs end with an entry and its
  removal leaves, after whatever blocks the output already has, a block without entries, and
  the output's `last` zero;
* `compactLogs_empty_block` — compacting four log files that hold two entries twice each, an
  entry and its deletion, writes a sorted file whose only block is empty and whose bounds are
  not entries of it; a later `compact_sorted` of that file fails with `-EIO`.
-/
import Scoutfs.SrchCompact
import Scoutfs.SrchLogSpec

namespace Scoutfs

theorem sreCmp_ne_eq_iff {a b : ScoutfsSrchEntry} : sreCmp a b ≠ .eq ↔ a ≠ b := by
  rw [ne_eq, sreCmp_eq_eq]

/-- Encoding into a block: the entry becomes the block's and the file's last, and what the
block's last was is kept as `last_tail`. -/
theorem kwayEmit_of_ne {sre : ScoutfsSrchEntry} {blk : ℕ} {sfl : SrchFileData}
    {srb : SrchBlockData} {lastBytes : ℕ} {lastTail : ScoutfsSrchEntry} (hne : sre ≠ srb.last) :
    kwayEmit sre blk sfl srb lastBytes lastTail =
      (⟨if srb.entryBytes = 0 ∧ blk = 0 then sre else sfl.first, sre, sfl.blocks, sfl.entries + 1⟩,
        ⟨if srb.entryBytes = 0 then sre else srb.first, sre, sre, srb.entryNr + 1,
          srb.entries ++ encodeEntry sre srb.tail⟩, srb.entryBytes, srb.last) := by
  rw [kwayEmit, if_pos (sreCmp_ne_eq_iff.mpr hne)]

/-- Taking back: an entry equal to the block's last, after an encoding that added bytes,
restores the block's bytes and count and sets the block's and the file's last to
`last_tail`. -/
theorem kwayEmit_take_back {sre : ScoutfsSrchEntry} {blk : ℕ} {sfl : SrchFileData}
    {srb : SrchBlockData} {lastBytes : ℕ} {lastTail : ScoutfsSrchEntry} (heq : sre = srb.last)
    (hlt : lastBytes < srb.entryBytes) :
    kwayEmit sre blk sfl srb lastBytes lastTail =
      (⟨sfl.first, lastTail, sfl.blocks, sfl.entries - 1⟩,
        ⟨srb.first, lastTail, lastTail, srb.entryNr - 1, srb.entries.take lastBytes⟩, lastBytes,
        lastTail) := by
  have hcmp : ¬ sreCmp sre srb.last ≠ .eq := by
    rw [sreCmp_ne_eq_iff, not_not]
    exact heq
  have hdiff : (srb.entryBytes : ℤ) - lastBytes ≠ 0 := by omega
  have hbytes : srb.entryBytes ≠ 0 := by omega
  rw [kwayEmit, if_neg hcmp, if_pos hdiff]
  simp only [hbytes, false_and, if_false]

/-- Encoding an entry other than zero into a new block. -/
theorem kwayEmit_zero_block {sre : ScoutfsSrchEntry} (hsre : sre ≠ .zero) (blk : ℕ)
    (sfl : SrchFileData) (lastBytes : ℕ) (lastTail : ScoutfsSrchEntry) :
    kwayEmit sre blk sfl .zero lastBytes lastTail =
      (⟨if blk = 0 then sre else sfl.first, sre, sfl.blocks, sfl.entries + 1⟩,
        ⟨sre, sre, sre, 1, encodeEntry sre .zero⟩, 0, .zero) := by
  rw [@kwayEmit_of_ne sre blk sfl .zero lastBytes lastTail hsre]
  simp [SrchBlockData.zero, SrchBlockData.entryBytes]

section KwayLoop

variable {σ : Type} (ops : KwayOps σ)

theorem kwayLoop_done {nr np fuel : ℕ} {ret : ℤ} {commits : List Bool} {st : KwayState σ}
    (h : nr ≤ st.empty) : kwayLoop ops nr np (fuel + 1) ret commits st = some (ret, st) := by
  rw [kwayLoop, if_pos h]

/-- A round of `kway_merge` in which the root's input is done after it: the root's entry `sre`
is written into the current block `cur`, the last of the output's blocks once a new one is
appended where none is held, and the input's leaf becomes the pad. -/
theorem kwayLoop_input_done {nr np fuel : ℕ} {ret : ℤ} {commits : List Bool} {st : KwayState σ}
    {sre : ScoutfsSrchEntry} {i : ℕ} {a a' : σ} {blocks : List SrchBlockData} {cur : SrchBlockData}
    {sfl : SrchFileData} {srb : SrchBlockData} {lastBytes : ℕ} {lastTail : ScoutfsSrchEntry}
    (hne : ¬ nr ≤ st.empty) (hc : ¬ (st.held = false ∧ commits.headD false = true))
    (hroot : st.tnodes.getD 1 .pad = ⟨sre, i⟩) (ha : st.args[i]? = some a)
    (hget : ops.get (ops.adv a) = (a', .error (-ENOENT)))
    (hblocks : (if st.held then st.sfl.blocks else st.sfl.blocks ++ [.zero]) = blocks ++ [cur])
    (hemit : kwayEmit sre blocks.length { st.sfl with blocks := blocks ++ [cur] } cur st.lastBytes
      st.lastTail = (sfl, srb, lastBytes, lastTail)) :
    kwayLoop ops nr np (fuel + 1) ret commits st =
      kwayLoop ops nr np fuel 0 (if st.held then commits else commits.tail)
        ⟨tournUpdate (st.tnodes.set (1 + np + i) ⟨TournNode.pad.sre, i⟩) (1 + np + i),
          st.args.set i a', { sfl with blocks := blocks ++ [srb] },
          decide (srb.entryBytes ≤ SCOUTFS_SRCH_BLOCK_SAFE_BYTES), st.empty + 1, lastBytes,
          lastTail⟩ := by
  rw [kwayLoop, if_neg hne, if_neg hc]
  simp only [hblocks, hroot, List.length_append, List.length_singleton, Nat.add_sub_cancel,
    List.getLastD_concat, List.dropLast_concat, hemit, Int.toNat_natCast, ha, hget]
  simp

/-- The last two rounds of a merge that starts a new block with a pair of equal entries other
than zero, from inputs `i` and `j` that are done after them: the merge ends with the new block
left without entries after the output's blocks, and with the output's `last` zero and its
count of entries as it was. -/
theorem kwayLoop_pair_new_block {nr np fuel : ℕ} {ret : ℤ} {commits : List Bool}
    {st : KwayState σ} {sre : ScoutfsSrchEntry} {i j : ℕ} {a a' b b' : σ} (hsre : sre ≠ .zero)
    (hheld : st.held = false) (hcommit : commits.headD false = false) (hnr : st.empty + 2 = nr)
    (hroot : st.tnodes.getD 1 .pad = ⟨sre, i⟩) (ha : st.args[i]? = some a)
    (hget : ops.get (ops.adv a) = (a', .error (-ENOENT)))
    (hroot' : (tournUpdate (st.tnodes.set (1 + np + i) ⟨TournNode.pad.sre, i⟩) (1 + np + i)).getD
      1 .pad = ⟨sre, j⟩)
    (hb : (st.args.set i a')[j]? = some b) (hget' : ops.get (ops.adv b) = (b', .error (-ENOENT))) :
    ∃ st', kwayLoop ops nr np (fuel + 3) ret commits st = some (0, st') ∧
      st'.args = (st.args.set i a').set j b' ∧
      st'.sfl = ⟨if st.sfl.blocks = [] then sre else st.sfl.first, .zero,
        st.sfl.blocks ++ [⟨sre, .zero, .zero, 0, []⟩], st.sfl.entries⟩ := by
  have hbytes : 2 ≤ (encodeEntry sre .zero).length := two_le_length_encodeEntry _ _
  have hsafe : (encodeEntry sre .zero).length ≤ SCOUTFS_SRCH_BLOCK_SAFE_BYTES :=
    (length_encodeEntry_le _ _).trans (by decide)
  -- the first round writes `sre` into a new block after the output's blocks
  rw [kwayLoop_input_done ops (by omega) (by rw [hheld, hcommit]; decide) hroot ha hget
    (by rw [hheld]; rfl) (kwayEmit_zero_block hsre _ _ _ _)]
  -- the second writes it again into the block it holds, which takes the first back out
  rw [kwayLoop_input_done ops ?hne ?hc hroot' hb hget' ?hblocks ?hemit]
  case hblocks =>
    show _ = st.sfl.blocks ++ [⟨sre, sre, sre, 1, encodeEntry sre .zero⟩]
    simp [SrchBlockData.entryBytes, hsafe]
  case hemit => exact kwayEmit_take_back rfl (by simp [SrchBlockData.entryBytes]; omega)
  case hne => dsimp only; omega
  case hc => simp [SrchBlockData.entryBytes, hsafe]
  rw [kwayLoop_done ops (by dsimp only; omega)]
  refine ⟨_, rfl, rfl, ?_⟩
  simp

end KwayLoop

/-- A sorted file of one block that holds the one entry `(6, 6, 6)`. -/
def sixSorted : SrchFileData :=
  ⟨⟨6, 6, 6⟩, ⟨6, 6, 6⟩, [⟨⟨6, 6, 6⟩, ⟨6, 6, 6⟩, ⟨6, 6, 6⟩, 1, encodeEntry ⟨6, 6, 6⟩ .zero⟩], 1⟩

/-- A sorted compaction of two files that hold `(6, 6, 6)` each, an entry and its removal, into
any output, such as one with the blocks a compaction resumed after `should_commit` has written:
the output gets one more block, without entries, after its blocks, and its `last` is zero. -/
theorem compactSorted_pair_new_block (out : SrchFileData) :
    ∃ ins, compactSorted 8 [] ⟨SCOUTFS_SRCH_COMPACT_FLAG_SORTED, out,
        [⟨sixSorted, 0, 0⟩, ⟨sixSorted, 0, 0⟩]⟩ =
      some (0, ⟨SCOUTFS_SRCH_COMPACT_FLAG_SORTED ||| SCOUTFS_SRCH_COMPACT_FLAG_DONE,
        ⟨if out.blocks = [] then ⟨6, 6, 6⟩ else out.first, .zero,
          out.blocks ++ [⟨⟨6, 6, 6⟩, .zero, .zero, 0, []⟩], out.entries⟩, ins⟩) := by
  -- each reader holds its file's one entry; advancing it ends its file
  have hget : readerOps.get (readerOps.adv
      (⟨sixSorted, true, .zero, ⟨6, 6, 6⟩, 0, 0, 0, 5⟩ : KwayFileReader)) =
      (⟨sixSorted, false, ⟨6, 6, 6⟩, ⟨6, 6, 6⟩, 1, 0, 0, 0⟩, .error (-ENOENT)) := rfl
  -- the merge's state once its first loop has read both files' entries
  let st : KwayState KwayFileReader :=
    ⟨[.pad, ⟨⟨6, 6, 6⟩, 0⟩, ⟨⟨6, 6, 6⟩, 0⟩, ⟨⟨6, 6, 6⟩, 1⟩, .pad],
      [⟨sixSorted, true, .zero, ⟨6, 6, 6⟩, 0, 0, 0, 5⟩, ⟨sixSorted, true, .zero, ⟨6, 6, 6⟩, 0, 0, 0, 5⟩],
      out, false, 0, 0, .zero⟩
  obtain ⟨st', hloop, hargs, hsfl⟩ : ∃ st', kwayLoop readerOps 2 1 (5 + 3) 0 [] st = some (0, st') ∧
      st'.args = (st.args.set 0 ⟨sixSorted, false, ⟨6, 6, 6⟩, ⟨6, 6, 6⟩, 1, 0, 0, 0⟩).set 1
        ⟨sixSorted, false, ⟨6, 6, 6⟩, ⟨6, 6, 6⟩, 1, 0, 0, 0⟩ ∧
      st'.sfl = ⟨if out.blocks = [] then ⟨6, 6, 6⟩ else out.first, .zero,
        out.blocks ++ [⟨⟨6, 6, 6⟩, .zero, .zero, 0, []⟩], out.entries⟩ := by
    refine kwayLoop_pair_new_block readerOps ?hsre ?hheld ?hcommit ?hnr ?hroot ?ha hget ?hroot₂ ?hb
      hget
    -- the tournament's root is the first file's entry, then the second's
    case hroot => rfl
    case hsre => decide
    all_goals rfl
  have hmerge : kwayMerge readerOps 8 [] out
      ([⟨sixSorted, 0, 0⟩, ⟨sixSorted, 0, 0⟩].map fun i : SrchCompactInput =>
        (⟨i.sfl, false, .zero, .zero, i.blk, i.pos, 0, 0⟩ : KwayFileReader)) =
      some (0, st'.sfl, st'.args) := by
    show (kwayLoop readerOps 2 1 (5 + 3) 0 [] st).map (fun r => (r.1, r.2.sfl, r.2.args)) = _
    rw [hloop]
    rfl
  rw [compactSorted, if_neg (by dsimp only; decide), if_neg (by dsimp only; decide)]
  dsimp only
  rw [hmerge, hargs, hsfl]
  exact ⟨_, rfl⟩

/-- The four log files a log compaction takes (`SCOUTFS_SRCH_COMPACT_NR`): two hold the entry
`(5, 5, 5)` and two the entry `(6, 6, 6)`, each pair an xattr's entry and the entry of its
removal. -/
def twoPairLogs : ScoutfsSrchCompact :=
  ⟨SCOUTFS_SRCH_COMPACT_FLAG_LOG, .empty,
    [⟨srchAddAll .empty [⟨5, 5, 5⟩], 0, 0⟩, ⟨srchAddAll .empty [⟨5, 5, 5⟩], 0, 0⟩,
      ⟨srchAddAll .empty [⟨6, 6, 6⟩], 0, 0⟩, ⟨srchAddAll .empty [⟨6, 6, 6⟩], 0, 0⟩]⟩

/-- Compacting `twoPairLogs` succeeds with an output whose one block is empty, whose first
entry is the last one removed and whose last entry is zero.  A sorted compaction of that output
with any other sorted file then fails with `-EIO` at its first read. -/
theorem compactLogs_empty_block :
    ∃ sc, compactLogs 8 [] twoPairLogs = some (0, sc) ∧
      sc.out.blocks = [⟨⟨6, 6, 6⟩, .zero, .zero, 0, []⟩] ∧ sc.out.first = ⟨6, 6, 6⟩ ∧
      sc.out.last = .zero ∧ sc.out.entries = 0 ∧
      ∀ other : SrchFileData, ∃ sc', compactSorted 8 []
        ⟨SCOUTFS_SRCH_COMPACT_FLAG_SORTED, .empty, [⟨sc.out, 0, 0⟩, ⟨other, 0, 0⟩]⟩ =
          some (- EIO, sc') := by
  refine ⟨⟨SCOUTFS_SRCH_COMPACT_FLAG_LOG ||| SCOUTFS_SRCH_COMPACT_FLAG_DONE,
    ⟨⟨6, 6, 6⟩, .zero, [⟨⟨6, 6, 6⟩, .zero, .zero, 0, []⟩], 0⟩, twoPairLogs.in⟩,
    by decide, rfl, rfl, rfl, rfl, fun other => ?_⟩
  -- the first reader finds a block whose `entry_bytes` is not past its skip of 0
  exact ⟨_, rfl⟩

end Scoutfs
