/-
Commits of compactions, and what every run of the srch server keeps.

`commit_files` either leaves the root, its undo putting back all it took out
(`commitFilesDelete_root`), or finds every input file under its key and replaces them by the
output (`commitFiles_root`); `scoutfs_srch_commit_compact` is then one of the changes of
`CommitChange`.  With the changes of the other calls (`SrchServerSpec.lean`), every step keeps
`SrchInv` (`srchStep_inv`) and changes the file items only as `SrchFilesChange` says
(`srchStep_filesChange`), so every root that a run reaches from the empty one has the
invariant (`srchReachable_inv`).
-/
import Scoutfs.SrchServerSpec

namespace Scoutfs

/-! ### Committing files -/

/-- The root once `commit_files` has put the output in, if it has blocks. -/
def srchAddOutput (root : SrchRoot) (out : SrchFileRef) : SrchRoot :=
  if out.blocks ≠ 0 then root.insert (initFileKey SCOUTFS_SRCH_BLOCKS_TYPE out) (.file out)
  else root

/-- The root once `commit_files` of result `res` has replaced its input files by its output. -/
def srchCommitRoot (root : SrchRoot) (res : SrchCompactRec) : SrchRoot :=
  (srchAddOutput root res.out).eraseKeys (res.inputs.map (initFileKey (srchCompactType res.flags)))

theorem srchCompactType_file (flags : UInt8) :
    srchCompactType flags = SCOUTFS_SRCH_LOG_TYPE ∨ srchCompactType flags = SCOUTFS_SRCH_BLOCKS_TYPE := by
  unfold srchCompactType
  split
  · exact .inl rfl
  · exact .inr rfl

section CommitFiles

variable {type : UInt8} {r : SrchRoot}

/-- The undo of `commit_files` puts back the files of `done` as they were in `r`, and so gives
back `r`. -/
theorem commitFilesUndo_root :
    ∀ {done : List SrchFileRef} {st st' : SrchState},
      (∀ x, x ∉ done.map (initFileKey type) → st.root.lookup x = r.lookup x) →
      (∀ sfl ∈ done, r.lookup (initFileKey type sfl) = some (.file sfl)) →
      commitFilesUndo type st done = some st' → st'.root = r
  | [], st, st', hst, _, hundo => by
    cases hundo
    exact Finmap.ext_lookup fun x => hst x List.not_mem_nil
  | sfl :: done, st, st', hst, hdone, hundo => by
    rw [commitFilesUndo] at hundo
    rcases hins : srchBtreeInsert st (initFileKey type sfl) (.file sfl) with ⟨err, st₁⟩
    rw [hins] at hundo
    dsimp only at hundo
    rcases srchBtreeInsert_root hins with ⟨herr, -⟩ | ⟨rfl, -, hroot₁⟩
    · rw [if_pos herr.ne] at hundo
      cases hundo
    rw [if_neg (not_not.mpr rfl)] at hundo
    refine commitFilesUndo_root (fun x hx => ?_) (fun a ha => hdone a (List.mem_cons_of_mem _ ha))
      hundo
    rw [hroot₁]
    by_cases hxs : x = initFileKey type sfl
    · rw [hxs, Finmap.lookup_insert, hdone sfl List.mem_cons_self]
    · rw [Finmap.lookup_insert_of_ne _ hxs]
      exact hst x (by simp [hxs, hx])

/-- The delete loop of `commit_files`, from a root that is `r` without the files of `done`:
either every file of `rest` was in `r` and goes, or a delete fails and the undo leaves `r`
without the output. -/
theorem commitFilesDelete_root {out : SrchFileRef} :
    ∀ {rest done : List SrchFileRef} {st st' : SrchState} {ret : Int},
      (∀ x, x ∉ done.map (initFileKey type) → st.root.lookup x = r.lookup x) →
      (∀ sfl ∈ done, r.lookup (initFileKey type sfl) = some (.file sfl)) →
      (∀ sfl ∈ done, initFileKey type sfl ∉ st.root) →
      (∀ sfl ∈ rest, ∀ v, r.lookup (initFileKey type sfl) = some v → v = .file sfl) →
      commitFilesDelete type out st rest done = some (ret, st') →
        ret = 0 ∧ (∀ sfl ∈ rest, r.lookup (initFileKey type sfl) = some (.file sfl)) ∧
            st'.root = st.root.eraseKeys (rest.map (initFileKey type)) ∨
          ret < 0 ∧ st'.root =
            if out.blocks ≠ 0 then r.erase (initFileKey SCOUTFS_SRCH_BLOCKS_TYPE out) else r
  | [], done, st, st', ret, _, _, _, _, hdel => by
    cases hdel
    exact .inl ⟨rfl, fun _ h => absurd h List.not_mem_nil, rfl⟩
  | sfl :: rest, done, st, st', ret, hst, hdone, hgone, hvals, hdel => by
    rw [commitFilesDelete] at hdel
    rcases hd : srchBtreeDelete st (initFileKey type sfl) with ⟨ret₁, st₁⟩
    rw [hd] at hdel
    dsimp only at hdel
    rcases srchBtreeDelete_root hd with ⟨hret₁, hroot₁⟩ | ⟨rfl, hmem, hroot₁⟩
    · -- the delete failed: the files taken out go back, then the output goes
      rw [if_pos hret₁] at hdel
      rcases hundo : commitFilesUndo type st₁ done with _ | st₂
      · rw [hundo] at hdel
        cases hdel
      rw [hundo] at hdel
      dsimp only at hdel
      have hr : st₂.root = r :=
        commitFilesUndo_root (fun x hx => by rw [hroot₁]; exact hst x hx) hdone hundo
      by_cases hout : out.blocks ≠ 0
      · rw [if_pos hout] at hdel
        rcases hd' : srchBtreeDelete st₂ (initFileKey SCOUTFS_SRCH_BLOCKS_TYPE out) with ⟨err, st₃⟩
        rw [hd'] at hdel
        dsimp only at hdel
        rcases srchBtreeDelete_root hd' with ⟨herr, -⟩ | ⟨rfl, -, hroot₃⟩
        · rw [if_pos herr.ne] at hdel
          cases hdel
        rw [if_neg (not_not.mpr rfl)] at hdel
        cases hdel
        exact .inr ⟨hret₁, by rw [if_pos hout, hroot₃, hr]⟩
      · rw [if_neg hout] at hdel
        cases hdel
        exact .inr ⟨hret₁, by rw [if_neg hout, hr]⟩
    · -- the file went: its key was not one of `done`'s, so it held the input itself
      rw [if_neg (lt_irrefl 0)] at hdel
      have hnot : initFileKey type sfl ∉ done.map (initFileKey type) := by
        intro hx
        obtain ⟨a, ha, hka⟩ := List.mem_map.mp hx
        exact hgone a ha (hka ▸ hmem)
      have hr : r.lookup (initFileKey type sfl) = some (.file sfl) := by
        obtain ⟨v, hv⟩ := Option.isSome_iff_exists.mp (Finmap.lookup_isSome.mpr hmem)
        rw [hst _ hnot] at hv
        rw [hv, hvals sfl List.mem_cons_self v hv]
      have hst₁ : ∀ x, x ∉ (sfl :: done).map (initFileKey type) →
          st₁.root.lookup x = r.lookup x := by
        intro x hx
        rw [List.map_cons, List.mem_cons, not_or] at hx
        rw [hroot₁, Finmap.lookup_erase_ne hx.1]
        exact hst x hx.2
      have hdone₁ : ∀ a ∈ sfl :: done, r.lookup (initFileKey type a) = some (.file a) := by
        intro a ha
        rcases List.mem_cons.mp ha with rfl | ha
        · exact hr
        · exact hdone a ha
      have hgone₁ : ∀ a ∈ sfl :: done, initFileKey type a ∉ st₁.root := by
        intro a ha hmem₁
        rw [hroot₁, Finmap.mem_erase] at hmem₁
        rcases List.mem_cons.mp ha with rfl | ha
        · exact hmem₁.1 rfl
        · exact hgone a ha hmem₁.2
      rcases commitFilesDelete_root hst₁ hdone₁ hgone₁
          (fun a ha => hvals a (List.mem_cons_of_mem _ ha)) hdel with
        ⟨hret, hrest, hroot⟩ | hfail
      · refine .inl ⟨hret, fun a ha => ?_, ?_⟩
        · rcases List.mem_cons.mp ha with rfl | ha
          · exact hr
          · exact hrest a ha
        · rw [hroot, hroot₁, List.map_cons, Finmap.eraseKeys_cons]
      · exact .inr hfail

end CommitFiles

section Commit

variable {root : SrchRoot}

/-- Under a file key there is a file of that key's blkno. -/
theorem SrchInv.lookup_fileKey (h : SrchInv root) {t : UInt8}
    (ht : t = SCOUTFS_SRCH_LOG_TYPE ∨ t = SCOUTFS_SRCH_BLOCKS_TYPE) {sfl : SrchFileRef} {v : SrchItem}
    (hv : root.lookup (initFileKey t sfl) = some v) : ∃ f, v = .file f ∧ f.blkno = sfl.blkno := by
  have hkey := h.keyed _ v hv
  cases v with
  | compact c =>
    -- a record's key is of a record type, not of a file type
    exfalso
    rcases hkey with hk | ⟨rid, hk⟩ <;>
    · have hty := congrArg ScoutfsKey.type hk
      rw [initFileKey_type, initSrchKey_type] at hty
      rcases ht with rfl | rfl <;> exact absurd hty (by decide)
  | file f =>
    refine ⟨f, rfl, ?_⟩
    rcases hkey with hk | hk <;> exact (blkno_eq_of_initFileKey_eq hk).symm

/-- The file key of a new blkno is free. -/
theorem SrchInv.fileKey_not_mem (h : SrchInv root) {t : UInt8}
    (ht : t = SCOUTFS_SRCH_LOG_TYPE ∨ t = SCOUTFS_SRCH_BLOCKS_TYPE) {sfl : SrchFileRef}
    (hfresh : SrchFresh root sfl.blkno) : initFileKey t sfl ∉ root := by
  intro hmem
  obtain ⟨v, hv⟩ := Option.isSome_iff_exists.mp (Finmap.lookup_isSome.mpr hmem)
  obtain ⟨f, rfl, hblk⟩ := h.lookup_fileKey ht hv
  exact hfresh.1 _ f hv hblk

/-- Under the key of an input of a record that has not deleted its inputs there is that input
or nothing. -/
theorem SrchInv.lookup_input (h : SrchInv root) {c : SrchCompactRec} (hok : SrchCompactOK root c)
    (hdel : c.flags &&& SCOUTFS_SRCH_COMPACT_FLAG_DELETE = 0) {sfl : SrchFileRef}
    (hsfl : sfl ∈ c.inputs) {v : SrchItem}
    (hv : root.lookup (initFileKey (srchCompactType c.flags) sfl) = some v) : v = .file sfl := by
  obtain ⟨f, rfl, hblk⟩ := h.lookup_fileKey (srchCompactType_file c.flags) hv
  obtain ⟨rfl, -⟩ := hok.live hdel sfl hsfl _ f hv hblk
  rfl

/-- `commit_files` of a record that has not deleted its inputs, whose output is a new file:
it leaves the root, or it found every input under its key and replaced them by the output. -/
theorem commitFiles_root (h : SrchInv root) {faults : List Bool} {res : SrchCompactRec}
    {ret : Int} {st : SrchState} (hok : SrchCompactOK root res)
    (hdel : res.flags &&& SCOUTFS_SRCH_COMPACT_FLAG_DELETE = 0)
    (hfresh : res.out.blocks ≠ 0 →
      SrchFresh root res.out.blkno ∧ ∀ a ∈ res.inputs, a.blkno ≠ res.out.blkno)
    (hcf : commitFiles ⟨root, faults⟩ res = some (ret, st)) :
    ret < 0 ∧ st.root = root ∨
      ret = 0 ∧
        (∀ sfl ∈ res.inputs,
          root.lookup (initFileKey (srchCompactType res.flags) sfl) = some (.file sfl)) ∧
        st.root = srchCommitRoot root res := by
  -- every input's key holds the input or nothing, also once the output is in
  have hvals : ∀ sfl ∈ res.inputs, ∀ v, (srchAddOutput root res.out).lookup
      (initFileKey (srchCompactType res.flags) sfl) = some v → v = .file sfl := by
    intro sfl hsfl v hv
    unfold srchAddOutput at hv
    split_ifs at hv with hout
    · rcases Finmap.lookup_insert_eq_some.mp hv with ⟨hk, -⟩ | ⟨-, hv⟩
      · exact absurd (blkno_eq_of_initFileKey_eq hk) ((hfresh hout).2 sfl hsfl)
      · exact h.lookup_input hok hdel hsfl hv
    · exact h.lookup_input hok hdel hsfl hv
  unfold commitFiles at hcf
  rcases hins : srchBtreeInsert ⟨root, faults⟩ (initFileKey SCOUTFS_SRCH_BLOCKS_TYPE res.out)
      (.file res.out) with ⟨ret₁, st₁⟩
  rw [hins] at hcf
  dsimp only at hcf
  by_cases hout : res.out.blocks ≠ 0
  · -- the output file goes in first
    rw [if_pos hout] at hcf
    rcases srchBtreeInsert_root hins with ⟨hret₁, hroot₁⟩ | ⟨rfl, hfree, hroot₁⟩
    · rw [if_pos hret₁] at hcf
      cases hcf
      exact .inl ⟨hret₁, hroot₁⟩
    rw [if_neg (lt_irrefl 0)] at hcf
    have hR : st₁.root = srchAddOutput root res.out := by
      rw [hroot₁, srchAddOutput, if_pos hout]
    rcases commitFilesDelete_root (r := st₁.root) (fun _ _ => rfl)
        (fun _ h => absurd h List.not_mem_nil) (fun _ h => absurd h List.not_mem_nil)
        (by rw [hR]; exact hvals) hcf with
      ⟨hret, hin, hroot⟩ | ⟨hret, hroot⟩
    · refine .inr ⟨hret, fun sfl hsfl => ?_, by rw [hroot, hR]; rfl⟩
      have hsome := hin sfl hsfl
      rw [hroot₁, Finmap.lookup_insert_eq_some] at hsome
      rcases hsome with ⟨hk, -⟩ | ⟨-, hv⟩
      · exact absurd (blkno_eq_of_initFileKey_eq hk) ((hfresh hout).2 sfl hsfl)
      · exact hv
    · refine .inl ⟨hret, ?_⟩
      rw [hroot, if_pos hout, hroot₁, Finmap.erase_insert_of_not_mem hfree]
  · rw [if_neg hout] at hcf
    have hR : srchAddOutput root res.out = root := by
      rw [srchAddOutput, if_neg hout]
    rcases commitFilesDelete_root (r := root) (fun _ _ => rfl)
        (fun _ h => absurd h List.not_mem_nil) (fun _ h => absurd h List.not_mem_nil)
        (by rw [← hR]; exact hvals) hcf with
      ⟨hret, hin, hroot⟩ | ⟨hret, hroot⟩
    · exact .inr ⟨hret, hin, by rw [hroot, srchCommitRoot, hR]⟩
    · exact .inl ⟨hret, by rw [hroot, if_neg hout]⟩

/-- The inputs' keys are all of a file type, so a key of another type keeps what it held. -/
theorem srchCommitRoot_lookup_of_type {res : SrchCompactRec} {k : ScoutfsKey}
    (hlog : k.type ≠ SCOUTFS_SRCH_LOG_TYPE) (hblocks : k.type ≠ SCOUTFS_SRCH_BLOCKS_TYPE) :
    (srchCommitRoot root res).lookup k = root.lookup k := by
  have hnot : k ∉ res.inputs.map (initFileKey (srchCompactType res.flags)) := by
    intro hk
    obtain ⟨sfl, -, rfl⟩ := List.mem_map.mp hk
    rw [initFileKey_type] at hlog hblocks
    rcases srchCompactType_file res.flags with hT | hT
    · exact hlog hT
    · exact hblocks hT
  rw [srchCommitRoot, Finmap.lookup_eraseKeys_of_not_mem hnot, srchAddOutput]
  split_ifs
  · have hne : k ≠ initFileKey SCOUTFS_SRCH_BLOCKS_TYPE res.out := by
      intro hk
      rw [hk, initFileKey_type] at hblocks
      exact hblocks rfl
    rw [Finmap.lookup_insert_of_ne _ hne]
  · rfl

theorem srchCommitRoot_lookup_busy (res : SrchCompactRec) (rid id : UInt64) :
    (srchCommitRoot root res).lookup (initSrchKey SCOUTFS_SRCH_BUSY_TYPE rid id) =
      root.lookup (initSrchKey SCOUTFS_SRCH_BUSY_TYPE rid id) :=
  srchCommitRoot_lookup_of_type (by rw [initSrchKey_type]; decide) (by rw [initSrchKey_type]; decide)

/-- A file item after `commit_files` is its output, or a file item from before that is not
under an input's key. -/
theorem srchCommitRoot_file {res : SrchCompactRec} {k : ScoutfsKey} {f : SrchFileRef}
    (hk : (srchCommitRoot root res).lookup k = some (.file f)) :
    res.out.blocks ≠ 0 ∧ f = res.out ∨
      k ∉ res.inputs.map (initFileKey (srchCompactType res.flags)) ∧
        root.lookup k = some (.file f) := by
  unfold srchCommitRoot at hk
  by_cases hmem : k ∈ res.inputs.map (initFileKey (srchCompactType res.flags))
  · rw [Finmap.lookup_eraseKeys_of_mem hmem] at hk
    cases hk
  rw [Finmap.lookup_eraseKeys_of_not_mem hmem, srchAddOutput] at hk
  by_cases hout : res.out.blocks ≠ 0
  · rw [if_pos hout] at hk
    rcases Finmap.lookup_insert_eq_some.mp hk with ⟨-, hv⟩ | ⟨-, hk⟩
    · cases hv
      exact .inl ⟨hout, rfl⟩
    · exact .inr ⟨hmem, hk⟩
  · rw [if_neg hout] at hk
    exact .inr ⟨hmem, hk⟩

theorem SrchInv.srchCommitRoot (h : SrchInv root) {res : SrchCompactRec}
    (hfresh : res.out.blocks ≠ 0 → SrchFresh root res.out.blkno) :
    SrchInv (srchCommitRoot root res) := by
  refine SrchInv.eraseKeys ?_ _
  rw [srchAddOutput]
  split_ifs with hout
  · exact h.insert_file (h.fileKey_not_mem (.inr rfl) (hfresh hout)) (.inr rfl) (hfresh hout)
  · exact h

/-! ### Committing a compaction -/

theorem commitCompactDeleting_inputs (res : SrchCompactRec) :
    (commitCompactDeleting res).inputs = res.inputs := by
  simp [commitCompactDeleting, SrchCompactRec.inputs]

theorem commitCompactDeleting_delete (res : SrchCompactRec) :
    (commitCompactDeleting res).flags &&& SCOUTFS_SRCH_COMPACT_FLAG_DELETE =
      SCOUTFS_SRCH_COMPACT_FLAG_DELETE := by
  -- the flag or-ed in is kept by the mask of itself, bit by bit
  apply UInt8.toBitVec_inj.mp
  rw [commitCompactDeleting, UInt8.toBitVec_and, UInt8.toBitVec_or]
  ext i
  rw [BitVec.getElem_and, BitVec.getElem_or]
  cases SCOUTFS_SRCH_COMPACT_FLAG_DELETE.toBitVec[i] <;> simp

/-- The record of a finished compaction once `commit_files` replaced its inputs: no input
is a file item any more. -/
theorem SrchCompactOK.commitCompactDeleting (h : SrchInv root) {b : ScoutfsKey}
    {busy res : SrchCompactRec} (hbusy : root.lookup b = some (.compact busy))
    (hres : SrchResultOf busy res) (hcommits : SrchCommitsFiles res)
    (hfresh : res.out.blocks ≠ 0 → SrchFresh root res.out.blkno) :
    SrchCompactOK (srchCommitRoot root res) (commitCompactDeleting res) where
  nodup := by
    rw [commitCompactDeleting_inputs, hres.2.1]
    exact (h.compactOK b busy hbusy).nodup
  gone _ sfl hsfl k f hf hblk := by
    rw [commitCompactDeleting_inputs, hres.2.1] at hsfl
    rcases srchCommitRoot_file hf with ⟨hout, rfl⟩ | ⟨hnot, hf⟩
    · -- the output is a new file, of no input's blkno
      exact (hfresh hout).2 b busy hbusy sfl hsfl hblk.symm
    · -- an old file of an input's blkno is that input, under the key that went
      have hdel : busy.flags &&& SCOUTFS_SRCH_COMPACT_FLAG_DELETE = 0 := by
        rw [← hres.delete_eq]
        exact hcommits.2.2
      obtain ⟨rfl, rfl⟩ := (h.compactOK b busy hbusy).live hdel sfl hsfl k f hf hblk
      rw [← hres.compactType_eq] at hnot
      exact hnot (List.mem_map_of_mem (by rw [hres.2.1]; exact hsfl))
  live hdel := absurd (commitCompactDeleting_delete res ▸ hdel) (by decide)

/-- The changes of the `update:` label of `scoutfs_srch_commit_compact`. -/
inductive UpdateChange (root : SrchRoot) (rid id : UInt64) :
    Option SrchCompactRec → SrchRoot → Prop
  /-- an error, or a change undone -/
  | same {pending : Option SrchCompactRec} : UpdateChange root rid id pending root
  /-- the record `p` goes in as pending and the busy item goes out -/
  | requeue {p : SrchCompactRec}
      (hfree : initSrchKey SCOUTFS_SRCH_PENDING_TYPE p.id 0 ∉ root) :
      UpdateChange root rid id (some p)
        ((root.insert (initSrchKey SCOUTFS_SRCH_PENDING_TYPE p.id 0) (.compact p)).erase
          (initSrchKey SCOUTFS_SRCH_BUSY_TYPE rid id))
  /-- the busy item goes out -/
  | drop : UpdateChange root rid id none (root.erase (initSrchKey SCOUTFS_SRCH_BUSY_TYPE rid id))

theorem commitCompactUpdate_change {st st' : SrchState} {rid id : UInt64}
    {pending : Option SrchCompactRec} {ret : Int}
    (h : commitCompactUpdate st rid id pending = some (ret, st')) :
    UpdateChange st.root rid id pending st'.root := by
  unfold commitCompactUpdate at h
  cases pending with
  | none =>
    dsimp only at h
    rw [if_neg (lt_irrefl 0)] at h
    rcases hd : srchBtreeDelete st (initSrchKey SCOUTFS_SRCH_BUSY_TYPE rid id) with ⟨ret₁, st₁⟩
    rw [hd] at h
    cases h
    rcases srchBtreeDelete_root hd with ⟨-, hroot⟩ | ⟨-, -, hroot⟩
    · rw [hroot]
      exact .same
    · rw [hroot]
      exact .drop
  | some p =>
    dsimp only at h
    rcases hins : srchBtreeInsert st (initSrchKey SCOUTFS_SRCH_PENDING_TYPE p.id 0) (.compact p) with
      ⟨ret₁, st₁⟩
    rw [hins] at h
    dsimp only at h
    rcases srchBtreeInsert_root hins with ⟨hret₁, hroot₁⟩ | ⟨rfl, hfree, hroot₁⟩
    · rw [if_pos hret₁] at h
      cases h
      rw [hroot₁]
      exact .same
    rw [if_neg (lt_irrefl 0)] at h
    rcases hd : srchBtreeDelete st₁ (initSrchKey SCOUTFS_SRCH_BUSY_TYPE rid id) with ⟨ret₂, st₂⟩
    rw [hd] at h
    dsimp only at h
    rcases srchBtreeDelete_root hd with ⟨hret₂, hroot₂⟩ | ⟨rfl, -, hroot₂⟩
    · -- the busy item stays, so the pending item goes back out
      rw [if_pos hret₂] at h
      rcases hd' : srchBtreeDelete st₂ (initSrchKey SCOUTFS_SRCH_PENDING_TYPE p.id 0) with
        ⟨err, st₃⟩
      rw [hd'] at h
      dsimp only at h
      rcases srchBtreeDelete_root hd' with ⟨herr, -⟩ | ⟨rfl, -, hroot₃⟩
      · rw [if_pos herr.ne] at h
        cases h
      rw [if_neg (not_not.mpr rfl)] at h
      cases h
      rw [hroot₃, hroot₂, hroot₁, Finmap.erase_insert_of_not_mem hfree]
      exact .same
    · rw [if_neg (lt_irrefl 0)] at h
      cases h
      rw [hroot₂, hroot₁]
      exact .requeue hfree

/-- The changes `scoutfs_srch_commit_compact` of client `rid`'s result `res` makes to the
root. -/
inductive CommitChange (root : SrchRoot) (rid : UInt64) (res : SrchCompactRec) : SrchRoot → Prop
  /-- no busy record, an error, or a change undone -/
  | same : CommitChange root rid res root
  /-- an error result returns the busy record to pending, a partial one goes to pending as it
  is, and a finished deletion drops the busy record -/
  | update {busy : SrchCompactRec} {pending : Option SrchCompactRec} {root' : SrchRoot}
      (hbusy : root.lookup (initSrchKey SCOUTFS_SRCH_BUSY_TYPE rid res.id) = some (.compact busy))
      (hpending : ∀ p, pending = some p → SrchResultOf busy p)
      (hu : UpdateChange root rid res.id pending root') :
      CommitChange root rid res root'
  /-- a finished compaction replaces its input files, which were all there, by its output, and
  goes on to pending to delete its inputs -/
  | commit {busy : SrchCompactRec} {root' : SrchRoot}
      (hbusy : root.lookup (initSrchKey SCOUTFS_SRCH_BUSY_TYPE rid res.id) = some (.compact busy))
      (hres : SrchResultOf busy res) (hcommits : SrchCommitsFiles res)
      (hin : ∀ sfl ∈ res.inputs,
        root.lookup (initFileKey (srchCompactType res.flags) sfl) = some (.file sfl))
      (hfresh : res.out.blocks ≠ 0 → SrchFresh root res.out.blkno)
      (hu : UpdateChange (srchCommitRoot root res) rid res.id (some (commitCompactDeleting res))
        root') :
      CommitChange root rid res root'

/-- What `scoutfs_srch_commit_compact` can do to the root, for a result made from the busy
record whose output, if it commits files, is a new file. -/
theorem scoutfsSrchCommitCompact_change (h : SrchInv root) {faults : List Bool} {rid : UInt64}
    {res : SrchCompactRec} {ret : Int} {st : SrchState}
    (hres : ∀ busy, root.lookup (initSrchKey SCOUTFS_SRCH_BUSY_TYPE rid res.id) =
      some (.compact busy) → SrchResultOf busy res)
    (hout : SrchCommitsFiles res → res.out.blocks ≠ 0 → SrchFresh root res.out.blkno)
    (hc : scoutfsSrchCommitCompact ⟨root, faults⟩ rid res = some (ret, st)) :
    CommitChange root rid res st.root := by
  unfold scoutfsSrchCommitCompact at hc
  dsimp only at hc
  rcases hb : root.lookup (initSrchKey SCOUTFS_SRCH_BUSY_TYPE rid res.id) with _ | (f | busy)
  · rw [hb] at hc
    cases hc
    exact .same
  · rw [hb] at hc
    cases hc
    exact .same
  rw [hb] at hc
  dsimp only at hc
  have hrb := hres busy hb
  by_cases herr : res.flags &&& SCOUTFS_SRCH_COMPACT_FLAG_ERROR ≠ 0
  · rw [if_pos herr] at hc
    exact .update hb (fun p hp => Option.some_inj.mp hp ▸ SrchResultOf.refl busy)
      (commitCompactUpdate_change hc)
  rw [if_neg herr] at hc
  by_cases hdone : res.flags &&& SCOUTFS_SRCH_COMPACT_FLAG_DONE = 0
  · rw [if_pos hdone] at hc
    exact .update hb (fun p hp => Option.some_inj.mp hp ▸ hrb) (commitCompactUpdate_change hc)
  rw [if_neg hdone] at hc
  by_cases hdel : res.flags &&& SCOUTFS_SRCH_COMPACT_FLAG_DELETE = 0
  · -- a finished compaction: commit_files, then on to deleting its inputs
    rw [if_pos hdel] at hc
    have hcommits : SrchCommitsFiles res := ⟨not_not.mp herr, hdone, hdel⟩
    have hfresh : res.out.blocks ≠ 0 →
        SrchFresh root res.out.blkno ∧ ∀ a ∈ res.inputs, a.blkno ≠ res.out.blkno := by
      intro hb0
      refine ⟨hout hcommits hb0, fun a ha => ?_⟩
      rw [hrb.2.1] at ha
      exact (hout hcommits hb0).2 _ busy hb a ha
    rcases hcf : commitFiles ⟨root, faults⟩ res with _ | ⟨ret₁, st₁⟩
    · rw [hcf] at hc
      cases hc
    rw [hcf] at hc
    dsimp only at hc
    rcases commitFiles_root h ((h.compactOK _ busy hb).of_resultOf hrb) hdel hfresh hcf with
      ⟨hret₁, hroot₁⟩ | ⟨rfl, hin, hroot₁⟩
    · rw [if_pos hret₁] at hc
      cases hc
      rw [hroot₁]
      exact .same
    · rw [if_neg (lt_irrefl 0)] at hc
      have hu := commitCompactUpdate_change hc
      rw [hroot₁] at hu
      exact .commit hb hrb hcommits hin (hout hcommits) hu
  · rw [if_neg hdel] at hc
    exact .update hb (fun p hp => by cases hp) (commitCompactUpdate_change hc)

/-- A pending record that a result of the busy record gives takes the busy record's place. -/
theorem SrchInv.requeue (h : SrchInv root) {rid id : UInt64} {busy p : SrchCompactRec}
    (hbusy : root.lookup (initSrchKey SCOUTFS_SRCH_BUSY_TYPE rid id) = some (.compact busy))
    (hfree : initSrchKey SCOUTFS_SRCH_PENDING_TYPE p.id 0 ∉ root) (hinputs : p.inputs = busy.inputs)
    (hok : SrchCompactOK (root.erase (initSrchKey SCOUTFS_SRCH_BUSY_TYPE rid id)) p) :
    SrchInv ((root.insert (initSrchKey SCOUTFS_SRCH_PENDING_TYPE p.id 0) (.compact p)).erase
      (initSrchKey SCOUTFS_SRCH_BUSY_TYPE rid id)) := by
  rw [Finmap.erase_insert_comm _ (initSrchKey_pending_ne_busy _ _ _ _).symm]
  exact h.replace hbusy (fun hmem => hfree (Finmap.mem_erase.mp hmem).2) (.inl rfl) hinputs hok

theorem CommitChange.inv {rid : UInt64} {res : SrchCompactRec} {root' : SrchRoot}
    (h : SrchInv root) (hc : CommitChange root rid res root') : SrchInv root' := by
  cases hc with
  | same => exact h
  | update hbusy hpending hu =>
    cases hu with
    | same => exact h
    | requeue hfree =>
      have hp := hpending _ rfl
      exact h.requeue hbusy hfree hp.2.1 (((h.compactOK _ _ hbusy).of_resultOf hp).erase _)
    | drop => exact h.erase _
  | commit hbusy hres hcommits _ hfresh hu =>
    -- the busy record is still there once the files are replaced
    have hbusy' := (srchCommitRoot_lookup_busy res rid res.id).trans hbusy
    cases hu with
    | same => exact h.srchCommitRoot hfresh
    | requeue hfree =>
      exact (h.srchCommitRoot hfresh).requeue hbusy' hfree
        ((commitCompactDeleting_inputs res).trans hres.2.1)
        ((SrchCompactOK.commitCompactDeleting h hbusy hres hcommits hfresh).erase _)

/-- The update label keeps the file items. -/
theorem UpdateChange.sameFiles {rid id : UInt64} {busy : SrchCompactRec}
    {pending : Option SrchCompactRec} {root' : SrchRoot}
    (hbusy : root.lookup (initSrchKey SCOUTFS_SRCH_BUSY_TYPE rid id) = some (.compact busy))
    (hu : UpdateChange root rid id pending root') : SameFiles root root' := by
  cases hu with
  | same => exact SameFiles.refl root
  | requeue hfree =>
    refine (sameFiles_insert_compact (not_file_of_not_mem hfree)).trans (sameFiles_erase ?_)
    rw [Finmap.lookup_insert_of_ne _ (initSrchKey_pending_ne_busy _ _ _ _).symm]
    exact not_file_of_compact hbusy
  | drop => exact sameFiles_erase (not_file_of_compact hbusy)

end Commit

/-! ### Runs of the server -/

section Runs

variable {root root' : SrchRoot}

/-- How one call may change the file items: not at all, by a rotated log file of a new blkno
under its free key, or by `commit_files` of a finished result of a busy record, which
replaces the input files, all of them file items, by the output. -/
def SrchFilesChange (root root' : SrchRoot) : Prop :=
  SameFiles root root' ∨
    (∃ sfl, initFileKey SCOUTFS_SRCH_LOG_TYPE sfl ∉ root ∧ SrchFresh root sfl.blkno ∧
      SameFiles (root.insert (initFileKey SCOUTFS_SRCH_LOG_TYPE sfl) (.file sfl)) root') ∨
    ∃ rid busy res,
      root.lookup (initSrchKey SCOUTFS_SRCH_BUSY_TYPE rid res.id) = some (.compact busy) ∧
      SrchResultOf busy res ∧ SrchCommitsFiles res ∧
      (∀ sfl ∈ res.inputs,
        root.lookup (initFileKey (srchCompactType res.flags) sfl) = some (.file sfl)) ∧
      SameFiles (srchCommitRoot root res) root'

theorem CommitChange.filesChange {rid : UInt64} {res : SrchCompactRec}
    (hc : CommitChange root rid res root') : SrchFilesChange root root' := by
  cases hc with
  | same => exact .inl (SameFiles.refl root)
  | update hbusy _ hu => exact .inl (hu.sameFiles hbusy)
  | commit hbusy hres hcommits hin _ hu =>
    have hbusy' := (srchCommitRoot_lookup_busy res rid res.id).trans hbusy
    exact .inr (.inr ⟨rid, _, res, hbusy, hres, hcommits, hin, hu.sameFiles hbusy'⟩)

/-- One step keeps the invariant. -/
theorem srchStep_inv (h : SrchInv root) (hs : SrchStep root root') : SrchInv root' := by
  cases hs with
  | rotateLog faults sfl force hfresh =>
    rcases scoutfsSrchRotateLog_root ⟨root, faults⟩ sfl force with hroot | ⟨hk, hroot⟩
    · rw [hroot]
      exact h
    · rw [hroot]
      exact h.insert_file hk (.inl rfl) hfresh
  | getCompact faults rid hget => exact (scoutfsSrchGetCompact_change h hget).inv h
  | updateCompact faults rid sc hres =>
    rcases scoutfsSrchUpdateCompact_root ⟨root, faults⟩ rid sc with hroot | ⟨hk, hroot⟩
    · rw [hroot]
      exact h
    · -- the client's copy takes the busy record's place
      obtain ⟨busy, hbusy⟩ := h.busy_compact hk
      have hr := hres busy hbusy
      rw [hroot, ← Finmap.insert_erase_self]
      exact h.replace hbusy (fun hmem => (Finmap.mem_erase.mp hmem).1 rfl) (.inr ⟨rid, rfl⟩)
        hr.2.1 (((h.compactOK _ _ hbusy).of_resultOf hr).erase _)
  | commitCompact faults rid res hres hout hc =>
    exact (scoutfsSrchCommitCompact_change h hres hout hc).inv h
  | cancelCompact faults rid =>
    rcases scoutfsSrchCancelCompact_root ⟨root, faults⟩ rid with hroot | ⟨k, c, -, hroot⟩
    · rw [hroot]
      exact h
    · rw [hroot]
      exact h.erase k

/-- One step changes the file items only as `SrchFilesChange` says. -/
theorem srchStep_filesChange (h : SrchInv root) (hs : SrchStep root root') :
    SrchFilesChange root root' := by
  cases hs with
  | rotateLog faults sfl force hfresh =>
    rcases scoutfsSrchRotateLog_root ⟨root, faults⟩ sfl force with hroot | ⟨hk, hroot⟩
    · rw [hroot]
      exact .inl (SameFiles.refl root)
    · rw [hroot]
      exact .inr (.inl ⟨sfl, hk, hfresh, SameFiles.refl _⟩)
  | getCompact faults rid hget => exact .inl (scoutfsSrchGetCompact_change h hget).sameFiles
  | updateCompact faults rid sc hres =>
    rcases scoutfsSrchUpdateCompact_root ⟨root, faults⟩ rid sc with hroot | ⟨hk, hroot⟩
    · rw [hroot]
      exact .inl (SameFiles.refl root)
    · obtain ⟨busy, hbusy⟩ := h.busy_compact hk
      rw [hroot]
      exact .inl (sameFiles_insert_compact (not_file_of_compact hbusy))
  | commitCompact faults rid res hres hout hc =>
    exact (scoutfsSrchCommitCompact_change h hres hout hc).filesChange
  | cancelCompact faults rid =>
    rcases scoutfsSrchCancelCompact_root ⟨root, faults⟩ rid with hroot | ⟨k, c, hk, hroot⟩
    · rw [hroot]
      exact .inl (SameFiles.refl root)
    · rw [hroot]
      exact .inl (sameFiles_erase (not_file_of_compact hk))

/-- Every root a run reaches from the empty one has the invariant. -/
theorem srchReachable_inv (hreach : SrchReachable root) : SrchInv root := by
  induction hreach with
  | refl => exact SrchInv.empty
  | tail _ hs ih => exact srchStep_inv ih hs

theorem srchFresh_empty (blkno : UInt64) : SrchFresh ∅ blkno := by
  refine ⟨fun k sfl hk => ?_, fun k sc hk => ?_⟩ <;>
  · rw [Finmap.lookup_empty] at hk
    cases hk

/-- Whether an item leaves the blkno `b` fresh: a file of another blkno, or a record none of
whose inputs has it. -/
def SrchItem.avoids (b : UInt64) : SrchItem → Bool
  | .file sfl => sfl.blkno != b
  | .compact sc => sc.inputs.all fun sfl => sfl.blkno != b

/-- A blkno that every item of the root avoids is fresh. -/
theorem srchFresh_of_avoids {root : SrchRoot} {b : UInt64}
    (h : ∀ x ∈ root.entries, x.2.avoids b = true) : SrchFresh root b := by
  refine ⟨fun k sfl hk => ?_, fun k sc hk sfl hsfl => ?_⟩
  · have := h _ (Finmap.mem_lookup_iff.mp hk)
    simpa [SrchItem.avoids] using this
  · have := h _ (Finmap.mem_lookup_iff.mp hk)
    simp only [SrchItem.avoids, List.all_eq_true, bne_iff_ne] at this
    exact this sfl hsfl

/-- A result made from the one busy record under its key. -/
theorem srchResultOf_of_lookup {root : SrchRoot} {k : ScoutfsKey} {busy res : SrchCompactRec}
    (hl : root.lookup k = some (.compact busy)) (hr : SrchResultOf busy res) :
    ∀ b, root.lookup k = some (.compact b) → SrchResultOf b res := by
  intro b hb
  rw [hl, Option.some.injEq, SrchItem.compact.injEq] at hb
  exact hb ▸ hr

/-- The record `scoutfs_srch_get_compact` makes of the log files 1 to 4. -/
def logCompact : SrchCompactRec :=
  getCompactNew SCOUTFS_SRCH_LOG_TYPE [⟨1, 1⟩, ⟨2, 1⟩, ⟨3, 1⟩, ⟨4, 1⟩]

/-- A client's progress on `logCompact`: the output file 10 and the inputs' positions. -/
def logProgress : SrchCompactRec :=
  ⟨1, SCOUTFS_SRCH_COMPACT_FLAG_LOG, ⟨10, 1⟩,
    [⟨⟨1, 1⟩, 1, 0⟩, ⟨⟨2, 1⟩, 1, 0⟩, ⟨⟨3, 1⟩, 0, 8⟩, ⟨⟨4, 1⟩, 0, 8⟩]⟩

/-- The client's finished result on `logCompact`. -/
def logDone : SrchCompactRec :=
  ⟨1, SCOUTFS_SRCH_COMPACT_FLAG_LOG ||| SCOUTFS_SRCH_COMPACT_FLAG_DONE, ⟨10, 1⟩,
    [⟨⟨1, 1⟩, 1, 0⟩, ⟨⟨2, 1⟩, 1, 0⟩, ⟨⟨3, 1⟩, 1, 0⟩, ⟨⟨4, 1⟩, 1, 0⟩]⟩

/-- A run through a whole log compaction: four log files are rotated in, client 7 gets their
compaction and sends its progress, then its finished result, whose commit replaces the four
log files by the sorted file 10 and queues the deletion of the inputs, which client 8 gets. -/
theorem logCompactRun_reach : ∃ root, SrchReachable root ∧
    root.lookup (initSrchKey SCOUTFS_SRCH_BUSY_TYPE 8 1) =
      some (.compact (commitCompactDeleting logDone)) ∧
    root.lookup (initFileKey SCOUTFS_SRCH_BLOCKS_TYPE ⟨10, 1⟩) = some (.file ⟨10, 1⟩) ∧
    ∀ sfl ∈ logDone.inputs, root.lookup (initFileKey SCOUTFS_SRCH_LOG_TYPE sfl) = none := by
  have r1 : SrchReachable _ := Relation.ReflTransGen.single
    (SrchStep.rotateLog [] ⟨1, 1⟩ true (srchFresh_empty 1))
  have r2 := r1.tail (SrchStep.rotateLog [] ⟨2, 1⟩ true (srchFresh_of_avoids (by decide)))
  have r3 := r2.tail (SrchStep.rotateLog [] ⟨3, 1⟩ true (srchFresh_of_avoids (by decide)))
  have r4 := r3.tail (SrchStep.rotateLog [] ⟨4, 1⟩ true (srchFresh_of_avoids (by decide)))
  have r5 := r4.tail (SrchStep.getCompact [] 7 rfl)
  have r6 := r5.tail (SrchStep.updateCompact [] 7 logProgress
    (@srchResultOf_of_lookup _ _ logCompact _ (by decide) (by unfold SrchResultOf; decide)))
  have r7 := r6.tail (SrchStep.commitCompact [] 7 logDone
    (@srchResultOf_of_lookup _ _ logProgress _ (by decide) (by unfold SrchResultOf; decide))
    (fun _ _ => srchFresh_of_avoids (by decide)) rfl)
  have r8 := r7.tail (SrchStep.getCompact [] 8 rfl)
  exact ⟨_, r8, by decide, by decide, by decide⟩

/-- The srch bookkeeping of every root a run reaches: a srch file is under at most one file key,
no file is an input of two records or twice of one, no input of a record that deletes its
inputs is a file item, and the next call changes the file items only as `SrchFilesChange`
says. -/
theorem srchStep_bookkeeping (hreach : SrchReachable root) :
    (∀ k k' a b, root.lookup k = some (.file a) → root.lookup k' = some (.file b) →
      a.blkno = b.blkno → k = k') ∧
    (∀ k c, root.lookup k = some (.compact c) → (c.inputs.map fun sfl => sfl.blkno).Nodup) ∧
    (∀ k k' c c', root.lookup k = some (.compact c) → root.lookup k' = some (.compact c') →
      k ≠ k' → ∀ a ∈ c.inputs, ∀ b ∈ c'.inputs, a.blkno ≠ b.blkno) ∧
    (∀ k c, root.lookup k = some (.compact c) → c.flags &&& SCOUTFS_SRCH_COMPACT_FLAG_DELETE ≠ 0 →
      ∀ sfl ∈ c.inputs, ∀ k' f, root.lookup k' = some (.file f) → f.blkno ≠ sfl.blkno) ∧
    ∀ root', SrchStep root root' → SrchFilesChange root root' := by
  have h := srchReachable_inv hreach
  exact ⟨h.oneFile, fun k c hk => (h.compactOK k c hk).nodup, h.apart,
    fun k c hk => (h.compactOK k c hk).gone, fun _ hs => srchStep_filesChange h hs⟩

theorem srchStep_bookkeeping_compacted : ∃ root, SrchReachable root ∧
    root.lookup (initSrchKey SCOUTFS_SRCH_BUSY_TYPE 8 1) =
      some (.compact (commitCompactDeleting logDone)) ∧
    root.lookup (initFileKey SCOUTFS_SRCH_BLOCKS_TYPE ⟨10, 1⟩) = some (.file ⟨10, 1⟩) ∧
    (∀ sfl ∈ logDone.inputs, root.lookup (initFileKey SCOUTFS_SRCH_LOG_TYPE sfl) = none) ∧
    ((∀ k k' a b, root.lookup k = some (.file a) → root.lookup k' = some (.file b) →
      a.blkno = b.blkno → k = k') ∧
    (∀ k c, root.lookup k = some (.compact c) → (c.inputs.map fun sfl => sfl.blkno).Nodup) ∧
    (∀ k k' c c', root.lookup k = some (.compact c) → root.lookup k' = some (.compact c') →
      k ≠ k' → ∀ a ∈ c.inputs, ∀ b ∈ c'.inputs, a.blkno ≠ b.blkno) ∧
    (∀ k c, root.lookup k = some (.compact c) → c.flags &&& SCOUTFS_SRCH_COMPACT_FLAG_DELETE ≠ 0 →
      ∀ sfl ∈ c.inputs, ∀ k' f, root.lookup k' = some (.file f) → f.blkno ≠ sfl.blkno) ∧
    ∀ root', SrchStep root root' → SrchFilesChange root root') := by
  obtain ⟨root, hreach, hbusy, hout, hgone⟩ := logCompactRun_reach
  exact ⟨root, hreach, hbusy, hout, hgone, srchStep_bookkeeping hreach⟩

/-- A rotated log file is a new file item, put in from the empty root by a call that is not
`commit_files`. -/
theorem scoutfsSrchRotateLog_adds_file :
    SrchStep ∅ (scoutfsSrchRotateLog ⟨∅, []⟩ ⟨1, 1⟩ true).2.root ∧
      (∅ : SrchRoot).lookup (initFileKey SCOUTFS_SRCH_LOG_TYPE ⟨1, 1⟩) = none ∧
      (scoutfsSrchRotateLog ⟨∅, []⟩ ⟨1, 1⟩ true).2.root.lookup
        (initFileKey SCOUTFS_SRCH_LOG_TYPE ⟨1, 1⟩) = some (.file ⟨1, 1⟩) :=
  ⟨.rotateLog [] ⟨1, 1⟩ true (srchFresh_empty 1), Finmap.lookup_empty _, by decide⟩

end Runs

end Scoutfs
