/-
Moving free space between allocator roots and lists, read on blocks.

`rootBlocks root` are the blocks of the free extents a root stores, and `listBlocks lhead`
the blknos an allocator list holds.  Over the invariant of `AllocSpec`, the operations of
`alloc.c` that move free space move whole blocks and lose or duplicate none:

* `allocMoveExtent_outcome` — one extent move of `scoutfs_alloc_move` moves exactly its
  range from `src` to `dst` (`BlocksMoved`), or nothing;
* `allocMoveLoop_run` — a run of its loop moves the parts it found, those of the exclusive
  and vacant zone searches each in a zone whose bit is set (once the zone numbers of the
  source blocks fit an `int`), and counts them in `moved`;
* `scoutfsAllocMove_blocks` — so a whole move keeps the union of the two roots' blocks and
  moves at most `total` of them, whatever it returns; a return of 0 moved all of `total`, or a
  part of it when the metadata allocator ran low;
* `fillListLoop_blocks`, `emptyListLoop_blocks` — `scoutfs_alloc_fill_list` adds to the
  list exactly the blocks it takes from the root (`BlocksToList`), and
  `scoutfs_alloc_empty_list` adds to the root exactly the blknos it takes off the list
  (`BlocksToRoot`), counted as multisets.

The callbacks of an allocator root fail only with `-ENOMEM`, `-EEXIST` or `-EINVAL`
(`allocExt_failsWith`), so that a move ends in `-ENOENT` only when the source ran dry.
-/
import Scoutfs.AllocSpec
import Scoutfs.ExtBlocks

namespace Scoutfs

/-! ### Errors of the callbacks -/

/-- The errors a change of an allocator root's items fails with. -/
def RootChangeErr (r : Int) : Prop := r = -ENOMEM ∨ r = -EEXIST ∨ r = -EINVAL

section Errors

variable {st st' : AllocState} {r : ℕ} {key : ScoutfsKey} {ret : Int}

theorem scoutfsBtreeInsert_ret (h : scoutfsBtreeInsert st r key = (ret, st')) :
    ret = 0 ∨ ret = -ENOMEM ∨ ret = -EEXIST := by
  unfold scoutfsBtreeInsert at h
  rcases hf : st.takeFault with ⟨fail, st₁⟩
  rw [hf] at h
  dsimp only at h
  split_ifs at h <;> cases h <;> simp

/-- A delete of a present item fails only for want of memory. -/
theorem scoutfsBtreeDelete_ret (h : scoutfsBtreeDelete st r key = (ret, st'))
    (hk : key ∈ (st.roots r).items) : ret = 0 ∨ ret = -ENOMEM := by
  unfold scoutfsBtreeDelete at h
  rcases hf : st.takeFault with ⟨fail, st₁⟩
  have hroots : st₁.roots = st.roots := by rw [← AllocState.takeFault_roots st, hf]
  rw [hf] at h
  dsimp only at h
  rw [hroots] at h
  split_ifs at h <;> cases h <;> simp

theorem allocExtInsert_err {zone : FreeExtentZone} {start len map : UInt64} {flags : UInt8}
    (h : allocExtInsert r zone st start len map flags = some (ret, st')) (hneg : ret < 0) :
    RootChangeErr ret := by
  unfold allocExtInsert at h
  by_cases hmf : map ≠ 0 ∨ flags ≠ 0
  · rw [if_pos hmf] at h
    cases h
    exact .inr (.inr rfl)
  rw [if_neg hmf] at h
  rcases h₁ : scoutfsBtreeInsert st r (initExtKey zone start len) with ⟨ret₁, st₁⟩
  simp only [h₁] at h
  by_cases h0 : ret₁ = 0
  · rw [if_pos h0] at h
    rcases h₂ : scoutfsBtreeInsert st₁ r (initExtKey zone.other start len) with ⟨ret₂, st₂⟩
    simp only [h₂] at h
    by_cases hneg₂ : ret₂ < 0
    · -- the first item is deleted again and the second insert's error returned
      rw [if_pos hneg₂] at h
      rcases h₃ : scoutfsBtreeDelete st₂ r (initExtKey zone start len) with ⟨err, st₃⟩
      simp only [h₃] at h
      split_ifs at h
      cases h
      rcases scoutfsBtreeInsert_ret h₂ with h₂' | h₂' | h₂'
      · exact absurd h₂' hneg₂.ne
      · exact .inl h₂'
      · exact .inr (.inl h₂')
    · rw [if_neg hneg₂] at h
      cases h
      exact absurd hneg hneg₂
  · rw [if_neg h0] at h
    cases h
    rcases scoutfsBtreeInsert_ret h₁ with h₁' | h₁' | h₁'
    · exact absurd h₁' h0
    · exact .inl h₁'
    · exact .inr (.inl h₁')

/-- Removing a stored extent fails only for want of memory: both of its items are there. -/
theorem allocExtRemove_err {zone : FreeExtentZone} {base : ℕ → ScoutfsAllocRoot}
    {E : Finset ScoutfsExtent} {e : ScoutfsExtent} (hs : RootAt r base st E) (he : e ∈ E)
    (h : allocExtRemove r zone st e.start e.len e.map e.flags = some (ret, st')) (hneg : ret < 0) :
    ret = -ENOMEM := by
  have hl := hs.1.nonzero e he
  have hfree := hs.1.free e he
  have hk : ∀ z, extKey z e ∈ (st.roots r).items := fun z =>
    (hs.1.extKey_mem_iff z hl hfree).mpr he
  have hne : extKey zone.other e ≠ extKey zone e := fun heq => by
    cases zone <;> simp [extKey_eq_iff hl hfree hl hfree, FreeExtentZone.other] at heq
  unfold allocExtRemove at h
  rcases h₁ : scoutfsBtreeDelete st r (initExtKey zone e.start e.len) with ⟨ret₁, st₁⟩
  simp only [h₁] at h
  rcases scoutfsBtreeDelete_ret h₁ (hk zone) with rfl | rfl
  · rw [if_pos rfl] at h
    -- the other item is still there after the first delete
    obtain ⟨-, -, hc₁⟩ := scoutfsBtreeDelete_step h₁
    have hk₂ : extKey zone.other e ∈ (st₁.roots r).items := by
      rcases hc₁ with ⟨hlt, -⟩ | ⟨-, -, hi₁⟩
      · exact absurd hlt (lt_irrefl 0)
      · rw [hi₁]
        exact Finset.mem_erase.mpr ⟨hne, hk zone.other⟩
    rcases h₂ : scoutfsBtreeDelete st₁ r (initExtKey zone.other e.start e.len) with ⟨ret₂, st₂⟩
    simp only [h₂] at h
    rcases scoutfsBtreeDelete_ret h₂ hk₂ with rfl | rfl
    · rw [if_neg (lt_irrefl 0)] at h
      cases h
      exact absurd hneg (lt_irrefl 0)
    · rw [if_pos (by decide)] at h
      rcases h₃ : scoutfsBtreeInsert st₂ r (initExtKey zone e.start e.len) with ⟨err, st₃⟩
      simp only [h₃] at h
      split_ifs at h
      cases h
      rfl
  · rw [if_neg (by decide)] at h
    cases h
    rfl

/-- **The allocator callbacks fail with `-ENOMEM`, `-EEXIST` or `-EINVAL`**, never with
`-ENOENT`. -/
theorem allocExt_failsWith (zone : FreeExtentZone) (base : ℕ → ScoutfsAllocRoot) :
    FailsWith (allocExtOps r zone) (RootAt r base) RootChangeErr := by
  intro st E e ins ret st' hs _ hmem h hneg
  cases ins
  · exact .inl (allocExtRemove_err hs (hmem rfl) h hneg)
  · exact allocExtInsert_err h hneg

end Errors

/-! ### Blocks of a root -/

/-- The blocks of the free extents root `root` stores. -/
def rootBlocks (root : ScoutfsAllocRoot) : Finset ℕ := freeBlocks (zoneExtents root .blkno)

theorem RootHolds.rootBlocks_eq {root : ScoutfsAllocRoot} {E : Finset ScoutfsExtent}
    (h : RootHolds root E) : rootBlocks root = freeBlocks E := by
  rw [rootBlocks, zoneExtents_eq h]

/-- `st'` comes from `st` by moving the blocks `M`, all free in `src`, to `dst`; every
other root is as it was. -/
structure BlocksMoved (st st' : AllocState) (dst src : ℕ) (M : Finset ℕ) : Prop where
  sub : M ⊆ rootBlocks (st.roots src)
  src_eq : rootBlocks (st'.roots src) = rootBlocks (st.roots src) \ M
  dst_eq : rootBlocks (st'.roots dst) = rootBlocks (st.roots dst) ∪ M
  frame : ∀ r, r ≠ dst → r ≠ src → st'.roots r = st.roots r

namespace BlocksMoved

variable {st₁ st₂ st₃ : AllocState} {dst src : ℕ} {M M' : Finset ℕ}

/-- Nothing moved: both roots hold the blocks they held. -/
theorem none (hsrc : rootBlocks (st₂.roots src) = rootBlocks (st₁.roots src))
    (hdst : rootBlocks (st₂.roots dst) = rootBlocks (st₁.roots dst))
    (hframe : ∀ r, r ≠ dst → r ≠ src → st₂.roots r = st₁.roots r) :
    BlocksMoved st₁ st₂ dst src ∅ :=
  ⟨Finset.empty_subset _, by rw [hsrc, Finset.sdiff_empty], by rw [hdst, Finset.union_empty],
    hframe⟩

/-- Only the roots were read: a state with the same roots moved nothing. -/
theorem of_roots (h : st₂.roots = st₁.roots) : BlocksMoved st₁ st₂ dst src ∅ :=
  none (by rw [h]) (by rw [h]) fun _ _ _ => by rw [h]

theorem trans (h₁ : BlocksMoved st₁ st₂ dst src M) (h₂ : BlocksMoved st₂ st₃ dst src M') :
    BlocksMoved st₁ st₃ dst src (M ∪ M') := by
  refine ⟨Finset.union_subset h₁.sub ?_, ?_, ?_, fun r hd hs => ?_⟩
  · exact h₂.sub.trans (h₁.src_eq ▸ Finset.sdiff_subset)
  · rw [h₂.src_eq, h₁.src_eq, sdiff_sdiff_left, Finset.sup_eq_union]
  · rw [h₂.dst_eq, h₁.dst_eq, Finset.union_assoc]
  · rw [h₂.frame r hd hs, h₁.frame r hd hs]

/-- The blocks of the two roots together stay the same. -/
theorem union_eq (h : BlocksMoved st₁ st₂ dst src M) :
    rootBlocks (st₂.roots src) ∪ rootBlocks (st₂.roots dst) =
      rootBlocks (st₁.roots src) ∪ rootBlocks (st₁.roots dst) := by
  rw [h.src_eq, h.dst_eq, ← Finset.union_assoc, Finset.union_right_comm,
    Finset.sdiff_union_of_subset h.sub]

/-- Roots that shared no block still share none. -/
theorem disjoint (h : BlocksMoved st₁ st₂ dst src M)
    (hd : Disjoint (rootBlocks (st₁.roots src)) (rootBlocks (st₁.roots dst))) :
    Disjoint (rootBlocks (st₂.roots src)) (rootBlocks (st₂.roots dst)) := by
  rw [h.src_eq, h.dst_eq]
  exact Finset.disjoint_union_right.mpr
    ⟨Finset.disjoint_of_subset_left Finset.sdiff_subset hd, Finset.sdiff_disjoint⟩

end BlocksMoved


/-! ### The extent helpers on one root -/

/-- A helper that worked on root `r` ended in `st'`: the invariant holds, the other roots are
as they were, and root `r` holds the blocks `B`. -/
structure RootResult (st st' : AllocState) (r : ℕ) (B : Finset ℕ) : Prop where
  inv : AllocInv st'
  frame : ∀ r', r' ≠ r → st'.roots r' = st.roots r'
  blocks : rootBlocks (st'.roots r) = B

theorem MovePart.rangeBlocks_subset {E : Finset ScoutfsExtent} {found : ScoutfsExtent}
    {start len : UInt64} (hp : MovePart E found start len) :
    rangeBlocks start len ⊆ freeBlocks E := fun x hx => by
  refine extBlocks_subset_freeBlocks hp.mem (mem_extBlocks.mpr ?_)
  rw [mem_rangeBlocks] at hx
  have := hp.start_ge
  have := hp.end_le
  omega

section Helpers

variable {st st' : AllocState} {r : ℕ} {ret : Int} {E : Finset ScoutfsExtent}

theorem AllocInv.of_rootAt (h : AllocInv st) {E' : Finset ScoutfsExtent} (hE' : FreeSet E')
    (hs : RootAt r st.roots st' E') : AllocInv st' := by
  intro r'
  by_cases hr : r' = r
  · subst hr
    exact ⟨E', hs.1, hE'⟩
  · rw [hs.2 r' hr]
    exact h r'

/-- The outcome of a planned helper on root `r`, read on the root's blocks. -/
theorem rootResult_of_planOutcome (h : AllocInv st) (hR : RootHolds (st.roots r) E)
    (hE : FreeSet E) {Q : Int → Prop} {P : Finset ScoutfsExtent → Prop}
    (hout : PlanOutcome (RootAt r st.roots) Q E P (some (ret, st'))) :
    ret < 0 ∧ Q ret ∧ RootResult st st' r (rootBlocks (st.roots r)) ∨
      ret = 0 ∧ ∃ E', P E' ∧ RootResult st st' r (freeBlocks E') := by
  rcases hout with ⟨hr, hq, hs⟩ | ⟨hr, E', hE', hP, hs⟩
  · exact .inl ⟨hr, hq, h.of_rootAt hE hs, hs.2, by rw [hs.1.rootBlocks_eq, hR.rootBlocks_eq]⟩
  · exact .inr ⟨hr, E', hP, h.of_rootAt hE' hs, hs.2, hs.1.rootBlocks_eq⟩

/-- `scoutfs_ext_insert` into root `r`: it fails with the root's blocks as they were, or adds
exactly the range, which held none of them. -/
theorem extInsert_result (h : AllocInv st) {start len : UInt64}
    (hv : ExtValid ⟨start, len, 0, 0⟩)
    (hres : scoutfsExtInsert (allocExtOps r .blkno) st start len 0 0 = some (ret, st')) :
    ret < 0 ∧ RootChangeErr ret ∧ RootResult st st' r (rootBlocks (st.roots r)) ∨
      ret = 0 ∧ Disjoint (rootBlocks (st.roots r)) (rangeBlocks start len) ∧
        RootResult st st' r (rootBlocks (st.roots r) ∪ rangeBlocks start len) := by
  obtain ⟨E, hR, hE⟩ := h r
  have hout := extInsert_planOutcome (allocExtInsert_lawful r .blkno st.roots)
    (allocExtRemove_lawful r .blkno st.roots) (allocExtNext_blkno_lawful r st.roots)
    (allocExt_failsWith .blkno st.roots) ⟨hR, fun _ _ => rfl⟩ hE hv
  rw [hres] at hout
  rcases rootResult_of_planOutcome h hR hE hout with ⟨hr, hq, hres'⟩ | ⟨hr, E', ⟨hd, hb⟩, hres'⟩
  · -- an overlap with a held extent is `-EINVAL` as well
    exact .inl ⟨hr, hq.elim id fun he => .inr (.inr he), hres'⟩
  · rw [hR.rootBlocks_eq, ← hb]
    exact .inr ⟨hr, hd, hres'⟩

/-- `scoutfs_ext_remove` from root `r` of a part of a stored extent: it fails with the root's
blocks as they were, or takes out exactly the part. -/
theorem extRemove_result (h : AllocInv st) (hR : RootHolds (st.roots r) E) (hE : FreeSet E)
    {found : ScoutfsExtent} {start len : UInt64} (hp : MovePart E found start len)
    (hres : scoutfsExtRemove (allocExtOps r .blkno) st start len = some (ret, st')) :
    ret < 0 ∧ RootChangeErr ret ∧ RootResult st st' r (rootBlocks (st.roots r)) ∨
      ret = 0 ∧ RootResult st st' r (rootBlocks (st.roots r) \ rangeBlocks start len) := by
  have hv := hp.extValid hE
  have hout := extRemove_planOutcome (allocExtInsert_lawful r .blkno st.roots)
    (allocExtRemove_lawful r .blkno st.roots) (allocExtNext_blkno_lawful r st.roots)
    (allocExt_failsWith .blkno st.roots) ⟨hR, fun _ _ => rfl⟩ hE hv.1 hv.2 hp.mem
    ⟨hp.start_ge, hp.end_le⟩
  rw [hres] at hout
  rcases rootResult_of_planOutcome h hR hE hout with ⟨hr, hq, hres'⟩ | ⟨hr, E', ⟨-, hb⟩, hres'⟩
  · exact .inl ⟨hr, hq, hres'⟩
  · rw [hR.rootBlocks_eq, ← hb]
    exact .inr ⟨hr, hres'⟩

/-- `scoutfs_ext_alloc` from the order index of root `r`: it fails with the root's blocks as
they were, or takes out exactly the blocks it hands out. -/
theorem extAlloc_result (h : AllocInv st) {start len count : UInt64} {ext : ScoutfsExtent}
    (hres : scoutfsExtAlloc (allocExtOps r .order) st start len count = some (ret, st', ext)) :
    ret < 0 ∧ RootResult st st' r (rootBlocks (st.roots r)) ∨
      ret = 0 ∧ extBlocks ext ⊆ rootBlocks (st.roots r) ∧
        RootResult st st' r (rootBlocks (st.roots r) \ extBlocks ext) := by
  obtain ⟨E, hR, hE⟩ := h r
  rw [hR.rootBlocks_eq]
  rcases extAlloc_outcome (allocExtInsert_lawful r .order st.roots)
      (allocExtRemove_lawful r .order st.roots) (allocExtNext_order_member r st.roots)
      ⟨hR, fun _ _ => rfl⟩ hE hres with ⟨hr, hs⟩ | ⟨hr, hsub, E', hE', hs, hb⟩
  · exact .inl ⟨hr, h.of_rootAt hE hs, hs.2, hs.1.rootBlocks_eq⟩
  · exact .inr ⟨hr, hsub, h.of_rootAt hE' hs, hs.2, by rw [hs.1.rootBlocks_eq, hb]⟩

end Helpers

/-! ### One extent move -/

/-- How one extent move of `scoutfs_alloc_move`, of `[start, start + len)` after `moved`
blocks, ends. -/
inductive MoveOutcome (st : AllocState) (dst src : ℕ) (moved start len : UInt64) :
    (Int × AllocState) ⊕ AllocState → Prop
  /-- the metadata budget of the transaction is spent -/
  | budget {st' : AllocState} : BlocksMoved st st' dst src ∅ →
      MoveOutcome st dst src moved start len (.inl (-EINPROGRESS, st'))
  /-- the metadata allocator runs low: `-ENOSPC` only when nothing moved before -/
  | low {st' : AllocState} : BlocksMoved st st' dst src ∅ →
      MoveOutcome st dst src moved start len (.inl (if moved = 0 then -ENOSPC else 0, st'))
  /-- a change of the items failed and was undone -/
  | failed {ret : Int} {st' : AllocState} : ret < 0 → RootChangeErr ret →
      BlocksMoved st st' dst src ∅ → MoveOutcome st dst src moved start len (.inl (ret, st'))
  /-- the range moved from `src` to `dst` -/
  | moved {st' : AllocState} : BlocksMoved st st' dst src (rangeBlocks start len) →
      MoveOutcome st dst src moved start len (.inr st')

/-- **One extent move of `scoutfs_alloc_move`**, of a part of a free extent of `src` into a
root sharing no block with `src`: it moves exactly the part, or nothing. -/
theorem allocMoveExtent_outcome {st : AllocState} {dst src : ℕ} {metaBudget moved : UInt64}
    {found : ScoutfsExtent} {start len : UInt64} {E : Finset ScoutfsExtent}
    {res : (Int × AllocState) ⊕ AllocState} (h : AllocInv st)
    (hR : RootHolds (st.roots src) E) (hE : FreeSet E) (hp : MovePart E found start len)
    (hdisj : Disjoint (rootBlocks (st.roots src)) (rootBlocks (st.roots dst)))
    (hres : allocMoveExtent st dst src metaBudget moved found start len = some res) :
    MoveOutcome st dst src moved start len res := by
  have hv := hp.extValid hE
  obtain ⟨hmap, hflags⟩ := hE.free found hp.mem
  have hsub : rangeBlocks start len ⊆ rootBlocks (st.roots src) :=
    hR.rootBlocks_eq ▸ hp.rangeBlocks_subset
  -- the part is free in `src` and not empty, so `dst`, sharing no block with `src`, is
  -- another root
  have hne : dst ≠ src := by
    rintro rfl
    have hl : 0 < len.toNat := hv.1
    have hstart : start.toNat ∈ rangeBlocks start len := mem_rangeBlocks.mpr ⟨le_refl _, by omega⟩
    exact Finset.disjoint_left.mp hdisj (hsub hstart) (hsub hstart)
  unfold allocMoveExtent at hres
  -- the metadata budget checks only read outcomes
  rcases hs₁ : (if metaBudget ≠ 0 then st.takeFault else (false, st)) with ⟨lowSince, st₁⟩
  have hr₁ : st₁.roots = st.roots := by
    split_ifs at hs₁
    · rw [← AllocState.takeFault_roots st, hs₁]
    · cases hs₁
      rfl
  rw [hs₁] at hres
  dsimp only at hres
  by_cases hls : lowSince = true
  · rw [if_pos hls] at hres
    cases hres
    exact .budget (.of_roots hr₁)
  rw [if_neg hls] at hres
  rcases hs₂ : st₁.takeFault with ⟨low, st₂⟩
  have hr₂ : st₂.roots = st.roots := by rw [← hr₁, ← AllocState.takeFault_roots st₁, hs₂]
  rw [hs₂] at hres
  dsimp only at hres
  by_cases hlow : low = true
  · rw [if_pos hlow] at hres
    cases hres
    exact .low (.of_roots hr₂)
  -- the moved part carries the found extent's mapping and flags: none
  rw [if_neg hlow, if_neg (not_not.mpr hmap), hflags] at hres
  have hR₂ : RootHolds (st₂.roots src) E := by
    rw [hr₂]
    exact hR
  rcases hr : scoutfsExtRemove (allocExtOps src .blkno) st₂ start len with _ | ⟨ret₃, st₃⟩ <;>
    rw [hr] at hres
  · cases hres
  dsimp only at hres
  rcases extRemove_result (h.of_roots hr₂) hR₂ hE hp hr with
    ⟨hneg₃, herr₃, hres₃⟩ | ⟨rfl, hres₃⟩
  · -- the remove failed: nothing moved
    rw [if_pos hneg₃] at hres
    cases hres
    refine .failed hneg₃ herr₃ (.none ?_ ?_ fun r _ hs => ?_)
    · rw [hres₃.blocks, hr₂]
    · rw [hres₃.frame dst hne, hr₂]
    · rw [hres₃.frame r hs, hr₂]
  rw [if_neg (lt_irrefl 0)] at hres
  -- `src` lost the part, and `dst` is as it was
  have hsrc₃ : rootBlocks (st₃.roots src) = rootBlocks (st.roots src) \ rangeBlocks start len := by
    rw [hres₃.blocks, hr₂]
  have hdst₃ : rootBlocks (st₃.roots dst) = rootBlocks (st.roots dst) := by
    rw [hres₃.frame dst hne, hr₂]
  have hframe₃ : ∀ r, r ≠ src → st₃.roots r = st.roots r := fun r hs => by
    rw [hres₃.frame r hs, hr₂]
  rcases hi : scoutfsExtInsert (allocExtOps dst .blkno) st₃ start len 0 0 with
    _ | ⟨ret₄, st₄⟩ <;> rw [hi] at hres
  · cases hres
  dsimp only at hres
  rcases extInsert_result hres₃.inv hv hi with ⟨hneg₄, herr₄, hres₄⟩ | ⟨rfl, -, hres₄⟩
  · -- the insert into `dst` failed: the part goes back into `src`
    rw [if_pos hneg₄] at hres
    rcases hb : scoutfsExtInsert (allocExtOps src .blkno) st₄ start len 0 0 with
      _ | ⟨err, st₅⟩ <;> rw [hb] at hres
    · cases hres
    dsimp only at hres
    by_cases herr : err ≠ 0
    · rw [if_pos herr] at hres
      cases hres
    rw [if_neg herr] at hres
    cases hres
    rcases extInsert_result hres₄.inv hv hb with ⟨hneg₅, -, -⟩ | ⟨-, -, hres₅⟩
    · exact absurd (not_not.mp herr) hneg₅.ne
    refine .failed hneg₄ herr₄ (.none ?_ ?_ fun r hd hs => ?_)
    · rw [hres₅.blocks, hres₄.frame src hne.symm, hsrc₃, Finset.sdiff_union_of_subset hsub]
    · rw [hres₅.frame dst hne, hres₄.blocks, hdst₃]
    · rw [hres₅.frame r hs, hres₄.frame r hd, hframe₃ r hs]
  · rw [if_neg (lt_irrefl 0)] at hres
    cases hres
    refine .moved ⟨hsub, ?_, ?_, fun r hd hs => ?_⟩
    · rw [hres₄.frame src hne.symm, hsrc₃]
    · rw [hres₄.blocks, hdst₃]
    · rw [hres₄.frame r hd, hframe₃ r hs]

/-! ### Zones -/

/-- The extent `e` has a block in a zone whose bit is set in `zones`. -/
def InZone (zones : ℕ → Bool) (zoneBlocks : UInt64) (e : ScoutfsExtent) : Prop :=
  ∃ b ∈ extBlocks e, b / zoneBlocks.toNat < SCOUTFS_DATA_ALLOC_MAX_ZONES ∧
    zones (b / zoneBlocks.toNat) = true

theorem findNextBit_spec {zones : ℕ → Bool} {size offset : ℕ}
    (h : findNextBit zones size offset < size) :
    offset ≤ findNextBit zones size offset ∧ zones (findNextBit zones size offset) = true := by
  unfold findNextBit at h ⊢
  rcases hf : (List.range size).find? (fun i => offset ≤ i && zones i) with _ | i
  · rw [hf, Option.getD_none] at h
    exact absurd h (lt_irrefl _)
  · rw [Option.getD_some]
    simpa using List.find?_some hf

theorem u64ToInt_of_lt {x : UInt64} (h : x.toNat < 2 ^ 31) : u64ToInt x = x.toNat := by
  unfold u64ToInt
  dsimp only
  rw [Nat.mod_eq_of_lt (by omega), if_pos h]

theorem intToULong_natCast {n : ℕ} (h : n < 2 ^ 64) : intToULong n = n := by
  unfold intToULong
  rw [Int.emod_eq_of_lt (Int.natCast_nonneg n) (by omega), Int.toNat_natCast]

/-- Once the extent's first zone number fits an `int`, the zone `first_extent_zone` picks is
at or after it and has its bit set. -/
theorem firstExtentZone_spec {ext : ScoutfsExtent} {zones : ℕ → Bool} {zoneBlocks : UInt64}
    (hfit : ext.start.toNat / zoneBlocks.toNat < 2 ^ 31)
    (h : firstExtentZone ext zones zoneBlocks < SCOUTFS_DATA_ALLOC_MAX_ZONES) :
    ext.start.toNat / zoneBlocks.toNat ≤ firstExtentZone ext zones zoneBlocks ∧
      zones (firstExtentZone ext zones zoneBlocks) = true := by
  have hfirst : u64ToInt (ext.start / zoneBlocks) =
      ((ext.start.toNat / zoneBlocks.toNat : ℕ) : Int) := by
    rw [u64ToInt_of_lt (by rw [UInt64.toNat_div]; exact hfit), UInt64.toNat_div]
  unfold firstExtentZone at h ⊢
  dsimp only at h ⊢
  rw [hfirst, intToULong_natCast (by omega)] at h ⊢
  split_ifs at h ⊢
  · exact findNextBit_spec h
  · exact absurd h (lt_irrefl _)

/-- The part the zone search hands out from the zone `first_extent_zone` picks starts in that
zone, whose bit is set. -/
theorem inZone_part {found : ScoutfsExtent} {zones : ℕ → Bool} {zoneBlocks n : UInt64}
    (hv : ExtValid found) (hzb : zoneBlocks ≠ 0)
    (hfit : found.start.toNat / zoneBlocks.toNat < 2 ^ 31)
    (hnr : firstExtentZone found zones zoneBlocks < SCOUTFS_DATA_ALLOC_MAX_ZONES)
    (hpos : 0 < n.toNat) :
    InZone zones zoneBlocks
      ⟨max (UInt64.ofNat (firstExtentZone found zones zoneBlocks) * zoneBlocks) found.start,
        n, 0, 0⟩ := by
  obtain ⟨hge, hbit⟩ := firstExtentZone_spec hfit hnr
  have hstart := firstExtentZone_start_toNat hv hnr
  have hzb' : 0 < zoneBlocks.toNat :=
    Nat.pos_of_ne_zero fun h0 => hzb (UInt64.toNat_inj.mp (h0.trans UInt64.toNat_zero.symm))
  set nr := firstExtentZone found zones zoneBlocks
  -- the part's first block lies in zone `nr`: at or after the zone's start, and before the
  -- next zone, which also starts after the found extent's first block
  have hzone : max (nr * zoneBlocks.toNat) found.start.toNat / zoneBlocks.toNat = nr := by
    apply le_antisymm
    · have hfound : found.start.toNat < (nr + 1) * zoneBlocks.toNat :=
        (Nat.div_lt_iff_lt_mul hzb').mp (by omega)
      have hnext : nr * zoneBlocks.toNat < (nr + 1) * zoneBlocks.toNat := by
        rw [Nat.succ_mul]
        omega
      exact Nat.lt_succ_iff.mp ((Nat.div_lt_iff_lt_mul hzb').mpr (max_lt hnext hfound))
    · exact (Nat.le_div_iff_mul_le hzb').mpr (le_max_left _ _)
  refine ⟨_, mem_extBlocks.mpr ⟨le_refl _, Nat.lt_add_of_pos_right hpos⟩, ?_, ?_⟩
  · show (max (UInt64.ofNat nr * zoneBlocks) found.start).toNat / zoneBlocks.toNat < _
    rw [hstart, hzone]
    exact hnr
  · show zones ((max (UInt64.ofNat nr * zoneBlocks) found.start).toNat / zoneBlocks.toNat) = true
    rw [hstart, hzone]
    exact hbit

/-- **The zone search hands out parts in zones whose bits are set**, once the zone numbers of
the root's blocks fit an `int`. -/
theorem findZoneExtent_inZone {fuel : ℕ} {st : AllocState} {root : ℕ} {zones : ℕ → Bool}
    {zoneBlocks count : UInt64} {found : ScoutfsExtent} {start n : UInt64}
    {E : Finset ScoutfsExtent} (hR : RootHolds (st.roots root) E) (hE : FreeSet E)
    (hzb : zoneBlocks ≠ 0) (hc : 0 < count.toNat)
    (hfit : ∀ b ∈ rootBlocks (st.roots root), b / zoneBlocks.toNat < 2 ^ 31)
    (hres : findZoneExtent fuel st root zones zoneBlocks count = some (.ok (found, start, n))) :
    InZone zones zoneBlocks ⟨start, n, 0, 0⟩ := by
  obtain ⟨⟨s, l, hneg, rfl⟩, hnr, rfl, rfl⟩ := findZoneExtent_result hres
  have hmem := allocExtNext_order_mem hR s l hneg
  have hv := hE.valid _ hmem
  have hp := findZoneExtent_part_of_found hE hmem hc hnr
  refine inZone_part hv hzb (hfit _ ?_) hnr hp.pos
  rw [hR.rootBlocks_eq]
  exact extBlocks_subset_freeBlocks hmem (mem_extBlocks.mpr ⟨le_refl _, by have := hv.1; omega⟩)

/-! ### Runs of `scoutfs_alloc_move` -/

theorem card_rangeBlocks (start len : UInt64) : (rangeBlocks start len).card = len.toNat := by
  rw [rangeBlocks, Nat.card_Ico, Nat.add_sub_cancel_left]

theorem val_rangeBlocks (start len : UInt64) :
    (rangeBlocks start len).val = (List.range' start.toNat len.toNat : Multiset ℕ) := by
  rw [rangeBlocks, Nat.Ico_eq_range', Nat.add_sub_cancel_left]

/-- The blocks of the parts a run moved. -/
def partsBlocks (parts : List ScoutfsExtent) : Finset ℕ := freeBlocks parts.toFinset

theorem partsBlocks_nil : partsBlocks [] = ∅ := by
  rw [partsBlocks, List.toFinset_nil, freeBlocks_empty]

theorem partsBlocks_cons (e : ScoutfsExtent) (parts : List ScoutfsExtent) :
    partsBlocks (e :: parts) = extBlocks e ∪ partsBlocks parts := by
  rw [partsBlocks, List.toFinset_cons, freeBlocks_insert, partsBlocks]

/-- The zone numbers of root `src`'s free blocks fit the `int`s of `first_extent_zone`. -/
def ZonesFit (st : AllocState) (src : ℕ) (zoneBlocks : UInt64) : Prop :=
  ∀ b ∈ rootBlocks (st.roots src), b / zoneBlocks.toNat < 2 ^ 31

theorem BlocksMoved.zonesFit {st st' : AllocState} {dst src : ℕ} {M : Finset ℕ}
    {zoneBlocks : UInt64} (h : BlocksMoved st st' dst src M) (hf : ZonesFit st src zoneBlocks) :
    ZonesFit st' src zoneBlocks := fun b hb => by
  rw [h.src_eq] at hb
  exact hf b (Finset.mem_sdiff.mp hb).1

/-- A part taken by the search of the zones `pass`: that search was given zones, and the part
is in one of them once `fits` holds. -/
def TakenIn (pass : Option (ℕ → Bool)) (fits : Prop) (zoneBlocks : UInt64)
    (e : ScoutfsExtent) : Prop :=
  ∃ zones, pass = some zones ∧ (fits → InZone zones zoneBlocks e)

theorem TakenIn.mono {pass : Option (ℕ → Bool)} {fits fits' : Prop} {zoneBlocks : UInt64}
    {e : ScoutfsExtent} (h : TakenIn pass fits' zoneBlocks e) (hf : fits → fits') :
    TakenIn pass fits zoneBlocks e := by
  obtain ⟨zones, hp, hz⟩ := h
  exact ⟨zones, hp, fun hfit => hz (hf hfit)⟩

theorem not_takenIn_none {fits : Prop} {zoneBlocks : UInt64} {e : ScoutfsExtent} :
    ¬TakenIn none fits zoneBlocks e := by
  rintro ⟨zones, hp, -⟩
  cases hp

theorem RootChangeErr.ne_enoent {r : Int} (h : RootChangeErr r) : r ≠ -ENOENT := by
  rcases h with rfl | rfl | rfl <;> decide

/-- How a run of the move loop that has counted `n` of `total` blocks ends with `ret`, its
source holding `left`: with 0 once all `total` moved, or when it stopped early after moving
some; with `-ENOENT` only when the source ran dry short of `total`. -/
structure MoveEnd (total n : ℕ) (ret : Int) (left : Finset ℕ) : Prop where
  le : n ≤ total
  of_zero : ret = 0 → n = total ∨ 0 < n ∧ n < total
  of_enoent : ret = -ENOENT → left = ∅ ∧ n < total

/-- What a run of the loop of `scoutfs_alloc_move` after `moved` blocks did: it moved the
parts `tx` found in the exclusive zones, then `tv` in the vacant zones, then `ta` anywhere,
from `src` to `dst`, and ended as `MoveEnd` says of the count. -/
structure MoveRun (st st' : AllocState) (dst src : ℕ) (exclusive vacant : Option (ℕ → Bool))
    (zoneBlocks total moved : UInt64) (ret : Int) (tx tv ta : List ScoutfsExtent) : Prop where
  blocks : BlocksMoved st st' dst src (partsBlocks (tx ++ tv ++ ta))
  exclusive_zone : ∀ e ∈ tx, TakenIn exclusive (ZonesFit st src zoneBlocks) zoneBlocks e
  vacant_zone : ∀ e ∈ tv, TakenIn vacant (ZonesFit st src zoneBlocks) zoneBlocks e
  ends : MoveEnd total.toNat (moved.toNat + (partsBlocks (tx ++ tv ++ ta)).card) ret
    (rootBlocks (st'.roots src))

namespace MoveRun

variable {st st₁ st' : AllocState} {dst src : ℕ} {exclusive vacant : Option (ℕ → Bool)}
  {zoneBlocks total moved : UInt64} {ret : Int} {tx tv ta : List ScoutfsExtent}

/-- A run that moved nothing. -/
theorem stop (hb : BlocksMoved st st' dst src ∅)
    (hend : MoveEnd total.toNat moved.toNat ret (rootBlocks (st'.roots src))) :
    MoveRun st st' dst src exclusive vacant zoneBlocks total moved ret [] [] [] := by
  have hnil : partsBlocks ([] ++ [] ++ []) = ∅ := partsBlocks_nil
  refine ⟨?_, (fun e he => by cases he), (fun e he => by cases he), ?_⟩
  · rw [hnil]
    exact hb
  · rw [hnil, Finset.card_empty, Nat.add_zero]
    exact hend

theorem tx_nil (h : MoveRun st st' dst src none vacant zoneBlocks total moved ret tx tv ta) :
    tx = [] :=
  List.eq_nil_iff_forall_not_mem.mpr fun e he => not_takenIn_none (h.exclusive_zone e he)

theorem tv_nil (h : MoveRun st st' dst src exclusive none zoneBlocks total moved ret tx tv ta) :
    tv = [] :=
  List.eq_nil_iff_forall_not_mem.mpr fun e he => not_takenIn_none (h.vacant_zone e he)

/-- The run after a search of the exclusive zones that found nothing. -/
theorem drop_exclusive
    (h : MoveRun st st' dst src none vacant zoneBlocks total moved ret tx tv ta) :
    MoveRun st st' dst src exclusive vacant zoneBlocks total moved ret [] tv ta := by
  obtain rfl := h.tx_nil
  exact ⟨h.blocks, (fun e he => by cases he), h.vacant_zone, h.ends⟩

/-- The run after a search of the vacant zones that found nothing. -/
theorem drop_vacant (h : MoveRun st st' dst src none none zoneBlocks total moved ret tx tv ta) :
    MoveRun st st' dst src none vacant zoneBlocks total moved ret [] [] ta := by
  obtain rfl := h.tx_nil
  obtain rfl := h.tv_nil
  exact ⟨h.blocks, (fun e he => by cases he), (fun e he => by cases he), h.ends⟩

/-- A move of the part `[start, start + len)` before a run. -/
theorem cons {start len : UInt64} (hmove : BlocksMoved st st₁ dst src (rangeBlocks start len))
    (hlen : (moved + len).toNat = moved.toNat + len.toNat)
    (h : MoveRun st₁ st' dst src exclusive vacant zoneBlocks total (moved + len) ret tx tv ta)
    {tx' tv' ta' : List ScoutfsExtent}
    (hcat : tx' ++ tv' ++ ta' = ⟨start, len, 0, 0⟩ :: (tx ++ tv ++ ta))
    (hx : ∀ e ∈ tx', TakenIn exclusive (ZonesFit st src zoneBlocks) zoneBlocks e)
    (hv : ∀ e ∈ tv', TakenIn vacant (ZonesFit st src zoneBlocks) zoneBlocks e) :
    MoveRun st st' dst src exclusive vacant zoneBlocks total moved ret tx' tv' ta' := by
  have hparts : partsBlocks (tx' ++ tv' ++ ta') =
      rangeBlocks start len ∪ partsBlocks (tx ++ tv ++ ta) := by
    rw [hcat, partsBlocks_cons]
    rfl
  -- the rest of the run moved blocks left in `src`, none of the part's
  have hdisj : Disjoint (rangeBlocks start len) (partsBlocks (tx ++ tv ++ ta)) := by
    have hsub := h.blocks.sub
    rw [hmove.src_eq] at hsub
    exact Finset.disjoint_of_subset_right hsub Finset.disjoint_sdiff
  have hcard : moved.toNat + (partsBlocks (tx' ++ tv' ++ ta')).card =
      (moved + len).toNat + (partsBlocks (tx ++ tv ++ ta)).card := by
    rw [hparts, Finset.card_union_of_disjoint hdisj, hlen, card_rangeBlocks, Nat.add_assoc]
  refine ⟨?_, hx, hv, ?_⟩
  · rw [hparts]
    exact hmove.trans h.blocks
  · rw [hcard]
    exact h.ends

end MoveRun

/-- The search of the order index from its first key fails only on a root that stores no
extent: that key sorts before every order item. -/
theorem allocExtNext_order_first {st : AllocState} {r : ℕ} {E : Finset ScoutfsExtent}
    (hR : RootHolds (st.roots r) E) (h : (allocExtNext r .order st 0 0).1 < 0) : E = ∅ := by
  rw [Finset.eq_empty_iff_forall_notMem]
  intro e he
  have hl := hR.nonzero e he
  have hmem := (hR.extKey_mem_iff .order hl (hR.free e he)).mpr he
  have hzone := extKey_zone .order hl
  have hq₀ : initExtKey .order 0 0 = { scoutfsKeySetZeros with zone := FreeExtentZone.order.toZone } :=
    rfl
  have hq : initExtKey .order 0 0 ≤ extKey .order e := by
    rw [ScoutfsKey.le_iff, hq₀, hzone]
    refine .inr ⟨rfl, ?_⟩
    simp only [scoutfsKeySetZeros, UInt64.toNat_zero, UInt8.toNat_zero]
    omega
  unfold allocExtNext at h
  rcases hk : scoutfsBtreeNext (st.roots r) (initExtKey .order 0 0) with _ | k
  · exact absurd hq (not_le.mpr (Seek.seekGE_eq_none.mp hk _ hmem))
  obtain ⟨-, hqk, hmin⟩ := Seek.seekGE_eq_some.mp hk
  -- the key found lies between the search key and the extent's item, in the order zone
  have h₁ := ScoutfsKey.zone_le_of_le hqk
  have h₂ := ScoutfsKey.zone_le_of_le (hmin _ hmem hq)
  rw [hq₀] at h₁
  rw [hzone] at h₂
  have hz : k.zone = FreeExtentZone.order.toZone := UInt8.toNat_inj.mp (by dsimp only at h₁; omega)
  simp only [hk, if_neg (not_not.mpr hz)] at h
  exact lt_irrefl 0 h

/-- A search of the whole order index that finds nothing: the root stores no extent. -/
theorem allocMoveFind_dry {fuel : ℕ} {st : AllocState} {src : ℕ} {zoneBlocks count : UInt64}
    {ret : Int} {E : Finset ScoutfsExtent} (hR : RootHolds (st.roots src) E)
    (hres : allocMoveFind fuel st src none none zoneBlocks count = some (.error ret)) : E = ∅ := by
  unfold allocMoveFind at hres
  dsimp only at hres
  split_ifs at hres with hneg
  · exact allocExtNext_order_first hR hneg
  · cases hres

/-- **A run of the loop of `scoutfs_alloc_move`** from a state whose `src` and `dst` share no
block, after `moved` of `total` blocks: every part found moves from `src` to `dst`, and a zone
search is only run with a zone size. -/
theorem allocMoveLoop_run (dst src : ℕ) (total zoneBlocks metaBudget : UInt64) :
    ∀ (fuel : ℕ) (st : AllocState) (exclusive vacant : Option (ℕ → Bool)) (moved : UInt64)
      {ret : Int} {st' : AllocState}, AllocInv st →
      Disjoint (rootBlocks (st.roots src)) (rootBlocks (st.roots dst)) → moved ≤ total →
      (zoneBlocks = 0 → exclusive = none ∧ vacant = none) →
      allocMoveLoop dst src total zoneBlocks metaBudget fuel st exclusive vacant moved =
        some (ret, st') →
      ∃ tx tv ta, MoveRun st st' dst src exclusive vacant zoneBlocks total moved ret tx tv ta := by
  intro fuel
  induction fuel with
  | zero =>
    intro st exclusive vacant moved ret st' _ _ _ _ hres
    cases hres
  | succ fuel ih =>
    intro st exclusive vacant moved ret st' h hdisj hle hzb hres
    have hle' : moved.toNat ≤ total.toNat := UInt64.le_iff_toNat_le.mp hle
    unfold allocMoveLoop at hres
    by_cases hlt : moved < total
    swap
    · -- all `total` blocks have moved
      rw [if_neg hlt] at hres
      cases hres
      have heq : moved.toNat = total.toNat := by
        rw [UInt64.lt_iff_toNat_lt] at hlt
        omega
      exact ⟨[], [], [], .stop (.of_roots rfl)
        ⟨hle', fun _ => .inl heq, fun h0 => absurd h0 (by decide)⟩⟩
    rw [if_pos hlt] at hres
    have hlt' : moved.toNat < total.toNat := UInt64.lt_iff_toNat_lt.mp hlt
    have hcount : (total - moved).toNat = total.toNat - moved.toNat :=
      UInt64.toNat_sub_of_le _ _ hle
    obtain ⟨E, hR, hE⟩ := h src
    rcases hfind : allocMoveFind fuel st src exclusive vacant zoneBlocks (total - moved) with
      _ | (ret₁ | ⟨found, start, len⟩) <;> rw [hfind] at hres
    · cases hres
    · -- nothing found: a zone search drops to the next kind of search
      have hret₁ := allocMoveFind_error hfind
      dsimp only at hres
      split_ifs at hres with hx hv
      · obtain ⟨tx, tv, ta, hrun⟩ :=
          ih st none vacant moved h hdisj hle (fun h0 => ⟨rfl, (hzb h0).2⟩) hres
        exact ⟨[], tv, ta, hrun.drop_exclusive⟩
      · rcases exclusive with _ | zx
        · obtain ⟨tx, tv, ta, hrun⟩ := ih st none none moved h hdisj hle (fun _ => ⟨rfl, rfl⟩) hres
          exact ⟨[], [], ta, hrun.drop_vacant⟩
        · exact absurd ⟨hv.1, rfl⟩ hx
      · -- the search of the whole order index found nothing: `src` ran dry
        cases hres
        rcases exclusive with _ | zx
        swap
        · exact absurd ⟨hret₁, rfl⟩ hx
        rcases vacant with _ | zv
        swap
        · exact absurd ⟨hret₁, rfl⟩ hv
        have hdry := allocMoveFind_dry hR hfind
        refine ⟨[], [], [], .stop (.of_roots rfl) ⟨hle', fun h0 => ?_, fun _ => ⟨?_, hlt'⟩⟩⟩
        · rw [hret₁] at h0
          exact absurd h0 (by decide)
        · rw [hR.rootBlocks_eq, hdry, freeBlocks_empty]
    · -- a part of a free extent of `src` was found: move it
      have hc : 0 < (total - moved).toNat := by omega
      have hp := allocMoveFind_movePart hR hE hc hfind
      have hlen := allocMoveFind_le hfind
      rw [hcount] at hlen
      have htotal := total.toNat_lt
      dsimp only at hres
      rcases hm : allocMoveExtent st dst src metaBudget moved found start len with
        _ | (⟨ret₂, st₂⟩ | st₂) <;> rw [hm] at hres
      · cases hres
      · -- the loop stops at this move, which moved nothing
        cases hres
        cases allocMoveExtent_outcome h hR hE hp hdisj hm with
        | budget hb =>
          exact ⟨[], [], [], .stop hb
            ⟨hle', fun h0 => absurd h0 (by decide), fun h0 => absurd h0 (by decide)⟩⟩
        | low hb =>
          refine ⟨[], [], [], .stop hb ⟨hle', fun h0 => ?_, fun h0 => ?_⟩⟩
          · -- `0` is a partial move: some blocks moved before
            split_ifs at h0 with hm0
            · exact absurd h0 (by decide)
            · refine .inr ⟨Nat.pos_of_ne_zero fun hz => hm0 ?_, hlt'⟩
              exact UInt64.toNat_inj.mp (hz.trans UInt64.toNat_zero.symm)
          · split_ifs at h0 <;> exact absurd h0 (by decide)
        | failed hneg herr hb =>
          exact ⟨[], [], [], .stop hb
            ⟨hle', fun h0 => absurd h0 hneg.ne, fun h0 => absurd h0 herr.ne_enoent⟩⟩
      · -- the part moved: the loop goes on from `moved + len`
        cases allocMoveExtent_outcome h hR hE hp hdisj hm with
        | moved hmove =>
        have h₂ : AllocInv st₂ :=
          allocMoveExtent_allocInv h (hp.extValid hE) (hE.free _ hp.mem) hm
        have hsum : (moved + len).toNat = moved.toNat + len.toNat := by
          rw [UInt64.toNat_add]
          omega
        have hle₂ : moved + len ≤ total := UInt64.le_iff_toNat_le.mpr (by omega)
        obtain ⟨tx, tv, ta, hrun⟩ :=
          ih st₂ exclusive vacant (moved + len) h₂ (hmove.disjoint hdisj) hle₂ hzb hres
        have hfit : ZonesFit st src zoneBlocks → ZonesFit st₂ src zoneBlocks := hmove.zonesFit
        -- the part joins the parts of the pass whose search found it
        rcases exclusive with _ | zx
        · rcases vacant with _ | zv
          · obtain rfl := hrun.tx_nil
            obtain rfl := hrun.tv_nil
            exact ⟨[], [], ⟨start, len, 0, 0⟩ :: ta, hrun.cons hmove hsum rfl
              (fun e he => by cases he) (fun e he => by cases he)⟩
          · obtain rfl := hrun.tx_nil
            refine ⟨[], ⟨start, len, 0, 0⟩ :: tv, ta, hrun.cons hmove hsum rfl
              (fun e he => by cases he) ?_⟩
            have hzone : findZoneExtent fuel st src zv zoneBlocks (total - moved) =
                some (.ok (found, start, len)) := by
              unfold allocMoveFind at hfind
              exact hfind
            intro e he
            rcases List.mem_cons.mp he with rfl | he
            · exact ⟨zv, rfl, fun hf =>
                findZoneExtent_inZone hR hE (fun h0 => by cases (hzb h0).2) hc hf hzone⟩
            · exact (hrun.vacant_zone e he).mono hfit
        · refine ⟨⟨start, len, 0, 0⟩ :: tx, tv, ta, hrun.cons hmove hsum rfl ?_
            fun e he => (hrun.vacant_zone e he).mono hfit⟩
          have hzone : findZoneExtent fuel st src zx zoneBlocks (total - moved) =
              some (.ok (found, start, len)) := by
            unfold allocMoveFind at hfind
            exact hfind
          intro e he
          rcases List.mem_cons.mp he with rfl | he
          · exact ⟨zx, rfl, fun hf =>
              findZoneExtent_inZone hR hE (fun h0 => by cases (hzb h0).1) hc hf hzone⟩
          · exact (hrun.exclusive_zone e he).mono hfit

/-- **A run of `scoutfs_alloc_move`** from a state whose `src` and `dst` share no block. -/
theorem scoutfsAllocMove_run {fuel : ℕ} {st st' : AllocState} {dst src : ℕ}
    {total zoneBlocks metaBudget : UInt64} {exclusive vacant : Option (ℕ → Bool)} {ret : Int}
    (h : AllocInv st) (hdisj : Disjoint (rootBlocks (st.roots src)) (rootBlocks (st.roots dst)))
    (hres : scoutfsAllocMove fuel st dst src total exclusive vacant zoneBlocks metaBudget =
      some (ret, st')) :
    ∃ tx tv ta, MoveRun st st' dst src exclusive vacant zoneBlocks total 0 ret tx tv ta := by
  unfold scoutfsAllocMove at hres
  by_cases hzb : zoneBlocks = 0
  · -- without a zone size there are no zone searches
    rw [if_pos hzb] at hres
    obtain ⟨tx, tv, ta, hrun⟩ := allocMoveLoop_run dst src total zoneBlocks metaBudget fuel st
      none none 0 h hdisj UInt64.zero_le (fun _ => ⟨rfl, rfl⟩) hres
    exact ⟨[], [], ta, hrun.drop_vacant.drop_exclusive⟩
  · rw [if_neg hzb] at hres
    exact allocMoveLoop_run dst src total zoneBlocks metaBudget fuel st exclusive vacant 0 h hdisj
      UInt64.zero_le (fun h0 => absurd h0 hzb) hres

/-! ### Allocator lists -/
/-- The blknos of a list block, as block numbers. -/
def blockBlknos (lblk : ScoutfsAllocListBlock) : Multiset ℕ := (lblk.blknos.map UInt64.toNat : Multiset ℕ)

/-- The blknos an allocator list holds, each as often as it is listed. -/
def listBlocks (lhead : ScoutfsAllocListHead) : Multiset ℕ := (lhead.blocks.map blockBlknos).sum

theorem listBlocks_cons (lblk : ScoutfsAllocListBlock) (rest : List ScoutfsAllocListBlock) :
    listBlocks ⟨lblk :: rest⟩ = blockBlknos lblk + listBlocks ⟨rest⟩ := by
  simp [listBlocks]

theorem blockBlknos_listBlockAdd (lblk : ScoutfsAllocListBlock) (b : UInt64) :
    blockBlknos (listBlockAdd lblk b) = blockBlknos lblk + {b.toNat} := by
  unfold listBlockAdd
  split_ifs
  · -- appended at the end of the array
    rw [blockBlknos, List.map_append, ← Multiset.coe_add, List.map_singleton,
      Multiset.coe_singleton]
    rfl
  · -- prepended once the end is reached
    rw [blockBlknos, blockBlknos, List.map_cons, ← Multiset.cons_coe, ← Multiset.singleton_add,
      add_comm]

theorem blockBlknos_listBlockAddExtent (lblk : ScoutfsAllocListBlock) {ext : ScoutfsExtent}
    (hv : ext.len ≠ 0 → ExtValid ext) :
    blockBlknos (listBlockAddExtent lblk ext) = blockBlknos lblk + (extBlocks ext).val := by
  -- induction over the added indices, each below the extent's length, so its block does not wrap
  have hfold : ∀ (l : List ℕ) (lblk : ScoutfsAllocListBlock), (∀ i ∈ l, i < ext.len.toNat) →
      blockBlknos (l.foldl (fun lblk i => listBlockAdd lblk (ext.start + UInt64.ofNat i)) lblk) =
        blockBlknos lblk + (l.map (ext.start.toNat + ·) : Multiset ℕ) := by
    intro l
    induction l with
    | nil => intro lblk _; simp
    | cons i l ih =>
      intro lblk hl
      have hi := hl i List.mem_cons_self
      have hne : ext.len ≠ 0 := fun h0 => by
        rw [h0, UInt64.toNat_zero] at hi
        omega
      have hend := (hv hne).2
      have hb : (ext.start + UInt64.ofNat i).toNat = ext.start.toNat + i := by
        rw [UInt64.toNat_add, UInt64.toNat_ofNat']
        have : i % 2 ^ 64 = i := Nat.mod_eq_of_lt (by omega)
        omega
      rw [List.foldl_cons, ih _ fun j hj => hl j (List.mem_cons_of_mem i hj),
        blockBlknos_listBlockAdd, hb, List.map_cons, ← Multiset.cons_coe, add_assoc,
        Multiset.singleton_add]
  rw [listBlockAddExtent, hfold _ lblk fun i hi => List.mem_range.mp hi, extBlocks,
    val_rangeBlocks, List.range'_eq_map_range]

/-- Going from `st` to `st'`, the list went from `L` to `L'` by taking exactly the blocks that
root `root` gave up, and no other root changed. -/
structure BlocksToList (st st' : AllocState) (root : ℕ) (L L' : Multiset ℕ) : Prop where
  sub : rootBlocks (st'.roots root) ⊆ rootBlocks (st.roots root)
  list_eq : L' = L + (rootBlocks (st.roots root) \ rootBlocks (st'.roots root)).val
  frame : ∀ r, r ≠ root → st'.roots r = st.roots r

namespace BlocksToList

variable {st₁ st₂ st₃ : AllocState} {root : ℕ} {L₁ L₂ L₃ : Multiset ℕ}

theorem same (hR : rootBlocks (st₂.roots root) = rootBlocks (st₁.roots root))
    (hframe : ∀ r, r ≠ root → st₂.roots r = st₁.roots r) : BlocksToList st₁ st₂ root L₁ L₁ :=
  ⟨hR.subset, by rw [hR, Finset.sdiff_self, Finset.empty_val, add_zero], hframe⟩

theorem of_roots (h : st₂.roots = st₁.roots) : BlocksToList st₁ st₂ root L₁ L₁ :=
  same (by rw [h]) fun _ _ => by rw [h]

/-- The list takes the blocks `X` the root gave up. -/
theorem take {X : Finset ℕ} (hX : X ⊆ rootBlocks (st₁.roots root))
    (hR : rootBlocks (st₂.roots root) = rootBlocks (st₁.roots root) \ X)
    (hL : L₂ = L₁ + X.val) (hframe : ∀ r, r ≠ root → st₂.roots r = st₁.roots r) :
    BlocksToList st₁ st₂ root L₁ L₂ :=
  ⟨hR ▸ Finset.sdiff_subset, by rw [hR, Finset.sdiff_sdiff_eq_self hX, hL], hframe⟩

theorem trans (h₁ : BlocksToList st₁ st₂ root L₁ L₂) (h₂ : BlocksToList st₂ st₃ root L₂ L₃) :
    BlocksToList st₁ st₃ root L₁ L₃ := by
  refine ⟨h₂.sub.trans h₁.sub, ?_, fun r hr => by rw [h₂.frame r hr, h₁.frame r hr]⟩
  -- the blocks given up in the two steps are apart, and together those given up overall
  have hdisj : Disjoint (rootBlocks (st₁.roots root) \ rootBlocks (st₂.roots root))
      (rootBlocks (st₂.roots root) \ rootBlocks (st₃.roots root)) :=
    Finset.disjoint_of_subset_right Finset.sdiff_subset Finset.sdiff_disjoint
  have hval := Finset.disjUnion_eq_union _ _ hdisj
  rw [h₂.list_eq, h₁.list_eq, ← Finset.sdiff_union_sdiff_cancel h₁.sub h₂.sub, ← hval,
    Finset.disjUnion_val, add_assoc]

theorem add_right (h : BlocksToList st₁ st₂ root L₁ L₂) (K : Multiset ℕ) :
    BlocksToList st₁ st₂ root (L₁ + K) (L₂ + K) :=
  ⟨h.sub, by rw [h.list_eq, add_right_comm], h.frame⟩

end BlocksToList

theorem RootResult.blocksToList_of_eq {st st' : AllocState} {r : ℕ} {L : Multiset ℕ}
    (h : RootResult st st' r (rootBlocks (st.roots r))) : BlocksToList st st' r L L :=
  .same h.blocks h.frame

/-- Adding the blocks of each allocated extent to the block, the fill loop takes into the list
exactly the blocks it allocates from the root. -/
theorem fillListLoop_blocks (root : ℕ) (target : UInt64) :
    ∀ (fuel : ℕ) (st : AllocState) (lblk : ScoutfsAllocListBlock) {ret : Int} {st' : AllocState}
      {lblk' : ScoutfsAllocListBlock}, AllocInv st →
      fillListLoop root target fuel st lblk = some (ret, st', lblk') →
      BlocksToList st st' root (blockBlknos lblk) (blockBlknos lblk') := by
  intro fuel
  induction fuel with
  | zero =>
    intro st lblk ret st' lblk' _ hres
    cases hres
  | succ fuel ih =>
    intro st lblk ret st' lblk' h hres
    unfold fillListLoop at hres
    split_ifs at hres with hlt
    · rcases hf : st.takeFault with ⟨low, st₁⟩
      have h₁ : AllocInv st₁ := h.of_takeFault hf
      have hr₁ : BlocksToList st st₁ root (blockBlknos lblk) (blockBlknos lblk) :=
        .of_roots (by rw [← AllocState.takeFault_roots st, hf])
      rw [hf] at hres
      dsimp only at hres
      split_ifs at hres with hlow
      · cases hres
        exact hr₁
      rcases ha : scoutfsExtAlloc (allocExtOps root .order) st₁ 0 0
        (target - UInt64.ofNat lblk.blknos.length) with _ | ⟨ret₂, st₂, ext⟩ <;> rw [ha] at hres
      · cases hres
      have hext := (extAlloc_allocInv h₁ ha).2
      dsimp only at hres
      rcases extAlloc_result h₁ ha with ⟨hneg, hR⟩ | ⟨rfl, hsub, hR⟩
      · -- the allocation failed: the loop stops with the block as it was
        rw [if_pos hneg] at hres
        cases hres
        exact hr₁.trans hR.blocksToList_of_eq
      · -- the extent's blocks move from the root to the block
        rw [if_neg (lt_irrefl 0)] at hres
        have hstep : BlocksToList st₁ st₂ root (blockBlknos lblk)
            (blockBlknos (listBlockAddExtent lblk ext)) :=
          .take hsub hR.blocks (blockBlknos_listBlockAddExtent lblk fun hl => (hext hl).1)
            hR.frame
        exact hr₁.trans (hstep.trans (ih st₂ _ hR.inv hres))
    · cases hres
      exact .of_roots rfl

theorem listBlocks_of_blocks {lhead : ScoutfsAllocListHead} {lblk : ScoutfsAllocListBlock}
    {rest : List ScoutfsAllocListBlock} (h : lhead.blocks = lblk :: rest) :
    listBlocks lhead = blockBlknos lblk + listBlocks ⟨rest⟩ := by
  rw [listBlocks, h, List.map_cons, List.sum_cons]
  rfl

@[simp] theorem listBlockRemove_blknos (lblk : ScoutfsAllocListBlock) (count : ℕ) :
    (listBlockRemove lblk count).blknos = lblk.blknos.drop count := rfl

/-- The blknos that extend a run `[start, start + len)` are the blocks right after it, in
order. -/
theorem extendRun_take {start : UInt64} :
    ∀ (more : List UInt64) (len : UInt64), start.toNat + len.toNat < 2 ^ 64 →
      (∀ b ∈ more, b.toNat < 2 ^ 64 - 1) →
      len.toNat ≤ (extendRun start len more).toNat ∧
        (more.take ((extendRun start len more).toNat - len.toNat)).map UInt64.toNat =
          List.range' (start.toNat + len.toNat) ((extendRun start len more).toNat - len.toNat) := by
  intro more
  induction more with
  | nil =>
    intro len _ _
    simp [extendRun]
  | cons b more ih =>
    intro len hlen hb
    unfold extendRun
    split_ifs with heq
    · have hbv := hb b List.mem_cons_self
      have hb' : b.toNat = start.toNat + len.toNat := by
        rw [heq, UInt64.toNat_add]
        omega
      have hlen1 : (len + 1).toNat = len.toNat + 1 := by
        rw [UInt64.toNat_add, UInt64.toNat_one]
        omega
      obtain ⟨hle, htake⟩ := ih (len + 1) (by omega) fun x hx => hb x (List.mem_cons_of_mem b hx)
      rw [hlen1] at hle htake
      refine ⟨by omega, ?_⟩
      -- the run grew by `b`, then by the blknos after it
      have hk : (extendRun start (len + 1) more).toNat - len.toNat =
          (extendRun start (len + 1) more).toNat - (len.toNat + 1) + 1 := by omega
      rw [hk, List.take_succ_cons, List.map_cons, htake, hb', List.range'_succ, Nat.add_assoc]
    · simp

/-- The run at the front of a block of blknos below `U64_MAX` is the blocks it covers. -/
theorem extendRun_run {start : UInt64} {more : List UInt64} (hs : start.toNat < 2 ^ 64 - 1)
    (hb : ∀ b ∈ more, b.toNat < 2 ^ 64 - 1) :
    ((start :: more).take (extendRun start 1 more).toNat).map UInt64.toNat =
      List.range' start.toNat (extendRun start 1 more).toNat := by
  obtain ⟨hle, htake⟩ := @extendRun_take start more 1 (by rw [UInt64.toNat_one]; omega) hb
  rw [UInt64.toNat_one] at hle htake
  have hk : (extendRun start 1 more).toNat = (extendRun start 1 more).toNat - 1 + 1 := by omega
  rw [hk, List.take_succ_cons, List.map_cons, htake, List.range'_succ]

/-- A block's blknos are the run at its front and what `list_block_remove` leaves. -/
theorem blockBlknos_run {lblk : ScoutfsAllocListBlock} {start : UInt64} {more : List UInt64}
    (hbl : lblk.blknos = start :: more) (hb : BlknosValid lblk) :
    blockBlknos lblk = (rangeBlocks start (extendRun start 1 more)).val +
      blockBlknos (listBlockRemove lblk (extendRun start 1 more).toNat) := by
  have hrun := extendRun_run (hb start (by rw [hbl]; exact List.mem_cons_self))
    fun x hx => hb x (by rw [hbl]; exact List.mem_cons_of_mem _ hx)
  rw [blockBlknos, blockBlknos, listBlockRemove_blknos, val_rangeBlocks, ← hrun, Multiset.coe_add,
    ← List.map_append, hbl, List.take_append_drop]

/-- Going from `st` to `st'`, root `root` took exactly the blocks the list gave up, going from
`L` to `L'`: `BlocksToList` read backwards. -/
def BlocksToRoot (st st' : AllocState) (root : ℕ) (L L' : Multiset ℕ) : Prop :=
  BlocksToList st' st root L' L

theorem BlocksToRoot.trans {st₁ st₂ st₃ : AllocState} {root : ℕ} {L₁ L₂ L₃ : Multiset ℕ}
    (h₁ : BlocksToRoot st₁ st₂ root L₁ L₂) (h₂ : BlocksToRoot st₂ st₃ root L₂ L₃) :
    BlocksToRoot st₁ st₃ root L₁ L₃ :=
  BlocksToList.trans h₂ h₁

theorem BlocksToRoot.of_roots {st st' : AllocState} {root : ℕ} {L : Multiset ℕ}
    (h : st'.roots = st.roots) : BlocksToRoot st st' root L L :=
  BlocksToList.of_roots h.symm

theorem RootResult.blocksToRoot_of_eq {st st' : AllocState} {r : ℕ} {L : Multiset ℕ}
    (h : RootResult st st' r (rootBlocks (st.roots r))) : BlocksToRoot st st' r L L :=
  .same h.blocks.symm fun r' hr' => (h.frame r' hr').symm

theorem trimEmptyFirstBlock_blocks {st st' : AllocState} {lhead lhead' : ScoutfsAllocListHead}
    {ret : Int} (h : trimEmptyFirstBlock st lhead = (ret, st', lhead')) :
    listBlocks lhead' = listBlocks lhead := by
  unfold trimEmptyFirstBlock at h
  rcases hbl : lhead.blocks with _ | ⟨one, rest⟩ <;> rw [hbl] at h
  · cases h
    rfl
  dsimp only at h
  by_cases hne : one.blknos ≠ []
  · rw [if_pos hne] at h
    cases h
    rfl
  rw [if_neg hne] at h
  -- the trimmed block holds no blknos
  have hone : blockBlknos one = 0 := by
    rw [blockBlknos, not_not.mp hne]
    rfl
  rcases hf : st.takeFault with ⟨fail, st₁⟩
  rw [hf] at h
  dsimp only at h
  split_ifs at h
  · cases h
    rfl
  · cases h
    rw [listBlocks_of_blocks hbl, hone, zero_add]

theorem emptyListDirty_blocks {st st' : AllocState} {lblk lblk' : ScoutfsAllocListBlock}
    {dirty fail : Bool} (h : emptyListDirty st lblk dirty = (fail, st', lblk')) :
    blockBlknos lblk' = blockBlknos lblk := by
  unfold emptyListDirty at h
  split_ifs at h
  · cases h
    rfl
  rcases hf : st.takeFault with ⟨fail₁, st₁⟩
  rw [hf] at h
  cases h
  -- sorting permutes the blknos
  exact Multiset.coe_eq_coe.mpr ((List.mergeSort_perm _ _).map _)

/-- Inserting the front run of a block, the root takes exactly the run's blknos off the list,
whether the loop ends or goes on. -/
theorem emptyListInsertRun_blocks {root : ℕ} {st : AllocState} {lblk : ScoutfsAllocListBlock}
    {rest : List ScoutfsAllocListBlock}
    {res : (Int × AllocState × ScoutfsAllocListHead) ⊕ (AllocState × ScoutfsAllocListHead)}
    (h : AllocInv st) (hb : BlknosValid lblk)
    (hres : emptyListInsertRun root st lblk rest = some res) :
    (∀ ret st' lhead', res = .inl (ret, st', lhead') →
      BlocksToRoot st st' root (listBlocks ⟨lblk :: rest⟩) (listBlocks lhead')) ∧
    (∀ st' lhead', res = .inr (st', lhead') →
      BlocksToRoot st st' root (listBlocks ⟨lblk :: rest⟩) (listBlocks lhead')) := by
  unfold emptyListInsertRun at hres
  rcases hbl : lblk.blknos with _ | ⟨start, more⟩ <;> rw [hbl] at hres
  · cases hres
  dsimp only at hres
  have hstart := hb start (by rw [hbl]; exact List.mem_cons_self)
  have hrun := @extendRun_valid start more 1 (by simp) (by simp only [UInt64.toNat_one]; omega)
    fun x hx => hb x (by rw [hbl]; exact List.mem_cons_of_mem _ hx)
  rcases hi : scoutfsExtInsert (allocExtOps root .blkno) st start (extendRun start 1 more) 0 0 with
    _ | ⟨ret₁, st₁⟩ <;> rw [hi] at hres
  · cases hres
  dsimp only at hres
  rcases extInsert_result h hrun hi with ⟨hneg, -, hR⟩ | ⟨rfl, hdisj, hR⟩
  · -- the insertion failed: the list and the root are as they were
    rw [if_pos hneg] at hres
    cases hres
    refine ⟨fun ret st' lhead' he => ?_, fun st' lhead' he => (by cases he)⟩
    cases he
    exact hR.blocksToRoot_of_eq
  · -- the run's blocks move from the block to the root
    rw [if_neg (lt_irrefl 0)] at hres
    cases hres
    refine ⟨fun ret st' lhead' he => (by cases he), fun st' lhead' he => ?_⟩
    cases he
    refine .take (X := rangeBlocks start (extendRun start 1 more))
      (hR.blocks ▸ Finset.subset_union_right) ?_ ?_ fun r hr => (hR.frame r hr).symm
    · rw [hR.blocks, Finset.union_sdiff_cancel_right hdisj]
    · rw [listBlocks_cons, listBlocks_cons, blockBlknos_run hbl hb]
      ac_rfl

/-- The loop of `scoutfs_alloc_empty_list` puts into the root exactly the blknos it takes off
the list. -/
theorem emptyListLoop_blocks (root : ℕ) :
    ∀ (fuel : ℕ) (st : AllocState) (lhead : ScoutfsAllocListHead) (dirty : Bool) {ret : Int}
      {st' : AllocState} {lhead' : ScoutfsAllocListHead}, AllocInv st → ListValid lhead →
      emptyListLoop root fuel st lhead dirty = some (ret, st', lhead') →
      BlocksToRoot st st' root (listBlocks lhead) (listBlocks lhead') := by
  intro fuel
  induction fuel with
  | zero =>
    intro st lhead dirty ret st' lhead' _ _ hres
    cases hres
  | succ fuel ih =>
    intro st lhead dirty ret st' lhead' h hl hres
    unfold emptyListLoop at hres
    rcases hbl : lhead.blocks with _ | ⟨lblk, rest⟩ <;> rw [hbl] at hres
    · cases hres
      exact .of_roots rfl
    have hlblk : BlknosValid lblk := hl lblk (by rw [hbl]; exact List.mem_cons_self)
    have hrest : ListValid ⟨rest⟩ := fun lb hlb =>
      hl lb (by rw [hbl]; exact List.mem_cons_of_mem _ hlb)
    dsimp only at hres
    rcases hf : st.takeFault with ⟨low, st₁⟩
    have h₁ := h.of_takeFault hf
    have hr₁ : st₁.roots = st.roots := by rw [← AllocState.takeFault_roots st, hf]
    rw [hf] at hres
    dsimp only at hres
    by_cases hlow : low = true
    · rw [if_pos hlow] at hres
      cases hres
      exact .of_roots hr₁
    rw [if_neg hlow] at hres
    by_cases hemp : lblk.blknos = []
    · -- trimming an empty first block changes neither the list's blknos nor the roots
      rw [if_pos hemp] at hres
      rcases ht : trimEmptyFirstBlock st₁ lhead with ⟨ret₂, st₂, lhead₂⟩
      rw [ht] at hres
      obtain ⟨hr₂, hl₂⟩ := trimEmptyFirstBlock_valid ht hl
      have hL₂ := trimEmptyFirstBlock_blocks ht
      have h₂ := h₁.of_roots hr₂
      dsimp only at hres
      by_cases hneg : ret₂ < 0
      · rw [if_pos hneg] at hres
        cases hres
        rw [hL₂]
        exact .of_roots (hr₂.trans hr₁)
      · rw [if_neg hneg] at hres
        rw [← hL₂]
        exact (BlocksToRoot.of_roots (hr₂.trans hr₁)).trans (ih st₂ lhead₂ false h₂ hl₂ hres)
    rw [if_neg hemp] at hres
    rcases hd : emptyListDirty st₁ lblk dirty with ⟨fail, st₂, lblk₂⟩
    rw [hd] at hres
    obtain ⟨hr₂, hb₂⟩ := emptyListDirty_valid hd hlblk
    have h₂ := h₁.of_roots hr₂
    -- dirtying sorts the first block, which keeps its blknos
    have hL₂ : listBlocks ⟨lblk₂ :: rest⟩ = listBlocks lhead := by
      rw [listBlocks_cons, listBlocks_of_blocks hbl, emptyListDirty_blocks hd]
    have hs₂ : BlocksToRoot st st₂ root (listBlocks lhead) (listBlocks ⟨lblk₂ :: rest⟩) := by
      rw [hL₂]
      exact .of_roots (hr₂.trans hr₁)
    dsimp only at hres
    by_cases hfail : fail = true
    · rw [if_pos hfail] at hres
      cases hres
      exact .of_roots (hr₂.trans hr₁)
    rw [if_neg hfail] at hres
    rcases hrun : emptyListInsertRun root st₂ lblk₂ rest with _ | res <;> rw [hrun] at hres
    · cases hres
    obtain ⟨hstop, hgo⟩ := emptyListInsertRun_blocks h₂ hb₂ hrun
    obtain ⟨-, hgo_valid⟩ := emptyListInsertRun_valid h₂ hb₂ hrest hrun
    rcases res with ⟨ret₃, st₃, lhead₃⟩ | ⟨st₃, lhead₃⟩
    · cases hres
      exact hs₂.trans (hstop _ _ _ rfl)
    · obtain ⟨h₃, hl₃⟩ := hgo_valid _ _ rfl
      exact hs₂.trans ((hgo _ _ rfl).trans (ih st₃ lhead₃ true h₃ hl₃ hres))

/-- `scoutfs_alloc_empty_list` puts into the root exactly the blknos it takes off the list. -/
theorem scoutfsAllocEmptyList_blocks {fuel : ℕ} {st st' : AllocState} {root : ℕ}
    {lhead lhead' : ScoutfsAllocListHead} {inAlloc : Bool} {ret : Int} (h : AllocInv st)
    (hl : ListValid lhead)
    (hres : scoutfsAllocEmptyList fuel st root lhead inAlloc = some (ret, st', lhead')) :
    BlocksToRoot st st' root (listBlocks lhead) (listBlocks lhead') := by
  unfold scoutfsAllocEmptyList at hres
  split_ifs at hres
  · cases hres
    exact .of_roots rfl
  · exact emptyListLoop_blocks root fuel st lhead false h hl hres

/-- `scoutfs_alloc_fill_list` adds to the list exactly the blocks it takes from the root. -/
theorem scoutfsAllocFillList_blocks {fuel : ℕ} {st st' : AllocState}
    {lhead lhead' : ScoutfsAllocListHead} {root : ℕ} {lo target : UInt64} {inAlloc : Bool}
    {ret : Int} (h : AllocInv st)
    (hres : scoutfsAllocFillList fuel st lhead root lo target inAlloc = some (ret, st', lhead')) :
    BlocksToList st st' root (listBlocks lhead) (listBlocks lhead') := by
  unfold scoutfsAllocFillList at hres
  split_ifs at hres
  · cases hres
    exact .of_roots rfl
  · cases hres
    exact .of_roots rfl
  rcases hf : st.takeFault with ⟨fail, st₁⟩
  have h₁ : AllocInv st₁ := h.of_takeFault hf
  have hr₁ : BlocksToList st st₁ root (listBlocks lhead) (listBlocks lhead) :=
    .of_roots (by rw [← AllocState.takeFault_roots st, hf])
  rw [hf] at hres
  dsimp only at hres
  split_ifs at hres
  · cases hres
    exact hr₁
  -- the loop fills the first block, or a new empty one for an empty list
  have hlist : ∀ (lblk : ScoutfsAllocListBlock) (rest : List ScoutfsAllocListBlock),
      listBlocks lhead = blockBlknos lblk + listBlocks ⟨rest⟩ →
      (fillListLoop root target fuel st₁ lblk).map
        (fun (ret, st, lblk) => (ret, st, (⟨lblk :: rest⟩ : ScoutfsAllocListHead))) =
        some (ret, st', lhead') → BlocksToList st st' root (listBlocks lhead) (listBlocks lhead') := by
    intro lblk rest hL hmap
    obtain ⟨⟨ret₂, st₂, lblk₂⟩, hloop, hd⟩ := Option.map_eq_some_iff.mp hmap
    cases hd
    rw [listBlocks_cons]
    rw [hL] at hr₁ ⊢
    exact hr₁.trans ((fillListLoop_blocks root target fuel st₁ lblk h₁ hloop).add_right _)
  rcases hbl : lhead.blocks with _ | ⟨lblk, rest⟩ <;> rw [hbl] at hres
  · exact hlist ⟨0, []⟩ [] (by rw [listBlocks, hbl]; rfl) hres
  · exact hlist lblk rest (listBlocks_of_blocks hbl) hres

/-! ### Free space moved whole -/

/-- A run of `scoutfs_alloc_move`, read on blocks: the blocks of the extents it took move from
`src` to `dst`, never more than `total` of them, whatever the return; a return of 0 moved all of
`total` or, when the metadata allocator ran low, a part of it; `-ENOENT` means `src` held fewer than `total` blocks; and the extents of the zone
passes lie in zones whose bits are set, once the zone numbers fit an `int`. -/
theorem scoutfsAllocMove_blocks {fuel : ℕ} {st st' : AllocState} {dst src : ℕ}
    {total zoneBlocks metaBudget : UInt64} {exclusive vacant : Option (ℕ → Bool)} {ret : Int}
    (h : AllocInv st) (hdisj : Disjoint (rootBlocks (st.roots src)) (rootBlocks (st.roots dst)))
    (hres : scoutfsAllocMove fuel st dst src total exclusive vacant zoneBlocks metaBudget =
      some (ret, st')) :
    ∃ tx tv ta : List ScoutfsExtent,
      BlocksMoved st st' dst src (partsBlocks (tx ++ tv ++ ta)) ∧
      (partsBlocks (tx ++ tv ++ ta)).card ≤ total.toNat ∧
      (ret = 0 → (partsBlocks (tx ++ tv ++ ta)).card = total.toNat ∨
        0 < (partsBlocks (tx ++ tv ++ ta)).card ∧
          (partsBlocks (tx ++ tv ++ ta)).card < total.toNat) ∧
      (ret = -ENOENT → (rootBlocks (st.roots src)).card < total.toNat) ∧
      (ZonesFit st src zoneBlocks →
        (∀ e ∈ tx, ∃ zones, exclusive = some zones ∧ InZone zones zoneBlocks e) ∧
        (∀ e ∈ tv, ∃ zones, vacant = some zones ∧ InZone zones zoneBlocks e)) := by
  obtain ⟨tx, tv, ta, hrun⟩ := scoutfsAllocMove_run h hdisj hres
  have hends := hrun.ends
  rw [UInt64.toNat_zero, zero_add] at hends
  refine ⟨tx, tv, ta, hrun.blocks, hends.le, hends.of_zero, fun he => ?_, fun hfit => ⟨?_, ?_⟩⟩
  · -- `src` ran dry, so it held exactly the blocks moved
    obtain ⟨hleft, hlt⟩ := hends.of_enoent he
    have hcard := Finset.card_sdiff_add_card_eq_card hrun.blocks.sub
    rw [← hrun.blocks.src_eq, hleft, Finset.card_empty, zero_add] at hcard
    omega
  · intro e he
    obtain ⟨zones, hz, hin⟩ := hrun.exclusive_zone e he
    exact ⟨zones, hz, hin hfit⟩
  · intro e he
    obtain ⟨zones, hz, hin⟩ := hrun.vacant_zone e he
    exact ⟨zones, hz, hin hfit⟩

theorem scoutfsAllocMove_conserves_blocks :
    (∀ (fuel : ℕ) (st st' : AllocState) (dst src : ℕ) (total zoneBlocks metaBudget : UInt64)
        (exclusive vacant : Option (ℕ → Bool)) (ret : Int),
      AllocInv st → Disjoint (rootBlocks (st.roots src)) (rootBlocks (st.roots dst)) →
      scoutfsAllocMove fuel st dst src total exclusive vacant zoneBlocks metaBudget =
        some (ret, st') →
      ∃ tx tv ta : List ScoutfsExtent,
        BlocksMoved st st' dst src (partsBlocks (tx ++ tv ++ ta)) ∧
        rootBlocks (st'.roots src) ∪ rootBlocks (st'.roots dst) =
          rootBlocks (st.roots src) ∪ rootBlocks (st.roots dst) ∧
        Disjoint (rootBlocks (st'.roots src)) (rootBlocks (st'.roots dst)) ∧
        (partsBlocks (tx ++ tv ++ ta)).card ≤ total.toNat ∧
        (ret = 0 → (partsBlocks (tx ++ tv ++ ta)).card = total.toNat ∨
          0 < (partsBlocks (tx ++ tv ++ ta)).card ∧
            (partsBlocks (tx ++ tv ++ ta)).card < total.toNat) ∧
        (ret = -ENOENT → (rootBlocks (st.roots src)).card < total.toNat) ∧
        (ZonesFit st src zoneBlocks →
          (∀ e ∈ tx, ∃ zones, exclusive = some zones ∧ InZone zones zoneBlocks e) ∧
          (∀ e ∈ tv, ∃ zones, vacant = some zones ∧ InZone zones zoneBlocks e))) ∧
    (∀ (fuel : ℕ) (st st' : AllocState) (root : ℕ) (lhead lhead' : ScoutfsAllocListHead)
        (inAlloc : Bool) (ret : Int), AllocInv st → ListValid lhead →
      scoutfsAllocEmptyList fuel st root lhead inAlloc = some (ret, st', lhead') →
      BlocksToRoot st st' root (listBlocks lhead) (listBlocks lhead')) ∧
    (∀ (fuel : ℕ) (st st' : AllocState) (lhead lhead' : ScoutfsAllocListHead) (root : ℕ)
        (lo target : UInt64) (inAlloc : Bool) (ret : Int), AllocInv st →
      scoutfsAllocFillList fuel st lhead root lo target inAlloc = some (ret, st', lhead') →
      BlocksToList st st' root (listBlocks lhead) (listBlocks lhead')) := by
  refine ⟨?_, fun _ _ _ _ _ _ _ _ h hl hres => scoutfsAllocEmptyList_blocks h hl hres,
    fun _ _ _ _ _ _ _ _ _ _ h hres => scoutfsAllocFillList_blocks h hres⟩
  intro fuel st st' dst src total zoneBlocks metaBudget exclusive vacant ret h hdisj hres
  obtain ⟨tx, tv, ta, hmoved, hle, hzero, henoent, hzones⟩ := scoutfsAllocMove_blocks h hdisj hres
  exact ⟨tx, tv, ta, hmoved, hmoved.union_eq, hmoved.disjoint hdisj, hle, hzero, henoent, hzones⟩

/-- Root 0 holds the free extents `[10, 12)` and `[20, 22)`, the other roots are empty, and
the metadata allocator is low at the sixth check. -/
def moveLowSt : AllocState :=
  ⟨fun r => if r = 0 then ⟨4, 0, extItems {⟨10, 2, 0, 0⟩, ⟨20, 2, 0, 0⟩}⟩ else ⟨0, 0, ∅⟩,
    [false, false, false, false, false, true]⟩

/-- Moving 8 blocks from root 0 to root 1 moves `[10, 12)`, finds the metadata allocator low
before moving `[20, 22)`, and returns 0 with 2 of the 8 blocks moved. -/
theorem scoutfsAllocMove_partial_returns_zero :
    (scoutfsAllocMove 4 moveLowSt 1 0 8 none none 0 0).map
      (fun res => (res.1, (rootBlocks (res.2.roots 1)).card)) = some (0, 2) := by
  decide

theorem allocInv_moveLowSt : AllocInv moveLowSt := by
  intro r
  by_cases hr : r = 0
  · refine ⟨{⟨10, 2, 0, 0⟩, ⟨20, 2, 0, 0⟩}, ⟨?_, ?_, ?_, ?_⟩, ⟨?_, ?_, ?_⟩⟩
    · simp only [moveLowSt, if_pos hr]
    · decide
    · simp [ExtFree]
    · simp only [moveLowSt, if_pos hr]
      decide
    · simp [ExtValid]
    · simp [ExtFree]
    · simp [Separated]
  · refine ⟨∅, ⟨?_, ?_, ?_, ?_⟩, ⟨?_, ?_, ?_⟩⟩ <;> simp [moveLowSt, hr, extItems, twoKeys]

theorem scoutfsAllocMove_conserves_blocks_low :
    AllocInv moveLowSt ∧
    Disjoint (rootBlocks (moveLowSt.roots 0)) (rootBlocks (moveLowSt.roots 1)) ∧
    (scoutfsAllocMove 4 moveLowSt 1 0 8 none none 0 0).map
      (fun res => rootBlocks (res.2.roots 0) ∪ rootBlocks (res.2.roots 1)) =
      some (rootBlocks (moveLowSt.roots 0) ∪ rootBlocks (moveLowSt.roots 1)) := by
  have h := allocInv_moveLowSt
  have hd : Disjoint (rootBlocks (moveLowSt.roots 0)) (rootBlocks (moveLowSt.roots 1)) := by
    decide
  refine ⟨h, hd, ?_⟩
  have hsome : (scoutfsAllocMove 4 moveLowSt 1 0 8 none none 0 0).isSome = true := by decide
  rcases hres : scoutfsAllocMove 4 moveLowSt 1 0 8 none none 0 0 with _ | ⟨ret, st'⟩
  · rw [hres] at hsome
    cases hsome
  · obtain ⟨tx, tv, ta, -, hunion, -⟩ :=
      scoutfsAllocMove_conserves_blocks.1 4 moveLowSt st' 1 0 8 0 0 none none ret h hd hres
    exact congrArg some hunion

end Scoutfs
