/-
Deleting a srch file: what `delete_file` frees, over calls that each resume where the last one
stopped.

`delete_file` frees, level by level from the leaves' parents up, the refs of each parent that
the file's blocks reach, then the root.  On a radix of `n` blocks (`RadixInv`) this is the
list `deleteOrder`: the nodes of each level whose first block is below `n`, in index order,
then the root.  `deleteRest` is what is left of it from where a compact input stands, and
`deleteFile_spec` says that one call frees the head of what is left and saves the rest.

The proofs need the `u64` arithmetic of `delete_file` not to wrap: `inc` and `blk + inc` stay
below `2 ^ 64` for files up to height 6, whose blocks number at most
`SCOUTFS_SRCH_PARENT_REFS ^ 5`.
-/
import Scoutfs.SrchRadixRun

namespace Scoutfs

namespace SrchRadix

variable {α : Type} {st st' : SrchRadixState α} {sfl : SrchRadixFile} {n : ℕ}
  {node : ℕ → ℕ → ℕ} {data : ℕ → α}

/-! ### Levels and their nodes -/

/-- The nodes of level `L` that the first `n` blocks reach: `⌈n / P ^ L⌉`. -/
def levelCount (n L : ℕ) : ℕ :=
  (n + SCOUTFS_SRCH_PARENT_REFS ^ L - 1) / SCOUTFS_SRCH_PARENT_REFS ^ L

theorem lt_levelCount_iff {n L j : ℕ} :
    j < levelCount n L ↔ j * SCOUTFS_SRCH_PARENT_REFS ^ L < n := by
  have hq : 0 < SCOUTFS_SRCH_PARENT_REFS ^ L := Nat.pow_pos (by rw [srchParentRefs_eq]; omega)
  rw [levelCount, Nat.lt_iff_add_one_le, Nat.le_div_iff_mul_le hq, Nat.succ_mul]
  omega

/-- `inc` is the power it is meant to be while that fits in `u64`. -/
theorem toNat_deleteInc : ∀ level, level ≤ 6 →
    (deleteInc level).toNat = SCOUTFS_SRCH_PARENT_REFS ^ (level - 1)
  | 0, _ => rfl
  | 1, _ => rfl
  | level + 2, hl => by
    have hpow : SCOUTFS_SRCH_PARENT_REFS ^ (level + 1) < 2 ^ 64 :=
      calc SCOUTFS_SRCH_PARENT_REFS ^ (level + 1) ≤ SCOUTFS_SRCH_PARENT_REFS ^ 5 :=
            Nat.pow_le_pow_right (by rw [srchParentRefs_eq]; omega) (by omega)
        _ < 2 ^ 64 := by rw [srchParentRefs_eq]; decide
    rw [deleteInc, UInt64.toNat_mul, toNat_deleteInc (level + 1) (by omega),
      toNat_ofNat_srchParentRefs, show level + 1 - 1 = level from rfl, ← pow_succ]
    exact Nat.mod_eq_of_lt hpow

/-- At a block aligned to the children of level `level`, `calc_ref_ind` is the child's index
in its parent. -/
theorem calcRefInd_aligned {level : ℕ} (hl : 1 ≤ level) {blk : UInt64} {J : ℕ}
    (hb : blk.toNat = J * SCOUTFS_SRCH_PARENT_REFS ^ (level - 1)) :
    calcRefInd blk level = J % SCOUTFS_SRCH_PARENT_REFS := by
  rw [calcRefInd_eq _ _ hl, hb,
    Nat.mul_div_cancel _ (Nat.pow_pos (by rw [srchParentRefs_eq]; omega))]

/-- The ref that `calc_ref_ind` picks in the parent on the way to `b` leads to the node of
`b` one level down. -/
theorem refs_radixBlock_path (blk : UInt64) (L : ℕ) :
    (radixBlock node data (L + 1) (blk.toNat / SCOUTFS_SRCH_PARENT_REFS ^ (L + 1))).refs
      (calcRefInd blk (L + 1)) = node L (blk.toNat / SCOUTFS_SRCH_PARENT_REFS ^ L) := by
  have hP : 0 < SCOUTFS_SRCH_PARENT_REFS := by rw [srchParentRefs_eq]; omega
  rw [calcRefInd_eq _ _ (by omega), Nat.add_sub_cancel, radixBlock, SrchRadixBlock.refs,
    if_pos (Nat.mod_lt _ hP), div_pow_succ_mul_add]

/-! ### `read_path_block` -/

/-- The loop of `read_path_block` from the node on the way to a block of the file reaches the
node at `atLevel`. -/
theorem readPathLoop_node (h : RadixInv st sfl n node data) {blk : UInt64} (hb : blk.toNat < n)
    {atLevel : ℕ} (hat : 1 ≤ atLevel) :
    ∀ L, atLevel ≤ L → L < sfl.height →
      readPathLoop st blk atLevel L (node L (blk.toNat / SCOUTFS_SRCH_PARENT_REFS ^ L)) =
        .ok (radixBlock node data atLevel (blk.toNat / SCOUTFS_SRCH_PARENT_REFS ^ atLevel))
  | 0, hL, _ => absurd hL (by omega)
  | L + 1, hL, hLh => by
    have hne : node (L + 1) (blk.toNat / SCOUTFS_SRCH_PARENT_REFS ^ (L + 1)) ≠ 0 :=
      h.full _ _ hLh (lt_of_le_of_lt (Nat.div_mul_le_self _ _) hb)
    rw [readPathLoop, if_neg hne, readRef_node h hne]
    dsimp only
    by_cases hlev : L + 1 = atLevel
    · rw [if_pos hlev, hlev]
    · rw [if_neg hlev, refs_radixBlock_path]
      exact readPathLoop_node h hb hat L (by omega) (by omega)

/-- `read_path_block` of a block of the file at a level above the leaves reads the node of the
block at that level. -/
theorem readPathBlock_node (h : RadixInv st sfl n node data) {blk : UInt64} (hb : blk.toNat < n)
    {atLevel : ℕ} (hat : 1 ≤ atLevel) (hath : atLevel < sfl.height) :
    readPathBlock st sfl blk atLevel =
      .ok (radixBlock node data atLevel (blk.toNat / SCOUTFS_SRCH_PARENT_REFS ^ atLevel)) := by
  obtain ⟨level, hlevel⟩ : ∃ level, sfl.height = level + 1 := ⟨sfl.height - 1, by omega⟩
  have hroot : sfl.ref = node level (blk.toNat / SCOUTFS_SRCH_PARENT_REFS ^ level) := by
    have hcap := h.capacity (by omega)
    rw [hlevel, Nat.add_sub_cancel] at hcap
    rw [h.root, hlevel, Nat.add_sub_cancel, Nat.div_eq_of_lt (by omega)]
  rw [readPathBlock, hlevel]
  dsimp only
  rw [if_neg (by omega), hroot]
  exact readPathLoop_node h hb hat level (by omega) (by omega)

/-! ### The loops of `delete_file` -/

theorem scoutfsFreeMeta_of_nil (hf : st.faults = []) (b : ℕ) :
    scoutfsFreeMeta st b = (0, st.free b) := by
  rw [scoutfsFreeMeta, st.takeFault_of_nil hf]
  rfl

/-- The children `J, …, J + k - 1` of the parents at `level`, in the order `delete_file`
frees them. -/
def childSpan (node : ℕ → ℕ → ℕ) (level J k : ℕ) : List ℕ :=
  (List.range' J k).map (node (level - 1))

theorem childSpan_succ (node : ℕ → ℕ → ℕ) (level J k : ℕ) :
    childSpan node level J (k + 1) = node (level - 1) J :: childSpan node level (J + 1) k := by
  rw [childSpan, childSpan, List.range'_succ, List.map_cons]

theorem childSpan_add (node : ℕ → ℕ → ℕ) (level J k k' : ℕ) :
    childSpan node level J (k + k') = childSpan node level J k ++ childSpan node level (J + k) k' := by
  rw [childSpan, childSpan, childSpan, ← List.map_append, List.range'_append_1]

/-- What is left for `delete_file` to free of a file of `n` blocks and height `h` from the
child `J` at `level` on: the rest of that level's children, the children of the levels above
it, then the root. -/
def deleteRest (node : ℕ → ℕ → ℕ) (n h level J : ℕ) : List ℕ :=
  (if level < h then
      childSpan node level J (levelCount n (level - 1) - J) ++
        (List.range' (level + 1) (h - 1 - level)).flatMap
          (fun l => childSpan node l 0 (levelCount n (l - 1)))
    else []) ++
  (if level ≤ h then [node (h - 1) 0] else [])

/-- Everything `delete_file` frees of a file, from its first input on. -/
def deleteOrder (node : ℕ → ℕ → ℕ) (n h : ℕ) : List ℕ :=
  deleteRest node n h 1 0

theorem deleteRest_height (node : ℕ → ℕ → ℕ) (n h J : ℕ) :
    deleteRest node n h h J = [node (h - 1) 0] := by
  simp [deleteRest]

theorem deleteRest_of_height_lt {node : ℕ → ℕ → ℕ} {n h level : ℕ} (hl : h < level) (J : ℕ) :
    deleteRest node n h level J = [] := by
  simp [deleteRest, Nat.not_lt.2 hl.le, Nat.not_le.2 hl]

/-- Freeing `k` more children of the level. -/
theorem deleteRest_advance (node : ℕ → ℕ → ℕ) {n h level J k : ℕ} (hl : level < h)
    (hk : k ≤ levelCount n (level - 1) - J) :
    deleteRest node n h level J = childSpan node level J k ++ deleteRest node n h level (J + k) := by
  have hsplit : levelCount n (level - 1) - J = k + (levelCount n (level - 1) - (J + k)) := by
    omega
  rw [deleteRest, deleteRest, if_pos hl, if_pos hl, hsplit, childSpan_add]
  simp

/-- At the end of a level, what is left is the next level from its first child. -/
theorem deleteRest_next_level (node : ℕ → ℕ → ℕ) {n h level J : ℕ} (hl : level < h)
    (hJ : levelCount n (level - 1) ≤ J) :
    deleteRest node n h level J = deleteRest node n h (level + 1) 0 := by
  rw [deleteRest, if_pos hl, Nat.sub_eq_zero_of_le hJ]
  by_cases hl' : level + 1 < h
  · obtain ⟨m, hm⟩ : ∃ m, h - 1 - level = m + 1 := ⟨h - 2 - level, by omega⟩
    rw [hm, List.range'_succ, List.flatMap_cons, deleteRest, if_pos hl',
      show h - 1 - (level + 1) = m by omega]
    simp only [childSpan, List.range'_zero, List.map_nil, List.nil_append, if_pos hl.le,
      if_pos hl'.le, Nat.add_sub_cancel, Nat.sub_zero, List.append_assoc]
  · have hh : h = level + 1 := by omega
    subst hh
    simp [childSpan, deleteRest]

/-- The loop of `delete_file` over the refs of the parent `jp` at `level`, from its ref `i`
at block `(jp * P + i) * P ^ (level - 1)`: it frees the children that the file's blocks
reach, in order, until the parent's refs or the file's blocks end, or an outcome stops it
before a child. -/
theorem deleteRefs_spec {level : ℕ} (jp : ℕ) (hl : 1 ≤ level) {inc : UInt64}
    (hinc : inc.toNat = SCOUTFS_SRCH_PARENT_REFS ^ (level - 1))
    (hfull : ∀ j, j * SCOUTFS_SRCH_PARENT_REFS ^ (level - 1) < sfl.blocks.toNat →
      node (level - 1) j ≠ 0)
    (hov : sfl.blocks.toNat + SCOUTFS_SRCH_PARENT_REFS ^ (level - 1) < 2 ^ 64) :
    ∀ (left i : ℕ) (st : SrchRadixState α) (blk : UInt64) {exit : Option Int}
      {st' : SrchRadixState α} {blk' : UInt64},
      i + left = SCOUTFS_SRCH_PARENT_REFS →
      blk.toNat = (jp * SCOUTFS_SRCH_PARENT_REFS + i) * SCOUTFS_SRCH_PARENT_REFS ^ (level - 1) →
      deleteRefs (radixBlock node data level jp).refs sfl.blocks inc left i st blk =
        (exit, st', blk') →
      st'.store = st.store ∧ st'.next = st.next ∧
      ∃ k, st'.freed = (childSpan node level (jp * SCOUTFS_SRCH_PARENT_REFS + i) k).reverse ++
          st.freed ∧
        blk'.toNat = (jp * SCOUTFS_SRCH_PARENT_REFS + i + k) * SCOUTFS_SRCH_PARENT_REFS ^ (level - 1) ∧
        (exit = none → k = min left
          (levelCount sfl.blocks.toNat (level - 1) - (jp * SCOUTFS_SRCH_PARENT_REFS + i))) ∧
        (exit ≠ none → k < min left
          (levelCount sfl.blocks.toNat (level - 1) - (jp * SCOUTFS_SRCH_PARENT_REFS + i))) ∧
        (st.faults = [] → exit = none ∧ st'.faults = [])
  | 0, i, st, blk, exit, st', blk', _, hblk, hd => by
    rw [deleteRefs] at hd
    cases hd
    refine ⟨rfl, rfl, 0, by simp [childSpan], by simpa using hblk, fun _ => by simp, ?_,
      fun hnil => ⟨rfl, hnil⟩⟩
    intro hne
    exact absurd rfl hne
  | left + 1, i, st, blk, exit, st', blk', hi, hblk, hd => by
    obtain ⟨J, hJ⟩ : ∃ J, jp * SCOUTFS_SRCH_PARENT_REFS + i = J := ⟨_, rfl⟩
    rw [hJ] at hblk ⊢
    rw [deleteRefs] at hd
    split at hd
    · rename_i hlt
      -- the child `J` is below the file's blocks, so it is there
      have hJn : J * SCOUTFS_SRCH_PARENT_REFS ^ (level - 1) < sfl.blocks.toNat := by
        rw [← hblk]; exact UInt64.lt_iff_toNat_lt.1 hlt
      have hJc : J < levelCount sfl.blocks.toNat (level - 1) := lt_levelCount_iff.2 hJn
      have href : (radixBlock node data level jp).refs i = node (level - 1) J := by
        obtain ⟨L, rfl⟩ : ∃ L, level = L + 1 := ⟨level - 1, by omega⟩
        rw [radixBlock, SrchRadixBlock.refs, if_pos (by omega), hJ]
        rfl
      have hnext : (blk + inc).toNat =
          (J + 1) * SCOUTFS_SRCH_PARENT_REFS ^ (level - 1) := by
        rw [UInt64.toNat_add, hinc, hblk, Nat.mod_eq_of_lt (by omega), Nat.succ_mul]
      rw [href, if_neg (hfull J hJn)] at hd
      rcases hf : st.takeFault with ⟨commit, st₁⟩
      have hs₁ : st₁.store = st.store := by rw [← st.takeFault_store, hf]
      have hn₁ : st₁.next = st.next := by rw [← st.takeFault_next, hf]
      have hfr₁ : st₁.freed = st.freed := by rw [← st.takeFault_freed, hf]
      rw [hf] at hd
      dsimp only at hd
      split at hd
      · -- `should_commit`: leave before the child
        cases hd
        refine ⟨hs₁, hn₁, 0, by simpa [childSpan] using hfr₁, by simpa using hblk,
          fun h => absurd h (by simp), fun _ => by omega, ?_⟩
        intro hnil
        rw [st.takeFault_of_nil hnil, Prod.mk.injEq] at hf
        simp_all
      · rcases hfm : scoutfsFreeMeta st₁ (node (level - 1) J) with ⟨ret, st₂⟩
        rw [hfm] at hd
        obtain ⟨hs₂, hn₂, hr⟩ := scoutfsFreeMeta_cases hfm
        dsimp only at hd
        split at hd
        · -- the free failed
          rw [Prod.mk.injEq, Prod.mk.injEq] at hd
          obtain ⟨rfl, rfl, rfl⟩ := hd
          have hfr₂ : st₂.freed = st₁.freed := by
            rcases hr with hr | hr
            · exact hr.2
            · omega
          refine ⟨hs₂.trans hs₁, hn₂.trans hn₁, 0, by simpa [childSpan] using hfr₂.trans hfr₁,
            by simpa using hblk, fun h => absurd h (by simp), fun _ => by omega, ?_⟩
          intro hnil
          have hnil₁ : st₁.faults = [] := by
            rw [st.takeFault_of_nil hnil, Prod.mk.injEq] at hf
            rw [← hf.2, hnil]
          rw [scoutfsFreeMeta_of_nil hnil₁, Prod.mk.injEq] at hfm
          omega
        · -- the child is freed: the loop goes on at `J + 1`
          rename_i hret
          have hfr₂ : st₂.freed = node (level - 1) J :: st₁.freed := by
            rcases hr with hr | hr
            · omega
            · exact hr.2
          obtain ⟨hs', hn', k, hfr', hblk', hnone, hsome, hnil'⟩ :=
            deleteRefs_spec jp hl hinc hfull hov left (i + 1) st₂ (blk + inc) (by omega)
              (by rw [hnext, show J + 1 = jp * SCOUTFS_SRCH_PARENT_REFS + (i + 1) by omega]) hd
          rw [show jp * SCOUTFS_SRCH_PARENT_REFS + (i + 1) = J + 1 by omega] at hfr' hblk' hnone hsome
          refine ⟨hs'.trans (hs₂.trans hs₁), hn'.trans (hn₂.trans hn₁), k + 1, ?_, ?_, ?_, ?_, ?_⟩
          · rw [hfr', childSpan_succ, List.reverse_cons, List.append_assoc, hfr₂, hfr₁]
            rfl
          · rw [hblk', Nat.add_assoc, Nat.add_comm 1 k]
          · intro h; have := hnone h; omega
          · intro h; have := hsome h; omega
          · intro hnil
            have hf₁ : st₁ = st := by
              rw [st.takeFault_of_nil hnil, Prod.mk.injEq] at hf
              exact hf.2.symm
            subst hf₁
            rw [scoutfsFreeMeta_of_nil hnil, Prod.mk.injEq] at hfm
            exact hnil' (by rw [← hfm.2, SrchRadixState.free_faults, hnil])
    · rename_i hge
      cases hd
      have hJc : levelCount sfl.blocks.toNat (level - 1) ≤ J := by
        by_contra hlt
        refine hge ?_
        rw [UInt64.lt_iff_toNat_lt, hblk]
        exact lt_levelCount_iff.1 (by omega)
      refine ⟨rfl, rfl, 0, by simp [childSpan], by simpa using hblk, fun _ => by omega, ?_,
        fun hnil => ⟨rfl, hnil⟩⟩
      intro hne
      exact absurd rfl hne

/-- Below height 6 the blocks of `delete_file`'s loops stay below `2 ^ 64` by one `inc`. -/
theorem blocks_add_inc_lt (h : RadixInv st sfl n node data) (h6 : sfl.height ≤ 6) {level : ℕ}
    (hlh : level < sfl.height) : n + SCOUTFS_SRCH_PARENT_REFS ^ (level - 1) < 2 ^ 64 := by
  have hP : 1 ≤ SCOUTFS_SRCH_PARENT_REFS := by rw [srchParentRefs_eq]; omega
  have hn : n ≤ SCOUTFS_SRCH_PARENT_REFS ^ 5 :=
    (h.capacity (by omega)).trans (Nat.pow_le_pow_right hP (by omega))
  have hinc : SCOUTFS_SRCH_PARENT_REFS ^ (level - 1) ≤ SCOUTFS_SRCH_PARENT_REFS ^ 5 :=
    Nat.pow_le_pow_right hP (by omega)
  have hmax : 2 * SCOUTFS_SRCH_PARENT_REFS ^ 5 < 2 ^ 64 := by rw [srchParentRefs_eq]; decide
  omega

/-- The loop of `delete_file` over the parents at `level`, from the child `J`: with fuel
for the parents left, it frees the children from `J` on, in order, to the end of the level
or until an outcome stops it before a child. -/
theorem deleteLevel_spec {level : ℕ} (hl : 1 ≤ level) (hlh : level < sfl.height)
    (h6 : sfl.height ≤ 6) :
    ∀ (fuel : ℕ) (st : SrchRadixState α) (J : ℕ) (blk : UInt64),
      RadixInv st sfl sfl.blocks.toNat node data →
      blk.toNat = J * SCOUTFS_SRCH_PARENT_REFS ^ (level - 1) →
      levelCount sfl.blocks.toNat (level - 1) - J < fuel →
      ∃ exit st' blk', deleteLevel sfl level (deleteInc level) fuel st blk = some (exit, st', blk') ∧
        st'.store = st.store ∧ st'.next = st.next ∧
        ∃ k, st'.freed = (childSpan node level J k).reverse ++ st.freed ∧
          blk'.toNat = (J + k) * SCOUTFS_SRCH_PARENT_REFS ^ (level - 1) ∧
          (exit = none → k = levelCount sfl.blocks.toNat (level - 1) - J) ∧
          (exit ≠ none → J + k < levelCount sfl.blocks.toNat (level - 1)) ∧
          (st.faults = [] → exit = none ∧ st'.faults = [])
  | 0, _, _, _, _, _, hfuel => absurd hfuel (Nat.not_lt_zero _)
  | fuel + 1, st, J, blk, h, hblk, hfuel => by
    have hP : 0 < SCOUTFS_SRCH_PARENT_REFS := by rw [srchParentRefs_eq]; omega
    rw [deleteLevel]
    split
    · rename_i hlt
      have hb : blk.toNat < sfl.blocks.toNat := UInt64.lt_iff_toNat_lt.1 hlt
      have hJc : J < levelCount sfl.blocks.toNat (level - 1) := lt_levelCount_iff.2 (hblk ▸ hb)
      -- the parent of the child `J` is `J / P`, and `J` is its ref `J % P`
      have hpar : blk.toNat / SCOUTFS_SRCH_PARENT_REFS ^ level = J / SCOUTFS_SRCH_PARENT_REFS := by
        obtain ⟨L, rfl⟩ : ∃ L, level = L + 1 := ⟨level - 1, by omega⟩
        rw [hblk, Nat.add_sub_cancel, pow_succ, ← Nat.div_div_eq_div_mul,
          Nat.mul_div_cancel _ (Nat.pow_pos hP)]
      rw [readPathBlock_node h hb hl hlh, hpar, calcRefInd_aligned hl hblk]
      dsimp only
      rcases hres : deleteRefs (radixBlock node data level (J / SCOUTFS_SRCH_PARENT_REFS)).refs
        sfl.blocks (deleteInc level) (SCOUTFS_SRCH_PARENT_REFS - J % SCOUTFS_SRCH_PARENT_REFS)
        (J % SCOUTFS_SRCH_PARENT_REFS) st blk with ⟨exit₁, st₁, blk₁⟩
      have hJ : J / SCOUTFS_SRCH_PARENT_REFS * SCOUTFS_SRCH_PARENT_REFS +
          J % SCOUTFS_SRCH_PARENT_REFS = J := Nat.div_add_mod' J _
      obtain ⟨hs₁, hn₁, k, hfr₁, hblk₁, hnone, hsome, hnil⟩ :=
        deleteRefs_spec (J / SCOUTFS_SRCH_PARENT_REFS) hl (toNat_deleteInc level (by omega))
          (fun j hj => h.full _ j (by omega) hj) (blocks_add_inc_lt h h6 hlh) _ _ st blk
          (Nat.add_sub_cancel' (Nat.mod_lt _ hP).le) (by rw [hJ, hblk]) hres
      rw [hJ] at hfr₁ hblk₁ hnone hsome
      rcases exit₁ with _ | ret
      · -- the parent is done: the loop goes on from the child after its refs
        have hk : k = min (SCOUTFS_SRCH_PARENT_REFS - J % SCOUTFS_SRCH_PARENT_REFS)
            (levelCount sfl.blocks.toNat (level - 1) - J) := hnone rfl
        have hk₁ : 1 ≤ k := by
          have := Nat.mod_lt J hP
          omega
        obtain ⟨exit, st', blk', hd, hs', hn', k', hfr', hblk', hnone', hsome', hnil'⟩ :=
          deleteLevel_spec hl hlh h6 fuel st₁ (J + k) blk₁ (h.of_store hs₁ hn₁.ge) hblk₁
            (by omega)
        refine ⟨exit, st', blk', hd, hs'.trans hs₁, hn'.trans hn₁, k + k', ?_, ?_, ?_, ?_, ?_⟩
        · rw [hfr', hfr₁, childSpan_add, List.reverse_append, List.append_assoc]
        · rw [hblk', Nat.add_assoc]
        · intro he
          have := hnone' he
          omega
        · intro he
          have := hsome' he
          omega
        · intro hf
          exact hnil' (hnil hf).2
      · -- `should_commit` or a failed free: leave at the child not freed
        refine ⟨some ret, st₁, blk₁, rfl, hs₁, hn₁, k, hfr₁, hblk₁, fun he => absurd he (by simp),
          fun _ => ?_, fun hf => absurd (hnil hf).1 (by simp)⟩
        have := hsome (by simp)
        omega
    · rename_i hge
      -- the level is done
      have hJc : levelCount sfl.blocks.toNat (level - 1) ≤ J := by
        by_contra hlt
        exact hge (UInt64.lt_iff_toNat_lt.2 (hblk ▸ lt_levelCount_iff.1 (by omega)))
      refine ⟨none, st, blk, rfl, rfl, rfl, 0, by simp [childSpan], by simpa using hblk,
        fun _ => by omega, fun he => absurd rfl he, fun hf => ⟨rfl, hf⟩⟩

theorem levelCount_le (n L : ℕ) : levelCount n L ≤ n := by
  have hq : 0 < SCOUTFS_SRCH_PARENT_REFS ^ L := Nat.pow_pos (by rw [srchParentRefs_eq]; omega)
  have hnq : n ≤ n * SCOUTFS_SRCH_PARENT_REFS ^ L := Nat.le_mul_of_pos_right n hq
  rw [levelCount, ← Nat.lt_succ_iff, Nat.div_lt_iff_lt_mul hq, Nat.succ_mul]
  omega

/-- The loop of `delete_file` over the levels from `level` up to below the height, from the
child `J` of `level`: it frees what is left in order, and stops either below the height with
the children of the level it stopped in still to free, or at the height with only the root
left. -/
theorem deleteLevels_spec (h6 : sfl.height ≤ 6) :
    ∀ (left level : ℕ) (st : SrchRadixState α) (J : ℕ) (blk : UInt64),
      RadixInv st sfl sfl.blocks.toNat node data → 1 ≤ level → level + left = sfl.height →
      (level < sfl.height → blk.toNat = J * SCOUTFS_SRCH_PARENT_REFS ^ (level - 1)) →
      ∃ exit st' blk' level', deleteLevels sfl left level st blk = some (exit, st', blk', level') ∧
        st'.store = st.store ∧ st'.next = st.next ∧ 1 ≤ level' ∧ level' ≤ sfl.height ∧
        (level' < sfl.height → blk'.toNat % SCOUTFS_SRCH_PARENT_REFS ^ (level' - 1) = 0) ∧
        ∃ D, st'.freed = D.reverse ++ st.freed ∧
          deleteRest node sfl.blocks.toNat sfl.height level J =
            D ++ deleteRest node sfl.blocks.toNat sfl.height level'
              (blk'.toNat / SCOUTFS_SRCH_PARENT_REFS ^ (level' - 1)) ∧
          (exit = none → level' = sfl.height) ∧
          (st.faults = [] → exit = none ∧ st'.faults = [])
  | 0, level, st, J, blk, _, hl, hh, _ => by
    refine ⟨none, st, blk, level, rfl, rfl, rfl, hl, by omega, fun hlt => by omega, [],
      by simp, ?_, fun _ => by omega, fun hf => ⟨rfl, hf⟩⟩
    rw [List.nil_append, show level = sfl.height by omega, deleteRest_height, deleteRest_height]
  | left + 1, level, st, J, blk, h, hl, hh, hblk => by
    have hq : 0 < SCOUTFS_SRCH_PARENT_REFS ^ (level - 1) :=
      Nat.pow_pos (by rw [srchParentRefs_eq]; omega)
    obtain ⟨exit₁, st₁, blk₁, hd, hs₁, hn₁, k, hfr₁, hblk₁, hnone, hsome, hnil⟩ :=
      deleteLevel_spec hl (by omega) h6 (sfl.blocks.toNat + 1) st J blk h (hblk (by omega))
        (by have := levelCount_le sfl.blocks.toNat (level - 1); omega)
    rw [deleteLevels, hd]
    rcases exit₁ with _ | ret
    · -- the level is done: the next one starts from its first child
      have hk := hnone rfl
      obtain ⟨exit, st', blk', level', hd', hs', hn', hl', hlh', hal', D, hfr', hrest, hex, hnil'⟩ :=
        deleteLevels_spec h6 left (level + 1) st₁ 0 0 (h.of_store hs₁ hn₁.ge) (by omega)
          (by omega) (fun _ => by simp)
      refine ⟨exit, st', blk', level', hd', hs'.trans hs₁, hn'.trans hn₁, hl', hlh', hal',
        childSpan node level J k ++ D, ?_, ?_, hex, fun hf => hnil' (hnil hf).2⟩
      · rw [hfr', hfr₁, List.reverse_append, List.append_assoc]
      · rw [deleteRest_advance node (by omega) hk.le,
          deleteRest_next_level node (by omega) (by omega), hrest, List.append_assoc]
    · -- the loop stopped at the child `J + k`, which is still to free
      have hk := hsome (by simp)
      have hdiv : blk₁.toNat / SCOUTFS_SRCH_PARENT_REFS ^ (level - 1) = J + k := by
        rw [hblk₁, Nat.mul_div_cancel _ hq]
      refine ⟨some ret, st₁, blk₁, level, rfl, hs₁, hn₁, hl, by omega,
        fun _ => by rw [hblk₁, Nat.mul_mod_left], childSpan node level J k, hfr₁, ?_,
        fun he => absurd he (by simp), fun hf => absurd (hnil hf).1 (by simp)⟩
      rw [hdiv]
      exact deleteRest_advance node (by omega) (by omega)

/-! ### `delete_file` -/

/-- Where a compact input's deletion stands is at a child of its level. -/
def InputAligned (inp : SrchRadixInput) : Prop :=
  max inp.pos 1 < inp.sfl.height →
    inp.blk.toNat % SCOUTFS_SRCH_PARENT_REFS ^ (max inp.pos 1 - 1) = 0

instance (inp : SrchRadixInput) : Decidable (InputAligned inp) := by
  unfold InputAligned; infer_instance

/-- What is left to free of the input's file from where its deletion stands. -/
def inputRest (node : ℕ → ℕ → ℕ) (inp : SrchRadixInput) : List ℕ :=
  deleteRest node inp.sfl.blocks.toNat inp.sfl.height (max inp.pos 1)
    (inp.blk.toNat / SCOUTFS_SRCH_PARENT_REFS ^ (max inp.pos 1 - 1))

/-- One call of `delete_file` on a file below height 7, from an aligned input: it returns,
frees the head of what is left in order and saves where the rest starts.  With no failing
outcome it frees all of it and leaves the input past the height. -/
theorem deleteFile_spec {inp : SrchRadixInput}
    (h : RadixInv st inp.sfl inp.sfl.blocks.toNat node data) (h6 : inp.sfl.height ≤ 6)
    (hal : InputAligned inp) :
    ∃ ret st' inp', deleteFile st inp = some (ret, st', inp') ∧
      st'.store = st.store ∧ st'.next = st.next ∧ inp'.sfl = inp.sfl ∧ InputAligned inp' ∧
      ∃ D, st'.freed = D.reverse ++ st.freed ∧ inputRest node inp = D ++ inputRest node inp' ∧
        (st.faults = [] → ret = 0 ∧ inp.sfl.height < inp'.pos ∧ st'.faults = []) := by
  unfold deleteFile
  dsimp only
  split
  · -- the file is already deleted
    rename_i hgt
    refine ⟨0, st, { inp with pos := max inp.pos 1 }, rfl, rfl, rfl, rfl, ?_, [], by simp, ?_,
      fun hf => ⟨rfl, hgt, hf⟩⟩
    · intro hlt
      simp only [max_eq_left (le_max_right inp.pos 1)] at hlt
      omega
    · simp only [inputRest, max_eq_left (le_max_right inp.pos 1), List.nil_append]
  · rename_i hle
    have hq : 0 < SCOUTFS_SRCH_PARENT_REFS ^ (max inp.pos 1 - 1) :=
      Nat.pow_pos (by rw [srchParentRefs_eq]; omega)
    obtain ⟨exit, st₁, blk₁, level₁, hd, hs₁, hn₁, hl₁, hlh₁, hal₁, D, hfr₁, hrest, hex, hnil⟩ :=
      deleteLevels_spec h6 (inp.sfl.height - max inp.pos 1) (max inp.pos 1) st
        (inp.blk.toNat / SCOUTFS_SRCH_PARENT_REFS ^ (max inp.pos 1 - 1)) inp.blk h
        (le_max_right _ _) (by omega)
        (fun hlt => (Nat.div_mul_cancel (Nat.dvd_of_mod_eq_zero (hal hlt))).symm)
    rw [hd]
    have hmax₁ : max level₁ 1 = level₁ := max_eq_left hl₁
    rcases exit with _ | ret
    · -- only the root is left
      have hlev := hex rfl
      dsimp only
      rcases hfm : scoutfsFreeMeta st₁ inp.sfl.ref with ⟨ret, st₂⟩
      obtain ⟨hs₂, hn₂, hr⟩ := scoutfsFreeMeta_cases hfm
      dsimp only
      split
      · -- the root's free failed: it is still to free
        rename_i hret
        have hfr₂ : st₂.freed = st₁.freed := by
          rcases hr with hr | hr
          · exact hr.2
          · omega
        refine ⟨ret, st₂, { inp with blk := blk₁, pos := level₁ }, rfl, hs₂.trans hs₁,
          hn₂.trans hn₁, rfl, fun hlt => by simp only [hmax₁] at hlt; omega, D,
          by rw [hfr₂, hfr₁], ?_, ?_⟩
        · simp only [inputRest, hmax₁]
          exact hrest
        · intro hf
          rw [scoutfsFreeMeta_of_nil (hnil hf).2, Prod.mk.injEq] at hfm
          omega
      · -- the root is freed last
        rename_i hret
        have hfr₂ : st₂.freed = inp.sfl.ref :: st₁.freed := by
          rcases hr with hr | hr
          · omega
          · exact hr.2
        refine ⟨0, st₂, { inp with blk := blk₁, pos := level₁ + 1 }, rfl, hs₂.trans hs₁,
          hn₂.trans hn₁, rfl, fun hlt => by simp only at hlt; omega, D ++ [inp.sfl.ref], ?_, ?_, ?_⟩
        · rw [hfr₂, hfr₁, List.reverse_append]
          rfl
        · have hroot : deleteRest node inp.sfl.blocks.toNat inp.sfl.height level₁
              (blk₁.toNat / SCOUTFS_SRCH_PARENT_REFS ^ (level₁ - 1)) = [inp.sfl.ref] := by
            rw [hlev, deleteRest_height, h.root]
          simp only [inputRest]
          rw [hrest, hroot, max_eq_left (by omega : 1 ≤ level₁ + 1),
            deleteRest_of_height_lt (by omega), List.append_nil]
        · intro hf
          refine ⟨rfl, by simp only; omega, ?_⟩
          rw [scoutfsFreeMeta_of_nil (hnil hf).2, Prod.mk.injEq] at hfm
          rw [← hfm.2, SrchRadixState.free_faults, (hnil hf).2]
    · -- stopped inside a level below the height
      refine ⟨ret, st₁, { inp with blk := blk₁, pos := level₁ }, rfl, hs₁, hn₁, rfl,
        fun hlt => by simp only [hmax₁] at hlt ⊢; exact hal₁ hlt, D, hfr₁, ?_,
        fun hf => absurd (hnil hf).1 (by simp)⟩
      simp only [inputRest, hmax₁]
      exact hrest

/-! ### Runs of `delete_file` -/

/-- The runs of `delete_file` on one compact input: each call resumes from the input the last
one saved, whatever it returned; between calls the transaction can commit and the outcomes of
the calls to come (`should_commit`, the frees) can be any. -/
inductive DeleteRun (st₀ : SrchRadixState α) (inp₀ : SrchRadixInput) :
    SrchRadixState α → SrchRadixInput → Prop
  | refl : DeleteRun st₀ inp₀ st₀ inp₀
  | call {st inp ret st' inp'} : DeleteRun st₀ inp₀ st inp →
      deleteFile st inp = some (ret, st', inp') → DeleteRun st₀ inp₀ st' inp'
  | commit {st inp} : DeleteRun st₀ inp₀ st inp → DeleteRun st₀ inp₀ st.commit inp
  | outcomes {st inp} (fs : List Bool) : DeleteRun st₀ inp₀ st inp →
      DeleteRun st₀ inp₀ { st with faults := fs } inp

/-- Over any run of `delete_file` from a new input on a file below height 7, what the run has
freed, in order, and what is left to free make up `deleteOrder`. -/
theorem deleteRun_rest (h : RadixInv st₀ sfl sfl.blocks.toNat node data) (h6 : sfl.height ≤ 6)
    {inp : SrchRadixInput} (hrun : DeleteRun st₀ ⟨sfl, 0, 0⟩ st inp) :
    inp.sfl = sfl ∧ RadixInv st sfl sfl.blocks.toNat node data ∧ InputAligned inp ∧
      ∃ D, st.freed = D.reverse ++ st₀.freed ∧
        deleteOrder node sfl.blocks.toNat sfl.height = D ++ inputRest node inp := by
  induction hrun with
  | refl =>
    refine ⟨rfl, h, fun _ => by simp, [], by simp, ?_⟩
    simp [deleteOrder, inputRest]
  | call hrun hd ih =>
    obtain ⟨hsfl, h', hal, D, hfr, hrest⟩ := ih
    subst hsfl
    obtain ⟨ret, st', inp', hd', hs', hn', hsfl', hal', D', hfr', hrest', -⟩ :=
      deleteFile_spec h' h6 hal
    rw [hd] at hd'
    cases hd'
    refine ⟨hsfl', h'.of_store hs' hn'.ge, hal', D ++ D', ?_, ?_⟩
    · rw [hfr', hfr, List.reverse_append, List.append_assoc]
    · rw [hrest, hrest', List.append_assoc]
  | commit hrun ih =>
    obtain ⟨hsfl, h', hal, D, hfr, hrest⟩ := ih
    exact ⟨hsfl, h'.of_store rfl le_rfl, hal, D, hfr, hrest⟩
  | outcomes fs hrun ih =>
    obtain ⟨hsfl, h', hal, D, hfr, hrest⟩ := ih
    exact ⟨hsfl, h'.of_store rfl le_rfl, hal, D, hfr, hrest⟩

theorem mem_childSpan {node : ℕ → ℕ → ℕ} {level J k x : ℕ} :
    x ∈ childSpan node level J k ↔ ∃ i < k, x = node (level - 1) (J + i) := by
  simp [childSpan, List.mem_range', eq_comm]

/-- `delete_file` frees only nodes whose first block is below the file's blocks, and the
root. -/
theorem mem_deleteOrder {node : ℕ → ℕ → ℕ} {n h x : ℕ} (hx : x ∈ deleteOrder node n h) :
    ∃ L j, x = node L j ∧
      ((L + 1 < h ∧ j * SCOUTFS_SRCH_PARENT_REFS ^ L < n) ∨ (L + 1 = h ∧ j = 0)) := by
  simp only [deleteOrder, deleteRest, List.mem_append] at hx
  rcases hx with hx | hx
  · split at hx
    · rename_i h1
      rw [List.mem_append, List.mem_flatMap] at hx
      rcases hx with hx | ⟨l, hl, hx⟩
      · obtain ⟨i, hi, rfl⟩ := mem_childSpan.1 hx
        have hin := lt_levelCount_iff.1 (show i < levelCount n 0 by simpa using hi)
        exact ⟨0, 0 + i, rfl, .inl ⟨by omega, by simpa using hin⟩⟩
      · rw [List.mem_range'] at hl
        obtain ⟨i, hi, rfl⟩ := mem_childSpan.1 hx
        refine ⟨l - 1, 0 + i, rfl, .inl ⟨by omega, lt_levelCount_iff.1 (by omega)⟩⟩
    · simp at hx
  · split at hx
    · rw [List.mem_singleton] at hx
      exact ⟨h - 1, 0, hx, .inr ⟨by omega, rfl⟩⟩
    · simp at hx

/-- A file of height at least 1 is deleted level by level, the children of the parents at each
level from the leaves' parents up, then its root. -/
theorem deleteOrder_eq (node : ℕ → ℕ → ℕ) {n h : ℕ} (hh : 1 ≤ h) :
    deleteOrder node n h =
      (List.range' 1 (h - 1)).flatMap (fun l => childSpan node l 0 (levelCount n (l - 1))) ++
        [node (h - 1) 0] := by
  rcases Nat.lt_or_ge 1 h with h1 | h1
  · obtain ⟨m, hm⟩ : ∃ m, h - 1 = m + 1 := ⟨h - 2, by omega⟩
    rw [deleteOrder, deleteRest, if_pos h1, if_pos hh, hm, List.range'_succ, List.flatMap_cons,
      Nat.add_sub_cancel]
    simp only [Nat.sub_zero, List.append_assoc]
  · obtain rfl : h = 1 := by omega
    simp [deleteOrder, deleteRest]

theorem mem_deleteOrder_iff {node : ℕ → ℕ → ℕ} {n h x : ℕ} (hh : 1 ≤ h) :
    x ∈ deleteOrder node n h ↔
      (∃ L j, L + 1 < h ∧ j * SCOUTFS_SRCH_PARENT_REFS ^ L < n ∧ x = node L j) ∨
        x = node (h - 1) 0 := by
  rw [deleteOrder_eq node hh, List.mem_append, List.mem_flatMap, List.mem_singleton]
  apply or_congr_left
  constructor
  · rintro ⟨l, hl, hx⟩
    rw [List.mem_range'_1] at hl
    obtain ⟨i, hi, rfl⟩ := mem_childSpan.1 hx
    exact ⟨l - 1, i, by omega, lt_levelCount_iff.1 hi, by rw [Nat.zero_add]⟩
  · rintro ⟨L, j, hL, hj, rfl⟩
    refine ⟨L + 1, List.mem_range'_1.2 ⟨by omega, by omega⟩, mem_childSpan.2 ?_⟩
    exact ⟨j, lt_levelCount_iff.2 hj, by rw [Nat.zero_add, Nat.add_sub_cancel]⟩

/-! ### Reachability -/

/-- The blocks reachable from the file's root ref through the refs of parents, with the level
and the index at which each is reached. -/
inductive RadixReach (st : SrchRadixState α) (sfl : SrchRadixFile) : ℕ → ℕ → ℕ → Prop
  | root : sfl.ref ≠ 0 → RadixReach st sfl (sfl.height - 1) 0 sfl.ref
  | child {L j x refs i} : RadixReach st sfl (L + 1) j x → st.store x = some (.parent refs) →
      i < SCOUTFS_SRCH_PARENT_REFS → refs i ≠ 0 →
      RadixReach st sfl L (j * SCOUTFS_SRCH_PARENT_REFS + i) (refs i)

/-- What is reachable from the root of a radix is its node at the level and index it is
reached at. -/
theorem RadixInv.reach_node (h : RadixInv st sfl n node data) {L j x : ℕ}
    (hr : RadixReach st sfl L j x) : x = node L j ∧ x ≠ 0 ∧ L < sfl.height := by
  induction hr with
  | root hne =>
    refine ⟨h.root, hne, ?_⟩
    by_contra hh
    exact hne (by rw [h.root]; exact h.outside _ _ (by omega))
  | child hx hs hi hne ih =>
    rename_i L j x refs i
    obtain ⟨rfl, hx0, hL⟩ := ih
    rw [h.blocks _ _ hx0, radixBlock, Option.some.injEq, SrchRadixBlock.parent.injEq] at hs
    subst hs
    exact ⟨by simp only [if_pos hi], by simpa [hi] using hne, by omega⟩

/-- Every node of a radix is reachable from its root, at its own level and index. -/
theorem RadixInv.reach_of_ne (h : RadixInv st sfl n node data) :
    ∀ k L j, L + 1 + k = sfl.height → node L j ≠ 0 → RadixReach st sfl L j (node L j)
  | 0, L, j, hk, hne => by
    -- the root
    have hL : L = sfl.height - 1 := by omega
    subst hL
    obtain rfl := h.top j hne
    rw [← h.root] at hne ⊢
    exact .root hne
  | k + 1, L, j, hk, hne => by
    -- the child `j % P` of its parent `j / P`
    have hP : 0 < SCOUTFS_SRCH_PARENT_REFS := by rw [srchParentRefs_eq]; omega
    have hpar := h.up L j hne (by omega)
    have hr := h.reach_of_ne k (L + 1) (j / SCOUTFS_SRCH_PARENT_REFS) (by omega) hpar
    have hc := RadixReach.child (i := j % SCOUTFS_SRCH_PARENT_REFS) hr (h.blocks _ _ hpar)
      (Nat.mod_lt _ hP) (by simpa [Nat.mod_lt _ hP, Nat.div_add_mod'] using hne)
    simpa [Nat.mod_lt _ hP, Nat.div_add_mod'] using hc

/-- The blocks reachable from the root of a radix are its nodes. -/
theorem RadixInv.reach_iff (h : RadixInv st sfl n node data) {x : ℕ} :
    (∃ L j, RadixReach st sfl L j x) ↔ ∃ L j, L < sfl.height ∧ x = node L j ∧ x ≠ 0 := by
  constructor
  · rintro ⟨L, j, hr⟩
    obtain ⟨rfl, hne, hL⟩ := h.reach_node hr
    exact ⟨L, j, hL, rfl, hne⟩
  · rintro ⟨L, j, hL, rfl, hne⟩
    exact ⟨L, j, h.reach_of_ne (sfl.height - 1 - L) L j (by omega) hne⟩

/-- On a radix holding blocks, `delete_file` frees no blkno twice. -/
theorem RadixInv.deleteOrder_nodup (h : RadixInv st sfl n node data) (hn : 0 < n) :
    (deleteOrder node n sfl.height).Nodup := by
  have hh : 1 ≤ sfl.height := Nat.pos_of_ne_zero fun h0 => by have := h.empty h0; omega
  -- the children of the parents at level `l` are the nodes of level `l - 1`, none of them zero
  have hmem : ∀ l, 1 ≤ l → l < sfl.height → ∀ x ∈ childSpan node l 0 (levelCount n (l - 1)),
      ∃ i, x = node (l - 1) i ∧ x ≠ 0 := by
    intro l hl hlh x hx
    obtain ⟨i, hi, rfl⟩ := mem_childSpan.1 hx
    exact ⟨0 + i, rfl, h.full _ _ (by omega) (lt_levelCount_iff.1 (by omega))⟩
  have hroot : node (sfl.height - 1) 0 ≠ 0 := h.full _ _ (by omega) (by simpa using hn)
  rw [deleteOrder_eq node hh, List.nodup_append, List.nodup_flatMap]
  refine ⟨⟨?_, ?_⟩, List.nodup_singleton _, ?_⟩
  · -- one level
    intro l hl
    rw [List.mem_range'_1] at hl
    have hnd : (List.range' 0 (levelCount n (l - 1))).Nodup := List.nodup_range'
    refine hnd.map_on fun a _ b _ hab => ?_
    have hne : node (l - 1) a ≠ 0 := by
      obtain ⟨i, hi, hx⟩ := hmem l (by omega) (by omega) (node (l - 1) a) (by
        rw [childSpan]; exact List.mem_map_of_mem (by assumption))
      exact hx
    exact (h.inj _ _ _ _ hne hab).2
  · -- two levels
    have hnd : (List.range' 1 (sfl.height - 1)).Nodup := List.nodup_range'
    refine hnd.imp_of_mem fun {l l'} hl hl' hll' => List.disjoint_left.2 fun x hx hx' => hll' ?_
    rw [List.mem_range'_1] at hl hl'
    obtain ⟨i, rfl, hne⟩ := hmem l (by omega) (by omega) x hx
    obtain ⟨i', hx', -⟩ := hmem l' (by omega) (by omega) _ hx'
    have := (h.inj _ _ _ _ hne hx').1
    omega
  · -- a level and the root
    intro x hx y hy hxy
    obtain ⟨l, hl, hx⟩ := List.mem_flatMap.1 hx
    rw [List.mem_range'_1] at hl
    rw [List.mem_singleton] at hy
    obtain ⟨i, rfl, hne⟩ := hmem l (by omega) (by omega) x hx
    have := (h.inj _ _ _ _ hne (hxy.trans hy)).1
    omega

/-! ### A failed insert that grows the file -/

theorem heightForBlk_srchParentRefs :
    heightForBlk (UInt64.ofNat SCOUTFS_SRCH_PARENT_REFS) = some 3 := by
  decide

/-- An insert of block `P` into a file of height 2 grows a root of height 3 and a parent at
its `refs[1]`, and when the leaf's allocation fails it returns `-ENOSPC` with both still in
place. -/
theorem getFileBlock_grow_enospc [Inhabited α] (hh : sfl.height = 2)
    (hf : st.faults = [false, false, false, false, true]) :
    ∃ st' sfl', getFileBlock st sfl ⟨true, true⟩ (UInt64.ofNat SCOUTFS_SRCH_PARENT_REFS) =
        some (- ENOSPC, st', sfl', 0) ∧
      sfl'.height = 3 ∧ sfl'.blocks = sfl.blocks ∧ sfl'.ref = st.next + 1 ∧
      st'.store (st.next + 1) =
        some (.parent (Function.update (Function.update (fun _ => 0) 0 sfl.ref) 1 (st.next + 2))) ∧
      st'.store (st.next + 2) = some (.parent fun _ => 0) := by
  have hzero : ∀ level, level ≠ 0 → (SrchRadixBlock.zero level : SrchRadixBlock α) =
      .parent fun _ => 0 := fun level hl => by simp [SrchRadixBlock.zero, hl]
  -- the growth: a new root at `next + 1`, with the old root at `refs[0]`
  have hgrow := blockDirtyRef_zero hf 2
  set st₁ := { st with
    store := Function.update st.store (st.next + 1) (some (.zero 2))
    dirty := Function.update st.dirty (st.next + 1) true
    next := st.next + 1
    faults := [false, false, true] } with hst₁
  have hs₁ : st₁.store (st.next + 1) = some (.parent fun _ => 0) := by
    simp [hst₁, hzero 2 (by omega)]
  set st₂ := st₁.setRef (st.next + 1) 0 sfl.ref with hst₂
  have hG : gfbGrow true (3 - sfl.height) st sfl =
      (0, st₂, { sfl with ref := st.next + 1, height := sfl.height + 1 }) := by
    rw [show 3 - sfl.height = 0 + 1 by omega, gfbGrow]
    simp only [hh, hgrow]
    simp [gfbGrow, hst₂]
  -- the walk from the new root, which is dirty
  have hs₂ : st₂.store (st.next + 1) =
      some (.parent (Function.update (fun _ => 0) 0 sfl.ref)) := by
    rw [hst₂, SrchRadixState.setRef_of_parent _ hs₁]
    simp
  have hd₂ : st₂.dirty (st.next + 1) = true := by
    rw [hst₂, SrchRadixState.setRef_of_parent _ hs₁]
    simp [hst₁]
  have hroot : gfbStep ⟨true, true⟩ 2 st₂ { sfl with ref := st.next + 1, height := 3 } .root =
      (0, st₂, { sfl with ref := st.next + 1, height := 3 }, st.next + 1) := by
    have hread : st₂.readRef 2 (st.next + 1) =
        .ok (.parent (Function.update (fun _ => 0) 0 sfl.ref)) := by
      simp [SrchRadixState.readRef, hs₂, SrchRadixBlock.atLevel]
    simp [gfbStep, refAt, blockDirtyRef_dirty (by omega) hd₂ hread, setRefAt]
  -- its `refs[1]` is zero: a new parent at `next + 2`
  have hf₂ : st₂.faults = false :: false :: [true] := by simp [hst₂, hst₁]
  have hn₂ : st₂.next = st.next + 1 := by simp [hst₂, hst₁]
  set st₃ := { st₂ with
    store := Function.update st₂.store (st₂.next + 1) (some (.zero 1))
    dirty := Function.update st₂.dirty (st₂.next + 1) true
    next := st₂.next + 1
    faults := [true] } with hst₃
  have hs₃ : st₃.store (st.next + 1) = some (.parent (Function.update (fun _ => 0) 0 sfl.ref)) := by
    simp [hst₃, hn₂, hs₂]
  set st₄ := st₃.setRef (st.next + 1) 1 (st.next + 2) with hst₄
  have hpar : gfbStep ⟨true, true⟩ 1 st₂ { sfl with ref := st.next + 1, height := 3 }
      (.parent (st.next + 1) 1) =
      (0, st₄, { sfl with ref := st.next + 1, height := 3 }, st.next + 2) := by
    simp [gfbStep, refAt, hs₂, SrchRadixBlock.refs,
      blockDirtyRef_zero hf₂ 1, setRefAt, hst₄, hst₃, hn₂]
  -- its `refs[0]` is zero too, and the leaf's allocation fails
  have hs₄ : st₄.store (st.next + 2) = some (.parent fun _ => 0) := by
    rw [hst₄, SrchRadixState.setRef_of_parent _ hs₃]
    simp [hst₃, hn₂, hzero 1 (by omega)]
  have hleaf : gfbStep ⟨true, true⟩ 0 st₄ { sfl with ref := st.next + 1, height := 3 }
      (.parent (st.next + 2) 0) =
      (- ENOSPC, { st₄ with faults := [] }, { sfl with ref := st.next + 1, height := 3 }, 0) := by
    have hf₄ : st₄.faults = true :: [] := by simp [hst₄, hst₃]
    simp [gfbStep, refAt, hs₄, SrchRadixBlock.refs, blockDirtyRef_zero_enospc hf₄ 0, ENOSPC]
  have hc₂ : calcRefInd (UInt64.ofNat SCOUTFS_SRCH_PARENT_REFS) 2 = 1 := by decide
  have hc₁ : calcRefInd (UInt64.ofNat SCOUTFS_SRCH_PARENT_REFS) 1 = 0 := by decide
  refine ⟨{ st₄ with faults := [] }, { sfl with ref := st.next + 1, height := 3 }, ?_, rfl, rfl,
    rfl, ?_, hs₄⟩
  · rw [getFileBlock, heightForBlk_srchParentRefs, Option.map_some, hG]
    simp [hh, gfbWalk, hroot, hc₂, hpar, hc₁, hleaf, ENOSPC]
  · rw [hst₄, SrchRadixState.setRef_of_parent _ hs₃]
    simp

/-- Deleting a srch file can leak a block reachable from its root.  A writer fills the blocks
`0, …, P - 1` of a new file; its insert of block `P` then grows the root to height 3 and
hangs a new parent at the root's `refs[1]`, and the allocation of the leaf below it fails.
The file keeps its `P` blocks, so every run of `delete_file` on it, complete ones included,
walks only the first parent of each level and never frees the new one. -/
theorem deleteFile_misses_grown_parent :
    ∃ (st : SrchRadixState ℕ) (sfl : SrchRadixFile) (y : ℕ),
      WriterRun newRadixState ⟨0, 0, 0⟩ (seqWrites SCOUTFS_SRCH_PARENT_REFS) st sfl ∧
      RadixReach st sfl 1 1 y ∧
      (∃ st' inp', DeleteRun st ⟨sfl, 0, 0⟩ st' inp' ∧ sfl.height < inp'.pos) ∧
      ∀ st' inp' D, DeleteRun st ⟨sfl, 0, 0⟩ st' inp' → st'.freed = D ++ st.freed → y ∉ D := by
  -- the file of `P` blocks at height 2
  obtain ⟨st₀, sfl₀, hrun₀, -, hbl₀, hh₀⟩ := writerRun_seqWrites SCOUTFS_SRCH_PARENT_REFS le_rfl
  have hh₀' : sfl₀.height = 2 := by rw [hh₀, srchParentRefs_eq]; rfl
  have hb : UInt64.ofNat SCOUTFS_SRCH_PARENT_REFS ≤ sfl₀.blocks := by
    rw [UInt64.le_iff_toNat_le, toNat_ofNat_srchParentRefs, hbl₀]
  -- the insert of block `P` that fails below the new parent
  have hf₁ : ({ st₀ with faults := [false, false, false, false, true] } : SrchRadixState ℕ).faults =
      [false, false, false, false, true] := rfl
  obtain ⟨st, sfl, hget, hh, hbl, href, hroot, -⟩ := getFileBlock_grow_enospc hh₀' hf₁
  have hrun : WriterRun newRadixState ⟨0, 0, 0⟩ (seqWrites SCOUTFS_SRCH_PARENT_REFS) st sfl :=
    .fail (.outcomes _ hrun₀) hb hget (by simp [ENOSPC])
  obtain ⟨node, data, h, -⟩ := writerRun_inv hrun
  have hn : sfl.blocks.toNat = SCOUTFS_SRCH_PARENT_REFS := by rw [hbl, hbl₀]
  -- the new parent is reached at level 1, index 1
  have hreach : RadixReach st sfl 1 1 (st₀.next + 2) := by
    have hr : RadixReach st sfl (sfl.height - 1) 0 sfl.ref := .root (by rw [href]; omega)
    rw [hh, href] at hr
    have hc := RadixReach.child (i := 1) hr hroot (by rw [srchParentRefs_eq]; omega)
      (by simp)
    simpa using hc
  obtain ⟨hy, hy0, -⟩ := h.reach_node hreach
  refine ⟨st, sfl, st₀.next + 2, hrun, hreach, ?_, ?_⟩
  · -- with no failing outcome one call deletes the whole file
    have hrun' : DeleteRun st ⟨sfl, 0, 0⟩ { st with faults := [] } ⟨sfl, 0, 0⟩ :=
      .outcomes [] .refl
    have h' : RadixInv { st with faults := [] } sfl sfl.blocks.toNat node data :=
      h.of_store rfl le_rfl
    obtain ⟨ret, st', inp', hd, -, -, -, -, -, -, -, hnil⟩ :=
      deleteFile_spec h' (by rw [hh]; omega) (show InputAligned ⟨sfl, 0, 0⟩ from fun _ => by simp)
    exact ⟨st', inp', .call hrun' hd, (hnil rfl).2.1⟩
  · -- everything a run frees is in `deleteOrder`, which the new parent is not in
    intro st' inp' D hrun' hfr hyD
    obtain ⟨-, -, -, D', hfr', hrest⟩ := deleteRun_rest h (by rw [hh]; omega) hrun'
    rw [hfr', List.append_cancel_right_eq] at hfr
    have hmem : st₀.next + 2 ∈ deleteOrder node sfl.blocks.toNat sfl.height := by
      rw [hrest]
      exact List.mem_append_left _ (List.mem_reverse.1 (hfr ▸ hyD))
    obtain ⟨L, j, hx, hLj⟩ := mem_deleteOrder hmem
    obtain ⟨rfl, rfl⟩ := h.inj 1 1 L j (hy ▸ hy0) (hy ▸ hx)
    rw [hh, hn, pow_one, one_mul] at hLj
    omega

/-! ### Files with no node past their blocks -/

/-- In a file of height 2 whose root has no ref at index `n`, no leaf starts past its `n`
blocks: the root's refs are the leaves. -/
theorem RadixInv.leaves_lt_of_root (h : RadixInv st sfl n node data) (hh : sfl.height = 2)
    (hnP : n < SCOUTFS_SRCH_PARENT_REFS)
    (hroot : ∃ refs, st.store sfl.ref = some (.parent refs) ∧ refs n = 0) :
    ∀ L j, node L j ≠ 0 → L + 1 < sfl.height → j * SCOUTFS_SRCH_PARENT_REFS ^ L < n := by
  intro L j hne hL
  obtain rfl : L = 0 := by omega
  rw [pow_zero, mul_one]
  have hcov := h.covers 0 j hne
  rw [pow_zero, mul_one] at hcov
  refine lt_of_le_of_ne hcov fun hjn => ?_
  subst hjn
  -- the leaf at index n hangs under the root, whose block has no ref there
  obtain ⟨refs, hst, hr⟩ := hroot
  have hup := h.up 0 j hne (by omega)
  rw [Nat.div_eq_of_lt hnP] at hup
  have hblk := h.blocks 1 0 hup
  rw [← (show sfl.ref = node 1 0 by rw [h.root, hh]), hst] at hblk
  have hrefs : refs j = node 0 j := by
    simp only [radixBlock, Option.some.injEq, SrchRadixBlock.parent.injEq] at hblk
    rw [hblk]
    simp only [if_pos hnP, zero_mul, zero_add]
  exact hne (hrefs ▸ hr)

/-- On a file below height 7 with blocks, none of whose nodes but the root starts past its
blocks, every complete run of `delete_file` passes each block reachable from the file's root
to `scoutfs_free_meta` exactly once, and no other blkno. -/
theorem deleteRun_frees_reachable_once (h : RadixInv st₀ sfl sfl.blocks.toNat node data)
    (h6 : sfl.height ≤ 6) (hn : 0 < sfl.blocks.toNat)
    (hin : ∀ L j, node L j ≠ 0 → L + 1 < sfl.height →
      j * SCOUTFS_SRCH_PARENT_REFS ^ L < sfl.blocks.toNat)
    {inp : SrchRadixInput} (hrun : DeleteRun st₀ ⟨sfl, 0, 0⟩ st inp) (hdone : sfl.height < inp.pos) :
    ∃ D, st.freed = D ++ st₀.freed ∧ D.Nodup ∧ ∀ x, x ∈ D ↔ ∃ L j, RadixReach st₀ sfl L j x := by
  have hh : 1 ≤ sfl.height := Nat.pos_of_ne_zero fun h0 => by have := h.empty h0; omega
  obtain ⟨hsfl, -, -, D, hfr, hrest⟩ := deleteRun_rest h h6 hrun
  -- a complete run leaves nothing to free
  have hempty : inputRest node inp = [] := by
    rw [inputRest, hsfl]
    exact deleteRest_of_height_lt (by omega) _
  rw [hempty, List.append_nil] at hrest
  refine ⟨D.reverse, hfr, List.nodup_reverse.2 (hrest ▸ h.deleteOrder_nodup hn), fun x => ?_⟩
  rw [List.mem_reverse, ← hrest, mem_deleteOrder_iff hh, h.reach_iff]
  constructor
  · rintro (⟨L, j, hL, hj, rfl⟩ | rfl)
    · exact ⟨L, j, by omega, rfl, h.full L j (by omega) hj⟩
    · exact ⟨sfl.height - 1, 0, by omega, rfl, h.full _ _ (by omega) (by simpa using hn)⟩
  · rintro ⟨L, j, hL, rfl, hne⟩
    by_cases hL' : L + 1 < sfl.height
    · exact .inl ⟨L, j, hL', hin L j hne hL', rfl⟩
    · -- the root
      have hLh : L = sfl.height - 1 := by omega
      subst hLh
      rw [h.top j hne]
      exact .inr rfl

theorem deleteRun_frees_reachable_once_grown :
    ∃ (st : SrchRadixState ℕ) (sfl : SrchRadixFile) (st' : SrchRadixState ℕ)
      (inp : SrchRadixInput) (D : List ℕ),
      WriterRun newRadixState ⟨0, 0, 0⟩ [(0, 7), (1, 8), (2, 9), (1, 10)] st sfl ∧
      sfl.height = 2 ∧ DeleteRun st ⟨sfl, 0, 0⟩ st' inp ∧
      sfl.height < inp.pos ∧ st'.freed = D ++ st.freed ∧ D.Nodup ∧
      ∀ x, x ∈ D ↔ ∃ L j, RadixReach st sfl L j x := by
  obtain ⟨st, sfl, hrun, hh, hf, hbl, hroot⟩ := growRun_reach
  obtain ⟨node, data, h, -⟩ := writerRun_inv hrun
  obtain ⟨ret, st', inp', hd, -, -, -, -, -, -, -, hnil⟩ :=
    deleteFile_spec h (by dsimp only; omega) (show InputAligned ⟨sfl, 0, 0⟩ from fun _ => by simp)
  have hdrun := DeleteRun.call .refl hd
  have hdone := (hnil hf).2.1
  -- the root refers to the three leaves only
  have hin := h.leaves_lt_of_root hh (by rw [hbl, srchParentRefs_eq]; omega) (hbl ▸ hroot)
  obtain ⟨D, hfr, hnd, hmem⟩ := deleteRun_frees_reachable_once h (by omega) (by omega) hin hdrun hdone
  exact ⟨st, sfl, st', inp', D, hrun, hh, hdrun, hdone, hfr, hnd, hmem⟩

end SrchRadix

end Scoutfs
