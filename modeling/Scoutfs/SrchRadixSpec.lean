/-
The radix of a srch file as a map of nodes, and what one step of `get_file_block` does to it.

* `calcRefInd_eq`: `calc_ref_ind` is the digit of `blk` at `level - 1` in base
  `SCOUTFS_SRCH_PARENT_REFS`; `heightForBlk_lt`: a file of the height `height_for_blk` gives
  has room for the block; `heightForBlk_mono`; `heightForBlk_U64_MAX`: the loop never ends
  for the largest block, whose `total` wraps to 0 first.
* `blockDirtyRef_cases`: what `scoutfs_block_dirty_ref` can do.
* `RadixInv`: the file as a radix over a map `node L j` from levels and indices to blknos,
  with the contents `data j` of the leaf of block `j`.  `RadixInv.replace` (a dirtied node on
  the way to a block), `RadixInv.grow` (a new root), `RadixInv.extend` (one more block) and
  `RadixInv.write` (a leaf filled) are the steps that keep it.
-/
import Scoutfs.SrchRadix

namespace Scoutfs

/-! ### Addressing -/

theorem srchParentRefs_eq : SCOUTFS_SRCH_PARENT_REFS = 4094 := rfl

theorem toNat_ofNat_srchParentRefs :
    (UInt64.ofNat SCOUTFS_SRCH_PARENT_REFS).toNat = SCOUTFS_SRCH_PARENT_REFS := by
  rw [srchParentRefs_eq]; rfl

/-- `calc_ref_ind` is the digit of `blk` at `level - 1` in base `SCOUTFS_SRCH_PARENT_REFS`. -/
theorem calcRefInd_eq (blk : UInt64) :
    ∀ level, 1 ≤ level →
      calcRefInd blk level = blk.toNat / SCOUTFS_SRCH_PARENT_REFS ^ (level - 1) % SCOUTFS_SRCH_PARENT_REFS
  | 0, h => absurd h (by omega)
  | 1, _ => by rw [calcRefInd, UInt64.toNat_mod, toNat_ofNat_srchParentRefs]; simp
  | level + 2, _ => by
    rw [calcRefInd, calcRefInd_eq _ (level + 1) (by omega), UInt64.toNat_div,
      toNat_ofNat_srchParentRefs, Nat.div_div_eq_div_mul, ← pow_succ']
    rfl

/-- The index of the level-`L` node on the way to `x`, from the index of its parent. -/
theorem div_pow_succ_mul_add (x L : ℕ) :
    x / SCOUTFS_SRCH_PARENT_REFS ^ (L + 1) * SCOUTFS_SRCH_PARENT_REFS +
      x / SCOUTFS_SRCH_PARENT_REFS ^ L % SCOUTFS_SRCH_PARENT_REFS =
    x / SCOUTFS_SRCH_PARENT_REFS ^ L := by
  rw [pow_succ, ← Nat.div_div_eq_div_mul]
  exact Nat.div_add_mod' _ _

/-! ### `height_for_blk` -/

/-- The loop of `height_for_blk` only raises the height. -/
theorem heightForBlkLoop_ge (blk : UInt64) :
    ∀ fuel total hei r, heightForBlkLoop blk fuel total hei = some r → hei ≤ r
  | 0, _, _, _, h => by cases h
  | fuel + 1, total, hei, r, h => by
    rw [heightForBlkLoop] at h
    split at h
    · have := heightForBlkLoop_ge blk fuel _ (hei + 1) r h
      omega
    · cases h
      exact le_rfl

/-- Where the loop of `height_for_blk` stops, `blk` is below the `hei - 1`-th power of the
refs per parent: the wrapped `total` is never above it. -/
theorem heightForBlkLoop_lt (blk : UInt64) :
    ∀ fuel total hei r, heightForBlkLoop blk fuel total hei = some r →
      total.toNat ≤ SCOUTFS_SRCH_PARENT_REFS ^ (hei - 1) → 2 ≤ hei →
      blk.toNat < SCOUTFS_SRCH_PARENT_REFS ^ (r - 1)
  | 0, _, _, _, h, _, _ => by cases h
  | fuel + 1, total, hei, r, h, ht, hh => by
    rw [heightForBlkLoop] at h
    split at h
    · have ht' : (total * UInt64.ofNat SCOUTFS_SRCH_PARENT_REFS).toNat ≤
          SCOUTFS_SRCH_PARENT_REFS ^ (hei + 1 - 1) := by
        have e : SCOUTFS_SRCH_PARENT_REFS ^ (hei + 1 - 1) =
            SCOUTFS_SRCH_PARENT_REFS ^ (hei - 1) * SCOUTFS_SRCH_PARENT_REFS := by
          rw [← pow_succ]; congr 1; omega
        rw [UInt64.toNat_mul, toNat_ofNat_srchParentRefs, e]
        exact (Nat.mod_le _ _).trans (Nat.mul_le_mul_right _ ht)
      exact heightForBlkLoop_lt blk fuel _ (hei + 1) r h ht' (by omega)
    · cases h
      rename_i hlt
      rw [ge_iff_le, UInt64.le_iff_toNat_le] at hlt
      omega

/-- A file of height `hei` has room for `blk` (`height_for_blk` never returns below 1). -/
theorem heightForBlk_lt {blk : UInt64} {hei : ℕ} (h : heightForBlk blk = some hei) :
    blk.toNat < SCOUTFS_SRCH_PARENT_REFS ^ (hei - 1) ∧ 1 ≤ hei := by
  unfold heightForBlk at h
  split at h
  · cases h
    subst blk
    simp
  · exact ⟨heightForBlkLoop_lt blk 64 _ 2 hei h
      (by rw [toNat_ofNat_srchParentRefs]; simp) le_rfl,
      by have := heightForBlkLoop_ge blk 64 _ 2 hei h; omega⟩

/-- The loop of `height_for_blk` stops no later for a smaller block. -/
theorem heightForBlkLoop_mono {c b : UInt64} (hcb : c ≤ b) :
    ∀ fuel total hei r, heightForBlkLoop b fuel total hei = some r →
      ∃ r', heightForBlkLoop c fuel total hei = some r' ∧ r' ≤ r
  | 0, _, _, _, h => by cases h
  | fuel + 1, total, hei, r, h => by
    rw [heightForBlkLoop] at h ⊢
    by_cases hb : b ≥ total
    · rw [if_pos hb] at h
      by_cases hc : c ≥ total
      · rw [if_pos hc]
        exact heightForBlkLoop_mono hcb fuel _ _ r h
      · rw [if_neg hc]
        have := heightForBlkLoop_ge b fuel _ _ r h
        exact ⟨hei, rfl, by omega⟩
    · rw [if_neg hb] at h
      have hc : ¬ c ≥ total := fun hc => hb (UInt64.le_trans hc hcb)
      rw [if_neg hc]
      exact ⟨hei, rfl, by cases h; exact le_rfl⟩

/-- `height_for_blk` needs no more height for a smaller block. -/
theorem heightForBlk_mono {c b : UInt64} (hcb : c ≤ b) {hb : ℕ} (h : heightForBlk b = some hb) :
    ∃ hc, heightForBlk c = some hc ∧ hc ≤ hb := by
  have hb1 := (heightForBlk_lt h).2
  unfold heightForBlk at h ⊢
  by_cases hc0 : c = 0
  · exact ⟨1, by rw [if_pos hc0], hb1⟩
  · rw [if_neg hc0]
    have hb0 : b ≠ 0 := by
      rintro rfl
      exact hc0 (UInt64.le_antisymm hcb UInt64.zero_le)
    rw [if_neg hb0] at h
    exact heightForBlkLoop_mono hcb 64 _ 2 hb h

/-- The largest block has no height: the loop of `height_for_blk` never ends for it. -/
theorem heightForBlk_U64_MAX : heightForBlk U64_MAX = none := by
  decide

/-- A block that has a height has a successor in `u64`. -/
theorem toNat_add_one_of_heightForBlk {blk : UInt64} {hei : ℕ} (h : heightForBlk blk = some hei) :
    (blk + 1).toNat = blk.toNat + 1 := by
  have hne : blk ≠ U64_MAX := by
    rintro rfl
    rw [heightForBlk_U64_MAX] at h
    cases h
  have hlt : blk.toNat < 2 ^ 64 - 1 := by
    have := blk.toNat_lt_size
    have : blk.toNat ≠ 2 ^ 64 - 1 := fun e => hne (UInt64.toNat_inj.1 (by rw [e]; rfl))
    simp only [UInt64.size] at *
    omega
  rw [UInt64.toNat_add, UInt64.toNat_one]
  exact Nat.mod_eq_of_lt (by omega)

namespace SrchRadixState

variable {α : Type} (st : SrchRadixState α)

@[simp] theorem takeFault_store : st.takeFault.2.store = st.store := by
  unfold takeFault; split <;> rfl

@[simp] theorem takeFault_next : st.takeFault.2.next = st.next := by
  unfold takeFault; split <;> rfl

@[simp] theorem takeFault_freed : st.takeFault.2.freed = st.freed := by
  unfold takeFault; split <;> rfl

@[simp] theorem takeFault_dirty : st.takeFault.2.dirty = st.dirty := by
  unfold takeFault; split <;> rfl

theorem takeFault_of_nil (h : st.faults = []) : st.takeFault = (false, st) := by
  rw [takeFault, h]

theorem takeFault_of_cons {f : Bool} {fs : List Bool} (h : st.faults = f :: fs) :
    st.takeFault = (f, { st with faults := fs }) := by
  rw [takeFault, h]

@[simp] theorem free_store (b : ℕ) : (st.free b).store = st.store := rfl
@[simp] theorem free_next (b : ℕ) : (st.free b).next = st.next := rfl
@[simp] theorem free_faults (b : ℕ) : (st.free b).faults = st.faults := rfl
@[simp] theorem free_freed (b : ℕ) : (st.free b).freed = b :: st.freed := rfl

theorem setRef_of_parent {p : ℕ} {refs : ℕ → ℕ} (h : st.store p = some (.parent refs)) (ind v : ℕ) :
    st.setRef p ind v =
      { st with store := Function.update st.store p (some (.parent (Function.update refs ind v))) } := by
  rw [setRef, h]

@[simp] theorem setRef_next (p ind v : ℕ) : (st.setRef p ind v).next = st.next := by
  unfold setRef; split <;> rfl

@[simp] theorem setRef_faults (p ind v : ℕ) : (st.setRef p ind v).faults = st.faults := by
  unfold setRef; split <;> rfl

@[simp] theorem setRef_freed (p ind v : ℕ) : (st.setRef p ind v).freed = st.freed := by
  unfold setRef; split <;> rfl

end SrchRadixState

namespace SrchRadix

variable {α : Type}

/-! ### `scoutfs_block_dirty_ref` -/

theorem readRef_error_neg {st : SrchRadixState α} {level b : ℕ} {e : Int}
    (h : st.readRef level b = .error e) : e < 0 := by
  unfold SrchRadixState.readRef at h
  split at h
  · split at h <;> cases h
    simp [ESTALE]
  · cases h
    simp [ESTALE]

/-- `scoutfs_alloc_meta` fails, or hands out the blkno after the highest one. -/
theorem scoutfsAllocMeta_cases {st st' : SrchRadixState α} {ret : Int} {b : ℕ}
    (h : scoutfsAllocMeta st = (ret, st', b)) :
    st'.store = st.store ∧
      ((ret < 0 ∧ st'.next = st.next) ∨ (ret = 0 ∧ b = st.next + 1 ∧ st'.next = st.next + 1)) := by
  unfold scoutfsAllocMeta at h
  rcases hf : st.takeFault with ⟨fail, st₁⟩
  have hs : st₁.store = st.store := by rw [← st.takeFault_store, hf]
  have hn : st₁.next = st.next := by rw [← st.takeFault_next, hf]
  rw [hf] at h
  dsimp only at h
  split at h
  · cases h
    exact ⟨hs, .inl ⟨by simp [ENOSPC], hn⟩⟩
  · cases h
    exact ⟨hs, .inr ⟨rfl, by rw [hn], by rw [hn]⟩⟩

/-- `scoutfs_free_meta` records the blkno, or fails; the blocks stay as they are. -/
theorem scoutfsFreeMeta_cases {st st' : SrchRadixState α} {b : ℕ} {ret : Int}
    (h : scoutfsFreeMeta st b = (ret, st')) :
    st'.store = st.store ∧ st'.next = st.next ∧
      ((ret < 0 ∧ st'.freed = st.freed) ∨ (ret = 0 ∧ st'.freed = b :: st.freed)) := by
  unfold scoutfsFreeMeta at h
  rcases hf : st.takeFault with ⟨fail, st₁⟩
  have hs : st₁.store = st.store := by rw [← st.takeFault_store, hf]
  have hn : st₁.next = st.next := by rw [← st.takeFault_next, hf]
  have hd : st₁.freed = st.freed := by rw [← st.takeFault_freed, hf]
  rw [hf] at h
  dsimp only at h
  split at h
  · cases h
    exact ⟨hs, hn, .inl ⟨by simp [ENOSPC], hd⟩⟩
  · cases h
    exact ⟨hs, hn, .inr ⟨rfl, by simp [hd]⟩⟩

/-- What `scoutfs_block_dirty_ref` can do: fail with the blocks as they were, return a dirty
block as it is, or put a copy of the original (or a zeroed block) at the blkno after the
highest one handed out. -/
theorem blockDirtyRef_cases [Inhabited α] (st : SrchRadixState α) (level ref : ℕ) :
    (∃ ret st', blockDirtyRef st level ref = (ret, st', ref) ∧ ret < 0 ∧
      st'.store = st.store ∧ st.next ≤ st'.next) ∨
    (ref ≠ 0 ∧ st.dirty ref = true ∧ (∃ b, st.readRef level ref = .ok b) ∧
      blockDirtyRef st level ref = (0, st, ref)) ∨
    (∃ st' orig, blockDirtyRef st level ref = (0, st', st.next + 1) ∧
      readOrig st level ref = .ok orig ∧ st'.next = st.next + 1 ∧
      st'.store = Function.update st.store (st.next + 1) (some (orig.getD (.zero level)))) := by
  unfold blockDirtyRef
  rcases horig : readOrig st level ref with e | orig
  · -- the read of the original failed
    refine Or.inl ⟨e, st, rfl, ?_, rfl, le_rfl⟩
    unfold readOrig at horig
    split at horig
    · cases horig
    · cases hr : st.readRef level ref with
      | error e' => rw [hr] at horig; cases horig; exact readRef_error_neg hr
      | ok b => rw [hr] at horig; cases horig
  · dsimp only
    split
    · rename_i hd
      refine Or.inr (Or.inl ⟨hd.1, hd.2, ?_, rfl⟩)
      unfold readOrig at horig
      rw [if_neg hd.1] at horig
      cases hr : st.readRef level ref with
      | error e' => rw [hr] at horig; cases horig
      | ok b => exact ⟨b, rfl⟩
    · rcases ha : scoutfsAllocMeta st with ⟨ret, st₁, blkno⟩
      obtain ⟨hs₁, ⟨hret, hn₁⟩ | ⟨rfl, rfl, hn₁⟩⟩ := scoutfsAllocMeta_cases ha
      · -- the allocation failed
        rw [if_pos hret]
        exact Or.inl ⟨ret, st₁, rfl, hret, hs₁, hn₁.ge⟩
      · rw [if_neg (lt_irrefl 0)]
        rcases hf : st₁.takeFault with ⟨fail, st₂⟩
        have hs₂ : st₂.store = st.store := by rw [← hs₁, ← st₁.takeFault_store, hf]
        have hn₂ : st₂.next = st.next + 1 := by rw [← hn₁, ← st₁.takeFault_next, hf]
        dsimp only
        split
        · -- the cached block could not be allocated
          exact Or.inl ⟨_, _, rfl, by simp [ENOMEM], by simp [hs₂], by simp [hn₂]⟩
        · rcases hfm : (if ref ≠ 0 then scoutfsFreeMeta st₂ ref else (0, st₂)) with ⟨ret', st₃⟩
          have hst₃ : st₃.store = st.store ∧ st₃.next = st.next + 1 ∧ (ret' = 0 ∨ ret' < 0) := by
            split at hfm
            · obtain ⟨hs, hn, hr⟩ := scoutfsFreeMeta_cases hfm
              exact ⟨hs.trans hs₂, hn.trans hn₂, hr.elim (fun h => .inr h.1) (fun h => .inl h.1)⟩
            · cases hfm
              exact ⟨hs₂, hn₂, .inl rfl⟩
          obtain ⟨hs₃, hn₃, hr₃⟩ := hst₃
          dsimp only
          split
          · -- freeing the original failed
            exact Or.inl ⟨_, _, rfl, by assumption, by simp [hs₃], by simp [hn₃]⟩
          · exact Or.inr (Or.inr ⟨_, orig, rfl, rfl, hn₃, by rw [hs₃]⟩)


/-- With no failing outcome to come, `scoutfs_block_dirty_ref` of a block it can read
succeeds and leaves no outcome. -/
theorem blockDirtyRef_of_nil [Inhabited α] {st : SrchRadixState α} {level ref : ℕ}
    {orig : Option (SrchRadixBlock α)} (hf : st.faults = []) (horig : readOrig st level ref = .ok orig) :
    (blockDirtyRef st level ref).1 = 0 ∧ (blockDirtyRef st level ref).2.1.faults = [] := by
  unfold blockDirtyRef
  rw [horig]
  by_cases hd : ref ≠ 0 ∧ st.dirty ref = true
  · simp [if_pos hd, hf]
  · -- allocating, the cached block and freeing the original all succeed
    simp only [if_neg hd, scoutfsAllocMeta, scoutfsFreeMeta, SrchRadixState.takeFault, hf,
      Bool.false_eq_true, if_false, lt_irrefl]
    split <;> simp

/-- A zero ref is dirtied into a zeroed block at the blkno after the highest one handed out,
when the allocation and the cached block succeed. -/
theorem blockDirtyRef_zero [Inhabited α] {st : SrchRadixState α} {fs : List Bool}
    (hf : st.faults = false :: false :: fs) (level : ℕ) :
    blockDirtyRef st level 0 =
      (0, { st with
          store := Function.update st.store (st.next + 1) (some (.zero level))
          dirty := Function.update st.dirty (st.next + 1) true
          next := st.next + 1
          faults := fs }, st.next + 1) := by
  simp [blockDirtyRef, readOrig, scoutfsAllocMeta, SrchRadixState.takeFault, hf]

/-- A zero ref whose allocation fails stays zero. -/
theorem blockDirtyRef_zero_enospc [Inhabited α] {st : SrchRadixState α} {fs : List Bool}
    (hf : st.faults = true :: fs) (level : ℕ) :
    blockDirtyRef st level 0 = (- ENOSPC, { st with faults := fs }, 0) := by
  simp [blockDirtyRef, readOrig, scoutfsAllocMeta, SrchRadixState.takeFault, hf, ENOSPC]

/-- A dirty block is returned as it is. -/
theorem blockDirtyRef_dirty [Inhabited α] {st : SrchRadixState α} {level ref : ℕ}
    {b : SrchRadixBlock α} (h0 : ref ≠ 0) (hd : st.dirty ref = true)
    (hr : st.readRef level ref = .ok b) :
    blockDirtyRef st level ref = (0, st, ref) := by
  simp [blockDirtyRef, readOrig, h0, hd, hr, Except.map]

/-! ### The radix as a map of nodes -/

/-- The block the radix expects at level `L` and index `j`: the leaf holding the file's
block `j`, or the parent whose refs lead to the nodes below it. -/
def radixBlock (node : ℕ → ℕ → ℕ) (data : ℕ → α) : ℕ → ℕ → SrchRadixBlock α
  | 0, j => .leaf (data j)
  | L + 1, j => .parent fun i =>
    if i < SCOUTFS_SRCH_PARENT_REFS then node L (j * SCOUTFS_SRCH_PARENT_REFS + i) else 0

/-- The node map with the node at level `L` and index `j` replaced by `y`. -/
def setNode (node : ℕ → ℕ → ℕ) (L j y : ℕ) : ℕ → ℕ → ℕ :=
  Function.update node L (Function.update (node L) j y)

theorem setNode_apply (node : ℕ → ℕ → ℕ) (L j y L' j' : ℕ) :
    setNode node L j y L' j' = if L' = L ∧ j' = j then y else node L' j' := by
  unfold setNode
  by_cases hL : L' = L
  · subst hL
    by_cases hj : j' = j
    · subst hj; simp
    · simp [hj]
  · simp [hL]

@[simp] theorem setNode_same (node : ℕ → ℕ → ℕ) (L j y : ℕ) : setNode node L j y L j = y := by
  simp [setNode_apply]

theorem setNode_of_ne {node : ℕ → ℕ → ℕ} {L j y L' j' : ℕ} (h : ¬(L' = L ∧ j' = j)) :
    setNode node L j y L' j' = node L' j' := by
  rw [setNode_apply, if_neg h]

/-- A radix block reads the nodes one level down and the data of its own index only. -/
theorem radixBlock_congr {node node' : ℕ → ℕ → ℕ} {data data' : ℕ → α} {L j : ℕ}
    (hnode : 0 < L → ∀ i < SCOUTFS_SRCH_PARENT_REFS,
      node' (L - 1) (j * SCOUTFS_SRCH_PARENT_REFS + i) = node (L - 1) (j * SCOUTFS_SRCH_PARENT_REFS + i))
    (hdata : L = 0 → data' j = data j) :
    radixBlock node' data' L j = radixBlock node data L j := by
  cases L with
  | zero => rw [radixBlock, radixBlock, hdata rfl]
  | succ L =>
    rw [radixBlock, radixBlock]
    congr 1
    funext i
    split
    · exact hnode (Nat.succ_pos L) i ‹_›
    · rfl

/-- The child `i` of the node with index `j` has index `j * P + i`, whose parent is `j`. -/
theorem child_div {j i : ℕ} (hi : i < SCOUTFS_SRCH_PARENT_REFS) :
    (j * SCOUTFS_SRCH_PARENT_REFS + i) / SCOUTFS_SRCH_PARENT_REFS = j := by
  have hP : 0 < SCOUTFS_SRCH_PARENT_REFS := by rw [srchParentRefs_eq]; omega
  rw [Nat.add_comm, Nat.add_mul_div_right _ _ hP, Nat.div_eq_of_lt hi, Nat.zero_add]

/-- `sfl` is a radix of `n` logical blocks in `st`.  `node L j` is the blkno of the block at
level `L` whose first logical block is `j * P ^ L` (`0` for none), and `data j` is the
contents of the leaf of logical block `j`.  Above the leaves, nodes may reach as far as block
`n`, where an insertion that failed on its way down left them. -/
structure RadixInv (st : SrchRadixState α) (sfl : SrchRadixFile) (n : ℕ)
    (node : ℕ → ℕ → ℕ) (data : ℕ → α) : Prop where
  root : sfl.ref = node (sfl.height - 1) 0
  empty : sfl.height = 0 → n = 0
  outside : ∀ L j, sfl.height ≤ L → node L j = 0
  blocks : ∀ L j, node L j ≠ 0 → st.store (node L j) = some (radixBlock node data L j)
  inj : ∀ L j L' j', node L j ≠ 0 → node L j = node L' j' → L = L' ∧ j = j'
  fresh : ∀ L j, node L j ≤ st.next
  covers : ∀ L j, node L j ≠ 0 → j * SCOUTFS_SRCH_PARENT_REFS ^ L ≤ n
  top : ∀ j, node (sfl.height - 1) j ≠ 0 → j = 0
  full : ∀ L j, L < sfl.height → j * SCOUTFS_SRCH_PARENT_REFS ^ L < n → node L j ≠ 0
  up : ∀ L j, node L j ≠ 0 → L + 1 < sfl.height →
    node (L + 1) (j / SCOUTFS_SRCH_PARENT_REFS) ≠ 0
  height : 0 < n → ∃ hei, heightForBlk (UInt64.ofNat (n - 1)) = some hei ∧ hei ≤ sfl.height

namespace RadixInv

variable {st st' : SrchRadixState α} {sfl sfl' : SrchRadixFile} {n : ℕ} {node : ℕ → ℕ → ℕ}
  {data : ℕ → α}

/-- The file's blocks fit under its root. -/
theorem capacity (h : RadixInv st sfl n node data) (hh : 0 < sfl.height) :
    n ≤ SCOUTFS_SRCH_PARENT_REFS ^ (sfl.height - 1) := by
  by_contra hlt
  have hne := h.full (sfl.height - 1) 1 (by omega) (by omega)
  exact absurd (h.top 1 hne) (by omega)

/-- A missing node has no children. -/
theorem child_eq_zero (h : RadixInv st sfl n node data) {L j : ℕ} (hz : node (L + 1) j = 0)
    (hL : L + 1 < sfl.height) {i : ℕ} (hi : i < SCOUTFS_SRCH_PARENT_REFS) :
    node L (j * SCOUTFS_SRCH_PARENT_REFS + i) = 0 := by
  by_contra hne
  have := h.up L _ hne hL
  rw [child_div hi] at this
  exact this hz

/-- The invariant reads only the blocks and the highest blkno handed out. -/
theorem of_store (h : RadixInv st sfl n node data) (hs : st'.store = st.store)
    (hn : st.next ≤ st'.next) : RadixInv st' sfl n node data where
  root := h.root
  empty := h.empty
  outside := h.outside
  blocks L j hne := hs ▸ h.blocks L j hne
  inj := h.inj
  fresh L j := (h.fresh L j).trans hn
  covers := h.covers
  top := h.top
  full := h.full
  up := h.up
  height := h.height

/-- Replacing the node at level `L` and index `j`, on the way to a block at most `n`, by a
new blkno `y` that holds the block the radix expects, with the ref of its parent (or the
file's root ref) pointing at it, keeps the radix. -/
theorem replace (h : RadixInv st sfl n node data) {L j y : ℕ} {data' : ℕ → α}
    (hL : L < sfl.height) (hcov : j * SCOUTFS_SRCH_PARENT_REFS ^ L ≤ n)
    (hpar : L + 1 < sfl.height → node (L + 1) (j / SCOUTFS_SRCH_PARENT_REFS) ≠ 0)
    (hroot : L + 1 = sfl.height → j = 0)
    (hy : st.next < y) (hnext : y ≤ st'.next)
    (hdata : ∀ j', node 0 j' ≠ 0 → (L = 0 → j' ≠ j) → data' j' = data j')
    (hsy : st'.store y = some (radixBlock (setNode node L j y) data' L j))
    (hspar : L + 1 < sfl.height → st'.store (node (L + 1) (j / SCOUTFS_SRCH_PARENT_REFS)) =
      some (radixBlock (setNode node L j y) data' (L + 1) (j / SCOUTFS_SRCH_PARENT_REFS)))
    (hsother : ∀ x, x ≠ y → (L + 1 < sfl.height → x ≠ node (L + 1) (j / SCOUTFS_SRCH_PARENT_REFS)) →
      st'.store x = st.store x)
    (hsfl : sfl' = if L + 1 = sfl.height then { sfl with ref := y } else sfl) :
    RadixInv st' sfl' n (setNode node L j y) data' := by
  have hy0 : y ≠ 0 := by omega
  have hold : ∀ L' j', node L' j' ≠ y := fun L' j' e => by have := h.fresh L' j'; omega
  have hh : sfl'.height = sfl.height := by subst hsfl; split <;> rfl
  have href : sfl'.ref = if L + 1 = sfl.height then y else sfl.ref := by
    subst hsfl; split <;> rfl
  -- an old node lies below the height
  have hlt : ∀ L' j', node L' j' ≠ 0 → L' < sfl.height := fun L' j' hne => by
    by_contra hge
    exact hne (h.outside L' j' (by omega))
  constructor
  case root =>
    rw [href, hh]
    split
    · rename_i hr
      rw [show sfl.height - 1 = L by omega, hroot hr, setNode_same]
    · rw [setNode_of_ne (by omega), h.root]
  case empty => rw [hh]; exact h.empty
  case outside =>
    intro L' j' hL'
    rw [hh] at hL'
    rw [setNode_of_ne (by omega)]
    exact h.outside L' j' hL'
  case blocks =>
    intro L' j' hne
    by_cases hself : L' = L ∧ j' = j
    · obtain ⟨rfl, rfl⟩ := hself
      rw [setNode_same, hsy]
    rw [setNode_of_ne hself] at hne ⊢
    by_cases hp : L' = L + 1 ∧ j' = j / SCOUTFS_SRCH_PARENT_REFS
    · obtain ⟨rfl, rfl⟩ := hp
      exact hspar (hlt _ _ hne)
    rw [hsother _ (hold L' j') (fun _ e => hp (h.inj _ _ _ _ hne e)), h.blocks L' j' hne]
    congr 1
    symm
    apply radixBlock_congr
    · -- the children of an old parent other than the replaced node's parent are old
      intro hL0 i hi
      apply setNode_of_ne
      rintro ⟨hl, hj⟩
      apply hp
      refine ⟨by omega, ?_⟩
      rw [← hj, child_div hi]
    · intro hL0
      subst hL0
      exact hdata j' hne (fun hL hj => hself ⟨hL.symm, hj⟩)
  case inj =>
    intro L₁ j₁ L₂ j₂ hne heq
    rw [setNode_apply, setNode_apply] at heq
    rw [setNode_apply] at hne
    by_cases h₁ : L₁ = L ∧ j₁ = j <;> by_cases h₂ : L₂ = L ∧ j₂ = j
    · exact ⟨h₁.1.trans h₂.1.symm, h₁.2.trans h₂.2.symm⟩
    · rw [if_pos h₁, if_neg h₂] at heq
      exact absurd heq.symm (hold L₂ j₂)
    · rw [if_neg h₁, if_pos h₂] at heq
      exact absurd heq (hold L₁ j₁)
    · rw [if_neg h₁, if_neg h₂] at heq
      rw [if_neg h₁] at hne
      exact h.inj _ _ _ _ hne heq
  case fresh =>
    intro L' j'
    rw [setNode_apply]
    split
    · exact hnext
    · have := h.fresh L' j'
      omega
  case covers =>
    intro L' j' hne
    by_cases hself : L' = L ∧ j' = j
    · obtain ⟨rfl, rfl⟩ := hself
      exact hcov
    rw [setNode_of_ne hself] at hne
    exact h.covers L' j' hne
  case top =>
    intro j' hne
    rw [hh] at hne
    by_cases hself : sfl.height - 1 = L ∧ j' = j
    · rw [hself.2]
      exact hroot (by omega)
    rw [setNode_of_ne hself] at hne
    exact h.top j' hne
  case full =>
    intro L' j' hL' hlt'
    rw [hh] at hL'
    rw [setNode_apply]
    split
    · exact hy0
    · exact h.full L' j' hL' hlt'
  case up =>
    intro L' j' hne hL'
    rw [hh] at hL'
    by_cases hself : L' = L ∧ j' = j
    · obtain ⟨rfl, rfl⟩ := hself
      rw [setNode_of_ne (by omega)]
      exact hpar hL'
    rw [setNode_of_ne hself] at hne
    rw [setNode_apply]
    split
    · exact hy0
    · exact h.up L' j' hne hL'
  case height => rw [hh]; exact h.height

/-- A new root at the file's height `h`, holding the block the radix expects (the old root
at its `refs[0]`), keeps the radix with one more level. -/
theorem grow (h : RadixInv st sfl n node data) {y : ℕ} {data' : ℕ → α}
    (hy : st.next < y) (hnext : y ≤ st'.next)
    (hdata : ∀ j', node 0 j' ≠ 0 → data' j' = data j')
    (hsy : st'.store y = some (radixBlock (setNode node sfl.height 0 y) data' sfl.height 0))
    (hsother : ∀ x, x ≠ y → st'.store x = st.store x) :
    RadixInv st' { sfl with ref := y, height := sfl.height + 1 } n
      (setNode node sfl.height 0 y) data' := by
  have hy0 : y ≠ 0 := by omega
  have hold : ∀ L' j', node L' j' ≠ y := fun L' j' e => by have := h.fresh L' j'; omega
  have hlt : ∀ L' j', node L' j' ≠ 0 → L' < sfl.height := fun L' j' hne => by
    by_contra hge
    exact hne (h.outside L' j' (by omega))
  constructor
  case root => simp
  case empty => intro h0; simp at h0
  case outside =>
    intro L' j' hL'
    simp only at hL'
    rw [setNode_of_ne (by omega)]
    exact h.outside L' j' (by omega)
  case blocks =>
    intro L' j' hne
    by_cases hself : L' = sfl.height ∧ j' = 0
    · obtain ⟨rfl, rfl⟩ := hself
      rw [setNode_same, hsy]
    rw [setNode_of_ne hself] at hne ⊢
    rw [hsother _ (hold L' j'), h.blocks L' j' hne]
    congr 1
    symm
    apply radixBlock_congr
    · intro _ i _
      exact setNode_of_ne (by have := hlt L' j' hne; omega)
    · intro hL0
      subst hL0
      exact hdata j' hne
  case inj =>
    intro L₁ j₁ L₂ j₂ hne heq
    rw [setNode_apply, setNode_apply] at heq
    rw [setNode_apply] at hne
    by_cases h₁ : L₁ = sfl.height ∧ j₁ = 0 <;> by_cases h₂ : L₂ = sfl.height ∧ j₂ = 0
    · exact ⟨h₁.1.trans h₂.1.symm, h₁.2.trans h₂.2.symm⟩
    · rw [if_pos h₁, if_neg h₂] at heq
      exact absurd heq.symm (hold L₂ j₂)
    · rw [if_neg h₁, if_pos h₂] at heq
      exact absurd heq (hold L₁ j₁)
    · rw [if_neg h₁, if_neg h₂] at heq
      rw [if_neg h₁] at hne
      exact h.inj _ _ _ _ hne heq
  case fresh =>
    intro L' j'
    rw [setNode_apply]
    split
    · exact hnext
    · have := h.fresh L' j'
      omega
  case covers =>
    intro L' j' hne
    by_cases hself : L' = sfl.height ∧ j' = 0
    · rw [hself.2]
      simp
    rw [setNode_of_ne hself] at hne
    exact h.covers L' j' hne
  case top =>
    intro j' hne
    simp only [Nat.add_sub_cancel] at hne
    by_contra hj
    rw [setNode_of_ne (by omega), h.outside _ _ le_rfl] at hne
    exact hne rfl
  case full =>
    intro L' j' hL' hlt'
    simp only at hL'
    by_cases hL : L' = sfl.height
    · -- the new top level holds only the new root: the blocks fit under the old one
      subst hL
      have hj : j' = 0 := by
        rcases Nat.eq_zero_or_pos sfl.height with h0 | hpos
        · rw [h.empty h0] at hlt'
          omega
        · have hcap := h.capacity hpos
          have hpow : SCOUTFS_SRCH_PARENT_REFS ^ (sfl.height - 1) ≤
              SCOUTFS_SRCH_PARENT_REFS ^ sfl.height :=
            Nat.pow_le_pow_right (by rw [srchParentRefs_eq]; omega) (by omega)
          by_contra hj
          have : SCOUTFS_SRCH_PARENT_REFS ^ sfl.height ≤ j' * SCOUTFS_SRCH_PARENT_REFS ^ sfl.height :=
            Nat.le_mul_of_pos_left _ (by omega)
          omega
      rw [hj, setNode_same]
      exact hy0
    · rw [setNode_of_ne (by omega)]
      exact h.full L' j' (by omega) hlt'
  case up =>
    intro L' j' hne hL'
    simp only at hL'
    by_cases hself : L' = sfl.height ∧ j' = 0
    · omega
    rw [setNode_of_ne hself] at hne
    rw [setNode_apply]
    split
    · exact hy0
    · by_cases hL : L' + 1 = sfl.height
      · -- the old root hangs under the new one
        rename_i hne'
        have hj := h.top j' (by rw [show sfl.height - 1 = L' by omega]; exact hne)
        exact absurd ⟨hL.symm ▸ rfl, by rw [hj]; simp⟩ hne'
      · exact h.up L' j' hne (by omega)
  case height =>
    intro hn
    obtain ⟨hei, hb, hle⟩ := h.height hn
    exact ⟨hei, hb, by simp only; omega⟩

/-- The nodes on the way to a leaf are all there. -/
theorem path_ne_zero (h : RadixInv st sfl n node data) {b : ℕ} (hb : node 0 b ≠ 0) :
    ∀ L, L < sfl.height → node L (b / SCOUTFS_SRCH_PARENT_REFS ^ L) ≠ 0
  | 0, _ => by simpa using hb
  | L + 1, hL => by
    have := h.up L _ (path_ne_zero h hb L (by omega)) hL
    rwa [Nat.div_div_eq_div_mul, ← pow_succ] at this

/-- Once the leaf of block `b`, at most `n`, is there and the file is high enough for `b`,
the file holds the blocks up to `b`. -/
theorem extend (h : RadixInv st sfl n node data) {b : ℕ} (hbn : b ≤ n) (hb : node 0 b ≠ 0)
    {hei : ℕ} (hhei : heightForBlk (UInt64.ofNat b) = some hei) (hle : hei ≤ sfl.height) :
    RadixInv st sfl (max n (b + 1)) node data := by
  have hlt : 0 < sfl.height := by
    have := (heightForBlk_lt hhei).2
    omega
  constructor
  case root => exact h.root
  case empty => intro h0; omega
  case outside => exact h.outside
  case blocks => exact h.blocks
  case inj => exact h.inj
  case fresh => exact h.fresh
  case covers => exact fun L j hne => (h.covers L j hne).trans (le_max_left _ _)
  case top => exact h.top
  case full =>
    intro L j hL hj
    rcases Nat.lt_or_ge (j * SCOUTFS_SRCH_PARENT_REFS ^ L) n with hjn | hjn
    · exact h.full L j hL hjn
    · -- the node of `b` itself: `j * P ^ L = n = b`
      have hjb : j * SCOUTFS_SRCH_PARENT_REFS ^ L = b := by omega
      have hP : 0 < SCOUTFS_SRCH_PARENT_REFS ^ L := Nat.pow_pos (by rw [srchParentRefs_eq]; omega)
      have : j = b / SCOUTFS_SRCH_PARENT_REFS ^ L := by
        rw [← hjb, Nat.mul_div_cancel _ hP]
      rw [this]
      exact h.path_ne_zero hb L hL
  case up => exact h.up
  case height =>
    intro _
    rcases Nat.lt_or_ge b n with hbn' | hbn'
    · rw [max_eq_left (by omega)]
      exact h.height (by omega)
    · rw [max_eq_right (by omega), Nat.add_sub_cancel]
      exact ⟨hei, hhei, hle⟩

/-- The invariant reads the file's root and height, not its count of blocks. -/
theorem with_blocks (h : RadixInv st sfl n node data) {blocks : UInt64} :
    RadixInv st { sfl with blocks := blocks } n node data where
  root := h.root
  empty := h.empty
  outside := h.outside
  blocks := h.blocks
  inj := h.inj
  fresh := h.fresh
  covers := h.covers
  top := h.top
  full := h.full
  up := h.up
  height := h.height

/-- Writing the leaf of block `b` changes its contents only. -/
theorem write (h : RadixInv st sfl n node data) {b : ℕ} (hb : node 0 b ≠ 0) (d : α) :
    RadixInv { st with store := Function.update st.store (node 0 b) (some (.leaf d)) } sfl n node
      (Function.update data b d) := by
  constructor
  case root => exact h.root
  case empty => exact h.empty
  case outside => exact h.outside
  case blocks =>
    intro L j hne
    by_cases hself : L = 0 ∧ j = b
    · obtain ⟨rfl, rfl⟩ := hself
      simp [radixBlock]
    have hne' : node L j ≠ node 0 b := fun e => hself (h.inj _ _ _ _ hne e)
    simp only [Function.update_of_ne hne', h.blocks L j hne]
    congr 1
    symm
    apply radixBlock_congr (fun _ _ _ => rfl)
    intro hL0
    subst hL0
    exact Function.update_of_ne (fun e => hself ⟨rfl, e⟩) _ _
  case inj => exact h.inj
  case fresh => exact h.fresh
  case covers => exact h.covers
  case top => exact h.top
  case full => exact h.full
  case up => exact h.up
  case height => exact h.height

end RadixInv

end SrchRadix

end Scoutfs
