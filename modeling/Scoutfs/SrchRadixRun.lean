/-
Runs of `get_file_block` on a srch file.

`gfbStep_insert`, `gfbWalk_insert`, `gfbGrow_insert` and `getFileBlock_insert` follow one call
with `GFB_INSERT | GFB_DIRTY` through its growth loop and its walk: every round keeps the
radix, and a call that succeeds returns the leaf of its block.  `getFileBlock_read` is the
call without flags that searches make.  `WriterRun` is what a writer does to one file, and
`getFileBlock_radix_addressing` what any of its runs from a new file leaves.
-/
import Scoutfs.SrchRadixSpec

namespace Scoutfs

namespace SrchRadix

variable {α : Type} {st st' : SrchRadixState α} {sfl sfl' : SrchRadixFile} {n : ℕ}
  {node : ℕ → ℕ → ℕ} {data : ℕ → α}

/-! ### The walk of `get_file_block` -/

/-- The ref at `loc` leads to the node at level `L` on the way to block `b`: the file's root
ref at the top level, or the ref of the node's parent, which is there. -/
def PathLoc (sfl : SrchRadixFile) (node : ℕ → ℕ → ℕ) (b L : ℕ) : RefLoc → Prop
  | .root => L + 1 = sfl.height
  | .parent p ind => L + 1 < sfl.height ∧ p = node (L + 1) (b / SCOUTFS_SRCH_PARENT_REFS ^ (L + 1)) ∧
      p ≠ 0 ∧ ind = b / SCOUTFS_SRCH_PARENT_REFS ^ L % SCOUTFS_SRCH_PARENT_REFS

theorem PathLoc.lt_height {b L : ℕ} {loc : RefLoc} (hloc : PathLoc sfl node b L loc) :
    L < sfl.height := by
  cases loc with
  | root => exact Nat.lt_of_succ_le (le_of_eq hloc)
  | parent p ind => exact Nat.lt_of_succ_lt hloc.1

/-- The ref on the way to `b` holds the node of `b` at its level. -/
theorem refAt_path (h : RadixInv st sfl n node data) {b L : ℕ} {loc : RefLoc}
    (hcap : b < SCOUTFS_SRCH_PARENT_REFS ^ (sfl.height - 1)) (hloc : PathLoc sfl node b L loc) :
    refAt st sfl loc = node L (b / SCOUTFS_SRCH_PARENT_REFS ^ L) := by
  cases loc with
  | root =>
    have hL : sfl.height - 1 = L := by simp only [PathLoc] at hloc; omega
    rw [refAt, h.root, hL, Nat.div_eq_of_lt (hL ▸ hcap)]
  | parent p ind =>
    obtain ⟨hL, rfl, hp, rfl⟩ := hloc
    have hP : 0 < SCOUTFS_SRCH_PARENT_REFS := by rw [srchParentRefs_eq]; omega
    rw [refAt, h.blocks _ _ hp, Option.map_some, Option.getD_some, radixBlock, SrchRadixBlock.refs,
      if_pos (Nat.mod_lt _ hP), div_pow_succ_mul_add]

@[simp] theorem radixBlock_atLevel (node : ℕ → ℕ → ℕ) (data : ℕ → α) (L j : ℕ) :
    (radixBlock node data L j).atLevel L = true := by
  cases L <;> simp [radixBlock, SrchRadixBlock.atLevel]

/-- A node of the radix reads back as its expected block. -/
theorem readRef_node (h : RadixInv st sfl n node data) {L j : ℕ} (hne : node L j ≠ 0) :
    st.readRef L (node L j) = .ok (radixBlock node data L j) := by
  rw [SrchRadixState.readRef, h.blocks L j hne]
  simp

/-- The parent of the node `j` at level `L`, with its ref to that node replaced by `y`. -/
theorem radixBlock_setNode_parent (node : ℕ → ℕ → ℕ) (data' : ℕ → α) (L j y : ℕ) :
    radixBlock (setNode node L j y) data' (L + 1) (j / SCOUTFS_SRCH_PARENT_REFS) =
      .parent (Function.update (fun i => if i < SCOUTFS_SRCH_PARENT_REFS then
        node L (j / SCOUTFS_SRCH_PARENT_REFS * SCOUTFS_SRCH_PARENT_REFS + i) else 0)
        (j % SCOUTFS_SRCH_PARENT_REFS) y) := by
  have hP : 0 < SCOUTFS_SRCH_PARENT_REFS := by rw [srchParentRefs_eq]; omega
  have hj := Nat.div_add_mod' j SCOUTFS_SRCH_PARENT_REFS
  rw [radixBlock]
  congr 1
  funext i
  by_cases hi : i = j % SCOUTFS_SRCH_PARENT_REFS
  · subst hi
    rw [Function.update_self, if_pos (Nat.mod_lt _ hP), hj, setNode_same]
  · rw [Function.update_of_ne hi]
    split
    · exact setNode_of_ne (fun hc => hi (by have := hc.2; omega))
    · rfl

theorem setRef_self {p : ℕ} (ind : ℕ) {refs : ℕ → ℕ} (hp : st.store p = some (.parent refs)) :
    st.setRef p ind (refs ind) = st := by
  rw [SrchRadixState.setRef_of_parent _ hp, Function.update_eq_self,
    Function.update_eq_self_iff.2 hp.symm]

/-- The data after the node at level `L` and index `j` is dirtied: a new leaf is zeroed. -/
def dirtiedData [Inhabited α] (node : ℕ → ℕ → ℕ) (data : ℕ → α) (L j : ℕ) : ℕ → α :=
  if L = 0 ∧ node L j = 0 then Function.update data j default else data

/-- One round of the walk with `GFB_INSERT | GFB_DIRTY` on the way to block `b`, at most the
file's blocks: it fails with the radix as it was, or it puts the dirtied node of `b` at its
level in the radix. -/
theorem gfbStep_insert [Inhabited α] (h : RadixInv st sfl n node data) {b L : ℕ} {loc : RefLoc}
    (hb : b ≤ n) (hcap : b < SCOUTFS_SRCH_PARENT_REFS ^ (sfl.height - 1))
    (hloc : PathLoc sfl node b L loc) {ret : Int} {bl : ℕ}
    (hstep : gfbStep ⟨true, true⟩ L st sfl loc = (ret, st', sfl', bl)) :
    ∃ node' data', RadixInv st' sfl' n node' data' ∧ sfl'.height = sfl.height ∧
      sfl'.blocks = sfl.blocks ∧ (∀ j', node 0 j' ≠ 0 → data' j' = data j') ∧
      ((ret < 0 ∧ node' = node) ∨
        (ret = 0 ∧ bl ≠ 0 ∧ node' = setNode node L (b / SCOUTFS_SRCH_PARENT_REFS ^ L) bl)) := by
  have hL := hloc.lt_height
  have hP : 0 < SCOUTFS_SRCH_PARENT_REFS := by rw [srchParentRefs_eq]; omega
  obtain ⟨j, hj⟩ : ∃ j, b / SCOUTFS_SRCH_PARENT_REFS ^ L = j := ⟨_, rfl⟩
  rw [hj]
  have href := refAt_path h hcap hloc
  rw [hj] at href
  unfold gfbStep at hstep
  rw [href] at hstep
  simp only [not_true_eq_false, and_false, ↓reduceIte] at hstep
  rcases blockDirtyRef_cases st L (node L j) with
    ⟨ret₀, st₀, hd, hret, hs, hn⟩ | ⟨hne, -, -, hd⟩ | ⟨st₀, orig, hd, horig, hn, hs⟩
  · -- dirtying failed: nothing moved
    rw [hd, if_pos hret] at hstep
    cases hstep
    exact ⟨node, data, h.of_store hs hn, rfl, rfl, fun _ _ => rfl, .inl ⟨hret, rfl⟩⟩
  · -- the block is dirty already: its ref is stored again
    rw [hd, if_neg (lt_irrefl 0)] at hstep
    have hself : setRefAt st sfl (node L j) loc = (st, sfl) := by
      cases loc with
      | root =>
        rw [← href]
        rfl
      | parent p ind =>
        obtain ⟨-, rfl, hp, rfl⟩ := hloc
        have := setRef_self (b / SCOUTFS_SRCH_PARENT_REFS ^ L % SCOUTFS_SRCH_PARENT_REFS)
          (h.blocks _ _ hp)
        rw [setRefAt, ← this]
        congr
        rw [← href, refAt, h.blocks _ _ hp]
        rfl
    dsimp only at hstep
    rw [hself] at hstep
    cases hstep
    refine ⟨node, data, h, rfl, rfl, fun _ _ => rfl, .inr ⟨rfl, hne, ?_⟩⟩
    funext L' j'
    rw [setNode_apply]
    split
    · rename_i e; rw [e.1, e.2]
    · rfl
  · -- a new blkno holds the copy or the zeroed block
    rw [hd, if_neg (lt_irrefl 0)] at hstep
    dsimp only at hstep
    have hy : st.next < st.next + 1 := Nat.lt_succ_self _
    have hcov : j * SCOUTFS_SRCH_PARENT_REFS ^ L ≤ n := hj ▸ (Nat.div_mul_le_self _ _).trans hb
    have hdata : ∀ j', node 0 j' ≠ 0 → (L = 0 → j' ≠ j) →
        dirtiedData node data L j j' = data j' := by
      intro j' _ hj'
      unfold dirtiedData
      split
      · rename_i hc
        exact Function.update_of_ne (hj' hc.1) _ _
      · rfl
    have hdata' : ∀ j', node 0 j' ≠ 0 → dirtiedData node data L j j' = data j' := by
      intro j' hne'
      unfold dirtiedData
      split
      · rename_i hc
        refine Function.update_of_ne (fun e => ?_) _ _
        subst e
        exact hne' (hc.1 ▸ hc.2)
      · rfl
    -- the new block: a copy of the node, or a zeroed one where there was none
    have hblk : orig.getD (.zero L) =
        radixBlock (setNode node L j (st.next + 1)) (dirtiedData node data L j) L j := by
      by_cases hz : node L j = 0
      · have : orig = none := by
          rw [readOrig, if_pos hz] at horig
          cases horig
          rfl
        subst this
        cases L with
        | zero => simp [SrchRadixBlock.zero, radixBlock, dirtiedData, hz]
        | succ L' =>
          rw [Option.getD_none, SrchRadixBlock.zero, if_neg (Nat.succ_ne_zero L'), radixBlock]
          congr 1
          funext i
          split
          · rw [setNode_of_ne (by omega), h.child_eq_zero hz hL ‹_›]
          · rfl
      · have : orig = some (radixBlock node data L j) := by
          rw [readOrig, if_neg hz, readRef_node h hz] at horig
          cases horig
          rfl
        subst this
        rw [Option.getD_some]
        symm
        apply radixBlock_congr
        · intro _ i _
          exact setNode_of_ne (by omega)
        · intro _
          simp [dirtiedData, hz]
    cases loc with
    | root =>
      have hroot : L + 1 = sfl.height := hloc
      simp only [setRefAt] at hstep
      cases hstep
      refine ⟨_, _, h.replace hL hcov (fun h' => absurd h' (by omega)) (fun _ => ?_) hy hn.ge
        hdata ?_ (fun h' => absurd h' (by omega)) ?_ (by rw [if_pos hroot]),
        rfl, rfl, hdata', .inr ⟨rfl, by omega, rfl⟩⟩
      · rw [← hj]
        exact Nat.div_eq_of_lt (by rw [show L = sfl.height - 1 by omega]; exact hcap)
      · rw [hs, Function.update_self, hblk]
      · intro x hx _
        rw [hs, Function.update_of_ne hx]
    | parent p ind =>
      obtain ⟨hL1, rfl, hp, rfl⟩ := hloc
      have hpj : b / SCOUTFS_SRCH_PARENT_REFS ^ (L + 1) = j / SCOUTFS_SRCH_PARENT_REFS := by
        rw [← hj, Nat.div_div_eq_div_mul, ← pow_succ]
      have hind : b / SCOUTFS_SRCH_PARENT_REFS ^ L % SCOUTFS_SRCH_PARENT_REFS =
          j % SCOUTFS_SRCH_PARENT_REFS := by rw [hj]
      rw [hpj, hind] at hstep
      rw [hpj] at hp
      have hpy : node (L + 1) (j / SCOUTFS_SRCH_PARENT_REFS) ≠ st.next + 1 := by
        have := h.fresh (L + 1) (j / SCOUTFS_SRCH_PARENT_REFS)
        omega
      have hpar : st₀.store (node (L + 1) (j / SCOUTFS_SRCH_PARENT_REFS)) =
          some (.parent fun i => if i < SCOUTFS_SRCH_PARENT_REFS then
            node L (j / SCOUTFS_SRCH_PARENT_REFS * SCOUTFS_SRCH_PARENT_REFS + i) else 0) := by
        rw [hs, Function.update_of_ne hpy, h.blocks _ _ hp]
        rfl
      simp only [setRefAt, SrchRadixState.setRef_of_parent _ hpar] at hstep
      cases hstep
      refine ⟨_, _, h.replace hL hcov (fun _ => hp) (fun h' => absurd h' (by omega)) hy
        (by simp [hn]) hdata ?_ (fun _ => ?_) ?_ (by rw [if_neg (by omega)]),
        rfl, rfl, hdata', .inr ⟨rfl, by omega, rfl⟩⟩
      · simp only
        rw [Function.update_of_ne (Ne.symm hpy), hs, Function.update_self, hblk]
      · simp only
        rw [Function.update_self, radixBlock_setNode_parent]
      · intro x hx hx'
        simp only
        rw [Function.update_of_ne (hx' hL1), hs, Function.update_of_ne hx]

@[simp] theorem setRefAt_faults (v : ℕ) (loc : RefLoc) :
    (setRefAt st sfl v loc).1.faults = st.faults := by
  cases loc <;> simp [setRefAt]

/-- With no failing outcome to come, a round of the walk on the way to a block of the file
succeeds and leaves no outcome. -/
theorem gfbStep_of_nil [Inhabited α] (h : RadixInv st sfl n node data) {b L : ℕ} {loc : RefLoc}
    (hcap : b < SCOUTFS_SRCH_PARENT_REFS ^ (sfl.height - 1)) (hloc : PathLoc sfl node b L loc)
    (hf : st.faults = []) :
    (gfbStep ⟨true, true⟩ L st sfl loc).1 = 0 ∧ (gfbStep ⟨true, true⟩ L st sfl loc).2.1.faults = [] := by
  have horig : ∃ orig, readOrig st L (node L (b / SCOUTFS_SRCH_PARENT_REFS ^ L)) = .ok orig := by
    by_cases hz : node L (b / SCOUTFS_SRCH_PARENT_REFS ^ L) = 0
    · exact ⟨none, by rw [readOrig, if_pos hz]⟩
    · exact ⟨_, by rw [readOrig, if_neg hz, readRef_node h hz]; rfl⟩
  obtain ⟨orig, horig⟩ := horig
  obtain ⟨hret, hf'⟩ := blockDirtyRef_of_nil hf horig
  unfold gfbStep
  rw [refAt_path h hcap hloc]
  simp only [not_true_eq_false, and_false, ↓reduceIte]
  rcases hd : blockDirtyRef st L (node L (b / SCOUTFS_SRCH_PARENT_REFS ^ L)) with ⟨r, st₁, bl⟩
  rw [hd] at hret hf'
  dsimp only at hret hf' ⊢
  subst hret
  simp [hf']

/-- The walk of `get_file_block` with `GFB_INSERT | GFB_DIRTY` from the ref on the way to
`blk` at level `L`: it keeps the radix, and when it succeeds, which it does when no outcome to
come fails, it returns the leaf of `blk`. -/
theorem gfbWalk_insert [Inhabited α] (blk : UInt64) (hb : blk.toNat ≤ n) :
    ∀ (L : ℕ) (st : SrchRadixState α) (sfl : SrchRadixFile) (node : ℕ → ℕ → ℕ) (data : ℕ → α)
      (loc : RefLoc) {ret : Int} {st' : SrchRadixState α} {sfl' : SrchRadixFile} {bl : ℕ},
      RadixInv st sfl n node data →
      blk.toNat < SCOUTFS_SRCH_PARENT_REFS ^ (sfl.height - 1) → PathLoc sfl node blk.toNat L loc →
      gfbWalk ⟨true, true⟩ blk L st sfl loc = (ret, st', sfl', bl) →
      ∃ node' data', RadixInv st' sfl' n node' data' ∧ sfl'.height = sfl.height ∧
        sfl'.blocks = sfl.blocks ∧ (∀ j', node 0 j' ≠ 0 → data' j' = data j') ∧
        (ret < 0 ∨ (ret = 0 ∧ bl ≠ 0 ∧ bl = node' 0 blk.toNat)) ∧
        (st.faults = [] → ret = 0 ∧ st'.faults = [])
  | 0, st, sfl, node, data, loc, ret, st', sfl', bl, h, hcap, hloc, hwalk => by
    rw [gfbWalk] at hwalk
    obtain ⟨node', data', h', hh, hbl, hd, hr⟩ := gfbStep_insert h hb hcap hloc hwalk
    refine ⟨node', data', h', hh, hbl, hd, ?_, fun hf => ?_⟩
    · rcases hr with ⟨hr, -⟩ | ⟨hr, hne, rfl⟩
      · exact .inl hr
      · exact .inr ⟨hr, hne, by simp⟩
    · have := gfbStep_of_nil h hcap hloc hf
      rw [hwalk] at this
      exact this
  | L + 1, st, sfl, node, data, loc, ret, st', sfl', bl, h, hcap, hloc, hwalk => by
    rw [gfbWalk] at hwalk
    rcases hs : gfbStep ⟨true, true⟩ (L + 1) st sfl loc with ⟨ret₁, st₁, sfl₁, bl₁⟩
    rw [hs] at hwalk
    dsimp only at hwalk
    obtain ⟨node₁, data₁, h₁, hh₁, hbl₁, hd₁, hr₁⟩ := gfbStep_insert h hb hcap hloc hs
    have hnil₁ : st.faults = [] → ret₁ = 0 ∧ st₁.faults = [] := fun hf => by
      have := gfbStep_of_nil h hcap hloc hf
      rw [hs] at this
      exact this
    split at hwalk
    · -- the round failed: the walk stops
      cases hwalk
      exact ⟨node₁, data₁, h₁, hh₁, hbl₁, hd₁, .inl ‹_›,
        fun hf => absurd (hnil₁ hf).1 (by omega)⟩
    rcases hr₁ with ⟨hr₁, -⟩ | ⟨rfl, hne₁, rfl⟩
    · exact absurd hr₁ ‹_›
    -- the dirtied node is the parent of the next level's node on the way to `blk`
    have hloc' : PathLoc sfl₁ (setNode node (L + 1) (blk.toNat / SCOUTFS_SRCH_PARENT_REFS ^ (L + 1)) bl₁)
        blk.toNat L (.parent bl₁ (calcRefInd blk (L + 1))) := by
      refine ⟨by rw [hh₁]; exact hloc.lt_height, by rw [setNode_same], hne₁, ?_⟩
      rw [calcRefInd_eq _ _ (by omega), Nat.add_sub_cancel]
    obtain ⟨node', data', h', hh, hbl, hd, hr, hnil⟩ :=
      gfbWalk_insert blk hb L st₁ sfl₁ _ data₁ _ h₁ (by rw [hh₁]; exact hcap) hloc' hwalk
    refine ⟨node', data', h', hh.trans hh₁, hbl.trans hbl₁, fun j' hj' => ?_, hr,
      fun hf => hnil (hnil₁ hf).2⟩
    rw [hd j' (by rw [setNode_of_ne (by omega)]; exact hj'), hd₁ j' hj']

/-- The data after a new root at height `h`: a new root at height 0 is a zeroed leaf. -/
def grownData [Inhabited α] (data : ℕ → α) (h : ℕ) : ℕ → α :=
  if h = 0 then Function.update data 0 default else data

/-- One round of the growth loop of `get_file_block` with `GFB_INSERT`: it fails with the
radix as it was, or the file has a new root one level up. -/
theorem gfbGrow_round [Inhabited α] (h : RadixInv st sfl n node data) {ret : Int}
    {st₁ : SrchRadixState α} {y : ℕ} (hd : blockDirtyRef st sfl.height 0 = (ret, st₁, y)) :
    (ret < 0 ∧ RadixInv st₁ sfl n node data) ∨
    (ret = 0 ∧ RadixInv (if sfl.height ≠ 0 then st₁.setRef y 0 sfl.ref else st₁)
      { sfl with ref := y, height := sfl.height + 1 } n (setNode node sfl.height 0 y)
      (grownData data sfl.height)) := by
  rcases blockDirtyRef_cases st sfl.height 0 with
    ⟨ret₀, st₀, hd₀, hret, hs, hn⟩ | ⟨hne, -⟩ | ⟨st₀, orig, hd₀, horig, hn, hs⟩
  · rw [hd₀] at hd
    cases hd
    exact .inl ⟨hret, h.of_store hs hn⟩
  · exact absurd rfl hne
  rw [hd₀, Prod.mk.injEq, Prod.mk.injEq] at hd
  obtain ⟨rfl, rfl, rfl⟩ := hd
  have horig' : orig = none := by
    rw [readOrig, if_pos rfl] at horig
    cases horig
    rfl
  subst horig'
  have hold : ∀ L' j', node L' j' ≠ st.next + 1 := fun L' j' e => by
    have := h.fresh L' j'
    omega
  refine .inr ⟨rfl, h.grow (Nat.lt_succ_self _) ?_ ?_ ?_ ?_⟩
  · split <;> simp [hn]
  · intro j' hj'
    unfold grownData
    split
    · exact absurd (h.outside 0 j' (by omega)) hj'
    · rfl
  · -- the new root: a zeroed leaf, or a parent whose first ref is the old root
    rcases Nat.eq_zero_or_pos sfl.height with h0 | hpos
    · simp [h0, hs, SrchRadixBlock.zero, radixBlock, grownData]
    obtain ⟨h', hh'⟩ : ∃ h', sfl.height = h' + 1 := ⟨sfl.height - 1, by omega⟩
    have hzero : st₀.store (st.next + 1) = some (.parent fun _ => 0) := by
      rw [hs, Function.update_self, Option.getD_none, SrchRadixBlock.zero, if_neg (by omega)]
    rw [if_pos (by omega), SrchRadixState.setRef_of_parent _ hzero]
    simp only [Function.update_self, hh', radixBlock]
    congr 2
    funext i
    by_cases hi : i = 0
    · subst hi
      rw [Function.update_self, if_pos (by rw [srchParentRefs_eq]; omega), setNode_of_ne (by omega),
        h.root, hh']
      rfl
    · rw [Function.update_of_ne hi]
      split
      · rw [setNode_of_ne (by omega)]
        symm
        by_contra hne
        exact hi (by simpa using h.top i (by rw [hh']; simpa using hne))
      · rfl
  · intro x hx
    split
    · rename_i hh
      have hzero : st₀.store (st.next + 1) = some (.parent fun _ => 0) := by
        rw [hs, Function.update_self, Option.getD_none, SrchRadixBlock.zero, if_neg hh]
      rw [SrchRadixState.setRef_of_parent _ hzero]
      simp only
      rw [Function.update_of_ne hx, hs, Function.update_of_ne hx]
    · rw [hs, Function.update_of_ne hx]

/-- The growth loop of `get_file_block` with `GFB_INSERT`: it keeps the radix, and when it
succeeds, which it does when no outcome to come fails, the file is `rounds` levels higher. -/
theorem gfbGrow_insert [Inhabited α] :
    ∀ (rounds : ℕ) (st : SrchRadixState α) (sfl : SrchRadixFile) (node : ℕ → ℕ → ℕ)
      (data : ℕ → α) {ret : Int} {st' : SrchRadixState α} {sfl' : SrchRadixFile},
      RadixInv st sfl n node data → gfbGrow true rounds st sfl = (ret, st', sfl') →
      ∃ node' data', RadixInv st' sfl' n node' data' ∧ sfl'.blocks = sfl.blocks ∧
        (∀ j', node 0 j' ≠ 0 → data' j' = data j') ∧
        (ret < 0 ∨ (ret = 0 ∧ sfl'.height = sfl.height + rounds)) ∧
        (st.faults = [] → ret = 0 ∧ st'.faults = [])
  | 0, st, sfl, node, data, ret, st', sfl', h, hg => by
    cases hg
    exact ⟨node, data, h, rfl, fun _ _ => rfl, .inr ⟨rfl, rfl⟩, fun hf => ⟨rfl, hf⟩⟩
  | rounds + 1, st, sfl, node, data, ret, st', sfl', h, hg => by
    rw [gfbGrow] at hg
    simp only [not_true_eq_false, ↓reduceIte] at hg
    rcases hd : blockDirtyRef st sfl.height 0 with ⟨ret₁, st₁, y⟩
    rw [hd] at hg
    dsimp only at hg
    -- a new root from a zero ref reads nothing, so only an outcome can fail it
    have hnil₁ : st.faults = [] → ret₁ = 0 ∧ st₁.faults = [] := fun hf => by
      have := @blockDirtyRef_of_nil _ _ st sfl.height 0 none hf (by rw [readOrig, if_pos rfl])
      rw [hd] at this
      exact this
    rcases gfbGrow_round h hd with ⟨hret, h₁⟩ | ⟨rfl, h₁⟩
    · rw [if_pos hret] at hg
      cases hg
      exact ⟨node, data, h₁, rfl, fun _ _ => rfl, .inl hret,
        fun hf => absurd (hnil₁ hf).1 (by omega)⟩
    rw [if_neg (lt_irrefl 0)] at hg
    obtain ⟨node', data', h', hbl, hd', hr, hnil⟩ := gfbGrow_insert rounds _ _ _ _ h₁ hg
    refine ⟨node', data', h', hbl, fun j' hj' => ?_, ?_, fun hf => hnil ?_⟩
    · -- an old leaf stays a leaf of the grown file
      have hj'' : setNode node sfl.height 0 y 0 j' ≠ 0 := by
        rw [setNode_apply]
        split
        · exact absurd (h.outside 0 j' (by omega)) hj'
        · exact hj'
      rw [hd' j' hj'', grownData]
      split
      · exact absurd (h.outside 0 j' (by omega)) hj'
      · rfl
    · rcases hr with hr | ⟨hr, hh⟩
      · exact .inl hr
      · exact .inr ⟨hr, by rw [hh]; simp only; omega⟩
    · split <;> simp [(hnil₁ hf).2]

/-- `get_file_block` with `GFB_INSERT | GFB_DIRTY` of a block at most the file's blocks keeps
the radix: the blocks already there keep their contents.  When it succeeds, which it does when
no outcome to come fails, the file is as high as the block needs and holds the blocks up to
`blk`, and the call returns the leaf of `blk`. -/
theorem getFileBlock_insert [Inhabited α] (h : RadixInv st sfl sfl.blocks.toNat node data)
    {blk : UInt64} (hb : blk ≤ sfl.blocks) {ret : Int} {bl : ℕ}
    (hget : getFileBlock st sfl ⟨true, true⟩ blk = some (ret, st', sfl', bl)) :
    ∃ node' data', RadixInv st' sfl' sfl'.blocks.toNat node' data' ∧
      (∀ j < sfl.blocks.toNat, data' j = data j) ∧
      ((ret < 0 ∧ sfl'.blocks = sfl.blocks) ∨
        (ret = 0 ∧ sfl'.blocks.toNat = max sfl.blocks.toNat (blk.toNat + 1) ∧ bl ≠ 0 ∧
          bl = node' 0 blk.toNat ∧
          ∀ hei, heightForBlk blk = some hei → sfl'.height = max sfl.height hei)) ∧
      (st.faults = [] → ret = 0 ∧ st'.faults = []) := by
  have hbn : blk.toNat ≤ sfl.blocks.toNat := hb
  -- the blocks there are leaves of the radix
  have hleaf : ∀ j < sfl.blocks.toNat, node 0 j ≠ 0 := fun j hj =>
    h.full 0 j (Nat.pos_of_ne_zero fun h0 => by have := h.empty h0; omega) (by simpa using hj)
  unfold getFileBlock at hget
  obtain ⟨hei, hhei, hget⟩ := Option.map_eq_some_iff.1 hget
  rcases hg : gfbGrow true (hei - sfl.height) st sfl with ⟨ret₁, st₁, sfl₁⟩
  rw [hg] at hget
  dsimp only at hget
  obtain ⟨node₁, data₁, h₁, hbl₁, hd₁, hr₁, hnil₁⟩ := gfbGrow_insert _ _ _ _ _ h hg
  rw [← hbl₁] at h₁
  split at hget
  · -- growing failed
    cases hget
    exact ⟨node₁, data₁, h₁, fun j hj => hd₁ j (hleaf j hj), .inl ⟨‹_›, hbl₁⟩,
      fun hf => absurd (hnil₁ hf).1 (by omega)⟩
  rcases hr₁ with hr₁ | ⟨rfl, hh₁⟩
  · exact absurd hr₁ ‹_›
  have hlt := heightForBlk_lt hhei
  obtain ⟨level, hlevel⟩ : ∃ level, sfl₁.height = level + 1 := ⟨sfl₁.height - 1, by omega⟩
  have hcap : blk.toNat < SCOUTFS_SRCH_PARENT_REFS ^ (sfl₁.height - 1) :=
    lt_of_lt_of_le hlt.1 (Nat.pow_le_pow_right (by rw [srchParentRefs_eq]; omega) (by omega))
  rw [hlevel] at hget
  dsimp only at hget
  rcases hw : gfbWalk ⟨true, true⟩ blk level st₁ sfl₁ .root with ⟨ret₂, st₂, sfl₂, bl₂⟩
  simp only [hw] at hget
  obtain ⟨node₂, data₂, h₂, hh₂, hbl₂, hd₂, hr₂, hnil₂⟩ :=
    gfbWalk_insert blk (hbl₁ ▸ hbn) level st₁ sfl₁ _ _ .root h₁ hcap hlevel.symm hw
  have hdata : ∀ j < sfl.blocks.toNat, data₂ j = data j := fun j hj => by
    rw [hd₂ j (h₁.full 0 j (by omega) (by rw [hbl₁]; simpa using hj)), hd₁ j (hleaf j hj)]
  have hnil : st.faults = [] → ret₂ = 0 ∧ st₂.faults = [] := fun hf => hnil₂ (hnil₁ hf).2
  have hheight : ∀ hei', heightForBlk blk = some hei' → sfl₂.height = max sfl.height hei' := by
    intro hei' hhei'
    rw [hhei] at hhei'
    cases hhei'
    rw [hh₂, hh₁]
    omega
  rw [hbl₁] at h₂
  rcases hr₂ with hneg | ⟨rfl, hne, hbl⟩
  · -- the walk failed
    rw [if_neg (fun hc => absurd hc.1 (by omega))] at hget
    cases hget
    exact ⟨node₂, data₂, hbl₂ ▸ hbl₁ ▸ h₂, hdata, .inl ⟨hneg, hbl₂.trans hbl₁⟩, hnil⟩
  split at hget
  · -- a new last block: the file now holds `blk + 1` blocks
    rename_i hc
    have hge : sfl.blocks.toNat ≤ blk.toNat := by
      have := hc.2.2
      rw [ge_iff_le, UInt64.le_iff_toNat_le, hbl₂, hbl₁] at this
      exact this
    cases hget
    have h' := h₂.extend hbn (hbl ▸ hne) (by simpa using hhei) (by rw [hh₂, hh₁]; omega)
    have hmax : max sfl.blocks.toNat (blk.toNat + 1) = (blk + 1).toNat := by
      rw [toNat_add_one_of_heightForBlk hhei]
      omega
    rw [hmax] at h'
    exact ⟨node₂, data₂, h'.with_blocks, hdata, .inr ⟨rfl, hmax.symm, hne, hbl, hheight⟩, hnil⟩
  · rename_i hc
    have hlt' : blk.toNat < sfl.blocks.toNat := by
      by_contra hge
      refine hc ⟨rfl, trivial, ?_⟩
      rw [ge_iff_le, UInt64.le_iff_toNat_le, hbl₂, hbl₁]
      omega
    cases hget
    refine ⟨node₂, data₂, hbl₂ ▸ hbl₁ ▸ h₂, hdata, .inr ⟨rfl, ?_, hne, hbl, hheight⟩, hnil⟩
    rw [hbl₂, hbl₁]
    omega

/-! ### Reading the file -/

/-- The read-only walk of `get_file_block` (no flags) from the ref on the way to a block of
the file reaches the block's leaf and changes nothing. -/
theorem gfbWalk_read [Inhabited α] (h : RadixInv st sfl n node data) (blk : UInt64)
    (hb : blk.toNat < n) (hcap : blk.toNat < SCOUTFS_SRCH_PARENT_REFS ^ (sfl.height - 1)) :
    ∀ (L : ℕ) (loc : RefLoc), PathLoc sfl node blk.toNat L loc →
      gfbWalk ⟨false, false⟩ blk L st sfl loc = (0, st, sfl, node 0 blk.toNat)
  | L, loc, hloc => by
    have hL := hloc.lt_height
    have hne : node L (blk.toNat / SCOUTFS_SRCH_PARENT_REFS ^ L) ≠ 0 :=
      h.full L _ hL (lt_of_le_of_lt (Nat.div_mul_le_self _ _) hb)
    have hstep : gfbStep ⟨false, false⟩ L st sfl loc =
        (0, st, sfl, node L (blk.toNat / SCOUTFS_SRCH_PARENT_REFS ^ L)) := by
      rw [gfbStep, refAt_path h hcap hloc, readRef_node h hne]
      simp [hne]
    cases L with
    | zero =>
      rw [gfbWalk, hstep]
      simp
    | succ L =>
      rw [gfbWalk, hstep]
      dsimp only
      rw [if_neg (lt_irrefl 0)]
      refine gfbWalk_read h blk hb hcap L _ ⟨hL, rfl, hne, ?_⟩
      rw [calcRefInd_eq _ _ (by omega), Nat.add_sub_cancel]

/-- `get_file_block` without flags, as a search calls it, finds the leaf of every block of
the file and changes nothing. -/
theorem getFileBlock_read [Inhabited α] (h : RadixInv st sfl sfl.blocks.toNat node data)
    {blk : UInt64} (hb : blk.toNat < sfl.blocks.toNat) :
    getFileBlock st sfl ⟨false, false⟩ blk = some (0, st, sfl, node 0 blk.toNat) := by
  obtain ⟨hei, hhei, hle⟩ := h.height (by omega)
  have hblk : blk ≤ UInt64.ofNat (sfl.blocks.toNat - 1) := by
    rw [UInt64.le_iff_toNat_le, UInt64.toNat_ofNat_of_lt' (by have := sfl.blocks.toNat_lt_size; omega)]
    omega
  obtain ⟨hc, hhc, hcle⟩ := heightForBlk_mono hblk hhei
  have hlt := heightForBlk_lt hhc
  obtain ⟨level, hlevel⟩ : ∃ level, sfl.height = level + 1 := ⟨sfl.height - 1, by omega⟩
  have hcap : blk.toNat < SCOUTFS_SRCH_PARENT_REFS ^ (sfl.height - 1) :=
    lt_of_lt_of_le hlt.1 (Nat.pow_le_pow_right (by rw [srchParentRefs_eq]; omega) (by omega))
  have hwalk := gfbWalk_read h blk hb hcap level .root hlevel.symm
  rw [getFileBlock, hhc, Option.map_some, show hc - sfl.height = 0 by omega]
  simp only [gfbGrow, lt_irrefl, if_false, hlevel, hwalk]
  simp

/-! ### Runs of a writer -/

/-- The blocks a file written block by block holds: one more than the largest block written. -/
def writtenBlocks (ws : List (UInt64 × α)) : ℕ :=
  ws.foldl (fun m w => max m (w.1.toNat + 1)) 0

/-- What was last written to block `c`. -/
def lastWrite (ws : List (UInt64 × α)) (c : ℕ) : Option α :=
  ws.foldl (fun acc w => if w.1.toNat = c then some w.2 else acc) none

@[simp] theorem writtenBlocks_nil : writtenBlocks ([] : List (UInt64 × α)) = 0 := rfl

@[simp] theorem writtenBlocks_append_singleton (ws : List (UInt64 × α)) (b : UInt64) (x : α) :
    writtenBlocks (ws ++ [(b, x)]) = max (writtenBlocks ws) (b.toNat + 1) := by
  simp [writtenBlocks]

@[simp] theorem lastWrite_nil (c : ℕ) : lastWrite ([] : List (UInt64 × α)) c = none := rfl

@[simp] theorem lastWrite_append_singleton (ws : List (UInt64 × α)) (b : UInt64) (x : α) (c : ℕ) :
    lastWrite (ws ++ [(b, x)]) c = if b.toNat = c then some x else lastWrite ws c := by
  simp [lastWrite]

/-- The runs of a writer of one srch file.  A call of `get_file_block` with
`GFB_INSERT | GFB_DIRTY` for a block at most the file's blocks either succeeds, and the writer
fills the leaf it returns, or fails; between calls the transaction can commit and the
outcomes of the calls to come can be any.  `ws` lists the blocks filled and what was written
to them, oldest first. -/
inductive WriterRun [Inhabited α] (st₀ : SrchRadixState α) (sfl₀ : SrchRadixFile) :
    List (UInt64 × α) → SrchRadixState α → SrchRadixFile → Prop
  | refl : WriterRun st₀ sfl₀ [] st₀ sfl₀
  | write {ws st sfl st' sfl' blk bl} (d : α) : WriterRun st₀ sfl₀ ws st sfl →
      blk ≤ sfl.blocks → getFileBlock st sfl ⟨true, true⟩ blk = some (0, st', sfl', bl) →
      WriterRun st₀ sfl₀ (ws ++ [(blk, d)])
        { st' with store := Function.update st'.store bl (some (.leaf d)) } sfl'
  | fail {ws st sfl st' sfl' blk ret bl} : WriterRun st₀ sfl₀ ws st sfl →
      blk ≤ sfl.blocks → getFileBlock st sfl ⟨true, true⟩ blk = some (ret, st', sfl', bl) →
      ret ≠ 0 → WriterRun st₀ sfl₀ ws st' sfl'
  | commit {ws st sfl} : WriterRun st₀ sfl₀ ws st sfl → WriterRun st₀ sfl₀ ws st.commit sfl
  | outcomes {ws st sfl} (fs : List Bool) : WriterRun st₀ sfl₀ ws st sfl →
      WriterRun st₀ sfl₀ ws { st with faults := fs } sfl

/-- What a writer's run from a new file leaves: a radix holding what was last written to
each block, and as many blocks as were written. -/
theorem writerRun_inv [Inhabited α] {st₀ : SrchRadixState α} {ws : List (UInt64 × α)}
    (hrun : WriterRun st₀ ⟨0, 0, 0⟩ ws st sfl) :
    ∃ node data, RadixInv st sfl sfl.blocks.toNat node data ∧
      sfl.blocks.toNat = writtenBlocks ws ∧
      (∀ c, (lastWrite ws c).isSome ↔ c < sfl.blocks.toNat) ∧
      ∀ c < sfl.blocks.toNat, lastWrite ws c = some (data c) := by
  induction hrun with
  | refl =>
    refine ⟨fun _ _ => 0, fun _ => default, ?_, rfl, by simp, by simp⟩
    constructor <;> simp
  | write d hrun hb hget ih =>
    rename_i ws st sfl st' sfl' blk bl
    obtain ⟨node, data, h, hbl, hsome, hlast⟩ := ih
    obtain ⟨node', data', h', hd', hr, -⟩ := getFileBlock_insert h hb hget
    rcases hr with ⟨hr, -⟩ | ⟨-, hbl', hne, rfl, -⟩
    · exact absurd hr (lt_irrefl 0)
    have hb' : blk.toNat ≤ sfl.blocks.toNat := hb
    refine ⟨node', Function.update data' blk.toNat d, h'.write hne d, ?_, ?_, ?_⟩
    · rw [hbl', writtenBlocks_append_singleton, hbl]
    · intro c
      rw [lastWrite_append_singleton, hbl']
      by_cases e : blk.toNat = c
      · rw [if_pos e]
        simp only [Option.isSome_some, true_iff]
        omega
      · rw [if_neg e, hsome c]
        omega
    · intro c hc
      rw [hbl'] at hc
      rw [lastWrite_append_singleton]
      by_cases e : blk.toNat = c
      · rw [if_pos e, e, Function.update_self]
      · have hcn : c < sfl.blocks.toNat := by omega
        rw [if_neg e, Function.update_of_ne (Ne.symm e), hd' c hcn, hlast c hcn]
  | fail hrun hb hget hret ih =>
    obtain ⟨node, data, h, hbl, hsome, hlast⟩ := ih
    obtain ⟨node', data', h', hd', hr, -⟩ := getFileBlock_insert h hb hget
    rcases hr with ⟨-, hbl'⟩ | ⟨hr, -⟩
    · refine ⟨node', data', h', by rw [hbl', hbl], by rw [hbl']; exact hsome, ?_⟩
      intro c hc
      rw [hbl'] at hc
      rw [hlast c hc, hd' c hc]
    · exact absurd hr hret
  | commit hrun ih =>
    obtain ⟨node, data, h, hbl, hsome, hlast⟩ := ih
    exact ⟨node, data, h.of_store rfl le_rfl, hbl, hsome, hlast⟩
  | outcomes fs hrun ih =>
    obtain ⟨node, data, h, hbl, hsome, hlast⟩ := ih
    exact ⟨node, data, h.of_store rfl le_rfl, hbl, hsome, hlast⟩

/-- A new radix state: no blocks, nothing handed out. -/
def newRadixState : SrchRadixState ℕ := ⟨fun _ => none, fun _ => false, 0, [], []⟩

/-- A writer fills blocks 0, 1 and 2 of a new file, which grows to height 2 at block 1; after a
commit it writes block 1 again, through new copies of the root and the leaf.  The root then
has no ref past the three blocks. -/
theorem growRun_reach : ∃ st sfl,
    WriterRun newRadixState ⟨0, 0, 0⟩ [(0, 7), (1, 8), (2, 9), (1, 10)] st sfl ∧
      sfl.height = 2 ∧ st.faults = [] ∧ sfl.blocks.toNat = 3 ∧
      ∃ refs, st.store sfl.ref = some (.parent refs) ∧ refs 3 = 0 := by
  have h1 : WriterRun newRadixState ⟨0, 0, 0⟩ [(0, 7)] _ _ :=
    WriterRun.write 7 .refl (UInt64.le_refl _) rfl
  have h2 : WriterRun newRadixState ⟨0, 0, 0⟩ [(0, 7), (1, 8)] _ _ :=
    WriterRun.write 8 h1 (by decide) rfl
  have h3 : WriterRun newRadixState ⟨0, 0, 0⟩ [(0, 7), (1, 8), (2, 9)] _ _ :=
    WriterRun.write 9 h2 (by decide) rfl
  have h4 : WriterRun newRadixState ⟨0, 0, 0⟩ [(0, 7), (1, 8), (2, 9), (1, 10)] _ _ :=
    WriterRun.write 10 h3.commit (by decide) rfl
  exact ⟨_, _, h4, rfl, rfl, rfl, _, rfl, by decide⟩

/-- The radix addressing of a srch file is stable under growth.  After any run of a writer
from a new file, `get_file_block` without flags finds, through `calc_ref_ind` at each level,
a leaf for every block of the file holding what was last written to it; distinct blocks
have distinct leaves; and the file holds one more block than the largest one written. -/
theorem getFileBlock_radix_addressing [Inhabited α] {st₀ : SrchRadixState α}
    {ws : List (UInt64 × α)} (hrun : WriterRun st₀ ⟨0, 0, 0⟩ ws st sfl) :
    sfl.blocks.toNat = writtenBlocks ws ∧
    (∀ c, (lastWrite ws c).isSome ↔ c < sfl.blocks.toNat) ∧
    (∀ blk : UInt64, blk.toNat < sfl.blocks.toNat → ∃ bl d,
      getFileBlock st sfl ⟨false, false⟩ blk = some (0, st, sfl, bl) ∧
      st.store bl = some (.leaf d) ∧ lastWrite ws blk.toNat = some d) ∧
    (∀ (blk blk' : UInt64) (bl bl' : ℕ), blk.toNat < sfl.blocks.toNat →
      blk'.toNat < sfl.blocks.toNat →
      getFileBlock st sfl ⟨false, false⟩ blk = some (0, st, sfl, bl) →
      getFileBlock st sfl ⟨false, false⟩ blk' = some (0, st, sfl, bl') → bl = bl' → blk = blk') := by
  obtain ⟨node, data, h, hbl, hsome, hlast⟩ := writerRun_inv hrun
  have hleaf : ∀ c < sfl.blocks.toNat, node 0 c ≠ 0 := fun c hc =>
    h.full 0 c (Nat.pos_of_ne_zero fun h0 => by have := h.empty h0; omega) (by simpa using hc)
  refine ⟨hbl, hsome, fun blk hblk => ?_, fun blk blk' bl bl' hblk hblk' hget hget' hbb => ?_⟩
  · refine ⟨node 0 blk.toNat, data blk.toNat, getFileBlock_read h hblk, ?_, hlast _ hblk⟩
    rw [h.blocks 0 _ (hleaf _ hblk)]
    rfl
  · rw [getFileBlock_read h hblk] at hget
    rw [getFileBlock_read h hblk'] at hget'
    cases hget
    cases hget'
    exact UInt64.toNat_inj.1 (h.inj 0 _ 0 _ (hleaf _ hblk) hbb).2

theorem getFileBlock_radix_addressing_grown :
    ∃ st sfl, WriterRun newRadixState ⟨0, 0, 0⟩ [(0, 7), (1, 8), (2, 9), (1, 10)] st sfl ∧
      sfl.height = 2 ∧
      (sfl.blocks.toNat = writtenBlocks [((0 : UInt64), 7), (1, 8), (2, 9), (1, 10)] ∧
      (∀ c, (lastWrite [((0 : UInt64), 7), (1, 8), (2, 9), (1, 10)] c).isSome ↔
        c < sfl.blocks.toNat) ∧
      (∀ blk : UInt64, blk.toNat < sfl.blocks.toNat → ∃ bl d,
        getFileBlock st sfl ⟨false, false⟩ blk = some (0, st, sfl, bl) ∧
        st.store bl = some (.leaf d) ∧
        lastWrite [((0 : UInt64), 7), (1, 8), (2, 9), (1, 10)] blk.toNat = some d) ∧
      (∀ (blk blk' : UInt64) (bl bl' : ℕ), blk.toNat < sfl.blocks.toNat →
        blk'.toNat < sfl.blocks.toNat →
        getFileBlock st sfl ⟨false, false⟩ blk = some (0, st, sfl, bl) →
        getFileBlock st sfl ⟨false, false⟩ blk' = some (0, st, sfl, bl') → bl = bl' →
          blk = blk')) := by
  obtain ⟨st, sfl, hrun, hh, -⟩ := growRun_reach
  exact ⟨st, sfl, hrun, hh, getFileBlock_radix_addressing hrun⟩

/-! ### A writer that fills a file block by block -/

/-- Every block below the first parent's refs but the first needs height 2. -/
theorem heightForBlk_of_lt_srchParentRefs {blk : UInt64} (h0 : blk ≠ 0)
    (hb : blk.toNat < SCOUTFS_SRCH_PARENT_REFS) : heightForBlk blk = some 2 := by
  rw [heightForBlk, if_neg h0, heightForBlkLoop, if_neg]
  rw [ge_iff_le, UInt64.le_iff_toNat_le, toNat_ofNat_srchParentRefs]
  omega

/-- The writes of the blocks `0, …, m - 1` in order, each holding its own number. -/
def seqWrites (m : ℕ) : List (UInt64 × ℕ) :=
  (List.range m).map fun b => (UInt64.ofNat b, b)

/-- A writer with no failing outcome fills the blocks of a new file one after the other, up
to a full first parent: the file holds them at height 1 and then 2. -/
theorem writerRun_seqWrites : ∀ m, m ≤ SCOUTFS_SRCH_PARENT_REFS →
    ∃ st sfl, WriterRun newRadixState ⟨0, 0, 0⟩ (seqWrites m) st sfl ∧ st.faults = [] ∧
      sfl.blocks.toNat = m ∧ sfl.height = min m 2
  | 0, _ => ⟨_, _, .refl, rfl, rfl, rfl⟩
  | m + 1, hm => by
    obtain ⟨st, sfl, hrun, hf, hbl, hh⟩ := writerRun_seqWrites m (by omega)
    obtain ⟨node, data, h, -⟩ := writerRun_inv hrun
    have hmP : m < SCOUTFS_SRCH_PARENT_REFS := by omega
    have hm64 : (UInt64.ofNat m).toNat = m :=
      Nat.mod_eq_of_lt (by rw [srchParentRefs_eq] at hmP; omega)
    -- the height block `m` needs
    have hhei : heightForBlk (UInt64.ofNat m) = some (min (m + 1) 2) := by
      rcases Nat.eq_zero_or_pos m with rfl | hpos
      · rfl
      · rw [heightForBlk_of_lt_srchParentRefs (fun e => by rw [e] at hm64; simp at hm64; omega)
          (by omega)]
        congr 1
        omega
    rcases hr : getFileBlock st sfl ⟨true, true⟩ (UInt64.ofNat m) with _ | ⟨ret, st', sfl', bl⟩
    · rw [getFileBlock, hhei] at hr
      cases hr
    have hb : UInt64.ofNat m ≤ sfl.blocks := by
      rw [UInt64.le_iff_toNat_le, hm64, hbl]
    obtain ⟨node', data', -, -, hres, hnil⟩ := getFileBlock_insert h hb hr
    obtain ⟨rfl, hf'⟩ := hnil hf
    rcases hres with ⟨hneg, -⟩ | ⟨-, hbl', -, -, hh'⟩
    · exact absurd hneg (lt_irrefl 0)
    refine ⟨{ st' with store := Function.update st'.store bl (some (.leaf m)) }, sfl', ?_, hf', ?_,
      ?_⟩
    · rw [seqWrites, List.range_succ, List.map_append, List.map_singleton]
      exact WriterRun.write m hrun hb hr
    · rw [hbl', hm64, hbl]
      omega
    · rw [hh' _ hhei, hh]
      omega

end SrchRadix

end Scoutfs
