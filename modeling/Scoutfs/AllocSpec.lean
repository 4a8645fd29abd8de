/-
What the allocator operations keep: every free extent root stores a separated
set of free extents, in both of its indexes.

`AllocInv st` says that every root of `st` stores (`RootHolds`) a set of
valid, free, pairwise separated extents (`FreeSet`).  The extent helpers keep
it on the root they work on (`ExtSpec`, with the callbacks of `AllocExt`) and
leave the other roots alone, so every operation of `alloc.c` keeps it:

* `scoutfsFreeData_allocInv`, `scoutfsAllocInsert_allocInv`,
  `scoutfsAllocRemove_allocInv`, `scoutfsDallocReturnCached_allocInv`,
  `scoutfsAllocData_allocInv` — single extent changes;
* `fillListLoop_allocInv`, `emptyListLoop_allocInv` — the list loops, which
  also keep every list blkno below the last block number;
* `allocMoveLoop_allocInv` — moving extents, with the zone searches handing out
  parts of stored extents.

`reachable_rootIndexes` then reads the invariant as the source states it: in
every reachable state the two indexes of each root decode to the same
extents, which are disjoint and never adjacent, and `total_len` is the sum of
their lengths.
-/
import Scoutfs.Alloc

namespace Scoutfs

/-! ### The invariant -/

/-- Every allocator root stores a separated set of free extents. -/
def AllocInv (st : AllocState) : Prop := ∀ r, ∃ E, RootHolds (st.roots r) E ∧ FreeSet E

namespace AllocInv

variable {st st' : AllocState}

/-- The invariant only reads the roots. -/
theorem of_roots (h : AllocInv st) (hr : st'.roots = st.roots) : AllocInv st' := by
  intro r
  rw [hr]
  exact h r

theorem of_takeFault (h : AllocInv st) {b : Bool} (hf : st.takeFault = (b, st')) :
    AllocInv st' :=
  h.of_roots (by rw [← AllocState.takeFault_roots st, hf])

/-- An extent helper that worked on root `r` and ended in `st'`, with root `r` holding a
separated free set before and after, keeps the invariant of every root. -/
theorem of_outcome (h : AllocInv st) {r : ℕ} {E E' : Finset ScoutfsExtent} {ret : Int}
    (hE : FreeSet E) (hE' : FreeSet E') (hout : Outcome (RootAt r st.roots) E E' (some (ret, st'))) :
    AllocInv st' := by
  have hat : ∃ F, FreeSet F ∧ RootAt r st.roots st' F := by
    rcases hout with ⟨-, hs⟩ | ⟨-, hs⟩
    · exact ⟨E, hE, hs⟩
    · exact ⟨E', hE', hs⟩
  obtain ⟨F, hF, hroot, hframe⟩ := hat
  intro r'
  by_cases hr : r' = r
  · subst hr
    exact ⟨F, hroot, hF⟩
  · rw [hframe r' hr]
    exact h r'

end AllocInv

/-! ### The extent helpers on one root -/

section Helpers

variable {st st' : AllocState} {r : ℕ} {ret : Int}

theorem extInsert_allocInv (h : AllocInv st) {start len : UInt64}
    (hv : ExtValid ⟨start, len, 0, 0⟩)
    (hres : scoutfsExtInsert (allocExtOps r .blkno) st start len 0 0 = some (ret, st')) :
    AllocInv st' := by
  obtain ⟨E, hR, hE⟩ := h r
  obtain ⟨E', hE', hout⟩ := extInsert_freeSet (allocExtInsert_lawful r .blkno st.roots)
    (allocExtRemove_lawful r .blkno st.roots) (allocExtNext_blkno_lawful r st.roots)
    ⟨hR, fun _ _ => rfl⟩ hE hv
  rw [hres] at hout
  exact h.of_outcome hE hE' hout

theorem extRemove_allocInv (h : AllocInv st) {start len : UInt64}
    (hl : 0 < len.toNat) (hend : start.toNat + len.toNat < 2 ^ 64)
    (hres : scoutfsExtRemove (allocExtOps r .blkno) st start len = some (ret, st')) :
    AllocInv st' := by
  obtain ⟨E, hR, hE⟩ := h r
  obtain ⟨E', hE', hout⟩ := extRemove_freeSet (allocExtInsert_lawful r .blkno st.roots)
    (allocExtRemove_lawful r .blkno st.roots) (allocExtNext_blkno_lawful r st.roots)
    ⟨hR, fun _ _ => rfl⟩ hE hl hend
  rw [hres] at hout
  exact h.of_outcome hE hE' hout

/-- `scoutfs_ext_alloc` from the order index keeps the invariant, and what it hands out is a
valid free extent. -/
theorem extAlloc_allocInv (h : AllocInv st) {start len count : UInt64} {ext : ScoutfsExtent}
    (hres : scoutfsExtAlloc (allocExtOps r .order) st start len count = some (ret, st', ext)) :
    AllocInv st' ∧ (ext.len ≠ 0 → ExtValid ext ∧ ExtFree ext) := by
  obtain ⟨E, hR, hE⟩ := h r
  have hs : RootAt r st.roots st E := ⟨hR, fun _ _ => rfl⟩
  obtain ⟨E', hE', hout⟩ := extAlloc_freeSet (allocExtInsert_lawful r .order st.roots)
    (allocExtRemove_lawful r .order st.roots) (allocExtNext_order_member r st.roots) hs hE
    start len count
  rw [hres] at hout
  exact ⟨h.of_outcome hE hE' hout, extAlloc_valid (allocExtNext_order_member r st.roots) hs hE hres⟩

end Helpers

/-! ### Single extent changes -/

/-- A range that `invalid_data_extent` accepts on a device whose last block is below
`U64_MAX` is a valid extent. -/
theorem extValid_of_invalidDataExtent {lastData start len : UInt64}
    (hdev : lastData.toNat < 2 ^ 64 - 1) (h : invalidDataExtent lastData start len = false) :
    ExtValid ⟨start, len, 0, 0⟩ := by
  simp only [invalidDataExtent, invalidExtent, Bool.or_eq_false_iff, decide_eq_false_iff_not,
    gt_iff_lt, UInt64.lt_iff_toNat_lt, not_lt] at h
  obtain ⟨⟨h₁, -⟩, h₃⟩ := h
  simp only [UInt64.toNat_sub, UInt64.toNat_add, UInt64.toNat_one] at h₁ h₃
  have := len.toNat_lt
  refine ⟨?_, ?_⟩ <;> dsimp only <;> omega

section Single

variable {st st' : AllocState} {r : ℕ} {ret : Int}

theorem scoutfsFreeData_allocInv (h : AllocInv st) {lastData blkno count : UInt64}
    (hdev : lastData.toNat < 2 ^ 64 - 1)
    (hres : scoutfsFreeData lastData st r blkno count = some (ret, st')) : AllocInv st' := by
  unfold scoutfsFreeData at hres
  by_cases hinv : invalidDataExtent lastData blkno count = true
  · rw [if_pos hinv] at hres
    cases hres
    exact h
  · rw [if_neg hinv] at hres
    exact extInsert_allocInv h
      (extValid_of_invalidDataExtent hdev (Bool.eq_false_iff.mpr hinv)) hres

theorem scoutfsAllocInsert_allocInv (h : AllocInv st) {start len : UInt64}
    (hv : ExtValid ⟨start, len, 0, 0⟩)
    (hres : scoutfsAllocInsert st r start len = some (ret, st')) : AllocInv st' :=
  extInsert_allocInv h hv hres

theorem scoutfsAllocRemove_allocInv (h : AllocInv st) {start len : UInt64}
    (hv : ExtValid ⟨start, len, 0, 0⟩)
    (hres : scoutfsAllocRemove st r start len = some (ret, st')) : AllocInv st' :=
  extRemove_allocInv h hv.1 hv.2 hres

/-- The cached extent of a data allocator is empty or a valid extent. -/
def CachedValid (dalloc : ScoutfsDataAlloc) : Prop :=
  dalloc.cached.len ≠ 0 → ExtValid dalloc.cached

theorem scoutfsDallocReturnCached_allocInv (h : AllocInv st) {dalloc dalloc' : ScoutfsDataAlloc}
    (hc : CachedValid dalloc)
    (hres : scoutfsDallocReturnCached st dalloc = some (ret, st', dalloc')) :
    AllocInv st' ∧ CachedValid dalloc' := by
  unfold scoutfsDallocReturnCached at hres
  by_cases hl : dalloc.cached.len ≠ 0
  · rw [if_pos hl] at hres
    rcases hi : scoutfsExtInsert (allocExtOps dalloc.root .blkno) st dalloc.cached.start
      dalloc.cached.len 0 0 with _ | ⟨ret₁, st₁⟩ <;> rw [hi] at hres
    · cases hres
    cases hres
    refine ⟨extInsert_allocInv h (hc hl) hi, ?_⟩
    split_ifs
    · intro h0
      exact absurd rfl h0
    · exact hc
  · rw [if_neg hl] at hres
    cases hres
    exact ⟨h, hc⟩

theorem allocDataOut_cached (st : AllocState) (dalloc : ScoutfsDataAlloc) (ret : Int)
    (blkno count : UInt64) : (allocDataOut st dalloc ret blkno count).2.1.cached = dalloc.cached := by
  unfold allocDataOut
  split_ifs <;> rfl

/-- Carving the first blocks off a valid cached extent leaves a valid extent or nothing. -/
theorem cachedValid_carve {dalloc : ScoutfsDataAlloc} (hc : CachedValid dalloc) (count : UInt64) :
    CachedValid { dalloc with cached := { dalloc.cached with
      start := dalloc.cached.start + min count dalloc.cached.len,
      len := dalloc.cached.len - min count dalloc.cached.len } } := by
  intro hl
  have hmin : (min count dalloc.cached.len).toNat ≤ dalloc.cached.len.toNat := by
    rw [UInt64.toNat_min]
    omega
  have hsub : (dalloc.cached.len - min count dalloc.cached.len).toNat =
      dalloc.cached.len.toNat - (min count dalloc.cached.len).toNat :=
    UInt64.toNat_sub_of_le _ _ (UInt64.le_iff_toNat_le.mpr hmin)
  have hne : (dalloc.cached.len - min count dalloc.cached.len).toNat ≠ 0 := fun h0 =>
    hl (UInt64.toNat_inj.mp (by rw [h0, UInt64.toNat_zero]))
  have hl' : dalloc.cached.len ≠ 0 := fun h0 => by
    have : dalloc.cached.len.toNat = 0 := by rw [h0, UInt64.toNat_zero]
    omega
  obtain ⟨h₁, h₂⟩ := hc hl'
  have hadd : (dalloc.cached.start + min count dalloc.cached.len).toNat =
      dalloc.cached.start.toNat + (min count dalloc.cached.len).toNat := by
    rw [UInt64.toNat_add]
    omega
  refine ⟨?_, ?_⟩ <;> dsimp only <;> omega

theorem allocDataRefill_allocInv (h : AllocInv st) {dalloc dalloc' : ScoutfsDataAlloc}
    (hc : CachedValid dalloc) (hres : allocDataRefill st dalloc = some (ret, st', dalloc')) :
    AllocInv st' ∧ CachedValid dalloc' := by
  unfold allocDataRefill at hres
  split_ifs at hres
  · obtain ⟨⟨ret₁, st₁, ext⟩, ha, hd⟩ := Option.map_eq_some_iff.mp hres
    cases hd
    obtain ⟨hinv, hext⟩ := extAlloc_allocInv h ha
    exact ⟨hinv, fun hl => (hext hl).1⟩
  · cases hres
    exact ⟨h, hc⟩

theorem allocDataCarve_cachedValid (st : AllocState) (ret : Int) {dalloc : ScoutfsDataAlloc}
    (hc : CachedValid dalloc) (count : UInt64) :
    CachedValid (allocDataCarve st ret dalloc count).2.2.1 := by
  unfold allocDataCarve CachedValid
  split_ifs
  · rw [allocDataOut_cached]
    exact hc
  · dsimp only
    rw [allocDataOut_cached]
    exact cachedValid_carve hc count

theorem scoutfsAllocData_allocInv (h : AllocInv st) {dalloc dalloc' : ScoutfsDataAlloc}
    {count blkno n : UInt64} (hc : CachedValid dalloc)
    (hres : scoutfsAllocData st dalloc count = some (st', ret, dalloc', blkno, n)) :
    AllocInv st' ∧ CachedValid dalloc' := by
  unfold scoutfsAllocData at hres
  split_ifs at hres
  · -- large allocations leave the cached extent alone
    obtain ⟨⟨ret₁, st₁, ext⟩, ha, hd⟩ := Option.map_eq_some_iff.mp hres
    have hinv := (extAlloc_allocInv h ha).1
    dsimp only at hd
    split_ifs at hd <;>
    · obtain ⟨rfl, hout⟩ := Prod.mk.inj hd
      refine ⟨hinv, ?_⟩
      have hcd : dalloc'.cached = dalloc.cached := by
        rw [← allocDataOut_cached st₁ dalloc, hout]
      unfold CachedValid
      rw [hcd]
      exact hc
  · -- small allocations carve the cached extent, refilled first when it is empty
    obtain ⟨⟨ret₁, st₁, d₁⟩, ha, hd⟩ := Option.map_eq_some_iff.mp hres
    obtain ⟨hinv, hc₁⟩ := allocDataRefill_allocInv h hc ha
    have hst : (allocDataCarve st₁ ret₁ d₁ count).1 = st₁ := by
      unfold allocDataCarve
      split_ifs <;> rfl
    have hcv := allocDataCarve_cachedValid st₁ ret₁ hc₁ count
    dsimp only at hd
    rw [hd] at hst hcv
    dsimp only at hst hcv
    subst hst
    exact ⟨hinv, hcv⟩

end Single

/-! ### Allocator lists -/

/-- Every blkno of a list block is below `U64_MAX`: a block of the device. -/
def BlknosValid (lblk : ScoutfsAllocListBlock) : Prop := ∀ b ∈ lblk.blknos, b.toNat < 2 ^ 64 - 1

/-- Every blkno on a list is below `U64_MAX`. -/
def ListValid (lhead : ScoutfsAllocListHead) : Prop := ∀ lblk ∈ lhead.blocks, BlknosValid lblk

theorem mem_listBlockAdd {lblk : ScoutfsAllocListBlock} {x b : UInt64} :
    b ∈ (listBlockAdd lblk x).blknos ↔ b ∈ lblk.blknos ∨ b = x := by
  unfold listBlockAdd
  split_ifs
  · simp
  · simp [or_comm]

/-- Adding the blocks of an allocated extent keeps the blknos below `U64_MAX`. -/
theorem blknosValid_listBlockAddExtent {lblk : ScoutfsAllocListBlock} {ext : ScoutfsExtent}
    (h : BlknosValid lblk) (hext : ext.len ≠ 0 → ExtValid ext) :
    BlknosValid (listBlockAddExtent lblk ext) := by
  -- induction over the added indices, all below the extent's length
  have hfold : ∀ (l : List ℕ) (lblk : ScoutfsAllocListBlock), BlknosValid lblk →
      (∀ i ∈ l, i < ext.len.toNat) →
      BlknosValid (l.foldl (fun lblk i => listBlockAdd lblk (ext.start + UInt64.ofNat i)) lblk) := by
    intro l
    induction l with
    | nil => exact fun lblk h _ => h
    | cons i l ih =>
      intro lblk h hl
      apply ih _ _ fun j hj => hl j (List.mem_cons_of_mem i hj)
      intro b hb
      rcases mem_listBlockAdd.mp hb with hb | rfl
      · exact h b hb
      · have hi := hl i List.mem_cons_self
        have hne : ext.len ≠ 0 := fun h0 => by
          rw [h0, UInt64.toNat_zero] at hi
          omega
        obtain ⟨-, hend⟩ := hext hne
        rw [UInt64.toNat_add, UInt64.toNat_ofNat']
        have : i % 2 ^ 64 = i := Nat.mod_eq_of_lt (by omega)
        omega
  exact hfold _ lblk h fun i hi => List.mem_range.mp hi

theorem fillListLoop_allocInv (root : ℕ) (target : UInt64) :
    ∀ (fuel : ℕ) (st : AllocState) (lblk : ScoutfsAllocListBlock) {ret : Int} {st' : AllocState}
      {lblk' : ScoutfsAllocListBlock}, AllocInv st → BlknosValid lblk →
      fillListLoop root target fuel st lblk = some (ret, st', lblk') →
      AllocInv st' ∧ BlknosValid lblk' := by
  intro fuel
  induction fuel with
  | zero =>
    intro st lblk ret st' lblk' _ _ hres
    cases hres
  | succ fuel ih =>
    intro st lblk ret st' lblk' h hb hres
    unfold fillListLoop at hres
    split_ifs at hres with hlt
    · rcases hf : st.takeFault with ⟨low, st₁⟩
      have h₁ : AllocInv st₁ := h.of_takeFault hf
      rw [hf] at hres
      dsimp only at hres
      split_ifs at hres with hlow
      · cases hres
        exact ⟨h₁, hb⟩
      rcases ha : scoutfsExtAlloc (allocExtOps root .order) st₁ 0 0
        (target - UInt64.ofNat lblk.blknos.length) with _ | ⟨ret₂, st₂, ext⟩ <;> rw [ha] at hres
      · cases hres
      obtain ⟨h₂, hext⟩ := extAlloc_allocInv h₁ ha
      dsimp only at hres
      by_cases hneg : ret₂ < 0
      · rw [if_pos hneg] at hres
        cases hres
        exact ⟨h₂, hb⟩
      · rw [if_neg hneg] at hres
        exact ih st₂ _ h₂ (blknosValid_listBlockAddExtent hb fun hl => (hext hl).1) hres
    · cases hres
      exact ⟨h, hb⟩

theorem scoutfsAllocFillList_allocInv {fuel : ℕ} {st st' : AllocState}
    {lhead lhead' : ScoutfsAllocListHead} {root : ℕ} {lo target : UInt64} {inAlloc : Bool}
    {ret : Int} (h : AllocInv st) (hl : ListValid lhead)
    (hres : scoutfsAllocFillList fuel st lhead root lo target inAlloc = some (ret, st', lhead')) :
    AllocInv st' ∧ ListValid lhead' := by
  unfold scoutfsAllocFillList at hres
  split_ifs at hres
  · cases hres
    exact ⟨h, hl⟩
  · cases hres
    exact ⟨h, hl⟩
  rcases hf : st.takeFault with ⟨fail, st₁⟩
  have h₁ : AllocInv st₁ := h.of_takeFault hf
  rw [hf] at hres
  dsimp only at hres
  split_ifs at hres
  · cases hres
    exact ⟨h₁, hl⟩
  -- the loop fills the first block, or a new empty one for an empty list
  have hlist : ∀ (lblk : ScoutfsAllocListBlock) (rest : List ScoutfsAllocListBlock),
      BlknosValid lblk → ListValid ⟨rest⟩ →
      (fillListLoop root target fuel st₁ lblk).map
        (fun (ret, st, lblk) => (ret, st, (⟨lblk :: rest⟩ : ScoutfsAllocListHead))) =
        some (ret, st', lhead') → AllocInv st' ∧ ListValid lhead' := by
    intro lblk rest hb hrest hmap
    obtain ⟨⟨ret₂, st₂, lblk₂⟩, hloop, hd⟩ := Option.map_eq_some_iff.mp hmap
    cases hd
    obtain ⟨h₂, hb₂⟩ := fillListLoop_allocInv root target fuel st₁ lblk h₁ hb hloop
    refine ⟨h₂, fun lb hlb => ?_⟩
    rcases List.mem_cons.mp hlb with rfl | hlb
    · exact hb₂
    · exact hrest lb hlb
  rcases hbl : lhead.blocks with _ | ⟨lblk, rest⟩ <;> rw [hbl] at hres
  · exact hlist ⟨0, []⟩ [] (fun b hb => by simp at hb) (fun lb hlb => by simp at hlb) hres
  · exact hlist lblk rest (hl lblk (by rw [hbl]; exact List.mem_cons_self))
      (fun lb hlb => hl lb (by rw [hbl]; exact List.mem_cons_of_mem _ hlb)) hres

/-- The run `scoutfs_alloc_empty_list` builds from blknos below `U64_MAX` is a valid extent:
each blkno that extends the run is the block right after it. -/
theorem extendRun_valid {start : UInt64} :
    ∀ (more : List UInt64) (len : UInt64), 0 < len.toNat → start.toNat + len.toNat < 2 ^ 64 →
      (∀ b ∈ more, b.toNat < 2 ^ 64 - 1) →
      0 < (extendRun start len more).toNat ∧
        start.toNat + (extendRun start len more).toNat < 2 ^ 64 := by
  intro more
  induction more with
  | nil => exact fun len h₁ h₂ _ => ⟨h₁, h₂⟩
  | cons b more ih =>
    intro len h₁ h₂ hb
    unfold extendRun
    split_ifs with heq
    · have hbv := hb b List.mem_cons_self
      have hb' : b.toNat = start.toNat + len.toNat := by
        rw [heq, UInt64.toNat_add]
        omega
      have hlen : (len + 1).toNat = len.toNat + 1 := by
        rw [UInt64.toNat_add, UInt64.toNat_one]
        omega
      exact ih (len + 1) (by omega) (by omega) fun x hx => hb x (List.mem_cons_of_mem b hx)
    · exact ⟨h₁, h₂⟩

theorem blknosValid_listBlockSort {lblk : ScoutfsAllocListBlock} (h : BlknosValid lblk) :
    BlknosValid (listBlockSort lblk) := fun b hb =>
  h b ((List.mergeSort_perm _ _).mem_iff.mp hb)

theorem blknosValid_listBlockRemove {lblk : ScoutfsAllocListBlock} (h : BlknosValid lblk)
    (count : ℕ) : BlknosValid (listBlockRemove lblk count) := fun b hb =>
  h b (List.mem_of_mem_drop hb)

theorem trimEmptyFirstBlock_valid {st st' : AllocState} {lhead lhead' : ScoutfsAllocListHead}
    {ret : Int} (h : trimEmptyFirstBlock st lhead = (ret, st', lhead')) (hl : ListValid lhead) :
    st'.roots = st.roots ∧ ListValid lhead' := by
  unfold trimEmptyFirstBlock at h
  rcases hbl : lhead.blocks with _ | ⟨one, rest⟩ <;> rw [hbl] at h
  · cases h
    exact ⟨rfl, hl⟩
  dsimp only at h
  by_cases hne : one.blknos ≠ []
  · rw [if_pos hne] at h
    cases h
    exact ⟨rfl, hl⟩
  rw [if_neg hne] at h
  rcases hf : st.takeFault with ⟨fail, st₁⟩
  have hr : st₁.roots = st.roots := by rw [← AllocState.takeFault_roots st, hf]
  rw [hf] at h
  dsimp only at h
  by_cases hfail : fail = true
  · rw [if_pos hfail] at h
    cases h
    exact ⟨hr, hl⟩
  · rw [if_neg hfail] at h
    cases h
    exact ⟨hr, fun lb hlb => hl lb (by rw [hbl]; exact List.mem_cons_of_mem _ hlb)⟩

theorem emptyListDirty_valid {st st' : AllocState} {lblk lblk' : ScoutfsAllocListBlock}
    {dirty fail : Bool} (h : emptyListDirty st lblk dirty = (fail, st', lblk'))
    (hb : BlknosValid lblk) : st'.roots = st.roots ∧ BlknosValid lblk' := by
  unfold emptyListDirty at h
  split_ifs at h
  · cases h
    exact ⟨rfl, hb⟩
  rcases hf : st.takeFault with ⟨fail₁, st₁⟩
  rw [hf] at h
  cases h
  exact ⟨by rw [← AllocState.takeFault_roots st, hf], blknosValid_listBlockSort hb⟩

/-- Inserting the front run of a block of valid blknos keeps the invariant and the list's
blknos valid, whether the loop ends or goes on. -/
theorem emptyListInsertRun_valid {root : ℕ} {st : AllocState} {lblk : ScoutfsAllocListBlock}
    {rest : List ScoutfsAllocListBlock}
    {res : (Int × AllocState × ScoutfsAllocListHead) ⊕ (AllocState × ScoutfsAllocListHead)}
    (h : AllocInv st) (hb : BlknosValid lblk) (hrest : ListValid ⟨rest⟩)
    (hres : emptyListInsertRun root st lblk rest = some res) :
    (∀ ret st' lhead', res = .inl (ret, st', lhead') → AllocInv st' ∧ ListValid lhead') ∧
      (∀ st' lhead', res = .inr (st', lhead') → AllocInv st' ∧ ListValid lhead') := by
  unfold emptyListInsertRun at hres
  rcases hbl : lblk.blknos with _ | ⟨start, more⟩ <;> rw [hbl] at hres
  · cases hres
  dsimp only at hres
  -- the run is a valid extent: its blknos are all below `U64_MAX`
  have hstart := hb start (by rw [hbl]; exact List.mem_cons_self)
  have hrun := @extendRun_valid start more 1 (by simp) (by simp only [UInt64.toNat_one]; omega)
    fun x hx => hb x (by rw [hbl]; exact List.mem_cons_of_mem _ hx)
  rcases hi : scoutfsExtInsert (allocExtOps root .blkno) st start (extendRun start 1 more) 0 0 with
    _ | ⟨ret₁, st₁⟩ <;> rw [hi] at hres
  · cases hres
  have h₁ := extInsert_allocInv h hrun hi
  have hlist : ∀ lb : ScoutfsAllocListBlock, BlknosValid lb → ListValid ⟨lb :: rest⟩ :=
    fun lb hlb lb' hlb' => by
      rcases List.mem_cons.mp hlb' with rfl | hlb'
      · exact hlb
      · exact hrest lb' hlb'
  dsimp only at hres
  split_ifs at hres
  · cases hres
    refine ⟨fun ret st' lhead' he => ?_, fun st' lhead' he => by cases he⟩
    cases he
    exact ⟨h₁, hlist lblk hb⟩
  · cases hres
    refine ⟨fun ret st' lhead' he => (by cases he), fun st' lhead' he => ?_⟩
    cases he
    exact ⟨h₁, hlist _ (blknosValid_listBlockRemove hb _)⟩

theorem emptyListLoop_allocInv (root : ℕ) :
    ∀ (fuel : ℕ) (st : AllocState) (lhead : ScoutfsAllocListHead) (dirty : Bool) {ret : Int}
      {st' : AllocState} {lhead' : ScoutfsAllocListHead}, AllocInv st → ListValid lhead →
      emptyListLoop root fuel st lhead dirty = some (ret, st', lhead') →
      AllocInv st' ∧ ListValid lhead' := by
  intro fuel
  induction fuel with
  | zero =>
    intro st lhead dirty ret st' lhead' _ _ hres
    cases hres
  | succ fuel ih =>
    intro st lhead dirty ret st' lhead' h hl hres
    unfold emptyListLoop at hres
    rcases hbl : lhead.blocks with _ | ⟨lblk, rest⟩ <;> rw [hbl] at hres
    · cases hres
      exact ⟨h, hl⟩
    have hlblk : BlknosValid lblk := hl lblk (by rw [hbl]; exact List.mem_cons_self)
    have hrest : ListValid ⟨rest⟩ := fun lb hlb =>
      hl lb (by rw [hbl]; exact List.mem_cons_of_mem _ hlb)
    dsimp only at hres
    rcases hf : st.takeFault with ⟨low, st₁⟩
    have h₁ := h.of_takeFault hf
    rw [hf] at hres
    dsimp only at hres
    by_cases hlow : low = true
    · -- the metadata allocator is low: stop
      rw [if_pos hlow] at hres
      cases hres
      exact ⟨h₁, hl⟩
    rw [if_neg hlow] at hres
    by_cases hemp : lblk.blknos = []
    · -- an empty first block is trimmed
      rw [if_pos hemp] at hres
      rcases ht : trimEmptyFirstBlock st₁ lhead with ⟨ret₂, st₂, lhead₂⟩
      rw [ht] at hres
      obtain ⟨hr₂, hl₂⟩ := trimEmptyFirstBlock_valid ht hl
      have h₂ := h₁.of_roots hr₂
      dsimp only at hres
      by_cases hneg : ret₂ < 0
      · rw [if_pos hneg] at hres
        cases hres
        exact ⟨h₂, hl₂⟩
      · rw [if_neg hneg] at hres
        exact ih st₂ lhead₂ false h₂ hl₂ hres
    -- insert the run at the front of the dirtied, sorted first block
    rw [if_neg hemp] at hres
    rcases hd : emptyListDirty st₁ lblk dirty with ⟨fail, st₂, lblk₂⟩
    rw [hd] at hres
    obtain ⟨hr₂, hb₂⟩ := emptyListDirty_valid hd hlblk
    have h₂ := h₁.of_roots hr₂
    dsimp only at hres
    by_cases hfail : fail = true
    · rw [if_pos hfail] at hres
      cases hres
      exact ⟨h₂, hl⟩
    rw [if_neg hfail] at hres
    rcases hrun : emptyListInsertRun root st₂ lblk₂ rest with _ | res <;> rw [hrun] at hres
    · cases hres
    obtain ⟨hstop, hgo⟩ := emptyListInsertRun_valid h₂ hb₂ hrest hrun
    rcases res with ⟨ret₃, st₃, lhead₃⟩ | ⟨st₃, lhead₃⟩
    · cases hres
      exact hstop _ _ _ rfl
    · obtain ⟨h₃, hl₃⟩ := hgo _ _ rfl
      exact ih st₃ lhead₃ true h₃ hl₃ hres

theorem scoutfsAllocEmptyList_allocInv {fuel : ℕ} {st st' : AllocState} {root : ℕ}
    {lhead lhead' : ScoutfsAllocListHead} {inAlloc : Bool} {ret : Int} (h : AllocInv st)
    (hl : ListValid lhead)
    (hres : scoutfsAllocEmptyList fuel st root lhead inAlloc = some (ret, st', lhead')) :
    AllocInv st' ∧ ListValid lhead' := by
  unfold scoutfsAllocEmptyList at hres
  split_ifs at hres
  · cases hres
    exact ⟨h, hl⟩
  · exact emptyListLoop_allocInv root fuel st lhead false h hl hres

/-! ### Moving extents -/

/-- `[start, start + len)` is a non-empty part of the stored extent `found`: what the searches
of `scoutfs_alloc_move` hand out. -/
structure MovePart (E : Finset ScoutfsExtent) (found : ScoutfsExtent) (start len : UInt64) :
    Prop where
  mem : found ∈ E
  start_ge : found.start.toNat ≤ start.toNat
  end_le : start.toNat + len.toNat ≤ found.start.toNat + found.len.toNat
  pos : 0 < len.toNat

theorem MovePart.extValid {E : Finset ScoutfsExtent} {found : ScoutfsExtent} {start len : UInt64}
    (hp : MovePart E found start len) (hE : FreeSet E) : ExtValid ⟨start, len, 0, 0⟩ := by
  have hv := hE.valid found hp.mem
  obtain ⟨-, -, hend, hpos⟩ := hp
  exact ⟨hpos, by dsimp only; unfold ExtValid at hv; omega⟩

/-- The zone `first_extent_zone` picks starts at or before the extent's last block, also when
the zone numbers it computes do not fit an `int`. -/
theorem firstExtentZone_mul_le {ext : ScoutfsExtent} {zones : ℕ → Bool} {zoneBlocks : UInt64}
    (hv : ExtValid ext)
    (h : firstExtentZone ext zones zoneBlocks < SCOUTFS_DATA_ALLOC_MAX_ZONES) :
    firstExtentZone ext zones zoneBlocks * zoneBlocks.toNat ≤
      ext.start.toNat + ext.len.toNat - 1 := by
  unfold firstExtentZone at h ⊢
  dsimp only at h ⊢
  set nr := findNextBit zones SCOUTFS_DATA_ALLOC_MAX_ZONES
    (intToULong (u64ToInt (ext.start / zoneBlocks)))
  set q := (ext.start + ext.len - 1) / zoneBlocks
  split_ifs at h ⊢ with hle
  · have hq : q.toNat = (ext.start.toNat + ext.len.toNat - 1) / zoneBlocks.toNat := by
      rw [UInt64.toNat_div, ← extLast_toNat hv]
      rfl
    -- the zone is at most the last zone `q`, whether or not `q` fits an `int`
    have hnr : nr ≤ q.toNat := by
      simp only [u64ToInt] at hle
      unfold SCOUTFS_DATA_ALLOC_MAX_ZONES at h
      split_ifs at hle <;> omega
    calc nr * zoneBlocks.toNat ≤ q.toNat * zoneBlocks.toNat := Nat.mul_le_mul_right _ hnr
      _ = (ext.start.toNat + ext.len.toNat - 1) / zoneBlocks.toNat * zoneBlocks.toNat := by
          rw [hq]
      _ ≤ ext.start.toNat + ext.len.toNat - 1 := Nat.div_mul_le_self _ _
  · exact absurd h (lt_irrefl _)

/-- Where the part handed out from the zone `first_extent_zone` picks starts: the zone's first
block, which is at or before the extent's last block and so does not overflow, or the
extent's start. -/
theorem firstExtentZone_start_toNat {ext : ScoutfsExtent} {zones : ℕ → Bool}
    {zoneBlocks : UInt64} (hv : ExtValid ext)
    (hnr : firstExtentZone ext zones zoneBlocks < SCOUTFS_DATA_ALLOC_MAX_ZONES) :
    (max (UInt64.ofNat (firstExtentZone ext zones zoneBlocks) * zoneBlocks) ext.start).toNat =
      max (firstExtentZone ext zones zoneBlocks * zoneBlocks.toNat) ext.start.toNat := by
  have hle := firstExtentZone_mul_le hv hnr
  have hv₂ := hv.2
  have hzone : (UInt64.ofNat (firstExtentZone ext zones zoneBlocks) * zoneBlocks).toNat =
      firstExtentZone ext zones zoneBlocks * zoneBlocks.toNat := by
    rw [UInt64.toNat_mul, UInt64.toNat_ofNat']
    have : firstExtentZone ext zones zoneBlocks % 2 ^ 64 = firstExtentZone ext zones zoneBlocks :=
      Nat.mod_eq_of_lt (by unfold SCOUTFS_DATA_ALLOC_MAX_ZONES at hnr; omega)
    rw [this]
    exact Nat.mod_eq_of_lt (by omega)
  rw [UInt64.toNat_max, hzone]

/-- The part of a found extent that `find_zone_extent` hands out, from the first zone it
intersects. -/
theorem findZoneExtent_part_of_found {E : Finset ScoutfsExtent} {found : ScoutfsExtent}
    {zones : ℕ → Bool} {zoneBlocks count : UInt64} (hE : FreeSet E) (hfound : found ∈ E)
    (hc : 0 < count.toNat)
    (hnr : firstExtentZone found zones zoneBlocks < SCOUTFS_DATA_ALLOC_MAX_ZONES) :
    let start := max (UInt64.ofNat (firstExtentZone found zones zoneBlocks) * zoneBlocks) found.start
    MovePart E found start (min count (found.start + found.len - start)) := by
  intro start
  have hv := hE.valid found hfound
  have hv₁ := hv.1
  have hv₂ := hv.2
  have hle := firstExtentZone_mul_le hv hnr
  have hstart : start.toNat = max (firstExtentZone found zones zoneBlocks * zoneBlocks.toNat)
      found.start.toNat := firstExtentZone_start_toNat hv hnr
  have hrest : (found.start + found.len - start).toNat =
      found.start.toNat + found.len.toNat - start.toNat := by
    rw [UInt64.toNat_sub_of_le _ _ (UInt64.le_iff_toNat_le.mpr (by rw [UInt64.toNat_add]; omega)),
      UInt64.toNat_add]
    omega
  refine ⟨hfound, by omega, ?_, ?_⟩ <;> rw [UInt64.toNat_min, hrest] <;> omega

/-- A search of the order index that does not fail finds a stored extent. -/
theorem allocExtNext_order_mem {st : AllocState} {root : ℕ} {E : Finset ScoutfsExtent}
    (hR : RootHolds (st.roots root) E) (start len : UInt64)
    (h : ¬(allocExtNext root .order st start len).1 < 0) :
    (allocExtNext root .order st start len).2 ∈ E := by
  rcases allocExtNext_order_member root st.roots st E start len ⟨hR, fun _ _ => rfl⟩ with
    ⟨e, he, hmem⟩ | hneg
  · change allocExtNext root .order st start len = (0, e) at he
    rw [he]
    exact hmem
  · exact absurd hneg h

/-- A search of the free extent items fails only with `-ENOENT`. -/
theorem allocExtNext_neg {st : AllocState} {root : ℕ} {zone : FreeExtentZone}
    {start len : UInt64} (h : (allocExtNext root zone st start len).1 < 0) :
    (allocExtNext root zone st start len).1 = -ENOENT := by
  unfold allocExtNext at h ⊢
  rcases hk : scoutfsBtreeNext (st.roots root) (initExtKey zone start len) with _ | key
  · rfl
  · simp only [hk] at h ⊢
    split_ifs at h ⊢
    · rfl
    · exact absurd h (lt_irrefl 0)

/-- What the zone search of root `root` hands back: `-ENOENT`, or the part, from the first
zone of `zones` it intersects, of an extent that a search of the order index found. -/
def ZoneSearchResult (st : AllocState) (root : ℕ) (zones : ℕ → Bool) (zoneBlocks count : UInt64) :
    Except Int (ScoutfsExtent × UInt64 × UInt64) → Prop
  | .error ret => ret = -ENOENT
  | .ok (found, start, n) =>
    (∃ s l, ¬(allocExtNext root .order st s l).1 < 0 ∧
      (allocExtNext root .order st s l).2 = found) ∧
    firstExtentZone found zones zoneBlocks < SCOUTFS_DATA_ALLOC_MAX_ZONES ∧
    start = max (UInt64.ofNat (firstExtentZone found zones zoneBlocks) * zoneBlocks) found.start ∧
    n = min count (found.start + found.len - start)

theorem findZoneExtentLoop_result {st : AllocState} {root : ℕ} {zones : ℕ → Bool}
    {zoneBlocks count : UInt64} :
    ∀ (fuel : ℕ) (nr : Int) (len : UInt64) {res : Except Int (ScoutfsExtent × UInt64 × UInt64)},
      findZoneExtentLoop st root zones zoneBlocks count fuel nr len = some res →
      ZoneSearchResult st root zones zoneBlocks count res := by
  intro fuel
  induction fuel with
  | zero =>
    intro nr len res hres
    cases hres
  | succ fuel ih =>
    intro nr len res hres
    unfold findZoneExtentLoop at hres
    dsimp only at hres
    -- the cases: out of zones and orders; a failed search; an extent in a zone (the part is
    -- handed out); an extent in no zone (the search goes on), each at this order or the next
    split_ifs at hres
    all_goals first
      | exact ih _ _ hres
      | (cases hres; rfl)
      | (cases hres; exact allocExtNext_neg (by assumption))
      | (cases hres
         exact ⟨⟨_, _, by assumption, rfl⟩, by assumption, rfl, rfl⟩)

theorem findZoneExtentLoop_part {st : AllocState} {root : ℕ} {zones : ℕ → Bool}
    {zoneBlocks count : UInt64} {E : Finset ScoutfsExtent} (hR : RootHolds (st.roots root) E)
    (hE : FreeSet E) (hc : 0 < count.toNat) :
    ∀ (fuel : ℕ) (nr : Int) (len : UInt64) {found : ScoutfsExtent} {start n : UInt64},
      findZoneExtentLoop st root zones zoneBlocks count fuel nr len = some (.ok (found, start, n)) →
      MovePart E found start n := by
  intro fuel nr len found start n hres
  obtain ⟨⟨s, l, hneg, rfl⟩, hnr, rfl, rfl⟩ := findZoneExtentLoop_result fuel nr len hres
  exact findZoneExtent_part_of_found hE (allocExtNext_order_mem hR s l hneg) hc hnr

theorem findZoneExtent_part {fuel : ℕ} {st : AllocState} {root : ℕ} {zones : ℕ → Bool}
    {zoneBlocks count : UInt64} {E : Finset ScoutfsExtent} {found : ScoutfsExtent}
    {start n : UInt64} (hR : RootHolds (st.roots root) E) (hE : FreeSet E) (hc : 0 < count.toNat)
    (hres : findZoneExtent fuel st root zones zoneBlocks count = some (.ok (found, start, n))) :
    MovePart E found start n := by
  unfold findZoneExtent at hres
  split_ifs at hres
  · cases hres
  · exact findZoneExtentLoop_part hR hE hc fuel _ _ hres

theorem findZoneExtent_result {fuel : ℕ} {st : AllocState} {root : ℕ} {zones : ℕ → Bool}
    {zoneBlocks count : UInt64} {res : Except Int (ScoutfsExtent × UInt64 × UInt64)}
    (hres : findZoneExtent fuel st root zones zoneBlocks count = some res) :
    ZoneSearchResult st root zones zoneBlocks count res := by
  unfold findZoneExtent at hres
  split_ifs at hres
  · cases hres
    rfl
  · exact findZoneExtentLoop_result fuel _ _ hres

/-- A search of `scoutfs_alloc_move` fails only with `-ENOENT`. -/
theorem allocMoveFind_error {fuel : ℕ} {st : AllocState} {src : ℕ}
    {exclusive vacant : Option (ℕ → Bool)} {zoneBlocks count : UInt64} {ret : Int}
    (hres : allocMoveFind fuel st src exclusive vacant zoneBlocks count = some (.error ret)) :
    ret = -ENOENT := by
  unfold allocMoveFind at hres
  rcases exclusive with _ | zones <;> rcases vacant with _ | zones' <;> dsimp only at hres
  · split_ifs at hres with hneg
    · cases hres
      exact allocExtNext_neg hneg
    · cases hres
  all_goals exact findZoneExtent_result hres

/-- A search of `scoutfs_alloc_move` hands out at most the `count` blocks asked for. -/
theorem allocMoveFind_le {fuel : ℕ} {st : AllocState} {src : ℕ}
    {exclusive vacant : Option (ℕ → Bool)} {zoneBlocks count : UInt64} {found : ScoutfsExtent}
    {start n : UInt64}
    (hres : allocMoveFind fuel st src exclusive vacant zoneBlocks count =
      some (.ok (found, start, n))) : n.toNat ≤ count.toNat := by
  unfold allocMoveFind at hres
  rcases exclusive with _ | zones <;> rcases vacant with _ | zones' <;> dsimp only at hres
  · split_ifs at hres
    · cases hres
    simp only [Option.some.injEq, Except.ok.injEq, Prod.mk.injEq] at hres
    obtain ⟨-, -, rfl⟩ := hres
    rw [UInt64.toNat_min]
    exact min_le_left _ _
  all_goals
    obtain ⟨-, -, -, rfl⟩ := findZoneExtent_result hres
    rw [UInt64.toNat_min]
    exact min_le_left _ _

/-- Every search of `scoutfs_alloc_move` hands out a non-empty part of a stored free extent. -/
theorem allocMoveFind_movePart {fuel : ℕ} {st : AllocState} {src : ℕ}
    {exclusive vacant : Option (ℕ → Bool)} {zoneBlocks count : UInt64} {found : ScoutfsExtent}
    {start n : UInt64} {E : Finset ScoutfsExtent} (hR : RootHolds (st.roots src) E)
    (hE : FreeSet E) (hc : 0 < count.toNat)
    (hres : allocMoveFind fuel st src exclusive vacant zoneBlocks count =
      some (.ok (found, start, n))) :
    MovePart E found start n := by
  unfold allocMoveFind at hres
  rcases exclusive with _ | zones <;> rcases vacant with _ | zones' <;> dsimp only at hres
  · -- anywhere: the first extent of the order index
    split_ifs at hres with hneg
    · cases hres
    simp only [Option.some.injEq, Except.ok.injEq, Prod.mk.injEq] at hres
    obtain ⟨rfl, rfl, rfl⟩ := hres
    have hmem := allocExtNext_order_mem hR 0 0 hneg
    have hv := hE.valid _ hmem
    refine ⟨hmem, le_refl _, ?_, ?_⟩ <;> rw [UInt64.toNat_min] <;> unfold ExtValid at hv <;> omega
  all_goals exact findZoneExtent_part hR hE hc hres

theorem allocMoveFind_part {fuel : ℕ} {st : AllocState} {src : ℕ}
    {exclusive vacant : Option (ℕ → Bool)} {zoneBlocks count : UInt64} {found : ScoutfsExtent}
    {start n : UInt64} (h : AllocInv st) (hc : 0 < count.toNat)
    (hres : allocMoveFind fuel st src exclusive vacant zoneBlocks count =
      some (.ok (found, start, n))) :
    ExtValid ⟨start, n, 0, 0⟩ ∧ ExtFree found := by
  obtain ⟨E, hR, hE⟩ := h src
  have hpart := allocMoveFind_movePart hR hE hc hres
  exact ⟨hpart.extValid hE, hE.free found hpart.mem⟩

/-- The state one extent move ends in, whether the loop stops there or goes on. -/
def moveState : (Int × AllocState) ⊕ AllocState → AllocState
  | .inl (_, st) => st
  | .inr st => st

/-- Moving a valid part of a free extent keeps the invariant: the remove from `src`, the
insert into `dst` and, when that fails, the insert back into `src` each keep it. -/
theorem allocMoveExtent_allocInv {st : AllocState} {dst src : ℕ} {metaBudget moved : UInt64}
    {found : ScoutfsExtent} {start len : UInt64} {res : (Int × AllocState) ⊕ AllocState}
    (h : AllocInv st) (hv : ExtValid ⟨start, len, 0, 0⟩) (hf : ExtFree found)
    (hres : allocMoveExtent st dst src metaBudget moved found start len = some res) :
    AllocInv (moveState res) := by
  unfold allocMoveExtent at hres
  obtain ⟨hmap, hflags⟩ := hf
  -- the metadata budget checks only read outcomes
  rcases hs₁ : (if metaBudget ≠ 0 then st.takeFault else (false, st)) with ⟨lowSince, st₁⟩
  have h₁ : AllocInv st₁ := by
    split_ifs at hs₁
    · exact h.of_takeFault hs₁
    · cases hs₁
      exact h
  rw [hs₁] at hres
  dsimp only at hres
  by_cases hls : lowSince = true
  · rw [if_pos hls] at hres
    cases hres
    exact h₁
  rw [if_neg hls] at hres
  rcases hs₂ : st₁.takeFault with ⟨low, st₂⟩
  have h₂ := h₁.of_takeFault hs₂
  rw [hs₂] at hres
  dsimp only at hres
  by_cases hlow : low = true
  · rw [if_pos hlow] at hres
    cases hres
    exact h₂
  -- the moved part carries the found extent's mapping and flags: none
  rw [if_neg hlow, if_neg (not_not.mpr hmap), hflags] at hres
  rcases hr : scoutfsExtRemove (allocExtOps src .blkno) st₂ start len with _ | ⟨ret₃, st₃⟩ <;>
    rw [hr] at hres
  · cases hres
  have h₃ := extRemove_allocInv h₂ hv.1 hv.2 hr
  dsimp only at hres
  by_cases hneg₃ : ret₃ < 0
  · rw [if_pos hneg₃] at hres
    cases hres
    exact h₃
  rw [if_neg hneg₃] at hres
  rcases hi : scoutfsExtInsert (allocExtOps dst .blkno) st₃ start len 0 0 with _ | ⟨ret₄, st₄⟩ <;>
    rw [hi] at hres
  · cases hres
  have h₄ := extInsert_allocInv h₃ hv hi
  dsimp only at hres
  by_cases hneg₄ : ret₄ < 0
  · -- put it back in src
    rw [if_pos hneg₄] at hres
    rcases hb : scoutfsExtInsert (allocExtOps src .blkno) st₄ start len 0 0 with
      _ | ⟨err, st₅⟩ <;> rw [hb] at hres
    · cases hres
    have h₅ := extInsert_allocInv h₄ hv hb
    dsimp only at hres
    by_cases herr : err ≠ 0
    · rw [if_pos herr] at hres
      cases hres
    · rw [if_neg herr] at hres
      cases hres
      exact h₅
  · rw [if_neg hneg₄] at hres
    cases hres
    exact h₄

/-- **`scoutfs_alloc_move`'s loop keeps the invariant**: every search hands out a valid part of
a stored free extent, and every move of it keeps the invariant. -/
theorem allocMoveLoop_allocInv (dst src : ℕ) (total zoneBlocks metaBudget : UInt64) :
    ∀ (fuel : ℕ) (st : AllocState) (exclusive vacant : Option (ℕ → Bool)) (moved : UInt64)
      {ret : Int} {st' : AllocState}, AllocInv st →
      allocMoveLoop dst src total zoneBlocks metaBudget fuel st exclusive vacant moved =
        some (ret, st') → AllocInv st' := by
  intro fuel
  induction fuel with
  | zero =>
    intro st exclusive vacant moved ret st' _ hres
    cases hres
  | succ fuel ih =>
    intro st exclusive vacant moved ret st' h hres
    unfold allocMoveLoop at hres
    by_cases hlt : moved < total
    · rw [if_pos hlt] at hres
      have hc : 0 < (total - moved).toNat := by
        rw [UInt64.lt_iff_toNat_lt] at hlt
        rw [UInt64.toNat_sub_of_le _ _ (UInt64.le_iff_toNat_le.mpr (by omega))]
        omega
      rcases hfind : allocMoveFind fuel st src exclusive vacant zoneBlocks (total - moved) with
        _ | (ret₁ | ⟨found, start, len⟩) <;> rw [hfind] at hres
      · cases hres
      · -- a zone search that found nothing drops to the next kind of search
        dsimp only at hres
        split_ifs at hres
        · exact ih _ _ _ _ h hres
        · exact ih _ _ _ _ h hres
        · cases hres
          exact h
      · obtain ⟨hv, hf⟩ := allocMoveFind_part h hc hfind
        dsimp only at hres
        rcases hm : allocMoveExtent st dst src metaBudget moved found start len with
          _ | (⟨ret₂, st₂⟩ | st₂) <;> rw [hm] at hres
        · cases hres
        · cases hres
          exact allocMoveExtent_allocInv h hv hf hm
        · exact ih _ _ _ _ (allocMoveExtent_allocInv h hv hf hm) hres
    · rw [if_neg hlt] at hres
      cases hres
      exact h

theorem scoutfsAllocMove_allocInv {fuel : ℕ} {st st' : AllocState} {dst src : ℕ}
    {total zoneBlocks metaBudget : UInt64} {exclusive vacant : Option (ℕ → Bool)} {ret : Int}
    (h : AllocInv st)
    (hres : scoutfsAllocMove fuel st dst src total exclusive vacant zoneBlocks metaBudget =
      some (ret, st')) : AllocInv st' := by
  unfold scoutfsAllocMove at hres
  exact allocMoveLoop_allocInv dst src total zoneBlocks metaBudget fuel st _ _ 0 h hres

/-! ### The allocator system -/

/-- The allocator state with the data allocators and the allocator lists the operations
work on, each by index. -/
structure AllocSystem where
  st : AllocState
  dallocs : ℕ → ScoutfsDataAlloc
  lists : ℕ → ScoutfsAllocListHead

/-- One operation of `alloc.c` on the system, with any arguments and any outcomes of its
fallible steps; `lastData` is the data device's last block.  The server calls
`scoutfs_alloc_insert` and `scoutfs_alloc_remove` with ranges of its devices
(`server_resize_devices`): non-empty and ending below `2 ^ 64 - 1`. -/
inductive AllocStep (lastData : UInt64) : AllocSystem → AllocSystem → Prop
  | freeData {sys : AllocSystem} {root : ℕ} {blkno count : UInt64} {ret : Int} {st' : AllocState}
      (h : scoutfsFreeData lastData sys.st root blkno count = some (ret, st')) :
      AllocStep lastData sys { sys with st := st' }
  | allocData {sys : AllocSystem} {d : ℕ} {count blkno n : UInt64} {ret : Int} {st' : AllocState}
      {dalloc' : ScoutfsDataAlloc}
      (h : scoutfsAllocData sys.st (sys.dallocs d) count = some (st', ret, dalloc', blkno, n)) :
      AllocStep lastData sys { sys with st := st', dallocs := Function.update sys.dallocs d dalloc' }
  | returnCached {sys : AllocSystem} {d : ℕ} {ret : Int} {st' : AllocState}
      {dalloc' : ScoutfsDataAlloc}
      (h : scoutfsDallocReturnCached sys.st (sys.dallocs d) = some (ret, st', dalloc')) :
      AllocStep lastData sys { sys with st := st', dallocs := Function.update sys.dallocs d dalloc' }
  | move {sys : AllocSystem} {fuel dst src : ℕ} {total zoneBlocks metaBudget : UInt64}
      {exclusive vacant : Option (ℕ → Bool)} {ret : Int} {st' : AllocState}
      (h : scoutfsAllocMove fuel sys.st dst src total exclusive vacant zoneBlocks metaBudget =
        some (ret, st')) :
      AllocStep lastData sys { sys with st := st' }
  | fillList {sys : AllocSystem} {fuel l root : ℕ} {lo target : UInt64} {inAlloc : Bool}
      {ret : Int} {st' : AllocState} {lhead' : ScoutfsAllocListHead}
      (h : scoutfsAllocFillList fuel sys.st (sys.lists l) root lo target inAlloc =
        some (ret, st', lhead')) :
      AllocStep lastData sys { sys with st := st', lists := Function.update sys.lists l lhead' }
  | emptyList {sys : AllocSystem} {fuel root l : ℕ} {inAlloc : Bool} {ret : Int}
      {st' : AllocState} {lhead' : ScoutfsAllocListHead}
      (h : scoutfsAllocEmptyList fuel sys.st root (sys.lists l) inAlloc = some (ret, st', lhead')) :
      AllocStep lastData sys { sys with st := st', lists := Function.update sys.lists l lhead' }
  | insert {sys : AllocSystem} {root : ℕ} {start len : UInt64} {ret : Int} {st' : AllocState}
      (hv : ExtValid ⟨start, len, 0, 0⟩) (h : scoutfsAllocInsert sys.st root start len = some (ret, st')) :
      AllocStep lastData sys { sys with st := st' }
  | remove {sys : AllocSystem} {root : ℕ} {start len : UInt64} {ret : Int} {st' : AllocState}
      (hv : ExtValid ⟨start, len, 0, 0⟩) (h : scoutfsAllocRemove sys.st root start len = some (ret, st')) :
      AllocStep lastData sys { sys with st := st' }

/-- The states the allocator system reaches from empty roots, data allocators with no cached
extent, and lists of device blocks, by any sequence of operations. -/
inductive Reachable (lastData : UInt64) : AllocSystem → Prop
  | init {sys : AllocSystem}
      (hroots : ∀ r, (sys.st.roots r).items = ∅ ∧ (sys.st.roots r).totalLen = 0)
      (hcached : ∀ d, (sys.dallocs d).cached.len = 0) (hlists : ∀ l, ListValid (sys.lists l)) :
      Reachable lastData sys
  | step {sys sys' : AllocSystem} : Reachable lastData sys → AllocStep lastData sys sys' →
      Reachable lastData sys'

/-- The system invariant: separated free roots, valid cached extents, lists of device
blocks. -/
structure SysInv (sys : AllocSystem) : Prop where
  roots : AllocInv sys.st
  cached : ∀ d, CachedValid (sys.dallocs d)
  lists : ∀ l, ListValid (sys.lists l)

theorem sysInv_init {sys : AllocSystem}
    (hroots : ∀ r, (sys.st.roots r).items = ∅ ∧ (sys.st.roots r).totalLen = 0)
    (hcached : ∀ d, (sys.dallocs d).cached.len = 0) (hlists : ∀ l, ListValid (sys.lists l)) :
    SysInv sys := by
  refine ⟨fun r => ⟨∅, ?_, ?_⟩, fun d hd => absurd (hcached d) hd, hlists⟩
  · obtain ⟨hi, ht⟩ := hroots r
    refine ⟨?_, by simp, by simp, ?_⟩
    · rw [hi]
      rfl
    · rw [ht, Finset.sum_empty]
  · exact ⟨by simp, by simp, by simp⟩

theorem cachedValid_update {dallocs : ℕ → ScoutfsDataAlloc} (h : ∀ d, CachedValid (dallocs d))
    {d : ℕ} {dalloc' : ScoutfsDataAlloc} (h' : CachedValid dalloc') :
    ∀ d', CachedValid (Function.update dallocs d dalloc' d') := by
  intro d'
  by_cases hd : d' = d
  · subst hd
    rw [Function.update_self]
    exact h'
  · rw [Function.update_of_ne hd]
    exact h d'

theorem listValid_update {lists : ℕ → ScoutfsAllocListHead} (h : ∀ l, ListValid (lists l))
    {l : ℕ} {lhead' : ScoutfsAllocListHead} (h' : ListValid lhead') :
    ∀ l', ListValid (Function.update lists l lhead' l') := by
  intro l'
  by_cases hl : l' = l
  · subst hl
    rw [Function.update_self]
    exact h'
  · rw [Function.update_of_ne hl]
    exact h l'

/-- **Every operation keeps the system invariant.** -/
theorem sysInv_step {lastData : UInt64} (hdev : lastData.toNat < 2 ^ 64 - 1)
    {sys sys' : AllocSystem} (h : SysInv sys) (hstep : AllocStep lastData sys sys') :
    SysInv sys' := by
  cases hstep with
  | freeData hres => exact ⟨scoutfsFreeData_allocInv h.roots hdev hres, h.cached, h.lists⟩
  | allocData hres =>
    obtain ⟨hinv, hc⟩ := scoutfsAllocData_allocInv h.roots (h.cached _) hres
    exact ⟨hinv, cachedValid_update h.cached hc, h.lists⟩
  | returnCached hres =>
    obtain ⟨hinv, hc⟩ := scoutfsDallocReturnCached_allocInv h.roots (h.cached _) hres
    exact ⟨hinv, cachedValid_update h.cached hc, h.lists⟩
  | move hres => exact ⟨scoutfsAllocMove_allocInv h.roots hres, h.cached, h.lists⟩
  | fillList hres =>
    obtain ⟨hinv, hl⟩ := scoutfsAllocFillList_allocInv h.roots (h.lists _) hres
    exact ⟨hinv, h.cached, listValid_update h.lists hl⟩
  | emptyList hres =>
    obtain ⟨hinv, hl⟩ := scoutfsAllocEmptyList_allocInv h.roots (h.lists _) hres
    exact ⟨hinv, h.cached, listValid_update h.lists hl⟩
  | insert hv hres => exact ⟨scoutfsAllocInsert_allocInv h.roots hv hres, h.cached, h.lists⟩
  | remove hv hres => exact ⟨scoutfsAllocRemove_allocInv h.roots hv hres, h.cached, h.lists⟩

theorem reachable_sysInv {lastData : UInt64} (hdev : lastData.toNat < 2 ^ 64 - 1)
    {sys : AllocSystem} (h : Reachable lastData sys) : SysInv sys := by
  induction h with
  | init hroots hcached hlists => exact sysInv_init hroots hcached hlists
  | step _ hstep ih => exact sysInv_step hdev ih hstep

/-! ### The two indexes agree -/

/-- The extents `ext_from_key` decodes from the items of `zone` in a root. -/
def zoneExtents (root : ScoutfsAllocRoot) (zone : FreeExtentZone) : Finset ScoutfsExtent :=
  (root.items.filter fun key => key.zone = zone.toZone).image extFromKey

/-- Either index of a root decodes to exactly the extents it stores. -/
theorem zoneExtents_eq {root : ScoutfsAllocRoot} {E : Finset ScoutfsExtent} (h : RootHolds root E)
    (zone : FreeExtentZone) : zoneExtents root zone = E := by
  ext e
  simp only [zoneExtents, Finset.mem_image, Finset.mem_filter]
  constructor
  · rintro ⟨k, ⟨hk, hz⟩, rfl⟩
    obtain ⟨f, hf, rfl⟩ := h.exists_of_mem hk zone hz
    rw [extFromKey_extKey zone (h.nonzero f hf) (h.free f hf)]
    exact hf
  · intro he
    refine ⟨extKey zone e, ⟨(h.extKey_mem_iff zone (h.nonzero e he) (h.free e he)).mpr he,
      extKey_zone zone (h.nonzero e he)⟩, extFromKey_extKey zone (h.nonzero e he) (h.free e he)⟩

/-- The lengths of a separated set of valid extents sum below `2 ^ 64`: the extents are
disjoint ranges of blocks below `2 ^ 64 - 1`. -/
theorem sum_len_lt_of_freeSet {E : Finset ScoutfsExtent} (hE : FreeSet E) :
    ∑ e ∈ E, e.len.toNat < 2 ^ 64 := by
  have hle := sum_len_le_of_disjoint E (fun e => e.start.toNat) (fun e => e.start.toNat + e.len.toNat)
    (2 ^ 64 - 1) (fun e he => by have := (hE.valid e he).2; omega)
    (fun a ha b hb hab => by rcases hE.separated a ha b hb hab with h | h <;> omega)
  simp only [Nat.add_sub_cancel_left] at hle
  omega

/-- **The two indexes of every free extent root agree.**  In every state the allocator system
reaches, on a data device whose last block is below `U64_MAX`: the blkno items and the order
items of each root decode to the same extents; any two of them are disjoint and not adjacent;
and `total_len` is the sum of their lengths. -/
theorem reachable_rootIndexes {lastData : UInt64} (hdev : lastData.toNat < 2 ^ 64 - 1)
    {sys : AllocSystem} (h : Reachable lastData sys) (r : ℕ) :
    zoneExtents (sys.st.roots r) .blkno = zoneExtents (sys.st.roots r) .order ∧
      (∀ a ∈ zoneExtents (sys.st.roots r) .blkno, ∀ b ∈ zoneExtents (sys.st.roots r) .blkno,
        a ≠ b → (a.start.toNat + a.len.toNat ≤ b.start.toNat ∨
          b.start.toNat + b.len.toNat ≤ a.start.toNat) ∧ a.start + a.len ≠ b.start) ∧
      (sys.st.roots r).totalLen.toNat =
        ∑ e ∈ zoneExtents (sys.st.roots r) .blkno, e.len.toNat := by
  obtain ⟨E, hR, hE⟩ := (reachable_sysInv hdev h).roots r
  rw [zoneExtents_eq hR .blkno, zoneExtents_eq hR .order]
  refine ⟨rfl, fun a ha b hb hab => ?_, ?_⟩
  · have hsep := hE.separated a ha b hb hab
    have hend : (a.start + a.len).toNat = a.start.toNat + a.len.toNat := by
      rw [UInt64.toNat_add]
      exact Nat.mod_eq_of_lt (hE.valid a ha).2
    refine ⟨by unfold Separated at hsep; omega, fun heq => ?_⟩
    rw [heq] at hend
    unfold Separated at hsep
    have := (hE.valid b hb).1
    omega
  · rw [hR.totalLen]
    exact UInt64.toNat_sum_of_lt E _ (sum_len_lt_of_freeSet hE)

/-- An allocator system with no extents, no cached extents and no lists. -/
def emptyAllocSystem : AllocSystem :=
  ⟨⟨fun _ => ⟨0, 0, ∅⟩, []⟩, fun _ => ⟨0, extZero, 0⟩, fun _ => ⟨[]⟩⟩

/-- A run from the empty system: the server inserts the free extents `[10, 20)` and
`[30, 40)` into root 0, a move of 5 blocks to root 1 takes `[10, 15)`, and a removal of
`[35, 37)` splits the second extent, which leaves three separated extents in root 0. -/
theorem reachable_rootIndexes_split : ∃ sys : AllocSystem, Reachable 1000 sys ∧
    zoneExtents (sys.st.roots 0) .blkno = {⟨15, 5, 0, 0⟩, ⟨30, 5, 0, 0⟩, ⟨37, 3, 0, 0⟩} ∧
    zoneExtents (sys.st.roots 1) .blkno = {⟨10, 5, 0, 0⟩} ∧
    (zoneExtents (sys.st.roots 0) .blkno = zoneExtents (sys.st.roots 0) .order ∧
      (∀ a ∈ zoneExtents (sys.st.roots 0) .blkno, ∀ b ∈ zoneExtents (sys.st.roots 0) .blkno,
        a ≠ b → (a.start.toNat + a.len.toNat ≤ b.start.toNat ∨
          b.start.toNat + b.len.toNat ≤ a.start.toNat) ∧ a.start + a.len ≠ b.start) ∧
      (sys.st.roots 0).totalLen.toNat =
        ∑ e ∈ zoneExtents (sys.st.roots 0) .blkno, e.len.toNat) := by
  have h0 : Reachable 1000 emptyAllocSystem :=
    Reachable.init (fun _ => ⟨rfl, rfl⟩) (fun _ => rfl) (fun _ _ hl => by cases hl)
  have h1 := h0.step (@AllocStep.insert 1000 _ 0 10 10 _ _ ⟨by decide, by decide⟩ rfl)
  have h2 := h1.step (@AllocStep.insert 1000 _ 0 30 10 _ _ ⟨by decide, by decide⟩ rfl)
  have h3 := h2.step (@AllocStep.move 1000 _ 4 1 0 5 0 0 none none _ _ rfl)
  have h4 := h3.step (@AllocStep.remove 1000 _ 0 35 2 _ _ ⟨by decide, by decide⟩ rfl)
  exact ⟨_, h4, by decide, by decide, reachable_rootIndexes (by decide) h4 0⟩

end Scoutfs
