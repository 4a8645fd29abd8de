/-
What the extent helpers do to the blocks of a store, and the errors they fail with.

A set of extents covers the blocks `freeBlocks E`: the union of `[start, start + len)` over
its extents.  Over a separated free set, the changes each helper plans are exact on blocks:

* **`extInsertChanges_blocks`** — `scoutfs_ext_insert` adds exactly the inserted range, which
  held no block of the store;
* **`extRemoveChanges_blocks`** — `scoutfs_ext_remove` of a range inside a held extent takes
  exactly that range out;
* **`extAllocChanges_blocks`** — `scoutfs_ext_alloc` takes out exactly the blocks it hands out.

`applyChanges_failsWith` carries the errors of the callbacks through `apply_changes`, and
`planOutcome_of_plan` puts the two together: a helper stops at `BUG_ON`, fails with one of the
callbacks' errors and the store's contents unchanged, or succeeds with the planned blocks
(`PlanOutcome`).
-/
import Scoutfs.ExtSpec
import Mathlib.Data.Finset.Union
import Mathlib.Order.Interval.Finset.Nat

namespace Scoutfs

/-! ### Blocks of extents -/

/-- The blocks `[start, start + len)`. -/
def rangeBlocks (start len : UInt64) : Finset ℕ :=
  Finset.Ico start.toNat (start.toNat + len.toNat)

/-- The blocks of an extent. -/
def extBlocks (e : ScoutfsExtent) : Finset ℕ := rangeBlocks e.start e.len

/-- The blocks of a set of extents. -/
def freeBlocks (E : Finset ScoutfsExtent) : Finset ℕ := E.biUnion extBlocks

theorem mem_rangeBlocks {start len : UInt64} {b : ℕ} :
    b ∈ rangeBlocks start len ↔ start.toNat ≤ b ∧ b < start.toNat + len.toNat :=
  Finset.mem_Ico

theorem mem_extBlocks {e : ScoutfsExtent} {b : ℕ} :
    b ∈ extBlocks e ↔ e.start.toNat ≤ b ∧ b < e.start.toNat + e.len.toNat :=
  Finset.mem_Ico

theorem mem_freeBlocks {E : Finset ScoutfsExtent} {b : ℕ} :
    b ∈ freeBlocks E ↔ ∃ e ∈ E, b ∈ extBlocks e :=
  Finset.mem_biUnion

theorem extBlocks_subset_freeBlocks {E : Finset ScoutfsExtent} {e : ScoutfsExtent} (he : e ∈ E) :
    extBlocks e ⊆ freeBlocks E :=
  Finset.subset_biUnion_of_mem extBlocks he

theorem freeBlocks_mono {E F : Finset ScoutfsExtent} (h : E ⊆ F) : freeBlocks E ⊆ freeBlocks F :=
  Finset.biUnion_subset_biUnion_of_subset_left _ h

theorem freeBlocks_union (E F : Finset ScoutfsExtent) :
    freeBlocks (E ∪ F) = freeBlocks E ∪ freeBlocks F :=
  Finset.union_biUnion

@[simp] theorem freeBlocks_empty : freeBlocks ∅ = ∅ :=
  Finset.biUnion_empty

@[simp] theorem freeBlocks_singleton (e : ScoutfsExtent) : freeBlocks {e} = extBlocks e :=
  Finset.singleton_biUnion

/-- Separated extents share no block. -/
theorem disjoint_extBlocks {a b : ScoutfsExtent} (h : Separated a b) :
    Disjoint (extBlocks a) (extBlocks b) := by
  rw [Finset.disjoint_left]
  intro x hxa hxb
  rw [mem_extBlocks] at hxa hxb
  unfold Separated at h
  omega

/-- Taking held extents out of a separated set takes out exactly their blocks. -/
theorem freeBlocks_sdiff {E D : Finset ScoutfsExtent} (hE : FreeSet E) (hD : D ⊆ E) :
    freeBlocks (E \ D) = freeBlocks E \ freeBlocks D := by
  ext x
  simp only [Finset.mem_sdiff, mem_freeBlocks]
  constructor
  · rintro ⟨e, ⟨he, heD⟩, hx⟩
    refine ⟨⟨e, he, hx⟩, ?_⟩
    rintro ⟨d, hd, hxd⟩
    have hne : e ≠ d := fun h => heD (h ▸ hd)
    exact Finset.disjoint_left.mp (disjoint_extBlocks (hE.separated e he d (hD hd) hne)) hx hxd
  · rintro ⟨⟨e, he, hx⟩, hnot⟩
    exact ⟨e, ⟨he, fun heD => hnot ⟨e, heD, hx⟩⟩, hx⟩

/-- The blocks after removing held extents `D` and inserting extents `A`. -/
theorem freeBlocks_replace {E : Finset ScoutfsExtent} (hE : FreeSet E) {D A : List ScoutfsExtent}
    (hDE : ∀ d ∈ D, d ∈ E) :
    freeBlocks (changesApply E (D.map (·, false) ++ A.map (·, true))) =
      freeBlocks E \ freeBlocks D.toFinset ∪ freeBlocks A.toFinset := by
  rw [changesApply_append, changesApply_removals, changesApply_inserts, freeBlocks_union,
    freeBlocks_sdiff hE fun d hd => hDE d (List.mem_toFinset.mp hd)]

/-- A zero-length extent has no blocks, so dropping such extents keeps the blocks. -/
theorem freeBlocks_filter_len (L : List ScoutfsExtent) :
    freeBlocks (L.filter (·.len ≠ 0)).toFinset = freeBlocks L.toFinset := by
  ext x
  simp only [mem_freeBlocks, List.mem_toFinset, List.mem_filter]
  constructor
  · rintro ⟨e, ⟨he, -⟩, hx⟩
    exact ⟨e, he, hx⟩
  · rintro ⟨e, he, hx⟩
    refine ⟨e, ⟨he, ?_⟩, hx⟩
    rw [mem_extBlocks] at hx
    have hlen : e.len.toNat ≠ 0 := by omega
    simpa using fun h0 => hlen (by rw [h0, UInt64.toNat_zero])

/-! ### Inserting -/

section Insert

variable {σ : Type} {ops : ScoutfsExtOps σ} {R : σ → Finset ScoutfsExtent → Prop}
  {s : σ} {E : Finset ScoutfsExtent}

/-- The two ends of the right-hand lookup: the range itself, or the range merged with the
right neighbour it removes. -/
theorem extInsertRight_cases {start len : UInt64} {ins : ScoutfsExtent} {chg : ExtentChanges}
    (h : extInsertRight ops s ⟨start, len, 0, 0⟩ = .ok (ins, chg)) :
    ins = ⟨start, len, 0, 0⟩ ∧ chg = [] ∨
      ∃ found, found.len ≠ 0 ∧ scoutfsExtCanMerge ⟨start, len, 0, 0⟩ found = true ∧
        ins = ⟨start, len + found.len, 0, 0⟩ ∧ chg = [(found, false)] := by
  unfold extInsertRight at h
  rcases hn : ops.next s start 1 with ⟨ret, found⟩
  simp only [hn] at h
  -- the two error branches contradict `h`
  split_ifs at h with h₁ h₂ h₃
  · cases h
    exact .inr ⟨found, h₃.1, h₃.2, rfl, by simp [addChange, h₃.1]⟩
  · cases h
    exact .inl ⟨rfl, rfl⟩

/-- The two ends of the left-hand lookup: `ins` goes in as it is, or merged with the left
neighbour it removes. -/
theorem extInsertLeft_cases {start : UInt64} {ins : ScoutfsExtent} {chg chg' : ExtentChanges}
    (h : extInsertLeft ops s start ins chg = .ok chg') :
    chg' = addChange chg ins true ∨
      ∃ found, ops.next s (start - 1) 1 = (0, found) ∧ scoutfsExtCanMerge found ins = true ∧
        chg' = addChange (addChange chg found false)
          { ins with start := found.start, map := found.map, len := ins.len + found.len } true := by
  unfold extInsertLeft at h
  by_cases hpos : start > 0
  · rw [if_pos hpos] at h
    rcases hn : ops.next s (start - 1) 1 with ⟨ret, found⟩
    simp only [hn] at h
    split_ifs at h with h₁ h₂
    · cases h
      obtain ⟨rfl, hm⟩ := h₂
      exact .inr ⟨found, rfl, hm, rfl⟩
    · cases h
      exact .inl rfl
  · rw [if_neg hpos] at h
    cases h
    exact .inl rfl

/-- **`scoutfs_ext_insert` adds exactly the inserted range.**  The changes it plans into a
separated free set leave the blocks of the set and the range, which shared no block. -/
theorem extInsertChanges_blocks (hnext : NextLawful ops R) (hs : R s E) (hE : FreeSet E)
    {start len : UInt64} (hv : ExtValid ⟨start, len, 0, 0⟩) {chg : ExtentChanges}
    (h : extInsertChanges ops s start len 0 0 = .ok chg) :
    Disjoint (freeBlocks E) (rangeBlocks start len) ∧
      freeBlocks (changesApply E chg) = freeBlocks E ∪ rangeBlocks start len := by
  unfold extInsertChanges at h
  rcases hr : extInsertRight ops s ⟨start, len, 0, 0⟩ with ret | ⟨ins, chg₁⟩ <;> rw [hr] at h
  · cases h
  dsimp only at h
  obtain ⟨D, rfl, hD⟩ := extInsertRight_free hnext hs hE hv hr
  have hDE : ∀ d ∈ D, d ∈ E := fun d hd => (hD.removed d hd).1
  have hDsub : freeBlocks D.toFinset ⊆ freeBlocks E :=
    freeBlocks_mono fun d hd => hDE d (List.mem_toFinset.mp hd)
  have hstart : ins.start.toNat = start.toNat := by rw [hD.start_eq]
  -- `ins` is the range and the right neighbour it merged
  have hins : extBlocks ins = rangeBlocks start len ∪ freeBlocks D.toFinset := by
    rcases extInsertRight_cases hr with ⟨rfl, hD0⟩ | ⟨found, hfl, hmerge, rfl, hD1⟩
    · rw [List.map_eq_nil_iff] at hD0
      subst hD0
      ext x
      simp [extBlocks, freeBlocks]
    · obtain ⟨rfl⟩ : D = [found] := by
        rcases D with _ | ⟨d, _ | ⟨d', D⟩⟩ <;> simp at hD1
        rw [hD1]
      have hfE := hDE found List.mem_cons_self
      have hadj := (scoutfsExtCanMerge_free hv.2 ⟨rfl, rfl⟩ (hE.free found hfE)).mp hmerge
      have hfv := (hE.valid found hfE).2
      have hsum : (len + found.len).toNat = len.toNat + found.len.toNat := by
        rw [UInt64.toNat_add]
        dsimp only at hadj
        omega
      ext x
      simp only [extBlocks, mem_rangeBlocks, hsum, Finset.mem_union, List.toFinset_cons,
        List.toFinset_nil, insert_empty_eq, freeBlocks_singleton]
      dsimp only at hadj
      omega
  -- no held extent reaches into the range
  have hdisj : Disjoint (freeBlocks E) (rangeBlocks start len) := by
    rw [Finset.disjoint_left]
    intro x hx hxr
    obtain ⟨f, hf, hxf⟩ := mem_freeBlocks.mp hx
    rw [mem_extBlocks] at hxf
    rw [mem_rangeBlocks] at hxr
    have hcov := hD.covers
    by_cases hfD : f ∈ D
    · have := (hD.removed f hfD).2
      omega
    · rcases hD.others f hf hfD with h' | h' <;> omega
  refine ⟨hdisj, ?_⟩
  rcases extInsertLeft_cases h with rfl | ⟨found, hn, hmerge, rfl⟩
  · -- no left merge: `ins` goes in
    rw [addChange_removals_insert (len_ne_zero_of_valid hD.valid), freeBlocks_replace hE hDE,
      List.toFinset_cons, List.toFinset_nil, insert_empty_eq, freeBlocks_singleton, hins]
    -- the merged neighbours come out and go back in with the range
    rw [Finset.union_comm (rangeBlocks start len), ← Finset.union_assoc,
      Finset.sdiff_union_of_subset hDsub]
  · -- the left neighbour `found` ends where the range starts
    have hfE : found ∈ E := by
      rcases hnext s E (start - 1) hs with ⟨e, heq, he, -⟩ | ⟨heq, -⟩
      · rw [hn] at heq
        cases heq
        exact he
      · rw [hn] at heq
        cases heq
    have hfv := hE.valid found hfE
    have hadj := (scoutfsExtCanMerge_free hfv.2 (hE.free found hfE) hD.free).mp hmerge
    have hinsv := hD.valid
    have hfD : found ∉ D := fun hfD => by
      have := (hD.removed found hfD).2
      have := hfv.1
      omega
    have hsum : (ins.len + found.len).toNat = ins.len.toNat + found.len.toNat := by
      rw [UInt64.toNat_add]
      have := hinsv.2
      omega
    have hMne : ins.len + found.len ≠ 0 := by
      intro h0
      rw [h0, UInt64.toNat_zero] at hsum
      have := hinsv.1
      omega
    rw [show addChange (addChange (D.map (·, false)) found false)
        { ins with start := found.start, map := found.map, len := ins.len + found.len } true =
        (D ++ [found]).map (·, false) ++
          [{ ins with start := found.start, map := found.map, len := ins.len + found.len }].map
            (·, true) by simp [addChange, len_ne_zero_of_valid hfv, hMne]]
    rw [freeBlocks_replace hE (fun d hd => by
        rcases List.mem_append.mp hd with hd | hd
        · exact hDE d hd
        · rw [List.mem_singleton] at hd
          exact hd ▸ hfE),
      List.toFinset_cons, List.toFinset_nil, insert_empty_eq, freeBlocks_singleton,
      List.toFinset_append, freeBlocks_union, List.toFinset_cons, List.toFinset_nil,
      insert_empty_eq, freeBlocks_singleton]
    have hfsub : extBlocks found ⊆ freeBlocks E := extBlocks_subset_freeBlocks hfE
    have hM : extBlocks (⟨found.start, ins.len + found.len, found.map, ins.flags⟩ :
        ScoutfsExtent) = extBlocks found ∪ extBlocks ins := by
      ext x
      simp only [Finset.mem_union, mem_extBlocks, hsum]
      omega
    -- the removed neighbours come back in the merged extent, with the range
    rw [hM, hins, show extBlocks found ∪ (rangeBlocks start len ∪ freeBlocks D.toFinset) =
        freeBlocks D.toFinset ∪ extBlocks found ∪ rangeBlocks start len by ac_rfl,
      ← Finset.union_assoc, Finset.sdiff_union_of_subset (Finset.union_subset hDsub hfsub)]

end Insert

/-! ### Removing and allocating -/

section Remove

variable {σ : Type} {ops : ScoutfsExtOps σ} {R : σ → Finset ScoutfsExtent → Prop}
  {s : σ} {E : Finset ScoutfsExtent}

theorem freeBlocks_insert (e : ScoutfsExtent) (E : Finset ScoutfsExtent) :
    freeBlocks (insert e E) = extBlocks e ∪ freeBlocks E :=
  Finset.biUnion_insert

/-- The two parts `ext_split` leaves of an extent around a range inside it cover the
extent without the range. -/
theorem extSplit_blocks {e : ScoutfsExtent} {start len : UInt64} (he : ExtValid e)
    (hend : start.toNat + len.toNat < 2 ^ 64)
    (hin : e.start.toNat ≤ start.toNat ∧ start.toNat + len.toNat ≤ e.start.toNat + e.len.toNat) :
    extBlocks (extSplit e start len).1 ∪ extBlocks (extSplit e start len).2 =
      extBlocks e \ rangeBlocks start len := by
  obtain ⟨he₁, he₂⟩ := he
  have hsl : (start + len).toNat = start.toNat + len.toNat := by
    rw [UInt64.toNat_add]
    omega
  have hel : (e.start + e.len).toNat = e.start.toNat + e.len.toNat := by
    rw [UInt64.toNat_add]
    omega
  have hsub₁ : (start - e.start).toNat = start.toNat - e.start.toNat :=
    UInt64.toNat_sub_of_le _ _ (UInt64.le_iff_toNat_le.mpr hin.1)
  have hsub₂ : (e.start + e.len - (start + len)).toNat =
      e.start.toNat + e.len.toNat - (start.toNat + len.toNat) := by
    rw [UInt64.toNat_sub_of_le _ _ (by rw [UInt64.le_iff_toNat_le, hsl, hel]; omega), hsl, hel]
  unfold extSplit
  -- each part is its side of the range, or empty when the range reaches that end
  split_ifs with hlt hgt hgt <;>
  · simp only [UInt64.lt_iff_toNat_lt, gt_iff_lt, hsl, hel] at hlt hgt
    ext x
    simp only [Finset.mem_union, Finset.mem_sdiff, mem_extBlocks, mem_rangeBlocks, extZero,
      UInt64.toNat_zero, hsub₁, hsub₂, hsl]
    omega

/-- **`scoutfs_ext_remove` takes out exactly the removed range**, which lay inside one held
extent. -/
theorem extRemoveChanges_blocks (hnext : NextLawful ops R) (hs : R s E) (hE : FreeSet E)
    {start len : UInt64} (hl : 0 < len.toNat) (hend : start.toNat + len.toNat < 2 ^ 64)
    {chg : ExtentChanges} (h : extRemoveChanges ops s start len = .ok chg) :
    rangeBlocks start len ⊆ freeBlocks E ∧
      freeBlocks (changesApply E chg) = freeBlocks E \ rangeBlocks start len := by
  unfold extRemoveChanges at h
  rcases next_free_cases hnext hs hE start with ⟨e, heq, he, -, -⟩ | ⟨heq, -⟩
  · simp only [heq] at h
    rw [if_neg (by decide)] at h
    have hve := hE.valid e he
    by_cases hin : scoutfsExtInside start len e = true
    · rw [if_neg (by simp [hin])] at h
      cases h
      have hin' := (scoutfsExtInside_iff hve hl hend).mp hin
      have hrange : rangeBlocks start len ⊆ extBlocks e := by
        intro x hx
        rw [mem_rangeBlocks] at hx
        rw [mem_extBlocks]
        omega
      have hsub : extBlocks e ⊆ freeBlocks E := extBlocks_subset_freeBlocks he
      refine ⟨hrange.trans hsub, ?_⟩
      rw [addChange_pieces, show addChange [] e false = [e].map (·, false) by
          simp [addChange, len_ne_zero_of_valid hve],
        freeBlocks_replace hE (by simpa using he), freeBlocks_filter_len]
      simp only [List.toFinset_cons, List.toFinset_nil, insert_empty_eq, freeBlocks_insert,
        freeBlocks_singleton]
      rw [extSplit_blocks hve hend hin']
      exact Finset.sdiff_union_sdiff_cancel hsub hrange
    · rw [if_pos (by simpa using hin)] at h
      cases h
  · simp only [heq] at h
    rw [if_pos (by decide)] at h
    cases h

/-- A range inside a held extent: the lookup of `scoutfs_ext_remove` finds that extent, so
the removal plans its changes. -/
theorem extRemoveChanges_ok (hnext : NextLawful ops R) (hs : R s E) (hE : FreeSet E)
    {start len : UInt64} (hl : 0 < len.toNat) (hend : start.toNat + len.toNat < 2 ^ 64)
    {f : ScoutfsExtent} (hf : f ∈ E)
    (hin : f.start.toNat ≤ start.toNat ∧ start.toNat + len.toNat ≤ f.start.toNat + f.len.toNat)
    (ret : Int) : extRemoveChanges ops s start len ≠ .error ret := by
  intro h
  unfold extRemoveChanges at h
  rcases next_free_cases hnext hs hE start with ⟨e, heq, he, hse, hoth⟩ | ⟨heq, hall⟩
  · -- the extent found is the one holding the range
    have hef : e = f := by
      by_contra hne
      rcases hoth f hf (Ne.symm hne) with h' | h' <;> omega
    subst hef
    simp only [heq] at h
    rw [if_neg (by decide),
      if_neg (by simp [(scoutfsExtInside_iff (hE.valid e he) hl hend).mpr hin])] at h
    cases h
  · have := hall f hf
    omega

/-- **`scoutfs_ext_alloc` takes out exactly the blocks it hands out**: the first
`min found.len count` blocks of the held extent it found. -/
theorem extAllocChanges_blocks (hnext : NextMember ops R) (hs : R s E) (hE : FreeSet E)
    {start len count : UInt64} {found : ScoutfsExtent} {chg : ExtentChanges}
    (h : extAllocChanges ops s start len count = .ok (found, chg)) :
    found ∈ E ∧ freeBlocks (changesApply E chg) =
      freeBlocks E \ rangeBlocks found.start (min found.len count) := by
  obtain ⟨he, -, -⟩ := extAllocChanges_free hnext hs hE h
  refine ⟨he, ?_⟩
  unfold extAllocChanges at h
  rcases hnext s E start len hs with ⟨e, heq, -⟩ | hneg
  · simp only [heq] at h
    rw [if_neg (by decide)] at h
    have hve := hE.valid found he
    obtain ⟨he₁, he₂⟩ := hve
    have hdel : addChange [] found false = [found].map (·, false) := by
      simp [addChange, len_ne_zero_of_valid ⟨he₁, he₂⟩]
    have hsub : extBlocks found ⊆ freeBlocks E := extBlocks_subset_freeBlocks he
    split_ifs at h with hgt
    · -- what is left past the first `count` blocks goes back in
      cases h
      rw [gt_iff_lt, UInt64.lt_iff_toNat_lt] at hgt
      have hrs : (found.start + count).toNat = found.start.toNat + count.toNat := by
        rw [UInt64.toNat_add]
        omega
      have hrl : (found.len - count).toNat = found.len.toNat - count.toNat :=
        UInt64.toNat_sub_of_le _ _ (UInt64.le_iff_toNat_le.mpr (by omega))
      have hrne : found.len - count ≠ 0 := fun h0 => by
        rw [h0] at hrl
        simp at hrl
        omega
      rw [hdel, show addChange ([found].map (·, false))
          ⟨found.start + count, found.len - count, extMapAdd found.map count, found.flags⟩ true =
          [found].map (·, false) ++
            [(⟨found.start + count, found.len - count, extMapAdd found.map count,
              found.flags⟩ : ScoutfsExtent)].map
              (·, true) by simp [addChange, hrne],
        freeBlocks_replace hE (by simpa using he)]
      simp only [List.toFinset_cons, List.toFinset_nil, insert_empty_eq, freeBlocks_singleton]
      ext x
      have h₂ := @hsub x
      simp only [Finset.mem_union, Finset.mem_sdiff, mem_extBlocks, mem_rangeBlocks, hrs, hrl,
        UInt64.toNat_min] at h₂ ⊢
      by_cases hx : x ∈ freeBlocks E
      · simp only [hx, true_and]
        omega
      · have hnx := mt h₂ hx
        simp only [hx, false_and, false_or, iff_false]
        omega
    · -- the whole extent goes
      cases h
      rw [gt_iff_lt, UInt64.lt_iff_toNat_lt] at hgt
      rw [hdel, show [found].map (·, false) = [found].map (·, false) ++ ([] : List ScoutfsExtent).map
          (·, true) by simp, freeBlocks_replace hE (by simpa using he)]
      simp only [List.toFinset_cons, List.toFinset_nil, insert_empty_eq, freeBlocks_singleton]
      ext x
      have h₂ := @hsub x
      simp only [Finset.mem_union, Finset.mem_sdiff, mem_extBlocks, mem_rangeBlocks,
        UInt64.toNat_min, freeBlocks_empty, Finset.notMem_empty, or_false] at h₂ ⊢
      by_cases hx : x ∈ freeBlocks E
      · simp only [hx, true_and]
        omega
      · simp only [hx, false_and]
  · generalize hr : ops.next s start len = r at h hneg
    obtain ⟨ret', found'⟩ := r
    dsimp only at h hneg
    rw [if_pos hneg] at h
    cases h

end Remove

/-! ### Errors and outcomes -/

section Outcome

variable {σ : Type} {ops : ScoutfsExtOps σ} {R : σ → Finset ScoutfsExtent → Prop}

/-- The callbacks fail only with errors of `Q` on a change a valid change list can hold: a
non-empty extent, removed only when it is held. -/
def FailsWith (ops : ScoutfsExtOps σ) (R : σ → Finset ScoutfsExtent → Prop) (Q : Int → Prop) :
    Prop :=
  ∀ s E e ins r s', R s E → e.len ≠ 0 → (ins = false → e ∈ E) →
    opCall ops s e ins = some (r, s') → r < 0 → Q r

/-- `apply_changes` fails with the error of the change that failed, also once the changes
before it are undone. -/
theorem applyChanges_failsWith (hins : InsertLawful ops R) (hrem : RemoveLawful ops R)
    {Q : Int → Prop} (hq : FailsWith ops R Q) :
    ∀ (chg : ExtentChanges) (s : σ) (E : Finset ScoutfsExtent) (r : Int) (s' : σ), R s E →
      ChangesValid E chg → applyChanges ops 0 s chg = some (r, s') → r < 0 → Q r := by
  intro chg
  induction chg with
  | nil =>
    intro s E r s' _ _ h hr
    cases h
    exact absurd hr (lt_irrefl 0)
  | cons c chg ih =>
    obtain ⟨e, ins⟩ := c
    intro s E r s' hs ⟨hlen, hmem, hv⟩ h hr
    rcases opCall_lawful hins hrem hs hlen hmem with h₁ | ⟨r₁, s₁, h₁, hr₁, -⟩ | ⟨s₁, h₁, -, h₁'⟩
    · simp [applyChanges, h₁] at h
    · -- this change failed
      simp only [applyChanges, h₁, if_pos hr₁, Option.some_inj, Prod.mk.injEq] at h
      obtain ⟨rfl, -⟩ := h
      exact hq s E e ins _ s₁ hs hlen hmem h₁ hr₁
    · -- a later change failed, and the undo of this one keeps its error
      simp only [applyChanges, h₁, lt_self_iff_false, if_false] at h
      rcases hq' : applyChanges ops 0 s₁ chg with _ | ⟨r₂, s₂⟩ <;> rw [hq'] at h
      · cases h
      dsimp only at h
      by_cases hr₂ : r₂ < 0
      · rw [if_pos hr₂] at h
        rcases hu : opCall ops s₂ e (!ins) with _ | ⟨err, s₃⟩ <;> rw [hu] at h
        · cases h
        dsimp only at h
        split_ifs at h
        cases h
        exact ih s₁ _ r s₂ h₁' hv hq' hr₂
      · rw [if_neg hr₂] at h
        cases h
        exact absurd hr hr₂

/-- What a helper's result can be: a `BUG_ON`, a failure with an error of `Q` and the
store's contents unchanged, or success with separated free contents of property `P`. -/
def PlanOutcome (R : σ → Finset ScoutfsExtent → Prop) (Q : Int → Prop) (E : Finset ScoutfsExtent)
    (P : Finset ScoutfsExtent → Prop) : Option (Int × σ) → Prop
  | none => True
  | some (r, s') => (r < 0 ∧ Q r ∧ R s' E) ∨ (r = 0 ∧ ∃ E', FreeSet E' ∧ P E' ∧ R s' E')

/-- A helper that plans its changes and applies them: an early error is one of `Q`, and a
valid plan that keeps the set free and has property `P` is all or nothing. -/
theorem planOutcome_of_plan (hins : InsertLawful ops R) (hrem : RemoveLawful ops R)
    {Q : Int → Prop} (hq : FailsWith ops R Q) {s : σ} {E : Finset ScoutfsExtent} (hs : R s E)
    {P : Finset ScoutfsExtent → Prop} {plan : Except Int ExtentChanges}
    (herr : ∀ ret, plan = .error ret → ret < 0 ∧ Q ret)
    (hok : ∀ chg, plan = .ok chg →
      ChangesValid E chg ∧ FreeSet (changesApply E chg) ∧ P (changesApply E chg)) :
    PlanOutcome R Q E P (applyPlan ops s plan) := by
  rcases hp : plan with ret | chg
  · obtain ⟨hr, hQ⟩ := herr ret hp
    exact .inl ⟨hr, hQ, hs⟩
  · obtain ⟨hv, hf, hP⟩ := hok chg hp
    have hout := applyChanges_lawful hins hrem chg s E hs hv
    change PlanOutcome R Q E P (applyChanges ops 0 s chg)
    rcases ha : applyChanges ops 0 s chg with _ | ⟨r, s'⟩
    · trivial
    · rw [ha] at hout
      rcases hout with ⟨hr, h'⟩ | ⟨hr, h'⟩
      · exact .inl ⟨hr, applyChanges_failsWith hins hrem hq chg s E r s' hs hv ha hr, h'⟩
      · exact .inr ⟨hr, _, hf, hP, h'⟩

variable {s : σ} {E : Finset ScoutfsExtent}

/-- The lookups of `scoutfs_ext_insert` end early only on an overlap: a lawful `next`
reports nothing worse than `-ENOENT`. -/
theorem extInsertChanges_error (hnext : NextLawful ops R) (hs : R s E) {start len : UInt64}
    {ret : Int} (h : extInsertChanges ops s start len 0 0 = .error ret) : ret = -EINVAL := by
  have hn : ∀ a, (ops.next s a 1).1 = 0 ∨ (ops.next s a 1).1 = -ENOENT := fun a => by
    rcases hnext s E a hs with ⟨e, heq, -⟩ | ⟨heq, -⟩
    · exact .inl (by rw [heq])
    · exact .inr (by rw [heq])
  unfold extInsertChanges at h
  rcases hr : extInsertRight ops s ⟨start, len, 0, 0⟩ with ret' | ⟨ins, chg⟩ <;> rw [hr] at h
  · cases h
    unfold extInsertRight at hr
    rcases hn₁ : ops.next s start 1 with ⟨r₁, found⟩
    have h₁ := hn start
    rw [hn₁] at h₁
    simp only [hn₁] at hr
    split_ifs at hr with hbad
    · dsimp only at h₁
      rcases h₁ with h₁ | h₁
      · exact absurd hbad.1 (by omega)
      · exact absurd h₁ hbad.2
    · cases hr
      rfl
  · dsimp only at h
    unfold extInsertLeft at h
    by_cases hpos : start > 0
    · rw [if_pos hpos] at h
      rcases hn₁ : ops.next s (start - 1) 1 with ⟨r₁, found⟩
      have h₁ := hn (start - 1)
      rw [hn₁] at h₁
      simp only [hn₁] at h
      split_ifs at h with hbad
      dsimp only at h₁
      rcases h₁ with h₁ | h₁
      · exact absurd hbad.1 (by omega)
      · exact absurd h₁ hbad.2
    · rw [if_neg hpos] at h
      cases h

/-- **`scoutfs_ext_insert` into a separated free set**: it stops, fails with a callback's
error or `-EINVAL` and the contents unchanged, or adds exactly the range, which was free of
every held block. -/
theorem extInsert_planOutcome (hins : InsertLawful ops R) (hrem : RemoveLawful ops R)
    (hnext : NextLawful ops R) {Q : Int → Prop} (hq : FailsWith ops R Q) (hs : R s E)
    (hE : FreeSet E) {start len : UInt64} (hv : ExtValid ⟨start, len, 0, 0⟩) :
    PlanOutcome R (fun r => Q r ∨ r = -EINVAL) E
      (fun E' => Disjoint (freeBlocks E) (rangeBlocks start len) ∧
        freeBlocks E' = freeBlocks E ∪ rangeBlocks start len)
      (scoutfsExtInsert ops s start len 0 0) := by
  refine planOutcome_of_plan hins hrem (fun s E e ins r s' hs hl hm h hr =>
    .inl (hq s E e ins r s' hs hl hm h hr)) hs (fun ret h => ?_) (fun chg h => ?_)
  · rw [extInsertChanges_error hnext hs h]
    exact ⟨by decide, .inr rfl⟩
  · have hblocks := extInsertChanges_blocks hnext hs hE hv h
    unfold extInsertChanges at h
    rcases hr : extInsertRight ops s ⟨start, len, 0, 0⟩ with ret' | ⟨ins, chg₁⟩ <;> rw [hr] at h
    · cases h
    · obtain ⟨D, rfl, hD⟩ := extInsertRight_free hnext hs hE hv hr
      obtain ⟨hvalid, hfree⟩ := extInsertLeft_free hnext hs hE hD h
      exact ⟨hvalid, hfree, hblocks⟩

/-- **`scoutfs_ext_remove` of a range inside a held extent**: it stops, fails with a
callback's error and the contents unchanged, or takes out exactly the range. -/
theorem extRemove_planOutcome (hins : InsertLawful ops R) (hrem : RemoveLawful ops R)
    (hnext : NextLawful ops R) {Q : Int → Prop} (hq : FailsWith ops R Q) (hs : R s E)
    (hE : FreeSet E) {start len : UInt64} (hl : 0 < len.toNat)
    (hend : start.toNat + len.toNat < 2 ^ 64) {f : ScoutfsExtent} (hf : f ∈ E)
    (hin : f.start.toNat ≤ start.toNat ∧ start.toNat + len.toNat ≤ f.start.toNat + f.len.toNat) :
    PlanOutcome R Q E
      (fun E' => rangeBlocks start len ⊆ freeBlocks E ∧
        freeBlocks E' = freeBlocks E \ rangeBlocks start len)
      (scoutfsExtRemove ops s start len) :=
  planOutcome_of_plan hins hrem hq hs
    (fun ret h => absurd h (extRemoveChanges_ok hnext hs hE hl hend hf hin ret))
    fun _ h => ⟨(extRemoveChanges_free hnext hs hE hl hend h).1,
      (extRemoveChanges_free hnext hs hE hl hend h).2, extRemoveChanges_blocks hnext hs hE hl hend h⟩

/-- **`scoutfs_ext_alloc`**: it fails with the contents unchanged, or hands out blocks it
held and takes exactly those out. -/
theorem extAlloc_outcome (hins : InsertLawful ops R) (hrem : RemoveLawful ops R)
    (hnext : NextMember ops R) (hs : R s E) (hE : FreeSet E) {start len count : UInt64}
    {r : Int} {s' : σ} {ext : ScoutfsExtent}
    (h : scoutfsExtAlloc ops s start len count = some (r, s', ext)) :
    r < 0 ∧ R s' E ∨
      r = 0 ∧ extBlocks ext ⊆ freeBlocks E ∧
        ∃ E', FreeSet E' ∧ R s' E' ∧ freeBlocks E' = freeBlocks E \ extBlocks ext := by
  unfold scoutfsExtAlloc at h
  rcases hp : extAllocChanges ops s start len count with ret | ⟨found, chg⟩ <;> rw [hp] at h
  · cases h
    exact .inl ⟨extAllocChanges_error hp, hs⟩
  obtain ⟨hfE, hv, hf⟩ := extAllocChanges_free hnext hs hE hp
  obtain ⟨-, hblocks⟩ := extAllocChanges_blocks hnext hs hE hp
  have hout := applyChanges_lawful hins hrem chg s E hs hv
  dsimp only at h
  rcases ha : applyChanges ops 0 s chg with _ | ⟨ret₂, s₂⟩ <;> rw [ha] at h hout
  · cases h
  dsimp only at h
  rcases hout with ⟨hr₂, h₂⟩ | ⟨rfl, h₂⟩
  · rw [if_neg hr₂.ne] at h
    cases h
    exact .inl ⟨hr₂, h₂⟩
  · rw [if_pos rfl] at h
    cases h
    refine .inr ⟨rfl, fun x hx => ?_, _, hf, h₂, hblocks⟩
    -- the blocks handed out are the first ones of the extent found
    refine extBlocks_subset_freeBlocks hfE (mem_extBlocks.mpr ?_)
    rw [mem_extBlocks] at hx
    dsimp only at hx
    rw [UInt64.toNat_min] at hx
    omega

end Outcome

end Scoutfs
