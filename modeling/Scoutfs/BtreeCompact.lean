/-
`compact_values` of `btree.c`: the values of a block packed against the end of the block.

`ValuesIn items lo top` says that the nonempty values of the items lie between `lo` and
`top`, in places apart from each other.  `compactValues_spec` shows that from a block whose
values lie between the end of its middle free space and the end of the space for values,
`compact_values` keeps every item but its value offset, keeps the bytes of every value, and
packs the values against the end: they lie between the new end of the middle free space and
the end, and their aligned lengths fill that space exactly.

The proof follows the loop over the indices that `sort_priv` sorts by value offset
(`Heapsort.sortPriv_spec`).  An index is done once the loop has passed its rank in that order
(`CompactInv`): the values not done are where they were and below `to_off`, because they lie
below the value the loop takes next, and the values done fill `[to_off, end)`.
-/
import Scoutfs.BtreeItems
import Mathlib.Algebra.BigOperators.Group.Finset.Basic

namespace Scoutfs

namespace BtreeItems

/-! ### Values -/

/-- The end of the space for values: the hash table follows in a leaf. -/
def valuesEnd (bt : Block) : ℕ :=
  if bt.level = 0 then SCOUTFS_BLOCK_LG_SIZE - SCOUTFS_BTREE_LEAF_ITEM_HASH_BYTES
  else SCOUTFS_BLOCK_LG_SIZE

/-- The aligned length of the value of the item at index `i`, `0` past the items. -/
def valBytesAt (bt : Block) (i : ℕ) : ℕ :=
  match bt.items[i]? with
  | some item => valBytes item.valLen
  | none => 0

/-- Two values in places apart. -/
def Apart (a b : Item) : Prop :=
  a.valOff + valBytes a.valLen ≤ b.valOff ∨ b.valOff + valBytes b.valLen ≤ a.valOff

/-- The nonempty values of `items` lie between `lo` and `top`, in places apart. -/
structure ValuesIn (items : List Item) (lo top : ℕ) : Prop where
  inside : ∀ i (hi : i < items.length), items[i].valLen ≠ 0 →
    lo ≤ items[i].valOff ∧ items[i].valOff + valBytes items[i].valLen ≤ top
  apart : ∀ i j (hi : i < items.length) (hj : j < items.length), i ≠ j →
    items[i].valLen ≠ 0 → items[j].valLen ≠ 0 → Apart items[i] items[j]

theorem le_valBytes (len : ℕ) : len ≤ valBytes len := by
  unfold valBytes roundUp SCOUTFS_BTREE_VALUE_ALIGN
  omega

theorem valBytes_pos {len : ℕ} (h : len ≠ 0) : 0 < valBytes len := by
  have := le_valBytes len
  omega

theorem valBytesAt_of_lt {bt : Block} {i : ℕ} (hi : i < bt.items.length) :
    valBytesAt bt i = valBytes bt.items[i].valLen := by
  rw [valBytesAt, List.getElem?_eq_getElem hi]

/-- A value whose bytes are the same in two byte maps reads the same. -/
theorem itemVal_congr {d d' : ℕ → UInt8} {item : Item}
    (h : ∀ q < item.valLen, d' (item.valOff + q) = d (item.valOff + q)) :
    itemVal d' item = itemVal d item := by
  unfold itemVal
  refine List.map_congr_left fun q hq => ?_
  exact h q (List.mem_range.1 hq)

/-! ### Moving bytes -/

theorem memmove_of_outside {data : ℕ → UInt8} {dst src len x : ℕ} (hx : x < dst ∨ dst + len ≤ x) :
    memmove data dst src len x = data x := by
  unfold memmove
  rw [if_neg (by omega)]

theorem memmove_add {data : ℕ → UInt8} {dst src len q : ℕ} (hq : q < len) :
    memmove data dst src len (dst + q) = data (src + q) := by
  unfold memmove
  rw [if_pos (by omega), Nat.add_sub_cancel_left]

/-- A value moved by `memmove` to `dst` reads as before. -/
theorem itemVal_memmove {data : ℕ → UInt8} {item : Item} {dst len : ℕ}
    (hlen : item.valLen ≤ len) :
    itemVal (memmove data dst item.valOff len) { item with valOff := dst } =
      itemVal data item := by
  unfold itemVal
  refine List.map_congr_left fun q hq => ?_
  exact memmove_add (lt_of_lt_of_le (List.mem_range.1 hq) hlen)

theorem memmove_self (data : ℕ → UInt8) (p len : ℕ) : memmove data p p len = data := by
  funext x
  unfold memmove
  split_ifs with h
  · congr 1
    omega
  · rfl

/-! ### The sorted indices -/

theorem cmpSorted_eq_compare (bt : Block) (a b : ℕ) :
    cmpSorted bt a b = compare (itemValOff bt a) (itemValOff bt b) := by
  unfold cmpSorted scoutfsCmp
  rcases lt_trichotomy (itemValOff bt a) (itemValOff bt b) with h | h | h
  · rw [if_pos h, compare_lt_iff_lt.2 h]
  · rw [if_neg (lt_irrefl _ |> fun hh => h ▸ hh), if_neg (h ▸ lt_irrefl _),
      compare_eq_iff_eq.2 h]
  · rw [if_neg (not_lt.2 h.le), if_pos h, compare_gt_iff_gt.2 h]

/-- `sort_priv` with `cmp_sorted` permutes the item indices into the order of value offset. -/
theorem sortPriv_cmpSorted (bt : Block) :
    ∃ σ : Equiv.Perm ℕ, (∀ x, bt.items.length ≤ x → σ x = x) ∧
      (∀ m, Heapsort.sortPriv (cmpSorted bt) (fun i => i) bt.items.length m = σ m) ∧
      ∀ m m', m ≤ m' → m' < bt.items.length → itemValOff bt (σ m) ≤ itemValOff bt (σ m') := by
  obtain ⟨⟨σ, hσ, hperm⟩, hsorted⟩ :=
    Heapsort.sortPriv_spec (cmpSorted_eq_compare bt) (fun i => i) bt.items.length
  refine ⟨σ, hσ, fun m => by rw [hperm]; rfl, fun m m' hm hm' => ?_⟩
  have := hsorted m m' hm hm'
  rwa [hperm] at this

/-- A permutation that fixes the places from `n` on keeps `[0, n)`. -/
theorem apply_lt_iff {σ : Equiv.Perm ℕ} {n : ℕ} (hσ : ∀ x, n ≤ x → σ x = x) {m : ℕ} :
    σ m < n ↔ m < n := by
  constructor
  · intro h
    by_contra hm
    rw [hσ m (by omega)] at h
    exact hm h
  · intro h
    by_contra hm
    have := hσ (σ m) (by omega)
    rw [σ.injective this] at hm
    exact hm h

theorem symm_lt_iff {σ : Equiv.Perm ℕ} {n : ℕ} (hσ : ∀ x, n ≤ x → σ x = x) {i : ℕ} :
    σ.symm i < n ↔ i < n := by
  rw [← apply_lt_iff hσ, Equiv.apply_symm_apply]

/-! ### The loop -/

/-- A round of the loop over a nonempty value: the value's bytes move to just below `to_off`,
by `memcpy`, by `memmove` or not at all, and the item's offset follows.  The `memcpy` is only
of regions apart. -/
theorem compactLoop_move {s : ℕ → ℕ} {k t : ℕ} {b : Block} {item : Item}
    (hit : b.items[s k]? = some item) (hlen : item.valLen ≠ 0) :
    compactLoop s (k + 1) b t = compactLoop s k
      { b with data := memmove b.data (t - valBytes item.valLen) item.valOff
                 (valBytes item.valLen),
               items := b.items.set (s k) { item with valOff := t - valBytes item.valLen } }
      (t - valBytes item.valLen) := by
  rw [compactLoop, hit]
  dsimp only
  rw [if_neg hlen]
  by_cases hsame : item.valOff = t - valBytes item.valLen
  · -- the value is in place already: nothing moves
    rw [if_neg (not_not.2 hsame)]
    obtain ⟨hlt, hget⟩ := List.getElem?_eq_some_iff.1 hit
    rw [← hsame, memmove_self]
    have hitem : { item with valOff := item.valOff } = item := rfl
    rw [hitem, ← hget, List.set_getElem_self]
  · rw [if_pos hsame]
    by_cases hcpy : t - valBytes item.valLen ≥ item.valOff + valBytes item.valLen
    · rw [if_pos hcpy, memcpy, if_pos (Or.inr hcpy)]
    · rw [if_neg hcpy]

/-- The loop writes only the bytes and the items of the block. -/
theorem compactLoop_frame {s : ℕ → ℕ} :
    ∀ {k : ℕ} {b b' : Block} {t t' : ℕ}, compactLoop s k b t = some (b', t') →
      b'.level = b.level ∧ b'.totalItemBytes = b.totalItemBytes ∧
        b'.midFreeLen = b.midFreeLen ∧ b'.buckets = b.buckets
  | 0, b, b', t, t', h => by
    rw [compactLoop, Option.some.injEq, Prod.mk.injEq] at h
    rw [← h.1]
    exact ⟨rfl, rfl, rfl, rfl⟩
  | k + 1, b, b', t, t', h => by
    cases hit : b.items[s k]? with
    | none =>
      rw [compactLoop, hit] at h
      contradiction
    | some item =>
      by_cases h0 : item.valLen = 0
      · rw [compactLoop, hit] at h
        dsimp only at h
        rw [if_pos h0] at h
        exact compactLoop_frame h
      · -- the moved block has the header of `b`
        rw [compactLoop_move hit h0] at h
        have := compactLoop_frame h
        exact this

/-- The loop on the block `o`, with the indices in the order of the permutation `σ`, once the
ranks from `k` on are done: only value offsets and bytes have changed, the values not done are
where they were and below `t`, the values done lie apart in `[t, top)` and fill it, and every
value keeps its bytes. -/
structure CompactInv (o : Block) (σ : Equiv.Perm ℕ) (lo top k : ℕ) (b : Block) (t : ℕ) :
    Prop where
  length : b.items.length = o.items.length
  fields : ∀ i (ho : i < o.items.length) (hb : i < b.items.length),
    b.items[i] = { o.items[i] with valOff := b.items[i].valOff }
  todo : ∀ i (ho : i < o.items.length) (hb : i < b.items.length), σ.symm i < k →
    b.items[i].valOff = o.items[i].valOff ∧
      (o.items[i].valLen ≠ 0 → o.items[i].valOff + valBytes o.items[i].valLen ≤ t)
  lo_le : lo ≤ t
  le_top : t ≤ top
  done : ∀ i (hb : i < b.items.length), k ≤ σ.symm i → b.items[i].valLen ≠ 0 →
    t ≤ b.items[i].valOff ∧ b.items[i].valOff + valBytes b.items[i].valLen ≤ top
  apart : ∀ i j (hi : i < b.items.length) (hj : j < b.items.length), i ≠ j → k ≤ σ.symm i →
    k ≤ σ.symm j → b.items[i].valLen ≠ 0 → b.items[j].valLen ≠ 0 → Apart b.items[i] b.items[j]
  sum : t + ∑ i ∈ (Finset.range o.items.length).filter (fun i => k ≤ σ.symm i),
    valBytesAt o i = top
  bytes : ∀ i (ho : i < o.items.length) (hb : i < b.items.length),
    itemVal b.data b.items[i] = itemVal o.data o.items[i]

theorem CompactInv.valLen_eq {o : Block} {σ : Equiv.Perm ℕ} {lo top k : ℕ} {b : Block} {t : ℕ}
    (I : CompactInv o σ lo top k b t) {i : ℕ} (ho : i < o.items.length)
    (hb : i < b.items.length) : b.items[i].valLen = o.items[i].valLen := by
  rw [I.fields i ho hb]

theorem itemValOff_of_lt {bt : Block} {i : ℕ} (hi : i < bt.items.length) :
    itemValOff bt i = bt.items[i].valOff := by
  rw [itemValOff, List.getElem?_eq_getElem hi]

section Loop

variable {o : Block} {σ : Equiv.Perm ℕ} {lo top : ℕ}
  (hσ : ∀ x, o.items.length ≤ x → σ x = x)
  (hsort : ∀ m m', m ≤ m' → m' < o.items.length → itemValOff o (σ m) ≤ itemValOff o (σ m'))
  (hv : ValuesIn o.items lo top)

include hsort hv in
/-- A nonempty value of a lower rank ends before the value of rank `k` starts. -/
theorem below_of_rank_lt {k i : ℕ} (hk : σ k < o.items.length) (hi : i < o.items.length)
    (hik : σ.symm i < k) (hrk : k < o.items.length) (hne : o.items[i].valLen ≠ 0)
    (hnek : o.items[σ k].valLen ≠ 0) :
    o.items[i].valOff + valBytes o.items[i].valLen ≤ o.items[σ k].valOff := by
  have hle := hsort (σ.symm i) k hik.le hrk
  rw [Equiv.apply_symm_apply, itemValOff_of_lt hi, itemValOff_of_lt hk] at hle
  have hne' : i ≠ σ k := fun e => by rw [e, Equiv.symm_apply_apply] at hik; omega
  rcases hv.apart i (σ k) hi hk hne' hne hnek with h | h
  · exact h
  · -- the value of rank `k` would end before one that does not start after it
    have := valBytes_pos hnek
    omega

/-- The rank filter from `k` is the index of rank `k` and the filter from `k + 1`. -/
theorem filter_rank_succ {n k : ℕ} (hk : σ k < n) :
    (Finset.range n).filter (fun i => k ≤ σ.symm i) =
      insert (σ k) ((Finset.range n).filter (fun i => k + 1 ≤ σ.symm i)) := by
  ext i
  simp only [Finset.mem_filter, Finset.mem_range, Finset.mem_insert]
  constructor
  · rintro ⟨hi, hki⟩
    rcases Nat.eq_or_lt_of_le hki with h | h
    · left
      rw [h, Equiv.apply_symm_apply]
    · exact Or.inr ⟨hi, h⟩
  · rintro (rfl | ⟨hi, hki⟩)
    · rw [Equiv.symm_apply_apply]
      exact ⟨hk, le_rfl⟩
    · exact ⟨hi, by omega⟩

include hsort hv in
/-- A round over a nonempty value keeps the invariant: the value moves to just below `t`, above
the values still to do and below those done. -/
theorem CompactInv.move {k : ℕ} {b : Block} {t : ℕ} {it : Item}
    (I : CompactInv o σ lo top (k + 1) b t) (hk : k < o.items.length) (hj : σ k < o.items.length)
    (hit : b.items[σ k]? = some it) (hne : it.valLen ≠ 0) :
    CompactInv o σ lo top k
      { b with data := memmove b.data (t - valBytes it.valLen) it.valOff (valBytes it.valLen),
               items := b.items.set (σ k) { it with valOff := t - valBytes it.valLen } }
      (t - valBytes it.valLen) := by
  obtain ⟨hjb, hget⟩ := List.getElem?_eq_some_iff.1 hit
  have hrank_iff : ∀ i, σ.symm i = k ↔ i = σ k := fun i => Equiv.symm_apply_eq σ
  have hlen : it.valLen = o.items[σ k].valLen := hget ▸ I.valLen_eq hj hjb
  have hoff : it.valOff = o.items[σ k].valOff := hget ▸ (I.todo (σ k) hj hjb (by
    rw [Equiv.symm_apply_apply]; omega)).1
  have hneo : o.items[σ k].valLen ≠ 0 := hlen ▸ hne
  have hend : it.valOff + valBytes it.valLen ≤ t := by
    rw [hoff, hlen]
    exact (I.todo (σ k) hj hjb (by rw [Equiv.symm_apply_apply]; omega)).2 hneo
  -- the values still to do end below the new `to_off`
  have htodo : ∀ i (ho : i < o.items.length), σ.symm i < k → o.items[i].valLen ≠ 0 →
      o.items[i].valOff + valBytes o.items[i].valLen ≤ t - valBytes it.valLen := by
    intro i ho hik hnei
    have := below_of_rank_lt hsort hv hj ho hik hk hnei hneo
    rw [← hoff] at this
    omega
  obtain ⟨b', hb'⟩ : ∃ b' : Block, b' =
      { b with data := memmove b.data (t - valBytes it.valLen) it.valOff (valBytes it.valLen),
               items := b.items.set (σ k) { it with valOff := t - valBytes it.valLen } } :=
    ⟨_, rfl⟩
  rw [← hb']
  have hitems : b'.items = b.items.set (σ k) { it with valOff := t - valBytes it.valLen } := by
    rw [hb']
  have hdata : b'.data = memmove b.data (t - valBytes it.valLen) it.valOff (valBytes it.valLen) :=
    by rw [hb']
  have hlen' : b'.items.length = b.items.length := by rw [hitems, List.length_set]
  have hself : ∀ h : σ k < b'.items.length,
      b'.items[σ k] = { it with valOff := t - valBytes it.valLen } := by
    intro h
    simp only [hitems, List.getElem_set_self]
  have hother : ∀ i (h : i < b'.items.length) (hb : i < b.items.length), i ≠ σ k →
      b'.items[i] = b.items[i] := by
    intro i h hb hik
    simp only [hitems]
    exact List.getElem_set_ne (Ne.symm hik) _
  refine ⟨hlen'.trans I.length, fun i ho hb => ?_, fun i ho hb hik => ?_, ?_, ?_,
    fun i hb hki hnei => ?_, fun i j hi hj hij hki hkj hnei hnej => ?_, ?_, fun i ho hb => ?_⟩
  · -- fields
    by_cases hik : i = σ k
    · subst hik
      rw [hself hb, ← hget, I.fields (σ k) ho hjb]
    · rw [hother i hb (hlen' ▸ hb) hik]
      exact I.fields i ho _
  · -- todo
    have hik' : i ≠ σ k := fun e => by rw [e, Equiv.symm_apply_apply] at hik; omega
    rw [hother i hb (hlen' ▸ hb) hik']
    exact ⟨(I.todo i ho _ (by omega)).1, htodo i ho hik⟩
  · -- lo_le
    have := (hv.inside (σ k) hj hneo).1
    omega
  · have := I.le_top
    omega
  · -- done
    by_cases hik : i = σ k
    · subst hik
      rw [hself hb]
      have := I.le_top
      exact ⟨le_rfl, by dsimp only; omega⟩
    · have hb0 : i < b.items.length := hlen' ▸ hb
      rw [hother i hb hb0 hik] at hnei ⊢
      have := I.done i hb0 (by have := (hrank_iff i).not.2 hik; omega) hnei
      omega
  · -- apart: the moved value ends at `t`, where the values done start
    by_cases hik : i = σ k
    · subst hik
      have hj0 : j < b.items.length := hlen' ▸ hj
      rw [hother j hj hj0 (Ne.symm hij)] at hnej ⊢
      rw [hself hi]
      have := I.done j hj0 (by have := (hrank_iff j).not.2 (Ne.symm hij); omega) hnej
      left
      dsimp only
      omega
    · have hi0 : i < b.items.length := hlen' ▸ hi
      rw [hother i hi hi0 hik] at hnei ⊢
      have hki' : k + 1 ≤ σ.symm i := by have := (hrank_iff i).not.2 hik; omega
      have := I.done i hi0 hki' hnei
      by_cases hjk : j = σ k
      · subst hjk
        rw [hself hj]
        right
        dsimp only
        omega
      · have hj0 : j < b.items.length := hlen' ▸ hj
        rw [hother j hj hj0 hjk] at hnej ⊢
        exact I.apart i j hi0 hj0 hij hki'
          (by have := (hrank_iff j).not.2 hjk; omega) hnei hnej
  · -- sum: the moved value's aligned length joins the values done
    have hnot : σ k ∉ (Finset.range o.items.length).filter (fun i => k + 1 ≤ σ.symm i) := by
      rw [Finset.mem_filter, Equiv.symm_apply_apply]
      omega
    rw [filter_rank_succ hj, Finset.sum_insert hnot, valBytesAt_of_lt hj, ← hlen]
    have := I.sum
    omega
  · -- bytes
    by_cases hik : i = σ k
    · subst hik
      rw [hself hb, hdata, itemVal_memmove (le_valBytes _), ← hget]
      exact I.bytes (σ k) ho hjb
    · have hb0 : i < b.items.length := hlen' ▸ hb
      rw [hother i hb hb0 hik, hdata, ← I.bytes i ho hb0]
      refine itemVal_congr fun q hq => memmove_of_outside ?_
      have hnei : o.items[i].valLen ≠ 0 := by rw [← I.valLen_eq ho hb0]; omega
      have hq' := le_valBytes b.items[i].valLen
      rw [I.valLen_eq ho hb0] at hq hq'
      rcases lt_or_gt_of_ne ((hrank_iff i).not.2 hik) with hlt | hgt
      · -- a value still to do lies below the place the value moves to
        have := htodo i ho hlt hnei
        rw [(I.todo i ho hb0 (by omega)).1]
        omega
      · -- a value done lies above it
        have := (I.done i hb0 (by omega) (by rw [I.valLen_eq ho hb0]; exact hnei)).1
        omega

include hσ hsort hv in
/-- One round of the loop keeps the invariant, with one rank fewer to do. -/
theorem CompactInv.step {k : ℕ} {b : Block} {t : ℕ} (I : CompactInv o σ lo top (k + 1) b t)
    (hk : k < o.items.length) :
    ∃ b' t', compactLoop σ (k + 1) b t = compactLoop σ k b' t' ∧
      CompactInv o σ lo top k b' t' := by
  have hj : σ k < o.items.length := (apply_lt_iff hσ).2 hk
  have hjb : σ k < b.items.length := I.length ▸ hj
  have hrank : σ.symm (σ k) = k := Equiv.symm_apply_apply σ k
  have hrank_iff : ∀ i, σ.symm i = k ↔ i = σ k := fun i => Equiv.symm_apply_eq σ
  obtain ⟨hoff, hbelow⟩ := I.todo (σ k) hj hjb (by omega)
  have hfield := I.fields (σ k) hj hjb
  have hlen : b.items[σ k].valLen = o.items[σ k].valLen := by rw [hfield]
  have hnot : σ k ∉ (Finset.range o.items.length).filter (fun i => k + 1 ≤ σ.symm i) := by
    rw [Finset.mem_filter, hrank]
    omega
  by_cases hempty : o.items[σ k].valLen = 0
  · -- an empty value: the round does nothing
    refine ⟨b, t, ?_, ⟨I.length, I.fields, fun i ho hb hi => I.todo i ho hb (by omega),
      I.lo_le, I.le_top, fun i hb hki hne => ?_, fun i j hi hj hij hki hkj hne hne' => ?_, ?_,
      I.bytes⟩⟩
    · rw [compactLoop, List.getElem?_eq_getElem hjb]
      dsimp only
      rw [if_pos (hlen.trans hempty)]
    · have hik : i ≠ σ k := fun e => by subst e; exact hne (hlen.trans hempty)
      exact I.done i hb (by have := (hrank_iff i).not.2 hik; omega) hne
    · have hik : i ≠ σ k := fun e => by subst e; exact hne (hlen.trans hempty)
      have hjk : j ≠ σ k := fun e => by subst e; exact hne' (hlen.trans hempty)
      exact I.apart i j hi hj hij (by have := (hrank_iff i).not.2 hik; omega)
        (by have := (hrank_iff j).not.2 hjk; omega) hne hne'
    · rw [filter_rank_succ hj, Finset.sum_insert hnot, valBytesAt_of_lt hj, hempty]
      exact (Nat.zero_add _).symm ▸ I.sum
  · exact ⟨_, _, compactLoop_move (List.getElem?_eq_getElem hjb) (hlen ▸ hempty),
      I.move hsort hv hk hj (List.getElem?_eq_getElem hjb) (hlen ▸ hempty)⟩

include hσ in
/-- Before the loop every rank is to do: the values are where they were, below `top`. -/
theorem CompactInv.init (hv : ValuesIn o.items lo top) (hlo : lo ≤ top) :
    CompactInv o σ lo top o.items.length o top := by
  have hrank : ∀ i, i < o.items.length → σ.symm i < o.items.length := fun i =>
    (symm_lt_iff hσ).2
  refine ⟨rfl, fun i ho hb => rfl, fun i ho hb hi => ⟨rfl, fun hne => (hv.inside i ho hne).2⟩,
    hlo, le_rfl, fun i hb hi => absurd (hrank i hb) (by omega),
    fun i j hi hj hij hki => absurd (hrank i hi) (by omega), ?_, fun i ho hb => rfl⟩
  have hempty : (Finset.range o.items.length).filter (fun i => o.items.length ≤ σ.symm i) = ∅ :=
    Finset.filter_eq_empty_iff.2 fun i hi => by
      have := hrank i (Finset.mem_range.1 hi)
      omega
  rw [hempty, Finset.sum_empty, Nat.add_zero]

include hσ hsort hv in
/-- The loop from rank `k` down keeps the invariant and ends with every rank done. -/
theorem CompactInv.run :
    ∀ {k : ℕ} {b : Block} {t : ℕ}, CompactInv o σ lo top k b t → k ≤ o.items.length →
      ∃ b' t', compactLoop σ k b t = some (b', t') ∧ CompactInv o σ lo top 0 b' t'
  | 0, b, t, I, _ => ⟨b, t, rfl, I⟩
  | k + 1, b, t, I, hk => by
    obtain ⟨b₁, t₁, heq, I₁⟩ := I.step hσ hsort hv (by omega)
    obtain ⟨b', t', heq', I'⟩ := I₁.run (by omega)
    exact ⟨b', t', heq.trans heq', I'⟩

end Loop

/-- The space for values does not depend on the values. -/
theorem valuesEnd_congr {b b' : Block} (h : b'.level = b.level) : valuesEnd b' = valuesEnd b := by
  rw [valuesEnd, valuesEnd, h]

/-- `compact_values` of a block whose values lie between the end of the middle free space and
the end of the space for values returns `0`.  It keeps the header, the items but for their
value offsets, and the bytes of every value, and packs the values against the end: they lie
apart between the new end of the middle free space and the end, which their aligned lengths
fill. -/
theorem compactValues_spec {bt : Block} (hspace : midFreeOff bt + bt.midFreeLen ≤ valuesEnd bt)
    (hv : ValuesIn bt.items (midFreeOff bt + bt.midFreeLen) (valuesEnd bt)) :
    ∃ bt', compactValues bt false = some (0, bt') ∧
      bt'.level = bt.level ∧ bt'.buckets = bt.buckets ∧
        bt'.totalItemBytes = bt.totalItemBytes ∧ bt'.items.length = bt.items.length ∧
      (∀ i (hi : i < bt.items.length) (hi' : i < bt'.items.length),
        bt'.items[i] = { bt.items[i] with valOff := bt'.items[i].valOff } ∧
          itemVal bt'.data bt'.items[i] = itemVal bt.data bt.items[i]) ∧
      ValuesIn bt'.items (midFreeOff bt' + bt'.midFreeLen) (valuesEnd bt') ∧
      midFreeOff bt' + bt'.midFreeLen + ∑ i ∈ Finset.range bt.items.length, valBytesAt bt i =
        valuesEnd bt := by
  obtain ⟨σ, hσ, hsorted, hsort⟩ := sortPriv_cmpSorted bt
  have hs : Heapsort.sortPriv (cmpSorted bt) (fun i => i) bt.items.length = σ := funext hsorted
  obtain ⟨b', t', hloop, I⟩ :=
    (CompactInv.init hσ hv hspace).run hσ hsort hv le_rfl
  obtain ⟨hlevel, htot, -, hbuckets⟩ := compactLoop_frame hloop
  have hoff : midFreeOff b' = midFreeOff bt := by rw [midFreeOff, midFreeOff, I.length]
  have hlo := I.lo_le
  have htop : midFreeOff b' + (t' - midFreeOff b') = t' := by omega
  have hend : valuesEnd b' = valuesEnd bt := valuesEnd_congr hlevel
  refine ⟨{ b' with midFreeLen := t' - midFreeOff b' }, ?_, hlevel, hbuckets, htot, I.length,
    fun i hi hi' => ⟨I.fields i hi hi', I.bytes i hi hi'⟩, ?_, ?_⟩
  · -- the loop starts at the end of the space for values
    have hto : (if bt.level = 0 then SCOUTFS_BLOCK_LG_SIZE - SCOUTFS_BTREE_LEAF_ITEM_HASH_BYTES
        else SCOUTFS_BLOCK_LG_SIZE) = valuesEnd bt := rfl
    rw [compactValues, if_neg Bool.false_ne_true]
    dsimp only
    rw [hs, hto, hloop]
  · -- every rank is done: the values lie apart in `[to_off, end)`
    show ValuesIn b'.items (midFreeOff b' + (t' - midFreeOff b')) (valuesEnd b')
    rw [htop, hend]
    exact ⟨fun i hi hne => I.done i hi (Nat.zero_le _) hne,
      fun i j hi hj hij hne hne' => I.apart i j hi hj hij (Nat.zero_le _) (Nat.zero_le _) hne hne'⟩
  · show midFreeOff b' + (t' - midFreeOff b') + _ = _
    have hall : (Finset.range bt.items.length).filter (fun i => 0 ≤ σ.symm i) =
        Finset.range bt.items.length := Finset.filter_true_of_mem fun i _ => Nat.zero_le _
    rw [htop, ← hall]
    exact I.sum

end BtreeItems

end Scoutfs
