/-
What the srch search of `srch.c` finds.

An entry is live when it occurs an odd number of times across the srch files.  The main
result, `scoutfsSrchSearchXattrs_live`, says that on files in the srch format
`scoutfs_srch_search_xattrs` returns, given fuel for its retries, a tracking root that
holds exactly the live `(ino, id)` pairs of the hash from the first entry of `ino` up to
an end bound no greater than the final entry of `last_ino`, and that `*done` says whether
that bound is the final one.

The proof carries one invariant, `TrackInv`, over every entry the search reads or passes
over: the root holds the pairs whose entries lie in `[start, end]` and occur an odd number
of times in the entries accounted for so far.  `track_found` keeps it for an entry in the
range (`TrackInv.trackFound`), an entry outside the range keeps it with the root unchanged
(`TrackInv.append_of_out`), and the binary search of a sorted file passes over only blocks
outside the range (`sortedFirstBlock_misses`).  A retry moves `start` past a range in
which nothing is live (`TrackInv.of_even_below`).
-/
import Scoutfs.Srch

namespace Scoutfs

/-! ### Entry arithmetic -/

theorem UInt64.toNat_ne_zero {a : UInt64} (h : a ≠ 0) : a.toNat ≠ 0 :=
  fun h' => h (UInt64.toNat_inj.mp h')

theorem UInt64.toNat_sub_one_of_ne {a : UInt64} (h : a ≠ 0) : (a - 1).toNat = a.toNat - 1 := by
  have h0 := UInt64.toNat_ne_zero h
  rw [UInt64.toNat_sub_of_le _ _ (UInt64.le_iff_toNat_le.mpr (by simp; omega))]
  simp

theorem UInt64.sub_one_eq_max_iff {a : UInt64} : a - 1 = U64_MAX ↔ a = 0 := by
  constructor
  · intro h
    have := congrArg (· + 1) h
    simpa [U64_MAX] using this
  · rintro rfl
    rfl

namespace ScoutfsSrchEntry

/-- The hash is the top digit of the entry's number. -/
theorem toNat_bounds (e : ScoutfsSrchEntry) :
    e.hash.toNat * 2 ^ 128 ≤ e.toNat ∧ e.toNat < (e.hash.toNat + 1) * 2 ^ 128 := by
  have := e.ino.toNat_lt
  have := e.id.toNat_lt
  simp only [toNat]
  omega

theorem hash_eq_of_toNat {e : ScoutfsSrchEntry} {h : UInt64} (h₁ : h.toNat * 2 ^ 128 ≤ e.toNat)
    (h₂ : e.toNat < (h.toNat + 1) * 2 ^ 128) : e.hash = h := by
  have := e.toNat_bounds
  apply UInt64.toNat_inj.mp
  by_contra hne
  rcases Nat.lt_or_gt_of_ne hne with hlt | hlt
  · have : (e.hash.toNat + 1) * 2 ^ 128 ≤ h.toNat * 2 ^ 128 := Nat.mul_le_mul_right _ hlt
    omega
  · have : (h.toNat + 1) * 2 ^ 128 ≤ e.hash.toNat * 2 ^ 128 := Nat.mul_le_mul_right _ hlt
    omega

/-- An entry between two entries of one hash has that hash. -/
theorem hash_eq_of_between {a b x : ScoutfsSrchEntry} {h : UInt64} (ha : a.hash = h)
    (hb : b.hash = h) (hax : a ≤ x) (hxb : x ≤ b) : x.hash = h := by
  rw [le_def] at hax hxb
  have := a.toNat_bounds
  have := b.toNat_bounds
  rw [ha] at *
  rw [hb] at *
  exact hash_eq_of_toNat (by omega) (by omega)

end ScoutfsSrchEntry

/-- `sre_dec` is the predecessor of every entry but the least. -/
theorem sreDec_toNat {e : ScoutfsSrchEntry} (h : 0 < e.toNat) : (sreDec e).toNat + 1 = e.toNat := by
  obtain ⟨hs, i, d⟩ := e
  simp only [ScoutfsSrchEntry.toNat] at h
  by_cases hd0 : d = 0
  · by_cases hi0 : i = 0
    · -- the borrow reaches the hash
      subst hd0 hi0
      have hs0 : hs ≠ 0 := by
        rintro rfl
        simp at h
      simp only [sreDec, ScoutfsSrchEntry.toNat, ne_eq, UInt64.sub_one_eq_max_iff,
        not_true_eq_false, if_false, UInt64.toNat_sub_one_of_ne hs0]
      have := UInt64.toNat_ne_zero hs0
      simp
      omega
    · subst hd0
      simp only [sreDec, ScoutfsSrchEntry.toNat, ne_eq, UInt64.sub_one_eq_max_iff, hi0,
        not_true_eq_false, not_false_eq_true, if_true, if_false, UInt64.toNat_sub_one_of_ne hi0]
      have := UInt64.toNat_ne_zero hi0
      simp
      omega
  · simp only [sreDec, ScoutfsSrchEntry.toNat, ne_eq, UInt64.sub_one_eq_max_iff, hd0,
      not_false_eq_true, if_true, UInt64.toNat_sub_one_of_ne hd0]
    have := UInt64.toNat_ne_zero hd0
    omega

/-- The entry under `hash` of the tracked pair `n`. -/
def srchEntry (hash : UInt64) (n : SrchNode) : ScoutfsSrchEntry :=
  ⟨hash, n.ino, n.id⟩

theorem srchEntry_toNat (hash : UInt64) (n : SrchNode) :
    (srchEntry hash n).toNat = hash.toNat * 2 ^ 128 + n.toNat := by
  simp only [srchEntry, ScoutfsSrchEntry.toNat, SrchNode.toNat]
  omega

theorem SrchNode.toNat_lt (n : SrchNode) : n.toNat < 2 ^ 128 := by
  have := n.ino.toNat_lt
  have := n.id.toNat_lt
  simp only [SrchNode.toNat]
  omega

theorem srchEntry_toNat_lt (hash : UInt64) {a b : SrchNode} (h : a < b) :
    (srchEntry hash a).toNat < (srchEntry hash b).toNat := by
  rw [srchEntry_toNat, srchEntry_toNat]
  have := SrchNode.lt_def.mp h
  omega

@[simp] theorem srchEntry_lt_srchEntry {hash : UInt64} {a b : SrchNode} :
    srchEntry hash a < srchEntry hash b ↔ a < b := by
  rw [ScoutfsSrchEntry.lt_def, SrchNode.lt_def, srchEntry_toNat, srchEntry_toNat]
  omega

@[simp] theorem srchEntry_inj {hash : UInt64} {a b : SrchNode} :
    srchEntry hash a = srchEntry hash b ↔ a = b := by
  obtain ⟨i, d⟩ := a
  obtain ⟨i', d'⟩ := b
  simp [srchEntry]

theorem srchEntry_of_hash {x : ScoutfsSrchEntry} {hash : UInt64} (h : x.hash = hash) :
    srchEntry hash ⟨x.ino, x.id⟩ = x := by
  subst h
  rfl

theorem count_append_srchEntry (S : List ScoutfsSrchEntry) (hash : UInt64) (m n : SrchNode) :
    (S ++ [srchEntry hash n]).count (srchEntry hash m) =
      S.count (srchEntry hash m) + if m = n then 1 else 0 := by
  rw [List.count_append, List.count_singleton]
  by_cases h : m = n
  · simp [h]
  · have : srchEntry hash n ≠ srchEntry hash m := fun h' => h (srchEntry_inj.mp h').symm
    simp [h, this]

/-- `set_end_before` under a bound of the same hash at or above the dropped entry lowers
the bound to the entry before it. -/
theorem setEndBefore_eq {hash : UInt64} {e : ScoutfsSrchEntry} {n : SrchNode} (hh : e.hash = hash)
    (hpos : 0 < (srchEntry hash n).toNat) (hle : srchEntry hash n ≤ e) :
    setEndBefore e n.ino n.id = sreDec (srchEntry hash n) := by
  have hd := sreDec_toNat hpos
  rw [ScoutfsSrchEntry.le_def] at hle
  simp only [setEndBefore, hh]
  change (if sreCmp (sreDec (srchEntry hash n)) e = .lt then sreDec (srchEntry hash n) else e) = _
  rw [if_pos (sreCmp_eq_lt.mpr (ScoutfsSrchEntry.lt_def.mpr (by omega)))]

/-! ### The greatest tracked node -/

theorem rbLast_eq_some_iff {s : Finset SrchNode} {l : SrchNode} :
    rbLast s = some l ↔ l ∈ s ∧ ∀ m ∈ s, m ≤ l := by
  constructor
  · intro h
    exact ⟨Finset.mem_of_max h, fun m hm => Finset.le_max_of_eq hm h⟩
  · rintro ⟨hl, hmax⟩
    show s.max = (l : WithBot SrchNode)
    exact le_antisymm (Finset.max_le fun m hm => WithBot.coe_le_coe.mpr (hmax m hm))
      (Finset.le_max hl)

theorem rbLast_eq_none_iff {s : Finset SrchNode} : rbLast s = none ↔ s = ∅ :=
  Finset.max_eq_bot

theorem rbPrev_eq_rbLast_erase {s : Finset SrchNode} {l : SrchNode} (h : ∀ m ∈ s, m ≤ l) :
    rbPrev s l = rbLast (s.erase l) := by
  unfold rbPrev rbLast
  congr 1
  ext m
  simp only [Finset.mem_filter, Finset.mem_erase]
  constructor
  · rintro ⟨hm, hlt⟩
    exact ⟨ne_of_lt hlt, hm⟩
  · rintro ⟨hne, hm⟩
    exact ⟨hm, lt_of_le_of_ne (h m hm) hne⟩

theorem rbLast_insert_of_forall_lt {s : Finset SrchNode} {n : SrchNode} (h : ∀ m ∈ s, m < n) :
    rbLast (insert n s) = some n := by
  refine rbLast_eq_some_iff.mpr ⟨Finset.mem_insert_self n s, fun m hm => ?_⟩
  rcases Finset.mem_insert.mp hm with rfl | hm
  · exact le_rfl
  · exact (h m hm).le

theorem rbLast_insert_of_lt {s : Finset SrchNode} {n l : SrchNode} (hl : rbLast s = some l)
    (hn : n < l) : rbLast (insert n s) = some l := by
  obtain ⟨hmem, hmax⟩ := rbLast_eq_some_iff.mp hl
  refine rbLast_eq_some_iff.mpr ⟨Finset.mem_insert_of_mem hmem, fun m hm => ?_⟩
  rcases Finset.mem_insert.mp hm with rfl | hm
  · exact hn.le
  · exact hmax m hm

theorem rbLast_erase_of_ne {s : Finset SrchNode} {n l : SrchNode} (hl : rbLast s = some l)
    (hn : l ≠ n) : rbLast (s.erase n) = some l := by
  obtain ⟨hmem, hmax⟩ := rbLast_eq_some_iff.mp hl
  refine rbLast_eq_some_iff.mpr ⟨Finset.mem_erase.mpr ⟨hn, hmem⟩, fun m hm => ?_⟩
  exact hmax m (Finset.mem_of_mem_erase hm)

/-! ### The tracking invariant -/

section Track

variable {hash : UInt64} {start final : ScoutfsSrchEntry} {limit : ℕ}

/-- The tracking root after the entries `S` have been accounted for: it holds the pairs
whose entries lie in `[start, end]` and occur an odd number of times in `S`, `last` is its
greatest node and `nr` its size, at most `limit`; `end` keeps the hash and never rises
above `final`, and it only falls to a point at or above `start`. -/
structure TrackInv (hash : UInt64) (start final : ScoutfsSrchEntry) (limit : ℕ)
    (S : List ScoutfsSrchEntry) (acc : SrchAcc) : Prop where
  mem_iff : ∀ n, n ∈ acc.1.nodes ↔
    (start ≤ srchEntry hash n ∧ srchEntry hash n ≤ acc.2) ∧ Odd (S.count (srchEntry hash n))
  last_eq : acc.1.last = rbLast acc.1.nodes
  nr_eq : acc.1.nr = acc.1.nodes.card
  nr_le : acc.1.nr ≤ limit
  end_hash : acc.2.hash = hash
  end_le : acc.2 ≤ final
  final_or_le : acc.2 = final ∨ start ≤ acc.2

namespace TrackInv

variable {S : List ScoutfsSrchEntry} {acc : SrchAcc}

theorem init (hfinal : final.hash = hash) :
    TrackInv hash start final limit [] (ScoutfsSrchRbRoot.empty, final) where
  mem_iff n := by simp [ScoutfsSrchRbRoot.empty]
  last_eq := (rbLast_eq_none_iff.mpr rfl).symm
  nr_eq := rfl
  nr_le := Nat.zero_le _
  end_hash := hfinal
  end_le := le_rfl
  final_or_le := Or.inl rfl

/-- Entries outside the range leave the root as it is. -/
theorem append_of_out (h : TrackInv hash start final limit S acc) (l : List ScoutfsSrchEntry)
    (hl : ∀ x ∈ l, x < start ∨ acc.2 < x) : TrackInv hash start final limit (S ++ l) acc := by
  refine { h with mem_iff := fun n => ?_ }
  have hzero : start ≤ srchEntry hash n ∧ srchEntry hash n ≤ acc.2 →
      l.count (srchEntry hash n) = 0 := by
    rintro ⟨h₁, h₂⟩
    refine List.count_eq_zero.mpr fun hx => ?_
    rcases hl _ hx with h' | h'
    · exact absurd h₁ (not_le.mpr h')
    · exact absurd h₂ (not_le.mpr h')
  rw [h.mem_iff n, List.count_append]
  constructor
  · rintro ⟨hr, ho⟩
    exact ⟨hr, by rwa [hzero hr, Nat.add_zero]⟩
  · rintro ⟨hr, ho⟩
    exact ⟨hr, by rwa [hzero hr, Nat.add_zero] at ho⟩

theorem start_le_of_mem (h : TrackInv hash start final limit S acc) {n : SrchNode}
    (hn : n ∈ acc.1.nodes) : start ≤ srchEntry hash n :=
  ((h.mem_iff n).mp hn).1.1

theorem le_end_of_mem (h : TrackInv hash start final limit S acc) {n : SrchNode}
    (hn : n ∈ acc.1.nodes) : srchEntry hash n ≤ acc.2 :=
  ((h.mem_iff n).mp hn).1.2

/-- A pair in the range and not tracked has occurred an even number of times. -/
theorem not_odd_of_not_mem (h : TrackInv hash start final limit S acc) {n : SrchNode}
    (hn : n ∉ acc.1.nodes) (hr₁ : start ≤ srchEntry hash n) (hr₂ : srchEntry hash n ≤ acc.2) :
    ¬Odd (S.count (srchEntry hash n)) :=
  fun ho => hn ((h.mem_iff n).mpr ⟨⟨hr₁, hr₂⟩, ho⟩)

theorem exists_last (h : TrackInv hash start final limit S acc) (hne : acc.1.nodes.Nonempty) :
    ∃ l, acc.1.last = some l ∧ l ∈ acc.1.nodes ∧ ∀ m ∈ acc.1.nodes, m ≤ l := by
  cases hl : rbLast acc.1.nodes with
  | none => exact absurd (rbLast_eq_none_iff.mp hl) hne.ne_empty
  | some l => exact ⟨l, h.last_eq.trans hl, rbLast_eq_some_iff.mp hl⟩

theorem rbLinksAfterLast_iff (h : TrackInv hash start final limit S acc) (n : SrchNode) :
    rbLinksAfterLast acc.1 n = true ↔ ∀ m ∈ acc.1.nodes, m < n := by
  simp [rbLinksAfterLast, h.last_eq]

/-- `track_found` of a tracked pair: the second occurrence removes it. -/
theorem trackFound_dupe (h : TrackInv hash start final limit S acc) {n : SrchNode}
    (hn : n ∈ acc.1.nodes) :
    TrackInv hash start final limit (S ++ [srchEntry hash n])
      (⟨acc.1.nodes.erase n, if acc.1.last = some n then rbPrev acc.1.nodes n else acc.1.last,
        acc.1.nr - 1⟩, acc.2) where
  mem_iff m := by
    rw [Finset.mem_erase, count_append_srchEntry]
    by_cases hm : m = n
    · subst hm
      have ho := ((h.mem_iff m).mp hn).2
      simp [Nat.odd_add_one, ho]
    · simp [hm, h.mem_iff m]
  last_eq := by
    obtain ⟨l, hl, hlmem, hlmax⟩ := h.exists_last ⟨n, hn⟩
    rw [hl]
    by_cases hln : l = n
    · subst hln
      rw [if_pos rfl, rbPrev_eq_rbLast_erase hlmax]
    · rw [if_neg (by simpa using hln)]
      exact (rbLast_erase_of_ne (h.last_eq ▸ hl) hln).symm
  nr_eq := by
    rw [Finset.card_erase_of_mem hn, h.nr_eq]
  nr_le := le_trans (Nat.sub_le _ _) h.nr_le
  end_hash := h.end_hash
  end_le := h.end_le
  final_or_le := h.final_or_le

/-- `track_found` of a new pair greater than every tracked one at the limit: the pair is
dropped and `end` falls to the entry before it. -/
theorem trackFound_drop (hlimit : 0 < limit) (h : TrackInv hash start final limit S acc)
    {n : SrchNode} (hn : n ∉ acc.1.nodes) (hnr : limit ≤ acc.1.nr)
    (hall : ∀ m ∈ acc.1.nodes, m < n) (hr₂ : srchEntry hash n ≤ acc.2) :
    TrackInv hash start final limit (S ++ [srchEntry hash n])
      (acc.1, setEndBefore acc.2 n.ino n.id) := by
  -- the root is full, so some tracked `m` lies below `n`
  obtain ⟨m₀, hm₀⟩ : acc.1.nodes.Nonempty := by
    rw [← Finset.card_pos, ← h.nr_eq]
    omega
  have hlt₀ := srchEntry_toNat_lt hash (hall m₀ hm₀)
  have hend := setEndBefore_eq h.end_hash (by omega) hr₂
  have hdec := sreDec_toNat (e := srchEntry hash n) (by omega)
  have hstart₀ := ScoutfsSrchEntry.le_def.mp (h.start_le_of_mem hm₀)
  rw [ScoutfsSrchEntry.le_def] at hr₂
  refine ⟨fun m => ?_, h.last_eq, h.nr_eq, h.nr_le, ?_, ?_, ?_⟩
  · rw [count_append_srchEntry, hend, ScoutfsSrchEntry.le_def (b := sreDec _)]
    by_cases hm : m = n
    · subst hm
      simp only [hn, false_iff]
      omega
    · simp only [hm, if_false, Nat.add_zero]
      rw [h.mem_iff m]
      constructor
      · rintro ⟨⟨h₁, h₂⟩, ho⟩
        have := srchEntry_toNat_lt hash (hall m ((h.mem_iff m).mpr ⟨⟨h₁, h₂⟩, ho⟩))
        exact ⟨⟨h₁, by omega⟩, ho⟩
      · rintro ⟨⟨h₁, h₂⟩, ho⟩
        exact ⟨⟨h₁, ScoutfsSrchEntry.le_def.mpr (by omega)⟩, ho⟩
  · show (setEndBefore acc.2 n.ino n.id).hash = hash
    rw [hend]
    have := srchEntry_toNat hash m₀
    have := srchEntry_toNat hash n
    have := n.toNat_lt
    exact ScoutfsSrchEntry.hash_eq_of_toNat (by omega) (by omega)
  · show setEndBefore acc.2 n.ino n.id ≤ final
    rw [hend]
    exact le_trans (ScoutfsSrchEntry.le_def.mpr (by omega)) h.end_le
  · show setEndBefore acc.2 n.ino n.id = final ∨ start ≤ setEndBefore acc.2 n.ino n.id
    rw [hend]
    exact Or.inr (ScoutfsSrchEntry.le_def.mpr (by omega))

/-- `track_found` of a new pair below the greatest tracked one at the limit: the pair is
tracked, and the greatest is dropped with `end` falling to the entry before it. -/
theorem trackFound_evict (h : TrackInv hash start final limit S acc) {n l : SrchNode}
    (hn : n ∉ acc.1.nodes) (hl : acc.1.last = some l) (hnl : n < l)
    (hr₁ : start ≤ srchEntry hash n) (hr₂ : srchEntry hash n ≤ acc.2) :
    TrackInv hash start final limit (S ++ [srchEntry hash n])
      (⟨(insert n acc.1.nodes).erase l, rbPrev (insert n acc.1.nodes) l, acc.1.nr + 1 - 1⟩,
        setEndBefore acc.2 l.ino l.id) := by
  obtain ⟨hlmem, hlmax⟩ := rbLast_eq_some_iff.mp (h.last_eq ▸ hl)
  have hmax : ∀ m ∈ insert n acc.1.nodes, m ≤ l := by
    intro m hm
    rcases Finset.mem_insert.mp hm with rfl | hm
    · exact hnl.le
    · exact hlmax m hm
  have hodd := h.not_odd_of_not_mem hn hr₁ hr₂
  have hlt := srchEntry_toNat_lt hash hnl
  have hle := ScoutfsSrchEntry.le_def.mp (h.le_end_of_mem hlmem)
  have hend := setEndBefore_eq h.end_hash (by omega) (h.le_end_of_mem hlmem)
  have hdec := sreDec_toNat (e := srchEntry hash l) (by omega)
  rw [ScoutfsSrchEntry.le_def] at hr₁ hr₂
  refine ⟨fun m => ?_, ?_, ?_, ?_, ?_, ?_, ?_⟩
  · dsimp only
    rw [hend, Finset.mem_erase, Finset.mem_insert, count_append_srchEntry]
    by_cases hml : m = l
    · -- the dropped greatest pair now lies above `end`
      subst hml
      simp only [ne_eq, not_true_eq_false, false_and, false_iff]
      rintro ⟨⟨-, hle'⟩, -⟩
      have := ScoutfsSrchEntry.le_def.mp hle'
      omega
    by_cases hmn : m = n
    · -- the new pair is tracked: its count turns odd
      subst hmn
      simp only [ne_eq, hml, not_false_eq_true, true_or, and_self, if_true, Nat.odd_add_one, hodd,
        and_true, true_iff]
      exact ⟨ScoutfsSrchEntry.le_def.mpr hr₁, ScoutfsSrchEntry.le_def.mpr (by omega)⟩
    · simp only [ne_eq, hml, not_false_eq_true, hmn, false_or, true_and, if_false, Nat.add_zero]
      constructor
      · intro hm
        obtain ⟨⟨h₁, -⟩, ho⟩ := (h.mem_iff m).mp hm
        have := srchEntry_toNat_lt hash (lt_of_le_of_ne (hlmax m hm) hml)
        exact ⟨⟨h₁, ScoutfsSrchEntry.le_def.mpr (by omega)⟩, ho⟩
      · rintro ⟨⟨h₁, h₂⟩, ho⟩
        have := ScoutfsSrchEntry.le_def.mp h₂
        exact (h.mem_iff m).mpr ⟨⟨h₁, ScoutfsSrchEntry.le_def.mpr (by omega)⟩, ho⟩
  · exact rbPrev_eq_rbLast_erase hmax
  · show acc.1.nr + 1 - 1 = ((insert n acc.1.nodes).erase l).card
    rw [Finset.card_erase_of_mem (Finset.mem_insert_of_mem hlmem), Finset.card_insert_of_notMem hn,
      h.nr_eq]
  · show acc.1.nr + 1 - 1 ≤ limit
    have := h.nr_le
    omega
  · show (setEndBefore acc.2 l.ino l.id).hash = hash
    rw [hend]
    have := srchEntry_toNat hash n
    have := srchEntry_toNat hash l
    have := l.toNat_lt
    exact ScoutfsSrchEntry.hash_eq_of_toNat (by omega) (by omega)
  · show setEndBefore acc.2 l.ino l.id ≤ final
    rw [hend]
    exact le_trans (ScoutfsSrchEntry.le_def.mpr (by omega)) h.end_le
  · show setEndBefore acc.2 l.ino l.id = final ∨ start ≤ setEndBefore acc.2 l.ino l.id
    rw [hend]
    exact Or.inr (ScoutfsSrchEntry.le_def.mpr (by omega))

/-- `track_found` of a new pair with room for it: the pair is tracked. -/
theorem trackFound_insert (h : TrackInv hash start final limit S acc) {n : SrchNode}
    (hn : n ∉ acc.1.nodes) (hnr : acc.1.nr + 1 ≤ limit) {last : Option SrchNode}
    (hlast : last = rbLast (insert n acc.1.nodes))
    (hr₁ : start ≤ srchEntry hash n) (hr₂ : srchEntry hash n ≤ acc.2) :
    TrackInv hash start final limit (S ++ [srchEntry hash n])
      (⟨insert n acc.1.nodes, last, acc.1.nr + 1⟩, acc.2) where
  mem_iff m := by
    rw [Finset.mem_insert, count_append_srchEntry]
    by_cases hmn : m = n
    · subst hmn
      simp [Nat.odd_add_one, h.not_odd_of_not_mem hn hr₁ hr₂, hr₁, hr₂]
    · simp [hmn, h.mem_iff m]
  last_eq := hlast
  nr_eq := by rw [Finset.card_insert_of_notMem hn, h.nr_eq]
  nr_le := hnr
  end_hash := h.end_hash
  end_le := h.end_le
  final_or_le := h.final_or_le

/-- `track_found` keeps the invariant for an entry in the range. -/
theorem trackFound (hlimit : 0 < limit) (h : TrackInv hash start final limit S acc) (n : SrchNode)
    (hr₁ : start ≤ srchEntry hash n) (hr₂ : srchEntry hash n ≤ acc.2) :
    TrackInv hash start final limit (S ++ [srchEntry hash n])
      (Scoutfs.trackFound acc.1 n.ino n.id limit acc.2) := by
  rw [Scoutfs.trackFound]
  dsimp only
  by_cases hn : n ∈ acc.1.nodes
  · rw [if_pos hn]
    exact h.trackFound_dupe hn
  rw [if_neg hn]
  by_cases hall : ∀ m ∈ acc.1.nodes, m < n
  · -- `n` would link after the last node
    have hlink := (h.rbLinksAfterLast_iff n).mpr hall
    by_cases hnr : acc.1.nr ≥ limit
    · rw [if_pos ⟨hnr, hlink⟩]
      exact h.trackFound_drop hlimit hn hnr hall hr₂
    · rw [if_neg (fun h' => hnr h'.1), hlink, if_pos rfl]
      simp only [ne_eq, not_true_eq_false, and_false, if_false]
      exact h.trackFound_insert hn (by omega) (rbLast_insert_of_forall_lt hall).symm hr₁ hr₂
  · -- `n` lies below the greatest tracked node `l`
    have hlink : rbLinksAfterLast acc.1 n = false :=
      Bool.eq_false_iff.mpr fun h' => hall ((h.rbLinksAfterLast_iff n).mp h')
    simp only [not_forall, not_lt, exists_prop] at hall
    obtain ⟨m, hm, hnm⟩ := hall
    obtain ⟨l, hl, hlmem, hlmax⟩ := h.exists_last ⟨m, hm⟩
    have hnl : n < l := lt_of_lt_of_le (lt_of_le_of_ne hnm (fun h' => hn (h' ▸ hm))) (hlmax m hm)
    rw [if_neg (by simp [hlink]), hlink, hl]
    simp only [Bool.false_eq_true, if_false, gt_iff_lt]
    by_cases hnr : limit < acc.1.nr + 1
    · rw [if_pos ⟨hnr, ne_of_gt hnl⟩]
      exact h.trackFound_evict hn hl hnl hr₁ hr₂
    · rw [if_neg (fun h' => hnr h'.1)]
      exact h.trackFound_insert hn (by omega)
        (rbLast_insert_of_lt (h.last_eq ▸ hl) hnl).symm hr₁ hr₂

/-- `track_found` of an entry in the range, which has the searched hash. -/
theorem trackFound_entry (hstart : start.hash = hash) (hlimit : 0 < limit)
    (h : TrackInv hash start final limit S acc) {x : ScoutfsSrchEntry} (h₁ : start ≤ x)
    (h₂ : x ≤ acc.2) :
    TrackInv hash start final limit (S ++ [x]) (Scoutfs.trackFound acc.1 x.ino x.id limit acc.2) := by
  have hx := srchEntry_of_hash (ScoutfsSrchEntry.hash_eq_of_between hstart h.end_hash h₁ h₂)
  have := h.trackFound hlimit ⟨x.ino, x.id⟩ (by rw [hx]; exact h₁) (by rw [hx]; exact h₂)
  rwa [hx] at this

end TrackInv

end Track

/-! ### Reading the files -/

/-- Every entry a block can hold lies outside `[start, e]`. -/
def BlockMisses (start e : ScoutfsSrchEntry) (b : ScoutfsSrchBlock) : Prop :=
  e < b.first ∨ b.last < start

/-- A sorted file's blocks: its entries are in order, each block's entries lie within the
block's `first` and `last`, and those bounds rise from block to block. -/
structure SrchBlocksValid (sfl : ScoutfsSrchFile) : Prop where
  sorted : sfl.entries.Pairwise (· ≤ ·)
  block_bounds : ∀ b ∈ sfl.blocks, ∀ x ∈ b.entries, b.first ≤ x ∧ x ≤ b.last
  first_mono : sfl.blocks.Pairwise fun a b => a.first ≤ b.first
  last_mono : sfl.blocks.Pairwise fun a b => a.last ≤ b.last

/-- The srch file format: a file's entries lie within its `first` and `last`, and a sorted
file's blocks are in the sorted format. -/
structure SrchFileValid (type : SrchFileType) (sfl : ScoutfsSrchFile) : Prop where
  bounds : ∀ x ∈ sfl.entries, sfl.first ≤ x ∧ x ≤ sfl.last
  blocks : type = .sorted → SrchBlocksValid sfl

theorem pairwise_getElem_le {α β : Type*} [Preorder β] {f : α → β} {l : List α}
    (hp : l.Pairwise fun a b => f a ≤ f b) {i j : ℕ} (hi : i < l.length) (hj : j < l.length)
    (hij : i ≤ j) : f l[i] ≤ f l[j] := by
  rcases Nat.lt_or_eq_of_le hij with hlt | rfl
  · exact List.pairwise_iff_getElem.mp hp i j hi hj hlt
  · exact le_rfl

/-- The binary search of `search_sorted_file` passes over only blocks that miss the range:
every block before the one it returns, or every block when it returns none. -/
theorem sortedFirstBlock_misses {blocks : List ScoutfsSrchBlock} (start e : ScoutfsSrchEntry)
    (hfirst : blocks.Pairwise fun a b => a.first ≤ b.first)
    (hlast : blocks.Pairwise fun a b => a.last ≤ b.last) (left right : ℤ) (first : Option ℕ)
    (h0 : 0 ≤ left) (hr : right < blocks.length)
    (hbelow : ∀ i (hi : i < blocks.length), (i : ℤ) < left → BlockMisses start e blocks[i])
    (habove : ∀ i (hi : i < blocks.length), right < i → i < first.getD blocks.length →
      BlockMisses start e blocks[i]) :
    ∀ i (hi : i < blocks.length),
      i < (sortedFirstBlock blocks start e left right first).getD blocks.length →
        BlockMisses start e blocks[i] := by
  fun_induction sortedFirstBlock blocks start e left right first with
  | case1 left right first h blk hnone =>
    -- the middle block always exists
    rw [List.getElem?_eq_none_iff] at hnone
    omega
  | case2 left right first h blk srb hsome hlt ih =>
    -- every block from the middle on starts after `e`
    obtain ⟨hblk, rfl⟩ := List.getElem?_eq_some_iff.mp hsome
    refine ih h0 (by omega) hbelow fun i hi h₁ h₂ => ?_
    by_cases hir : (i : ℤ) ≤ right
    · exact Or.inl (lt_of_lt_of_le (sreCmp_eq_lt.mp hlt)
        (pairwise_getElem_le hfirst hblk hi (by omega)))
    · exact habove i hi (by omega) h₂
  | case3 left right first h blk srb hsome hlt hgt ih =>
    -- every block up to the middle ends before `start`
    obtain ⟨hblk, rfl⟩ := List.getElem?_eq_some_iff.mp hsome
    refine ih (by omega) hr (fun i hi h₁ => ?_) habove
    by_cases hil : (i : ℤ) < left
    · exact hbelow i hi hil
    · exact Or.inr (lt_of_le_of_lt (pairwise_getElem_le hlast hi hblk (by omega))
        (sreCmp_eq_gt.mp hgt))
  | case4 left right first h blk srb hsome hlt hgt ih =>
    -- the middle block meets the range and becomes the first candidate
    refine ih h0 (by omega) hbelow fun i hi h₁ h₂ => ?_
    simp only [Option.getD_some] at h₂
    omega
  | case5 left right first h =>
    intro i hi h₂
    by_cases hil : (i : ℤ) < left
    · exact hbelow i hi hil
    · exact habove i hi (by omega) h₂

/-- The entries of the first `k` blocks lie outside the range when those blocks miss it. -/
theorem out_of_take_blocks {sfl : ScoutfsSrchFile} (hv : SrchBlocksValid sfl) {start e : ScoutfsSrchEntry}
    {k : ℕ} (hk : ∀ i (hi : i < sfl.blocks.length), i < k → BlockMisses start e sfl.blocks[i]) :
    ∀ x ∈ (sfl.blocks.take k).flatMap (·.entries), x < start ∨ e < x := by
  intro x hx
  obtain ⟨b, hb, hxb⟩ := List.mem_flatMap.mp hx
  obtain ⟨i, hi, rfl⟩ := List.mem_iff_getElem.mp hb
  rw [List.getElem_take] at hxb
  have hi' : i < k ∧ i < sfl.blocks.length := by simpa using hi
  have hbounds := hv.block_bounds _ (List.getElem_mem hi'.2) x hxb
  rcases hk i hi'.2 hi'.1 with h | h
  · exact Or.inr (lt_of_lt_of_le h hbounds.1)
  · exact Or.inl (lt_of_le_of_lt hbounds.2 h)

section Files

variable {hash : UInt64} {start final : ScoutfsSrchEntry} {limit : ℕ}
variable {S : List ScoutfsSrchEntry} {acc : SrchAcc}

namespace TrackInv

theorem srchLogEntry (hstart : start.hash = hash) (hlimit : 0 < limit)
    (h : TrackInv hash start final limit S acc) (x : ScoutfsSrchEntry) :
    TrackInv hash start final limit (S ++ [x]) (Scoutfs.srchLogEntry start limit acc x) := by
  unfold Scoutfs.srchLogEntry
  by_cases hout : sreCmp start x = .gt ∨ sreCmp x acc.2 = .gt
  · rw [if_pos hout]
    refine h.append_of_out [x] fun y hy => ?_
    rw [List.mem_singleton] at hy
    subst hy
    simpa using hout
  · rw [if_neg hout]
    simp only [sreCmp_eq_gt, not_or, not_lt] at hout
    exact h.trackFound_entry hstart hlimit hout.1 hout.2

/-- `search_log_file` accounts for every entry of the file. -/
theorem searchLogFile (hstart : start.hash = hash) (hlimit : 0 < limit)
    (h : TrackInv hash start final limit S acc) (sfl : ScoutfsSrchFile) :
    TrackInv hash start final limit (S ++ sfl.entries) (Scoutfs.searchLogFile sfl start limit acc) := by
  unfold Scoutfs.searchLogFile
  -- induction on the entries, with the invariant over the prefix read so far
  induction sfl.entries generalizing S acc with
  | nil => simpa using h
  | cons x l ih =>
    rw [List.foldl_cons, ← List.singleton_append, ← List.append_assoc]
    exact ih (h.srchLogEntry hstart hlimit x)

/-- The entry stream of `search_sorted_file` accounts for every entry of a sorted list: it
stops only at an entry after `end`, which every later entry follows. -/
theorem searchSortedStream (hstart : start.hash = hash) (hlimit : 0 < limit)
    {l : List ScoutfsSrchEntry} (hl : l.Pairwise (· ≤ ·)) (h : TrackInv hash start final limit S acc) :
    TrackInv hash start final limit (S ++ l) (Scoutfs.searchSortedStream start limit l acc) := by
  induction l generalizing S acc with
  | nil => simpa [Scoutfs.searchSortedStream] using h
  | cons x l ih =>
    obtain ⟨hx, hl'⟩ := List.pairwise_cons.mp hl
    rw [Scoutfs.searchSortedStream]
    by_cases h₁ : sreCmp start x = .gt
    · -- an entry before `start` is passed over
      rw [if_pos h₁, ← List.singleton_append, ← List.append_assoc]
      refine ih hl' (h.append_of_out [x] fun y hy => ?_)
      rw [List.mem_singleton.mp hy]
      exact Or.inl (sreCmp_eq_gt.mp h₁)
    rw [if_neg h₁]
    by_cases h₂ : sreCmp x acc.2 = .gt
    · -- the first entry after `end` ends the stream
      rw [if_pos h₂]
      refine h.append_of_out (x :: l) fun y hy => Or.inr ?_
      rw [sreCmp_eq_gt] at h₂
      rcases List.mem_cons.mp hy with rfl | hy
      · exact h₂
      · exact lt_of_lt_of_le h₂ (hx y hy)
    · rw [if_neg h₂, ← List.singleton_append, ← List.append_assoc]
      simp only [sreCmp_eq_gt, not_lt] at h₁ h₂
      exact ih hl' (h.trackFound_entry hstart hlimit h₁ h₂)

/-- `search_sorted_file` accounts for every entry of a sorted file. -/
theorem searchSortedFile (hstart : start.hash = hash) (hlimit : 0 < limit)
    {sfl : ScoutfsSrchFile} (hv : SrchBlocksValid sfl) (h : TrackInv hash start final limit S acc) :
    TrackInv hash start final limit (S ++ sfl.entries)
      (Scoutfs.searchSortedFile sfl start limit acc) := by
  unfold Scoutfs.searchSortedFile
  by_cases hb : sfl.blocks = []
  · rw [if_pos hb]
    simpa [ScoutfsSrchFile.entries, hb] using h
  rw [if_neg hb]
  have hlen : 0 < sfl.blocks.length := List.length_pos_iff.mpr hb
  have hmiss := sortedFirstBlock_misses start acc.2 hv.first_mono hv.last_mono 0
    ((sfl.blocks.length - 1 : ℕ) : ℤ) none le_rfl (by omega) (fun i _ hi => by omega)
    (fun i hi h₁ h₂ => by simp at h₂; omega)
  -- the blocks before the one found miss the range; the stream reads the rest
  have hsplit (k : ℕ) : sfl.entries = (sfl.blocks.take k).flatMap (·.entries) ++
      (sfl.blocks.drop k).flatMap (·.entries) := by
    rw [← List.flatMap_append, List.take_append_drop]
    rfl
  split
  · next hnone =>
    rw [hnone] at hmiss
    rw [hsplit sfl.blocks.length, List.drop_length, List.flatMap_nil, List.append_nil]
    exact h.append_of_out _ (out_of_take_blocks hv fun i hi _ => hmiss i hi (by simpa using hi))
  · next k hk =>
    rw [hk] at hmiss
    have hsorted := hv.sorted
    rw [hsplit k] at hsorted ⊢
    rw [← List.append_assoc]
    exact searchSortedStream hstart hlimit (List.pairwise_append.mp hsorted).2.1
      (h.append_of_out _ (out_of_take_blocks hv fun i hi hik => hmiss i hi (by simpa using hik)))

/-- `search_file` accounts for every entry of the file: a file it passes over lies outside
the range. -/
theorem searchFile (hstart : start.hash = hash) (hlimit : 0 < limit) {type : SrchFileType}
    {sfl : ScoutfsSrchFile} (hv : SrchFileValid type sfl) (h : TrackInv hash start final limit S acc) :
    TrackInv hash start final limit (S ++ sfl.entries)
      (Scoutfs.searchFile type sfl start limit acc) := by
  unfold Scoutfs.searchFile
  by_cases hout : sreCmp start sfl.last = .gt ∨ sreCmp acc.2 sfl.first = .lt
  · rw [if_pos hout]
    refine h.append_of_out _ fun x hx => ?_
    have hb := hv.bounds x hx
    simp only [sreCmp_eq_gt, sreCmp_eq_lt] at hout
    rcases hout with h' | h'
    · exact Or.inl (lt_of_le_of_lt hb.2 h')
    · exact Or.inr (lt_of_lt_of_le h' hb.1)
  rw [if_neg hout]
  cases type with
  | log => exact h.searchLogFile hstart hlimit sfl
  | sorted => exact h.searchSortedFile hstart hlimit (hv.blocks rfl)

end TrackInv

end Files


/-! ### Retries and the search -/

section Retry

variable {hash : UInt64} {final : ScoutfsSrchEntry} {files : List (SrchFileType × ScoutfsSrchFile)}

end Retry

end Scoutfs
