/-
Open addressing with linear probing in a circular table of `n` buckets.

A bucket holds `0` (empty) or a nonzero entry; `key` gives an entry's key and `home` a key's
first bucket.  The operations walk the buckets from the home, wrapping past the end, for at
most `n` buckets:

* `search` stops at an empty bucket or at an entry with the key;
* `add` fills the first empty bucket;
* `change` replaces an entry in place;
* `remove` empties the entry's bucket and then takes out and inserts again every entry of the
  run of full buckets after it (`rehash`), so that no entry is cut off from its home.  That
  loop runs until an empty bucket; here it has `n` rounds of fuel, which `remove_exact`
  shows to be enough.

`Exact t S` says the full buckets hold the entries of `S`, each once, and each entry is
reached from its home without crossing an empty bucket (`PathClear`).  The theorems show that
the operations keep `Exact` and that `search` finds exactly the entries of `S`.  Their proofs
read the table from the bucket after an empty one (`walk b`), where no entry's path wraps.

Nothing here names the filesystem.
-/
import Mathlib.Data.Finset.Card
import Mathlib.Data.Nat.Find
import Mathlib.Logic.Equiv.Basic
import Mathlib.Logic.Function.Iterate

namespace LinearProbe

section Positions

variable (n : ℕ)

/-- The bucket after `i`, wrapping to `0` past the end. -/
def next (i : ℕ) : ℕ := if i + 1 ≥ n then 0 else i + 1

/-- The bucket `d` buckets after `b`. -/
def walk (b d : ℕ) : ℕ := if b + d < n then b + d else b + d - n

/-- How many buckets after `b` the bucket `j` is. -/
def rel (b j : ℕ) : ℕ := if b ≤ j then j - b else j + n - b

variable {n}

theorem walk_lt {b d : ℕ} (hb : b < n) (hd : d < n) : walk n b d < n := by
  unfold walk; split <;> omega

theorem rel_lt {b j : ℕ} (hb : b < n) (hj : j < n) : rel n b j < n := by
  unfold rel; split <;> omega

@[simp] theorem walk_zero {b : ℕ} (hb : b < n) : walk n b 0 = b := by
  unfold walk; split <;> omega

theorem rel_walk {b d : ℕ} (hb : b < n) (hd : d < n) : rel n b (walk n b d) = d := by
  unfold rel walk; split <;> split <;> omega

theorem walk_rel {b j : ℕ} (hb : b < n) (hj : j < n) : walk n b (rel n b j) = j := by
  unfold rel walk; split <;> split <;> omega

theorem walk_inj {b d e : ℕ} (hb : b < n) (hd : d < n) (he : e < n)
    (h : walk n b d = walk n b e) : d = e := by
  rw [← rel_walk hb hd, ← rel_walk hb he, h]

/-- The bucket after the one `d` buckets after `b` is `d + 1` buckets after `b`. -/
theorem next_walk {b d : ℕ} (hb : b < n) (hd : d + 1 < n) :
    next n (walk n b d) = walk n b (d + 1) := by
  unfold next walk; split <;> split <;> split <;> omega

/-- Walking from a bucket on the way is walking further from the start. -/
theorem walk_walk {b d e : ℕ} (hb : b < n) (hde : d + e < n) :
    walk n (walk n b d) e = walk n b (d + e) := by
  unfold walk; split <;> split <;> split <;> omega

/-- The buckets the loops visit: `d` times `next` from `i`. -/
theorem iterate_next {b : ℕ} (hb : b < n) : ∀ d, d < n → (next n)^[d] b = walk n b d
  | 0, _ => by rw [Function.iterate_zero_apply, walk_zero hb]
  | d + 1, hd => by
    rw [Function.iterate_succ_apply', iterate_next hb d (by omega), next_walk hb hd]

theorem next_lt {i : ℕ} (hn : 0 < n) : next n i < n := by
  unfold next; split <;> omega

/-- `j` is `d` buckets after `h`, read from a base `b` before both. -/
theorem walk_of_rel {b h d : ℕ} (hb : b < n) (hh : h < n) (hd : rel n b h + d < n) :
    walk n h d = walk n b (rel n b h + d) := by
  rw [← walk_walk hb hd, walk_rel hb hh]

/-- How far `j` is after `h`, read from a base `b`. -/
theorem rel_rebase {b h j : ℕ} (hb : b < n) (hh : h < n) (hj : j < n) :
    rel n h j = if rel n b h ≤ rel n b j then rel n b j - rel n b h
      else rel n b j + n - rel n b h := by
  unfold rel; split_ifs <;> omega

@[simp] theorem rel_self {b : ℕ} : rel n b b = 0 := by
  unfold rel; split <;> omega

/-- The base `rel n d j` lies `d` buckets before `j`. -/
theorem walk_back {d j : ℕ} (hd : d < n) (hj : j < n) : walk n (rel n d j) d = j := by
  unfold walk rel; split_ifs <;> omega

end Positions

section Operations

variable {K : Type} [DecidableEq K] (n : ℕ) (key : ℕ → K) (home : K → ℕ)

/-- The search loop from bucket `i`, `r` buckets at most. -/
def searchLoop (t : ℕ → ℕ) (k : K) : ℕ → ℕ → Option ℕ
  | 0, _ => none
  | r + 1, i =>
    if t i = 0 then none
    else if key (t i) = k then some (t i)
    else searchLoop t k r (next n i)

/-- The entry with key `k`, if the walk from its home meets it before an empty bucket. -/
def search (t : ℕ → ℕ) (k : K) : Option ℕ :=
  searchLoop n key t k n (home k)

/-- The insertion loop from bucket `i`: the first empty bucket gets `v`; `none` when the
`r` buckets are all full. -/
def addLoop (t : ℕ → ℕ) (v : ℕ) : ℕ → ℕ → Option (ℕ → ℕ)
  | 0, _ => none
  | r + 1, i => if t i = 0 then some (Function.update t i v) else addLoop t v r (next n i)

/-- Add `v` under the key `k`. -/
def add (t : ℕ → ℕ) (k : K) (v : ℕ) : Option (ℕ → ℕ) :=
  addLoop n t v n (home k)

/-- The loop that looks for `old` to replace it by `new`: `none` at an empty bucket, the
table as it was when the `r` buckets do not hold it. -/
def changeLoop (t : ℕ → ℕ) (old new : ℕ) : ℕ → ℕ → Option (ℕ → ℕ)
  | 0, _ => some t
  | r + 1, i =>
    if t i = 0 then none
    else if t i = old then some (Function.update t i new)
    else changeLoop t old new r (next n i)

/-- Replace the entry `old` of key `k` by `new`. -/
def change (t : ℕ → ℕ) (k : K) (old new : ℕ) : Option (ℕ → ℕ) :=
  changeLoop n t old new n (home k)

/-- The loop that looks for `del` and empties its bucket: the bucket and the table, `none`
at an empty bucket, and the bucket the loop ends at when the `r` buckets do not hold it. -/
def removeFind (t : ℕ → ℕ) (del : ℕ) : ℕ → ℕ → Option (ℕ × (ℕ → ℕ))
  | 0, i => some (i, t)
  | r + 1, i =>
    if t i = 0 then none
    else if t i = del then some (i, Function.update t i 0)
    else removeFind t del r (next n i)

/-- The loop after an emptied bucket `i`: while the next bucket is full, take its entry out
and insert it again.  `none` when an insertion finds no empty bucket or `fuel` runs out. -/
def rehash (t : ℕ → ℕ) : ℕ → ℕ → Option (ℕ → ℕ)
  | 0, _ => none
  | fuel + 1, i =>
    if t (next n i) = 0 then some t
    else
      match add n home (Function.update t (next n i) 0) (key (t (next n i))) (t (next n i)) with
      | none => none
      | some t' => rehash t' fuel (next n i)

/-- Remove the entry `del` of key `k`. -/
def remove (t : ℕ → ℕ) (k : K) (del : ℕ) : Option (ℕ → ℕ) :=
  match removeFind n t del n (home k) with
  | none => none
  | some (i, t') => rehash n key home t' n i

/-! ### The loops -/

variable {n key home}

/-- The search reaches its result through full buckets only. -/
theorem searchLoop_some_clear {t : ℕ → ℕ} {k : K} :
    ∀ {r i v}, searchLoop n key t k r i = some v →
      ∃ d < r, (∀ d' < d, t ((next n)^[d'] i) ≠ 0) ∧ t ((next n)^[d] i) = v ∧ v ≠ 0 ∧ key v = k
  | 0, _, _, h => by simp [searchLoop] at h
  | r + 1, i, v, h => by
    rw [searchLoop] at h
    split at h
    · cases h
    · rename_i h0
      split at h
      · cases h
        exact ⟨0, by omega, fun d' hd' => absurd hd' (Nat.not_lt_zero _), rfl, h0, by assumption⟩
      · obtain ⟨d, hd, hclear, hv, hv0, hk⟩ := searchLoop_some_clear h
        refine ⟨d + 1, by omega, fun d' hd' => ?_, by rwa [Function.iterate_succ_apply], hv0, hk⟩
        -- the first bucket is full, and the rest of the walk starts at the next one
        cases d' with
        | zero => exact h0
        | succ d' =>
          rw [Function.iterate_succ_apply]
          exact hclear d' (by omega)

theorem searchLoop_some {t : ℕ → ℕ} {k : K} {r i v : ℕ} (h : searchLoop n key t k r i = some v) :
    ∃ d < r, t ((next n)^[d] i) = v ∧ v ≠ 0 ∧ key v = k := by
  obtain ⟨d, hd, -, hv, hv0, hk⟩ := searchLoop_some_clear h
  exact ⟨d, hd, hv, hv0, hk⟩

/-- The search meets an entry with the key at the first full bucket that has it, or before. -/
theorem searchLoop_of_clear {t : ℕ → ℕ} {k : K} :
    ∀ {r i d}, (∀ d' < d, t ((next n)^[d'] i) ≠ 0) → t ((next n)^[d] i) ≠ 0 →
      key (t ((next n)^[d] i)) = k → d < r →
      ∃ v, searchLoop n key t k r i = some v ∧ key v = k ∧ ∃ d' ≤ d, t ((next n)^[d'] i) = v
  | 0, _, _, _, _, _, hr => absurd hr (Nat.not_lt_zero _)
  | r + 1, i, 0, _, hne, hk, _ => by
    have hi : t i ≠ 0 := hne
    have hki : key (t i) = k := hk
    rw [searchLoop, if_neg hi, if_pos hki]
    exact ⟨t i, rfl, hk, 0, le_rfl, rfl⟩
  | r + 1, i, d + 1, hclear, hne, hk, hr => by
    have hi : t i ≠ 0 := hclear 0 (Nat.succ_pos d)
    rw [searchLoop, if_neg hi]
    split
    · exact ⟨t i, rfl, by assumption, 0, Nat.zero_le _, rfl⟩
    · -- the walk goes on from the next bucket
      rw [Function.iterate_succ_apply] at hne hk
      obtain ⟨v, hv, hkv, d', hd', hv'⟩ := searchLoop_of_clear (r := r) (i := next n i)
        (fun d' hd' => by
          have := hclear (d' + 1) (by omega); rwa [Function.iterate_succ_apply] at this)
        hne hk (by omega)
      exact ⟨v, hv, hkv, d' + 1, by omega, by rwa [Function.iterate_succ_apply]⟩

/-- The insertion fills the first empty bucket of the walk. -/
theorem addLoop_eq {t : ℕ → ℕ} {v : ℕ} :
    ∀ {r i d}, (∀ d' < d, t ((next n)^[d'] i) ≠ 0) → t ((next n)^[d] i) = 0 → d < r →
      addLoop n t v r i = some (Function.update t ((next n)^[d] i) v)
  | 0, _, _, _, _, hr => absurd hr (Nat.not_lt_zero _)
  | r + 1, i, 0, _, hz, _ => by
    have hi : t i = 0 := hz
    rw [addLoop, if_pos hi]
    rfl
  | r + 1, i, d + 1, hclear, hz, hr => by
    have hi : t i ≠ 0 := hclear 0 (Nat.succ_pos d)
    rw [addLoop, if_neg hi, Function.iterate_succ_apply]
    rw [Function.iterate_succ_apply] at hz
    exact addLoop_eq (fun d' hd' => by
      have := hclear (d' + 1) (by omega); rwa [Function.iterate_succ_apply] at this) hz (by omega)

/-- The change replaces the first bucket of the walk that holds `old`. -/
theorem changeLoop_eq {t : ℕ → ℕ} {old new : ℕ} (hold : old ≠ 0) :
    ∀ {r i d}, (∀ d' < d, t ((next n)^[d'] i) ≠ 0 ∧ t ((next n)^[d'] i) ≠ old) →
      t ((next n)^[d] i) = old → d < r →
      changeLoop n t old new r i = some (Function.update t ((next n)^[d] i) new)
  | 0, _, _, _, _, hr => absurd hr (Nat.not_lt_zero _)
  | r + 1, i, 0, _, hold', _ => by
    have hi : t i = old := hold'
    rw [changeLoop, if_neg (hi ▸ hold), if_pos hi]
    rfl
  | r + 1, i, d + 1, hclear, hold', hr => by
    have hi : t i ≠ 0 ∧ t i ≠ old := hclear 0 (Nat.succ_pos d)
    rw [changeLoop, if_neg hi.1, if_neg hi.2, Function.iterate_succ_apply]
    rw [Function.iterate_succ_apply] at hold'
    exact changeLoop_eq hold (fun d' hd' => by
      have := hclear (d' + 1) (by omega); rwa [Function.iterate_succ_apply] at this) hold'
      (by omega)

/-- The deletion empties the first bucket of the walk that holds `del`. -/
theorem removeFind_eq {t : ℕ → ℕ} {del : ℕ} (hdel : del ≠ 0) :
    ∀ {r i d}, (∀ d' < d, t ((next n)^[d'] i) ≠ 0 ∧ t ((next n)^[d'] i) ≠ del) →
      t ((next n)^[d] i) = del → d < r →
      removeFind n t del r i = some ((next n)^[d] i, Function.update t ((next n)^[d] i) 0)
  | 0, _, _, _, _, hr => absurd hr (Nat.not_lt_zero _)
  | r + 1, i, 0, _, hdel', _ => by
    have hi : t i = del := hdel'
    rw [removeFind, if_neg (hi ▸ hdel), if_pos hi]
    rfl
  | r + 1, i, d + 1, hclear, hdel', hr => by
    have hi : t i ≠ 0 ∧ t i ≠ del := hclear 0 (Nat.succ_pos d)
    rw [removeFind, if_neg hi.1, if_neg hi.2, Function.iterate_succ_apply]
    rw [Function.iterate_succ_apply] at hdel'
    exact removeFind_eq hdel (fun d' hd' => by
      have := hclear (d' + 1) (by omega); rwa [Function.iterate_succ_apply] at this) hdel'
      (by omega)

end Operations

section Exact

variable {K : Type} {n : ℕ} {key : ℕ → K} {home : K → ℕ}

/-- The walk from `h` to `j` crosses no empty bucket. -/
def PathClear (n : ℕ) (t : ℕ → ℕ) (h j : ℕ) : Prop :=
  ∀ d < rel n h j, t (walk n h d) ≠ 0

/-- The full buckets hold the entries of `S`, each once. -/
structure Lists (n : ℕ) (t : ℕ → ℕ) (S : Finset ℕ) : Prop where
  mem : ∀ v ∈ S, v ≠ 0 ∧ ∃ j < n, t j = v
  full : ∀ j < n, t j ≠ 0 → t j ∈ S
  once : ∀ j j', j < n → j' < n → t j ≠ 0 → t j = t j' → j = j'

/-- The table holds the entries of `S`, each once and reached from its home. -/
structure Exact (n : ℕ) (key : ℕ → K) (home : K → ℕ) (t : ℕ → ℕ) (S : Finset ℕ) : Prop
    extends Lists n t S where
  clear : ∀ j < n, t j ≠ 0 → PathClear n t (home (key (t j))) j

/-- Only the keys of the entries matter. -/
theorem Exact.congr {t : ℕ → ℕ} {S : Finset ℕ} {key' : ℕ → K} (E : Exact n key home t S)
    (hk : ∀ v ∈ S, key' v = key v) : Exact n key' home t S :=
  ⟨E.toLists, fun j hj hj0 => by rw [hk _ (E.full j hj hj0)]; exact E.clear j hj hj0⟩

theorem PathClear.mono {t t' : ℕ → ℕ} {h j : ℕ} (hp : PathClear n t h j)
    (ht : ∀ x, t x ≠ 0 → t' x ≠ 0) : PathClear n t' h j :=
  fun d hd => ht _ (hp d hd)

/-- A table whose entries are fewer than its buckets has an empty bucket. -/
theorem Lists.exists_zero {t : ℕ → ℕ} {S : Finset ℕ} (hl : Lists n t S) (hcard : S.card < n) :
    ∃ z < n, t z = 0 := by
  by_contra hz
  push Not at hz
  have hle : (Finset.range n).card ≤ S.card :=
    Finset.card_le_card_of_injOn t (fun j hj => hl.full j (Finset.mem_range.1 hj)
      (hz j (Finset.mem_range.1 hj)))
      (fun j hj j' hj' e => hl.once j j' (Finset.mem_range.1 hj) (Finset.mem_range.1 hj')
        (hz j (Finset.mem_range.1 hj)) e)
  rw [Finset.card_range] at hle
  omega

/-- The number of full buckets is the number of entries. -/
theorem Lists.card_full {t : ℕ → ℕ} {S : Finset ℕ} (hl : Lists n t S) :
    ((Finset.range n).filter (fun j => t j ≠ 0)).card = S.card := by
  apply Finset.card_bij (fun j _ => t j)
  · intro j hj
    rw [Finset.mem_filter, Finset.mem_range] at hj
    exact hl.full j hj.1 hj.2
  · intro j hj j' hj' e
    rw [Finset.mem_filter, Finset.mem_range] at hj hj'
    exact hl.once j j' hj.1 hj'.1 hj.2 e
  · intro v hv
    obtain ⟨hv0, j, hj, rfl⟩ := hl.mem v hv
    exact ⟨j, by rw [Finset.mem_filter, Finset.mem_range]; exact ⟨hj, hv0⟩, rfl⟩

/-- Emptying the bucket of an entry takes it off the list. -/
theorem Lists.erase {t : ℕ → ℕ} {S : Finset ℕ} (hl : Lists n t S) {p v : ℕ} (hp : p < n)
    (hpv : t p = v) : Lists n (Function.update t p 0) (S.erase v) where
  mem w hw := by
    obtain ⟨hwv, hw⟩ := Finset.mem_erase.1 hw
    obtain ⟨hw0, j, hj, rfl⟩ := hl.mem w hw
    exact ⟨hw0, j, hj, Function.update_of_ne (fun e => hwv (by rw [e]; exact hpv)) ..⟩
  full j hj hne := by
    by_cases hjp : j = p
    · rw [hjp, Function.update_self] at hne
      exact absurd rfl hne
    · rw [Function.update_of_ne hjp] at hne ⊢
      exact Finset.mem_erase.2
        ⟨fun e => hjp (hl.once j p hj hp hne (e.trans hpv.symm)), hl.full j hj hne⟩
  once j j' hj hj' hne e := by
    by_cases hjp : j = p
    · rw [hjp, Function.update_self] at hne
      exact absurd rfl hne
    by_cases hj'p : j' = p
    · rw [hj'p, Function.update_self] at e
      exact absurd e hne
    rw [Function.update_of_ne hjp] at hne e
    rw [Function.update_of_ne hj'p] at e
    exact hl.once j j' hj hj' hne e

theorem swap_lt {c h j : ℕ} (hc : c < n) (hh : h < n) (hj : j < n) : Equiv.swap c h j < n := by
  rw [Equiv.swap_apply_def]
  split_ifs <;> assumption

/-- Exchanging two buckets keeps the list. -/
theorem Lists.swap {t : ℕ → ℕ} {S : Finset ℕ} (hl : Lists n t S) {c h : ℕ} (hc : c < n)
    (hh : h < n) : Lists n (t ∘ Equiv.swap c h) S where
  mem v hv := by
    obtain ⟨hv0, j, hj, rfl⟩ := hl.mem v hv
    refine ⟨hv0, Equiv.swap c h j, swap_lt hc hh hj, ?_⟩
    rw [Function.comp_apply, Equiv.swap_apply_self]
  full j hj hne := hl.full _ (swap_lt hc hh hj) hne
  once j j' hj hj' hne e :=
    (Equiv.swap c h).injective (hl.once _ _ (swap_lt hc hh hj) (swap_lt hc hh hj') hne e)

/-- Moving the entry of bucket `c` into the empty bucket `h` exchanges the two buckets. -/
theorem update_move_eq_swap {t : ℕ → ℕ} {c h : ℕ} (hh0 : t h = 0) :
    Function.update (Function.update t c 0) h (t c) = t ∘ Equiv.swap c h := by
  funext x
  rw [Function.comp_apply, Equiv.swap_apply_def]
  by_cases hxh : x = h
  · rw [hxh, Function.update_self]
    by_cases hhc : h = c
    · rw [if_pos hhc, hhc]
    · rw [if_neg hhc, if_pos rfl]
  · rw [Function.update_of_ne hxh]
    by_cases hxc : x = c
    · rw [hxc, Function.update_self, if_pos rfl, hh0]
    · rw [Function.update_of_ne hxc, if_neg hxc, if_neg hxh]

/-- The first empty bucket of the walk from `h`, when there is one. -/
theorem exists_first_zero {t : ℕ → ℕ} {h z : ℕ} (hh : h < n) (hz : z < n) (hz0 : t z = 0) :
    ∃ d < n, t (walk n h d) = 0 ∧ ∀ d' < d, t (walk n h d') ≠ 0 := by
  have hex : ∃ d, d < n ∧ t (walk n h d) = 0 :=
    ⟨rel n h z, rel_lt hh hz, by rw [walk_rel hh hz, hz0]⟩
  refine ⟨Nat.find hex, (Nat.find_spec hex).1, (Nat.find_spec hex).2, fun d' hd' h0 => ?_⟩
  exact Nat.find_min hex hd' ⟨by have := (Nat.find_spec hex).1; omega, h0⟩

/-- `add` fills the first empty bucket on the walk from the home, here counted from a base
`b` at or before the home. -/
theorem add_eq_rel {t : ℕ → ℕ} {k : K} {v b e : ℕ} (hb : b < n) (hh : home k < n)
    (hle : rel n b (home k) ≤ e) (he : e < n)
    (hfull : ∀ x, rel n b (home k) ≤ x → x < e → t (walk n b x) ≠ 0)
    (hz : t (walk n b e) = 0) :
    add n home t k v = some (Function.update t (walk n b e) v) := by
  have hd : e - rel n b (home k) < n := by omega
  have hpos : (next n)^[e - rel n b (home k)] (home k) = walk n b e := by
    rw [iterate_next hh _ hd, walk_of_rel hb hh (by omega), Nat.add_sub_of_le hle]
  rw [add, ← hpos]
  refine addLoop_eq (fun d' hd' => ?_) (by rw [hpos]; exact hz) hd
  rw [iterate_next hh d' (by omega), walk_of_rel hb hh (by omega)]
  exact hfull _ (by omega) (by omega)

/-! ### Paths counted from a base

Read from the bucket `b` after an empty bucket, no path that crosses only full buckets wraps
past the end: its entry lies after its home, and the buckets between are full. -/

/-- Counted from the base `b`, the entry at `e` lies after its home `hb` and the buckets from
`hb` to `e` are full. -/
def LinClear (n : ℕ) (t : ℕ → ℕ) (b hb e : ℕ) : Prop :=
  hb ≤ e ∧ ∀ x, hb ≤ x → x < e → t (walk n b x) ≠ 0

theorem LinClear.mono {t t' : ℕ → ℕ} {b hb e : ℕ} (hl : LinClear n t b hb e)
    (ht : ∀ x < e, t (walk n b x) ≠ 0 → t' (walk n b x) ≠ 0) : LinClear n t' b hb e :=
  ⟨hl.1, fun x hx hxe => ht x hxe (hl.2 x hx hxe)⟩

/-- With the bucket before the base empty, a clear path does not wrap past the base. -/
theorem linear_of_clear {t : ℕ → ℕ} {b h j : ℕ} (hb : b < n) (hh : h < n) (hj : j < n)
    (hq : t (walk n b (n - 1)) = 0) (hc : PathClear n t h j) :
    LinClear n t b (rel n b h) (rel n b j) := by
  have hrh := rel_lt hb hh
  have hrj := rel_lt hb hj
  have hrebase := rel_rebase hb hh hj
  by_cases hle : rel n b h ≤ rel n b j
  · rw [if_pos hle] at hrebase
    refine ⟨hle, fun x hx hxj => ?_⟩
    have := hc (x - rel n b h) (by omega)
    rwa [walk_of_rel hb hh (by omega), Nat.add_sub_of_le hx] at this
  · -- a wrapping path would cross the empty bucket at `n - 1`
    rw [if_neg hle] at hrebase
    have := hc (n - 1 - rel n b h) (by omega)
    rw [walk_of_rel hb hh (by omega), Nat.add_sub_of_le (by omega)] at this
    exact absurd hq this

theorem clear_of_linear {t : ℕ → ℕ} {b h j : ℕ} (hb : b < n) (hh : h < n) (hj : j < n)
    (hl : LinClear n t b (rel n b h) (rel n b j)) : PathClear n t h j := by
  have hrj := rel_lt hb hj
  intro d hd
  rw [rel_rebase hb hh hj, if_pos hl.1] at hd
  rw [walk_of_rel hb hh (by omega)]
  exact hl.2 _ (by omega) (by omega)

/-- The table during the `rehash` loop of a removal, counted from a base `b`: `t₀` is the
table before the removal emptied the bucket `pb`, and the loop has taken out and inserted again
the entries of the buckets `pb + 1 .. ie`.  Of the buckets `pb .. ie` only `he` is empty, the
buckets outside are as in `t₀`, and the entries up to `ie` are reached from their homes. -/
structure RehashInv (n : ℕ) (key : ℕ → K) (home : K → ℕ) (t₀ t : ℕ → ℕ) (S : Finset ℕ)
    (b pb ie he : ℕ) : Prop where
  le : pb ≤ he ∧ he ≤ ie ∧ ie + 1 < n
  hole : t (walk n b he) = 0
  filled : ∀ e, pb ≤ e → e ≤ ie → e ≠ he → t (walk n b e) ≠ 0
  outside : ∀ e < n, e < pb ∨ ie < e → t (walk n b e) = t₀ (walk n b e)
  lists : Lists n t S
  clear : ∀ e ≤ ie, t (walk n b e) ≠ 0 →
    LinClear n t b (rel n b (home (key (t (walk n b e))))) e

/-- An entry of `t₀` beyond `ie` finds full buckets from its home up to `ie`, but `he`. -/
theorem RehashInv.full_below {t₀ t : ℕ → ℕ} {S : Finset ℕ} {b pb ie he : ℕ}
    (I : RehashInv n key home t₀ t S b pb ie he) {e hb x : ℕ} (hl : LinClear n t₀ b hb e)
    (hx : hb ≤ x) (hxi : x ≤ ie) (hxe : x < e) (hxh : x ≠ he) : t (walk n b x) ≠ 0 := by
  by_cases hxp : x < pb
  · rw [I.outside x (by have := I.le; omega) (Or.inl hxp)]
    exact hl.2 x hx hxe
  · exact I.filled x (by omega) hxi hxh

variable (hhome : ∀ k, home k < n)
include hhome

/-- `search` finds exactly the entries of the table with the key. -/
theorem search_eq_some [DecidableEq K] {t : ℕ → ℕ} {S : Finset ℕ} (E : Exact n key home t S)
    (hinj : Set.InjOn key S) {k : K} {v : ℕ} :
    search n key home t k = some v ↔ v ∈ S ∧ key v = k := by
  constructor
  · intro hs
    obtain ⟨d, hd, hv, hv0, hk⟩ := searchLoop_some hs
    rw [iterate_next (hhome k) d hd] at hv
    exact ⟨hv ▸ E.full _ (walk_lt (hhome k) hd) (hv ▸ hv0), hk⟩
  · rintro ⟨hv, rfl⟩
    obtain ⟨hv0, j, hj, rfl⟩ := E.mem _ hv
    -- the walk from the home reaches the entry's bucket through full buckets
    have hh := hhome (key (t j))
    have hd := rel_lt hh hj
    have hpos : ∀ d < n, (next n)^[d] (home (key (t j))) = walk n (home (key (t j))) d :=
      fun d hd => iterate_next hh d hd
    obtain ⟨v', hs, hk', d', hd', hv'⟩ :=
      @searchLoop_of_clear K _ n key t (key (t j)) n (home (key (t j))) (rel n (home (key (t j))) j)
      (fun d' hd' => by rw [hpos d' (by omega)]; exact E.clear j hj hv0 d' hd')
      (by rw [hpos _ hd, walk_rel hh hj]; exact hv0)
      (by rw [hpos _ hd, walk_rel hh hj]) hd
    rw [hpos d' (by omega)] at hv'
    obtain ⟨-, -, -, hv'0, -⟩ := searchLoop_some hs
    have hv'S : v' ∈ S := hv' ▸ E.full _ (walk_lt hh (by omega)) (hv' ▸ hv'0)
    -- the keys of the entries are distinct, so it is the entry itself
    have hv'j : v' = t j := hinj hv'S (E.full j hj hv0) hk'
    rw [hv'j] at hs
    exact hs

/-- A table holds exactly `S` when its full buckets hold entries of `S` and are as many as
they, and the search for the key of each entry finds it. -/
theorem exact_of_search [DecidableEq K] {t : ℕ → ℕ} {S : Finset ℕ} (hS0 : ∀ v ∈ S, v ≠ 0)
    (hfull : ∀ j < n, t j ≠ 0 → t j ∈ S)
    (hcard : ((Finset.range n).filter fun j => t j ≠ 0).card = S.card)
    (hfind : ∀ v ∈ S, search n key home t (key v) = some v) : Exact n key home t S := by
  -- the search puts each entry in a bucket of its home's walk, behind full buckets only
  have hpath : ∀ v ∈ S, ∃ d < n, (∀ d' < d, t (walk n (home (key v)) d') ≠ 0) ∧
      t (walk n (home (key v)) d) = v := by
    intro v hv
    obtain ⟨d, hd, hclear, hvd, -⟩ := searchLoop_some_clear (hfind v hv)
    have hh := hhome (key v)
    refine ⟨d, hd, fun d' hd' => ?_, ?_⟩
    · rw [← iterate_next hh d' (by omega)]
      exact hclear d' hd'
    · rw [← iterate_next hh d hd]
      exact hvd
  -- the full buckets map onto the entries and are no more, so none is held twice
  have honce : ∀ j j', j < n → j' < n → t j ≠ 0 → t j = t j' → j = j' := by
    intro j j' hj hj' hj0 e
    have hmem : ∀ {x}, x < n → t x ≠ 0 → x ∈ (Finset.range n).filter fun j => t j ≠ 0 :=
      fun hx hx0 => Finset.mem_filter.2 ⟨Finset.mem_range.2 hx, hx0⟩
    refine Finset.inj_on_of_surj_on_of_card_le (fun j _ => t j)
      (fun j hj => ?_) (fun v hv => ?_) hcard.le (hmem hj hj0) (hmem hj' (e ▸ hj0)) e
    · rw [Finset.mem_filter, Finset.mem_range] at hj
      exact hfull j hj.1 hj.2
    · obtain ⟨d, hd, -, hvd⟩ := hpath v hv
      exact ⟨_, hmem (walk_lt (hhome _) hd) (by rw [hvd]; exact hS0 v hv), hvd⟩
  refine ⟨⟨fun v hv => ?_, hfull, honce⟩, fun j hj hj0 => ?_⟩
  · obtain ⟨d, hd, -, hvd⟩ := hpath v hv
    exact ⟨hS0 v hv, _, walk_lt (hhome _) hd, hvd⟩
  · obtain ⟨d, hd, hclear, hvd⟩ := hpath (t j) (hfull j hj hj0)
    have hw : walk n (home (key (t j))) d = j :=
      honce _ _ (walk_lt (hhome _) hd) hj (by rw [hvd]; exact hj0) hvd
    have hrel := rel_walk (hhome (key (t j))) hd
    rw [hw] at hrel
    intro d' hd'
    exact hclear d' (hrel ▸ hd')

/-- Before the bucket of an entry, the walk from its home meets only full buckets that do
not hold it. -/
theorem Exact.path_ne {t : ℕ → ℕ} {S : Finset ℕ} (E : Exact n key home t S) {p v : ℕ}
    (hp : p < n) (hpv : t p = v) (hv0 : v ≠ 0) :
    ∀ d < rel n (home (key v)) p,
      t (walk n (home (key v)) d) ≠ 0 ∧ t (walk n (home (key v)) d) ≠ v := by
  have hh := hhome (key v)
  have hr := rel_lt hh hp
  have hclear : PathClear n t (home (key v)) p := hpv ▸ E.clear p hp (hpv ▸ hv0)
  intro d hd
  refine ⟨hclear d hd, fun e => ?_⟩
  -- the entry is held once, so a bucket holding it is its own
  have hw : walk n (home (key v)) d = p :=
    E.once _ p (walk_lt hh (by omega)) hp (by rw [e]; exact hv0) (e.trans hpv.symm)
  have := walk_inj hh (by omega) hr (hw.trans (walk_rel hh hp).symm)
  omega

/-- `add` of a new entry, while an empty bucket is left, puts it in the first empty bucket
from its home and keeps the table exact. -/
theorem add_exact {t : ℕ → ℕ} {S : Finset ℕ} (E : Exact n key home t S) {v : ℕ}
    (hv : v ∉ S) (hv0 : v ≠ 0) (hcard : S.card < n) :
    ∃ t', add n home t (key v) v = some t' ∧ Exact n key home t' (insert v S) := by
  have hh := hhome (key v)
  obtain ⟨z, hz, hz0⟩ := E.exists_zero hcard
  obtain ⟨d, hd, hd0, hclear⟩ := exists_first_zero hh hz hz0
  have hadd := @add_eq_rel K n home t (key v) v (home (key v)) d hh hh (by rw [rel_self]; omega)
    hd (fun x _ hx => hclear x hx) hd0
  generalize hp : walk n (home (key v)) d = p at hd0 hadd
  have hpn : p < n := hp ▸ walk_lt hh hd
  refine ⟨Function.update t p v, hadd, ?_⟩
  -- the old entries stay where they were: `p` was empty
  have hold : ∀ j, t j ≠ 0 → j ≠ p := fun j hj e => hj (e ▸ hd0)
  have hmono : ∀ x, t x ≠ 0 → Function.update t p v x ≠ 0 := fun x hx => by
    rw [Function.update_of_ne (hold x hx)]; exact hx
  refine ⟨⟨?_, ?_, ?_⟩, ?_⟩
  · intro w hw
    rcases Finset.mem_insert.1 hw with rfl | hw
    · exact ⟨hv0, p, hpn, Function.update_self ..⟩
    · obtain ⟨hw0, j, hj, rfl⟩ := E.mem w hw
      exact ⟨hw0, j, hj, Function.update_of_ne (hold j hw0) ..⟩
  · intro j hj hne
    by_cases hjp : j = p
    · rw [hjp, Function.update_self]
      exact Finset.mem_insert_self _ _
    · rw [Function.update_of_ne hjp] at hne ⊢
      exact Finset.mem_insert_of_mem (E.full j hj hne)
  · intro j j' hj hj' hne e
    by_cases hjp : j = p <;> by_cases hj'p : j' = p
    · rw [hjp, hj'p]
    · rw [hjp, Function.update_self, Function.update_of_ne hj'p] at e
      have h0 : t j' ≠ 0 := e ▸ hv0
      exact absurd (e ▸ E.full j' hj' h0) hv
    · rw [hj'p, Function.update_self, Function.update_of_ne hjp] at e
      rw [Function.update_of_ne hjp] at hne
      exact absurd (e ▸ E.full j hj hne) hv
    · rw [Function.update_of_ne hjp, Function.update_of_ne hj'p] at e
      rw [Function.update_of_ne hjp] at hne
      exact E.once j j' hj hj' hne e
  · intro j hj hne
    by_cases hjp : j = p
    · -- the new entry: the buckets before `p` on its walk are full
      rw [hjp, Function.update_self]
      intro d' hd'
      rw [← hp, rel_walk hh hd] at hd'
      have hne' : walk n (home (key v)) d' ≠ p :=
        fun e => by have := walk_inj hh (by omega) hd (e.trans hp.symm); omega
      rw [Function.update_of_ne hne']
      exact hclear d' hd'
    · rw [Function.update_of_ne hjp] at hne ⊢
      exact (E.clear j hj hne).mono hmono

/-- `change` of an entry to a new one with the same key keeps the table exact. -/
theorem change_exact {t : ℕ → ℕ} {S : Finset ℕ} (E : Exact n key home t S) {old new : ℕ}
    (hold : old ∈ S) (hnew : new ∉ S) (hnew0 : new ≠ 0) (hkey : key new = key old) :
    ∃ t', change n home t (key old) old new = some t' ∧
      Exact n key home t' (insert new (S.erase old)) := by
  obtain ⟨hold0, p, hp, hpo⟩ := E.mem old hold
  have hh := hhome (key old)
  have hd := rel_lt hh hp
  have hclear : PathClear n t (home (key old)) p := hpo ▸ E.clear p hp (hpo ▸ hold0)
  have hpath := E.path_ne hhome hp hpo hold0
  have hpos : (next n)^[rel n (home (key old)) p] (home (key old)) = p := by
    rw [iterate_next hh _ hd, walk_rel hh hp]
  refine ⟨Function.update t p new, ?_, ?_⟩
  · rw [change, ← hpos]
    exact changeLoop_eq hold0
      (fun d' hd' => by rw [iterate_next hh d' (by omega)]; exact hpath d' hd')
      (by rw [hpos, hpo]) hd
  have hsame : ∀ x, Function.update t p new x ≠ 0 ↔ t x ≠ 0 := by
    intro x
    by_cases hx : x = p
    · subst hx; rw [Function.update_self, hpo]; exact ⟨fun _ => hold0, fun _ => hnew0⟩
    · rw [Function.update_of_ne hx]
  -- an entry other than `old` sits away from its bucket
  have hother : ∀ j < n, t j ≠ 0 → t j ≠ old → j ≠ p := fun j _ _ ho e => ho (e ▸ hpo)
  refine ⟨⟨?_, ?_, ?_⟩, ?_⟩
  · intro w hw
    rcases Finset.mem_insert.1 hw with rfl | hw
    · exact ⟨hnew0, p, hp, Function.update_self ..⟩
    · obtain ⟨hwo, hw⟩ := Finset.mem_erase.1 hw
      obtain ⟨hw0, j, hj, rfl⟩ := E.mem _ hw
      exact ⟨hw0, j, hj, Function.update_of_ne (hother j hj hw0 hwo) ..⟩
  · intro j hj hne
    by_cases hjp : j = p
    · subst hjp; rw [Function.update_self]; exact Finset.mem_insert_self _ _
    · rw [Function.update_of_ne hjp] at hne ⊢
      refine Finset.mem_insert_of_mem (Finset.mem_erase.2 ⟨fun e => hjp ?_, E.full j hj hne⟩)
      exact E.once j p hj hp hne (e.trans hpo.symm)
  · intro j j' hj hj' hne e
    by_cases hjp : j = p <;> by_cases hj'p : j' = p
    · rw [hjp, hj'p]
    · rw [hjp, Function.update_self, Function.update_of_ne hj'p] at e
      have h0 : t j' ≠ 0 := e ▸ hnew0
      exact absurd (e ▸ E.full j' hj' h0) hnew
    · rw [hj'p, Function.update_self, Function.update_of_ne hjp] at e
      have h0 : t j ≠ 0 := (hsame j).1 hne
      exact absurd (e ▸ E.full j hj h0) hnew
    · rw [Function.update_of_ne hjp, Function.update_of_ne hj'p] at e
      exact E.once j j' hj hj' ((hsame j).1 hne) e
  · intro j hj hne
    by_cases hjp : j = p
    · subst hjp
      rw [Function.update_self, hkey]
      exact hclear.mono fun x hx => (hsame x).2 hx
    · rw [Function.update_of_ne hjp] at hne ⊢
      exact (E.clear j hj hne).mono fun x hx => (hsame x).2 hx

/-! ### The rehash loop of a removal -/

section Rehash

variable {t₀ : ℕ → ℕ} {S : Finset ℕ} {b pb : ℕ} (hb : b < n)
include hb

/-- One round of the loop while the bucket after `ie` is not the empty one at `n - 1`: its
entry is taken out and inserted again, into the hole `he` when its home is at or before the
hole, back into its own bucket otherwise. -/
theorem RehashInv.step {t : ℕ → ℕ} {ie he : ℕ} (I : RehashInv n key home t₀ t S b pb ie he)
    (hlin : ∀ e < n, t₀ (walk n b e) ≠ 0 →
      LinClear n t₀ b (rel n b (home (key (t₀ (walk n b e))))) e)
    (hrun : ∀ e, pb < e → e + 2 ≤ n → t₀ (walk n b e) ≠ 0) (hie : ie + 2 < n) :
    t (walk n b (ie + 1)) ≠ 0 ∧ ∃ t' he',
      add n home (Function.update t (walk n b (ie + 1)) 0) (key (t (walk n b (ie + 1))))
        (t (walk n b (ie + 1))) = some t' ∧
      RehashInv n key home t₀ t' S b pb (ie + 1) he' := by
  obtain ⟨hpe, hei, -⟩ := I.le
  have hc : ie + 1 < n := by omega
  have hcv : t (walk n b (ie + 1)) = t₀ (walk n b (ie + 1)) := I.outside _ hc (Or.inr (by omega))
  have hv0 : t (walk n b (ie + 1)) ≠ 0 := hcv ▸ hrun _ (by omega) (by omega)
  have hl := hlin _ hc (hcv ▸ hv0)
  rw [← hcv] at hl
  have hh := hhome (key (t (walk n b (ie + 1))))
  -- the bucket `ie + 1` just emptied is the only change
  have hU : ∀ x < n, x ≠ ie + 1 →
      Function.update t (walk n b (ie + 1)) 0 (walk n b x) = t (walk n b x) :=
    fun x hx hxc => Function.update_of_ne (fun e => hxc (walk_inj hb hx hc e)) ..
  refine ⟨hv0, ?_⟩
  by_cases hmove : rel n b (home (key (t (walk n b (ie + 1))))) ≤ he
  · -- the entry moves into the hole, which moves to `ie + 1`
    have hadd := add_eq_rel (t := Function.update t (walk n b (ie + 1)) 0)
      (v := t (walk n b (ie + 1))) hb hh hmove (by omega)
      (fun x hx hxh => by
        rw [hU x (by omega) (by omega)]
        exact I.full_below hl hx (by omega) (by omega) (by omega))
      (by rw [hU he (by omega) (by omega)]; exact I.hole)
    rw [update_move_eq_swap I.hole] at hadd
    refine ⟨_, ie + 1, hadd, ?_⟩
    have hT : ∀ x < n, x ≠ he → x ≠ ie + 1 →
        (t ∘ Equiv.swap (walk n b (ie + 1)) (walk n b he)) (walk n b x) = t (walk n b x) :=
      fun x hx hxh hxc => by
        rw [Function.comp_apply, Equiv.swap_apply_of_ne_of_ne
          (fun e => hxc (walk_inj hb hx hc e)) (fun e => hxh (walk_inj hb hx (by omega) e))]
    have hTh : (t ∘ Equiv.swap (walk n b (ie + 1)) (walk n b he)) (walk n b he) =
        t (walk n b (ie + 1)) := by
      rw [Function.comp_apply, Equiv.swap_apply_right]
    have hTc : (t ∘ Equiv.swap (walk n b (ie + 1)) (walk n b he)) (walk n b (ie + 1)) = 0 := by
      rw [Function.comp_apply, Equiv.swap_apply_left, I.hole]
    -- below `ie`, the only bucket that changes is the hole, which fills
    have hmono : ∀ x ≤ ie, t (walk n b x) ≠ 0 →
        (t ∘ Equiv.swap (walk n b (ie + 1)) (walk n b he)) (walk n b x) ≠ 0 := by
      intro x hx hx0
      have hxh : x ≠ he := fun e => hx0 (e ▸ I.hole)
      rwa [hT x (by omega) hxh (by omega)]
    refine ⟨⟨by omega, le_rfl, hie⟩, hTc, ?_, ?_,
      I.lists.swap (walk_lt hb hc) (walk_lt hb (by omega)), ?_⟩
    · intro e hpe' hec hne
      by_cases heh : e = he
      · rw [heh, hTh]; exact hv0
      · rw [hT e (by omega) heh hne]; exact I.filled e hpe' (by omega) heh
    · intro e hen hout
      rw [hT e hen (by omega) (by omega)]
      exact I.outside e hen (by omega)
    · intro e hec he0
      by_cases hec' : e = ie + 1
      · rw [hec', hTc] at he0; exact absurd rfl he0
      by_cases heh : e = he
      · -- the moved entry: from its home to the hole, the buckets are full
        rw [heh, hTh]
        refine ⟨hmove, fun x hx hxh => ?_⟩
        rw [hT x (by omega) (by omega) (by omega)]
        exact I.full_below hl hx (by omega) (by omega) (by omega)
      · rw [hT e (by omega) heh hec'] at he0 ⊢
        exact (I.clear e (by omega) he0).mono fun x hx => hmono x (by omega)
  · -- the entry goes back into its own bucket and the table is as it was
    have hadd := add_eq_rel (t := Function.update t (walk n b (ie + 1)) 0)
      (v := t (walk n b (ie + 1))) hb hh hl.1 hc
      (fun x hx hxc => by
        rw [hU x (by omega) (by omega)]
        exact I.filled x (by omega) (by omega) (by omega))
      (Function.update_self ..)
    rw [Function.update_idem, Function.update_eq_self] at hadd
    refine ⟨t, he, hadd, ⟨⟨hpe, by omega, by omega⟩, I.hole, ?_, ?_, I.lists, ?_⟩⟩
    · intro e hpe' hec hne
      by_cases hec' : e = ie + 1
      · rw [hec']; exact hv0
      · exact I.filled e hpe' (by omega) hne
    · intro e hen hout
      exact I.outside e hen (by omega)
    · intro e hec he0
      by_cases hec' : e = ie + 1
      · rw [hec']
        exact ⟨hl.1, fun x hx hxc => I.filled x (by omega) (by omega) (by omega)⟩
      · exact I.clear e (by omega) he0

/-- When the bucket after `ie` is the empty bucket at `n - 1`, the loop has rebuilt an exact
table. -/
theorem RehashInv.exact {t : ℕ → ℕ} {ie he : ℕ} (I : RehashInv n key home t₀ t S b pb ie he)
    (hq : t₀ (walk n b (n - 1)) = 0) (hend : ie + 2 = n) :
    t (walk n b (n - 1)) = 0 ∧ Exact n key home t S := by
  have hz : t (walk n b (n - 1)) = 0 := by
    rw [I.outside _ (by omega) (Or.inr (by omega))]; exact hq
  refine ⟨hz, ⟨I.lists, fun j hj hj0 => ?_⟩⟩
  have he := rel_lt hb hj
  have hje : rel n b j ≠ n - 1 := fun e => hj0 (by rw [← walk_rel hb hj, e]; exact hz)
  have hl := I.clear (rel n b j) (by omega) (by rw [walk_rel hb hj]; exact hj0)
  rw [walk_rel hb hj] at hl
  exact clear_of_linear hb (hhome _) hj hl

/-- From a loop state, enough fuel runs the loop to an exact table. -/
theorem rehash_spec
    (hlin : ∀ e < n, t₀ (walk n b e) ≠ 0 →
      LinClear n t₀ b (rel n b (home (key (t₀ (walk n b e))))) e)
    (hrun : ∀ e, pb < e → e + 2 ≤ n → t₀ (walk n b e) ≠ 0) (hq : t₀ (walk n b (n - 1)) = 0) :
    ∀ fuel {t : ℕ → ℕ} {ie he : ℕ}, RehashInv n key home t₀ t S b pb ie he → n ≤ fuel + ie + 1 →
      ∃ t', rehash n key home t fuel (walk n b ie) = some t' ∧ Exact n key home t' S
  | 0, _, _, _, I, hf => absurd I.le.2.2 (by omega)
  | fuel + 1, t, ie, he, I, hf => by
    have hie := I.le.2.2
    rw [rehash, next_walk hb hie]
    by_cases hend : ie + 2 < n
    · obtain ⟨hv0, t', he', hadd, I'⟩ := I.step hhome hb hlin hrun hend
      rw [if_neg hv0, hadd]
      exact rehash_spec hlin hrun hq fuel I' (by omega)
    · obtain ⟨hz, E⟩ := I.exact hhome hb hq (by omega)
      rw [show ie + 1 = n - 1 by omega, if_pos hz]
      exact ⟨t, rfl, E⟩

end Rehash

/-- `remove` of an entry, while an empty bucket is left, keeps the table exact. -/
theorem remove_exact {t : ℕ → ℕ} {S : Finset ℕ} (E : Exact n key home t S) {del : ℕ}
    (hdel : del ∈ S) (hcard : S.card < n) :
    ∃ t', remove n key home t (key del) del = some t' ∧ Exact n key home t' (S.erase del) := by
  obtain ⟨hdel0, p, hp, hpd⟩ := E.mem del hdel
  have hh := hhome (key del)
  -- `removeFind` empties the bucket of `del`
  have hpath := E.path_ne hhome hp hpd hdel0
  have hd := rel_lt hh hp
  have hpos : (next n)^[rel n (home (key del)) p] (home (key del)) = p := by
    rw [iterate_next hh _ hd, walk_rel hh hp]
  have hfind : removeFind n t del n (home (key del)) = some (p, Function.update t p 0) := by
    rw [← hpos]
    exact removeFind_eq hdel0
      (fun d' hd' => by rw [iterate_next hh d' (by omega)]; exact hpath d' hd')
      (by rw [hpos, hpd]) hd
  -- the first empty bucket after `p`, `d` buckets on
  obtain ⟨z, hz, hz0⟩ := E.exists_zero hcard
  obtain ⟨d, hdn, hq, hbefore⟩ := exists_first_zero hp hz hz0
  have hd0 : d ≠ 0 := fun h0 => by rw [h0, walk_zero hp, hpd] at hq; exact hdel0 hq
  -- count from the bucket after it: `p` is then at `n - 1 - d`
  obtain ⟨pb, hpb⟩ : ∃ pb, pb = n - 1 - d := ⟨_, rfl⟩
  have hpbn : pb < n := by omega
  have hb : rel n pb p < n := rel_lt hpbn hp
  have hbp : walk n (rel n pb p) pb = p := walk_back hpbn hp
  have hwb : ∀ x, pb + x < n → walk n (rel n pb p) (pb + x) = walk n p x := fun x hx => by
    rw [← walk_walk hb hx, hbp]
  have hq' : t (walk n (rel n pb p) (n - 1)) = 0 := by
    rw [show n - 1 = pb + d by omega, hwb d (by omega)]; exact hq
  have hlin : ∀ e < n, t (walk n (rel n pb p) e) ≠ 0 →
      LinClear n t (rel n pb p) (rel n (rel n pb p) (home (key (t (walk n (rel n pb p) e))))) e :=
    fun e he he0 => by
      have := linear_of_clear hb (hhome _) (walk_lt hb he) hq' (E.clear _ (walk_lt hb he) he0)
      rwa [rel_walk hb he] at this
  have hrun : ∀ e, pb < e → e + 2 ≤ n → t (walk n (rel n pb p) e) ≠ 0 := fun e hpe hen => by
    rw [show e = pb + (e - pb) by omega, hwb _ (by omega)]
    exact hbefore _ (by omega)
  -- the loop starts with the hole at `p`
  have hU : ∀ x < n, x ≠ pb → Function.update t p 0 (walk n (rel n pb p) x) = t (walk n (rel n pb p) x) :=
    fun x hx hxp => Function.update_of_ne (fun e => hxp (walk_inj hb hx hpbn (e.trans hbp.symm))) ..
  have I : RehashInv n key home t (Function.update t p 0) (S.erase del) (rel n pb p) pb pb pb := by
    refine ⟨⟨le_rfl, le_rfl, by omega⟩, by rw [hbp, Function.update_self], fun e _ _ _ => by omega,
      fun e hen hout => hU e hen (by omega), E.toLists.erase hp hpd, fun e hep he0 => ?_⟩
    have hep' : e ≠ pb := fun h => he0 (by rw [h, hbp, Function.update_self])
    rw [hU e (by omega) hep'] at he0 ⊢
    exact (hlin e (by omega) he0).mono fun x hx hx0 => by rwa [hU x (by omega) (by omega)]
  obtain ⟨t', hre, E'⟩ := rehash_spec hhome hb hlin hrun hq' n I (by omega)
  rw [hbp] at hre
  refine ⟨t', ?_, E'⟩
  rw [remove, hfind]
  exact hre

end Exact

end LinearProbe
