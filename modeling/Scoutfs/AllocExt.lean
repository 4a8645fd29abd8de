/-
The free extent items of an allocator root (`alloc.c`).

An allocator root is a btree of value-less items.  Every free extent is stored
twice: in the blkno zone keyed by its last block and length, and in the order
zone keyed by its reversed length order, last block and length
(`init_ext_key`); `total_len` sums the lengths.  `alloc_ext_ops` are the extent
callbacks over one root and one zone: `alloc_ext_insert` and `alloc_ext_remove`
change both items and `total_len`, and undo the first item change when the
second one fails.

Btree modifications can fail.  The state carries the outcomes of the coming
fallible steps (`AllocState.faults`), so that every pattern of failures is one
run of the model.

Main results:
* `RootHolds root E` — the root stores exactly the free extents `E` under both
  keys, and its `total_len` is their summed length;
* `allocExtInsert_lawful`, `allocExtRemove_lawful` — in either zone the
  callbacks meet `InsertLawful` / `RemoveLawful` of `ExtSpec`, also when the
  second item change fails and is undone;
* `allocExtNext_blkno_lawful` — the blkno-zone search meets `NextLawful`, and
  `allocExtNext_order_member` — any order-zone search finds a stored extent.
-/
import Scoutfs.ExtSpec
import Scoutfs.Lib.Index

namespace Scoutfs

/-! ### Keys of free extents -/

/-- The two indexes of free extents. -/
inductive FreeExtentZone
  | blkno
  | order
  deriving DecidableEq, Repr

namespace FreeExtentZone

/-- `SCOUTFS_FREE_EXTENT_BLKNO_ZONE` and `SCOUTFS_FREE_EXTENT_ORDER_ZONE`. -/
def toZone : FreeExtentZone → UInt8
  | blkno => 36
  | order => 40

/-- `other_zone`. -/
def other : FreeExtentZone → FreeExtentZone
  | blkno => order
  | order => blkno

theorem toZone_injective {a b : FreeExtentZone} (h : a.toZone = b.toZone) : a = b := by
  cases a <;> cases b <;> first | rfl | cases h

end FreeExtentZone

/-- `free_extent_order`: `floor(log_8(len))`. -/
def freeExtentOrder (len : UInt64) : UInt64 := UInt64.ofNat ((fls64 (len ||| 1) - 1) / 3)

/-- `smallest_order_length`: the least length with the order of `len`. -/
def smallestOrderLength (len : UInt64) : UInt64 := 1 <<< (freeExtentOrder len * 3)

/-- `init_ext_key`.  A zero length builds the bare zone key that starts a search of the
order index from its first item. -/
def initExtKey (zone : FreeExtentZone) (start len : UInt64) : ScoutfsKey :=
  let key := { scoutfsKeySetZeros with zone := zone.toZone }
  if len = 0 then key
  else
    match zone with
    | .blkno => { key with first := start + len - 1, second := len }
    | .order =>
      { key with first := U64_MAX - freeExtentOrder len, second := start + len - 1, third := len }

/-- `ext_from_key`. -/
def extFromKey (key : ScoutfsKey) : ScoutfsExtent :=
  if key.zone = FreeExtentZone.blkno.toZone then ⟨key.first - key.second + 1, key.second, 0, 0⟩
  else ⟨key.second - key.third + 1, key.third, 0, 0⟩

/-- The key of the item that stores extent `e` in `zone`. -/
def extKey (zone : FreeExtentZone) (e : ScoutfsExtent) : ScoutfsKey :=
  initExtKey zone e.start e.len

section Keys

variable {e : ScoutfsExtent}

theorem extKey_zone (zone : FreeExtentZone) (hl : e.len ≠ 0) :
    (extKey zone e).zone = zone.toZone := by
  cases zone <;> simp [extKey, initExtKey, hl]

/-- Decoding an item key gives back the free extent it was built from. -/
theorem extFromKey_extKey (zone : FreeExtentZone) (hl : e.len ≠ 0) (hf : ExtFree e) :
    extFromKey (extKey zone e) = e := by
  obtain ⟨start, len, map, flags⟩ := e
  obtain ⟨rfl, rfl⟩ := hf
  have hsub : start + len - 1 - len + 1 = start := by grind
  cases zone <;> simp [extFromKey, extKey, initExtKey, hl, FreeExtentZone.toZone, hsub]

/-- Item keys of non-empty free extents are distinct across extents and across zones. -/
theorem extKey_eq_iff {f : ScoutfsExtent} {z z' : FreeExtentZone} (he : e.len ≠ 0)
    (hef : ExtFree e) (hf : f.len ≠ 0) (hff : ExtFree f) :
    extKey z e = extKey z' f ↔ z = z' ∧ e = f := by
  constructor
  · intro h
    have hz : z = z' := by
      apply FreeExtentZone.toZone_injective
      rw [← extKey_zone z he, ← extKey_zone z' hf, h]
    subst hz
    refine ⟨rfl, ?_⟩
    rw [← extFromKey_extKey z he hef, ← extFromKey_extKey z hf hff, h]
  · rintro ⟨rfl, rfl⟩
    rfl

/-- The search key `init_ext_key` builds for `next(start, 1)` in the blkno zone. -/
theorem initExtKey_blkno_one (start : UInt64) :
    initExtKey .blkno start 1 = ⟨36, start, 0, 1, 0, 0⟩ := by
  have h : start + 1 - 1 = start := by grind
  simp [initExtKey, scoutfsKeySetZeros, FreeExtentZone.toZone, h]

/-- A blkno item is at or after the search key of `start` exactly when its extent ends at or
after `start`. -/
theorem blknoQuery_le_iff (start : UInt64) (hl : e.len ≠ 0) :
    (⟨36, start, 0, 1, 0, 0⟩ : ScoutfsKey) ≤ extKey .blkno e ↔ start ≤ extLast e := by
  have hl' : e.len.toNat ≠ 0 := fun h0 => hl (UInt64.toNat_inj.mp (by rw [h0, UInt64.toNat_zero]))
  simp only [ScoutfsKey.le_iff, extKey, initExtKey, hl, if_false, scoutfsKeySetZeros,
    FreeExtentZone.toZone, UInt64.le_iff_toNat_le, extLast]
  simp only [UInt8.toNat_ofNat, UInt64.toNat_zero, UInt64.toNat_one,
    lt_self_iff_false, true_and, false_or, le_refl, and_true]
  omega

/-- Blkno items are ordered by the last blocks of their extents. -/
theorem extLast_le_of_extKey_le {f : ScoutfsExtent} (he : e.len ≠ 0) (hf : f.len ≠ 0)
    (h : extKey .blkno e ≤ extKey .blkno f) : extLast e ≤ extLast f := by
  simp only [ScoutfsKey.le_iff, extKey, initExtKey, he, hf, if_false] at h
  rw [UInt64.le_iff_toNat_le]
  unfold extLast
  omega

end Keys

/-! ### Allocator roots -/

/-- `struct scoutfs_alloc_root`.  The btree is kept as the set of its item keys: free extent
items carry no values.  The tree's height only sizes metadata reservations and is left out. -/
structure ScoutfsAllocRoot where
  totalLen : UInt64
  flags : UInt32
  items : Finset ScoutfsKey

/-- The item keys of the free extents `E`, each stored in both zones. -/
def extItems (E : Finset ScoutfsExtent) : Finset ScoutfsKey :=
  twoKeys (extKey .blkno) (extKey .order) E

/-- Root `root` stores exactly the free extents `E`, each under both of its keys, and its
`total_len` is the (`u64`) sum of their lengths. -/
structure RootHolds (root : ScoutfsAllocRoot) (E : Finset ScoutfsExtent) : Prop where
  items : root.items = extItems E
  nonzero : ∀ e ∈ E, e.len ≠ 0
  free : ∀ e ∈ E, ExtFree e
  totalLen : root.totalLen = ∑ e ∈ E, e.len

namespace RootHolds

variable {root : ScoutfsAllocRoot} {E : Finset ScoutfsExtent}

/-- Only the items and `total_len` matter. -/
theorem congr {root' : ScoutfsAllocRoot} (h : RootHolds root E) (hi : root'.items = root.items)
    (ht : root'.totalLen = root.totalLen) : RootHolds root' E :=
  ⟨hi.trans h.items, h.nonzero, h.free, ht.trans h.totalLen⟩

theorem keysSeparate (h : RootHolds root E) :
    KeysSeparate (extKey .blkno) (extKey .order) E := by
  intro a ha b hb
  have hiff := fun z z' => @extKey_eq_iff a b z z' (h.nonzero a ha) (h.free a ha)
    (h.nonzero b hb) (h.free b hb)
  refine ⟨fun hk => ((hiff _ _).mp hk).2, fun hk => ((hiff _ _).mp hk).2, fun hk => ?_⟩
  cases ((hiff _ _).mp hk).1

/-- A free extent's item is in the root exactly when the extent is stored. -/
theorem extKey_mem_iff (h : RootHolds root E) (zone : FreeExtentZone) {e : ScoutfsExtent}
    (hl : e.len ≠ 0) (hf : ExtFree e) : extKey zone e ∈ root.items ↔ e ∈ E := by
  rw [h.items, extItems, twoKeys, Finset.mem_union, Finset.mem_image, Finset.mem_image]
  constructor
  · rintro (⟨f, hfE, hk⟩ | ⟨f, hfE, hk⟩) <;>
    · rw [extKey_eq_iff (h.nonzero f hfE) (h.free f hfE) hl hf] at hk
      exact hk.2 ▸ hfE
  · intro he
    cases zone
    · exact .inl ⟨e, he, rfl⟩
    · exact .inr ⟨e, he, rfl⟩

/-- Every item of a zone is the key of a stored extent. -/
theorem exists_of_mem (h : RootHolds root E) {k : ScoutfsKey} (hk : k ∈ root.items)
    (zone : FreeExtentZone) (hz : k.zone = zone.toZone) : ∃ e ∈ E, k = extKey zone e := by
  rw [h.items, extItems, twoKeys, Finset.mem_union, Finset.mem_image, Finset.mem_image] at hk
  rcases hk with ⟨e, he, rfl⟩ | ⟨e, he, rfl⟩ <;>
  · refine ⟨e, he, ?_⟩
    rw [extKey_zone _ (h.nonzero e he)] at hz
    rw [FreeExtentZone.toZone_injective hz]

end RootHolds

/-! ### The allocator state -/

/-- The allocator roots, by index, and the outcomes of the coming fallible steps: every btree
insert or delete, and every list block the list helpers dirty or free, takes the next outcome
(`true`: the step fails), and nothing fails once the outcomes run out. -/
structure AllocState where
  roots : ℕ → ScoutfsAllocRoot
  faults : List Bool

namespace AllocState

/-- The outcome of the next fallible step. -/
def takeFault (st : AllocState) : Bool × AllocState :=
  match st.faults with
  | [] => (false, st)
  | fail :: rest => (fail, { st with faults := rest })

/-- Replace root `r`. -/
def setRoot (st : AllocState) (r : ℕ) (root : ScoutfsAllocRoot) : AllocState :=
  { st with roots := Function.update st.roots r root }

/-- `le64_add_cpu(&root->total_len, len)`. -/
def addTotalLen (st : AllocState) (r : ℕ) (len : UInt64) : AllocState :=
  st.setRoot r { st.roots r with totalLen := (st.roots r).totalLen + len }

@[simp] theorem takeFault_roots (st : AllocState) : st.takeFault.2.roots = st.roots := by
  unfold takeFault
  split <;> rfl

theorem setRoot_roots_self (st : AllocState) (r : ℕ) (root : ScoutfsAllocRoot) :
    (st.setRoot r root).roots r = root := by
  simp [setRoot]

theorem setRoot_roots_of_ne (st : AllocState) {r r' : ℕ} (root : ScoutfsAllocRoot)
    (h : r' ≠ r) : (st.setRoot r root).roots r' = st.roots r' := by
  simp [setRoot, h]

end AllocState

/-! ### Btree items -/

/-- `scoutfs_btree_insert` of a value-less item into root `r`. -/
def scoutfsBtreeInsert (st : AllocState) (r : ℕ) (key : ScoutfsKey) : Int × AllocState :=
  let (fail, st) := st.takeFault
  let root := st.roots r
  if fail then (-ENOMEM, st)
  else if key ∈ root.items then (-EEXIST, st)
  else (0, st.setRoot r { root with items := insert key root.items })

/-- `scoutfs_btree_delete` of an item of root `r`. -/
def scoutfsBtreeDelete (st : AllocState) (r : ℕ) (key : ScoutfsKey) : Int × AllocState :=
  let (fail, st) := st.takeFault
  let root := st.roots r
  if fail then (-ENOMEM, st)
  else if key ∉ root.items then (-ENOENT, st)
  else (0, st.setRoot r { root with items := root.items.erase key })

/-- `scoutfs_btree_next`: the first item at or after `key`. -/
def scoutfsBtreeNext (root : ScoutfsAllocRoot) (key : ScoutfsKey) : Option ScoutfsKey :=
  Seek.seekGE root.items key

/-- What a btree modification of root `r` did: the other roots and `total_len` are untouched,
and the items either changed as `change` says or, on a failure, not at all. -/
structure ItemStep (st st' : AllocState) (r : ℕ) (ret : Int) (ok : Prop)
    (change : Finset ScoutfsKey) : Prop where
  frame : ∀ r', r' ≠ r → st'.roots r' = st.roots r'
  totalLen : (st'.roots r).totalLen = (st.roots r).totalLen
  cases : (ret < 0 ∧ (st'.roots r).items = (st.roots r).items) ∨
    (ret = 0 ∧ ok ∧ (st'.roots r).items = change)

/-- A step that failed without touching the roots. -/
theorem ItemStep.of_fail {st st' : AllocState} {r : ℕ} {ret : Int} {ok : Prop}
    {change : Finset ScoutfsKey} (hroots : st'.roots = st.roots) (hret : ret < 0) :
    ItemStep st st' r ret ok change :=
  ⟨fun _ _ => by rw [hroots], by rw [hroots], .inl ⟨hret, by rw [hroots]⟩⟩

theorem scoutfsBtreeInsert_step {st st' : AllocState} {r : ℕ} {key : ScoutfsKey} {ret : Int}
    (h : scoutfsBtreeInsert st r key = (ret, st')) :
    ItemStep st st' r ret (key ∉ (st.roots r).items) (insert key (st.roots r).items) := by
  unfold scoutfsBtreeInsert at h
  rcases hf : st.takeFault with ⟨fail, st₁⟩
  have hroots : st₁.roots = st.roots := by rw [← AllocState.takeFault_roots st, hf]
  rw [hf] at h
  dsimp only at h
  rw [hroots] at h
  split_ifs at h with hfail hmem
  · cases h
    exact .of_fail hroots (by decide)
  · cases h
    exact .of_fail hroots (by decide)
  · cases h
    refine ⟨fun r' hr' => ?_, ?_, .inr ⟨rfl, hmem, ?_⟩⟩
    · rw [AllocState.setRoot_roots_of_ne _ _ hr', hroots]
    · rw [AllocState.setRoot_roots_self]
    · rw [AllocState.setRoot_roots_self]

theorem scoutfsBtreeDelete_step {st st' : AllocState} {r : ℕ} {key : ScoutfsKey} {ret : Int}
    (h : scoutfsBtreeDelete st r key = (ret, st')) :
    ItemStep st st' r ret (key ∈ (st.roots r).items) ((st.roots r).items.erase key) := by
  unfold scoutfsBtreeDelete at h
  rcases hf : st.takeFault with ⟨fail, st₁⟩
  have hroots : st₁.roots = st.roots := by rw [← AllocState.takeFault_roots st, hf]
  rw [hf] at h
  dsimp only at h
  rw [hroots] at h
  split_ifs at h with hfail hmem
  · cases h
    exact .of_fail hroots (by decide)
  · cases h
    refine ⟨fun r' hr' => ?_, ?_, .inr ⟨rfl, hmem, ?_⟩⟩
    · rw [AllocState.setRoot_roots_of_ne _ _ hr', hroots]
    · rw [AllocState.setRoot_roots_self]
    · rw [AllocState.setRoot_roots_self]
  · cases h
    exact .of_fail hroots (by decide)

/-! ### The extent callbacks -/

section Callbacks

variable (r : ℕ) (zone : FreeExtentZone)

/-- `alloc_ext_next`: search the items of `zone` in root `r`.  Items carry no values, so the
`-EIO` of a non-empty value cannot arise. -/
def allocExtNext (st : AllocState) (start len : UInt64) : Int × ScoutfsExtent :=
  match scoutfsBtreeNext (st.roots r) (initExtKey zone start len) with
  | some key => if key.zone ≠ zone.toZone then (-ENOENT, extZero) else (0, extFromKey key)
  | none => (-ENOENT, extZero)

/-- `alloc_ext_insert`: insert both items, deleting the first again when the second insert
fails, and add the length to `total_len` on success. -/
def allocExtInsert (st : AllocState) (start len map : UInt64) (flags : UInt8) :
    Option (Int × AllocState) :=
  -- allocator extents don't have mappings or flags
  if map ≠ 0 ∨ flags ≠ 0 then some (-EINVAL, st)
  else
    let key := initExtKey zone start len
    let other := initExtKey zone.other start len
    let (ret, st) := scoutfsBtreeInsert st r key
    if ret = 0 then
      let (ret, st) := scoutfsBtreeInsert st r other
      if ret < 0 then
        let (err, st) := scoutfsBtreeDelete st r key
        -- BUG_ON(err)
        if err ≠ 0 then none else some (ret, st)
      else some (ret, st.addTotalLen r len)
    else some (ret, st)

/-- `alloc_ext_remove`: delete both items, inserting the first again when the second delete
fails, and take the length off `total_len` on success. -/
def allocExtRemove (st : AllocState) (start len _map : UInt64) (_flags : UInt8) :
    Option (Int × AllocState) :=
  let key := initExtKey zone start len
  let other := initExtKey zone.other start len
  let (ret, st) := scoutfsBtreeDelete st r key
  if ret = 0 then
    let (ret, st) := scoutfsBtreeDelete st r other
    if ret < 0 then
      let (err, st) := scoutfsBtreeInsert st r key
      -- BUG_ON(err)
      if err ≠ 0 then none else some (ret, st)
    else some (ret, st.addTotalLen r (-len))
  else some (ret, st)

/-- `alloc_ext_ops` with `struct alloc_ext_args` naming root `r` and `zone`. -/
def allocExtOps : ScoutfsExtOps AllocState :=
  ⟨allocExtNext r zone, allocExtInsert r zone, allocExtRemove r zone⟩

end Callbacks

/-! ### The callbacks meet their specifications -/

/-- Root `r` holds exactly `E`, and every other root is as in `base`: the relation the extent
helpers are run against when they work on root `r`. -/
def RootAt (r : ℕ) (base : ℕ → ScoutfsAllocRoot) (st : AllocState)
    (E : Finset ScoutfsExtent) : Prop :=
  RootHolds (st.roots r) E ∧ ∀ r', r' ≠ r → st.roots r' = base r'

theorem RootAt.of_step {r : ℕ} {base : ℕ → ScoutfsAllocRoot} {st st' : AllocState}
    {E E' : Finset ScoutfsExtent} (h : RootAt r base st E)
    (hframe : ∀ r', r' ≠ r → st'.roots r' = st.roots r') (hroot : RootHolds (st'.roots r) E') :
    RootAt r base st' E' :=
  ⟨hroot, fun r' hr' => (hframe r' hr').trans (h.2 r' hr')⟩

theorem AllocState.addTotalLen_frame (st : AllocState) {r r' : ℕ} (len : UInt64)
    (h : r' ≠ r) : (st.addTotalLen r len).roots r' = st.roots r' :=
  st.setRoot_roots_of_ne _ h

theorem AllocState.addTotalLen_self (st : AllocState) (r : ℕ) (len : UInt64) :
    (st.addTotalLen r len).roots r = { st.roots r with totalLen := (st.roots r).totalLen + len } :=
  st.setRoot_roots_self r _

theorem extItems_insert (zone : FreeExtentZone) (E : Finset ScoutfsExtent) (e : ScoutfsExtent) :
    extItems (insert e E) = insert (extKey zone.other e) (insert (extKey zone e) (extItems E)) := by
  rw [extItems, twoKeys_insert]
  cases zone
  · rfl
  · exact Finset.insert_comm _ _ _

theorem extItems_erase {E : Finset ScoutfsExtent} (h : KeysSeparate (extKey .blkno) (extKey .order) E)
    {e : ScoutfsExtent} (he : e ∈ E) (zone : FreeExtentZone) :
    extItems (E.erase e) = ((extItems E).erase (extKey zone e)).erase (extKey zone.other e) := by
  rw [extItems, twoKeys_erase _ _ h he]
  cases zone
  · rfl
  · exact Finset.erase_right_comm

section Lawful

variable (r : ℕ) (zone : FreeExtentZone) (base : ℕ → ScoutfsAllocRoot)

/-- **`alloc_ext_insert` meets `InsertLawful`**: it adds the extent under both keys and its
length to `total_len`, or fails with root `r`'s items and total as they were, including when
the second insert fails and the first is deleted again. -/
theorem allocExtInsert_lawful : InsertLawful (allocExtOps r zone) (RootAt r base) := by
  intro st E e hs hl
  dsimp only [allocExtOps]
  unfold allocExtInsert
  by_cases hmf : e.map ≠ 0 ∨ e.flags ≠ 0
  · rw [if_pos hmf]
    exact .inr (.inl ⟨_, _, rfl, by decide, hs⟩)
  rw [if_neg hmf]
  have hfree : ExtFree e := by
    simp only [not_or, not_not] at hmf
    exact hmf
  rcases h₁ : scoutfsBtreeInsert st r (initExtKey zone e.start e.len) with ⟨ret₁, st₁⟩
  obtain ⟨hf₁, ht₁, hc₁⟩ := scoutfsBtreeInsert_step h₁
  simp only [h₁]
  rcases hc₁ with ⟨hret₁, hi₁⟩ | ⟨rfl, hnew, hi₁⟩
  · -- the first insert failed and changed nothing
    rw [if_neg hret₁.ne]
    exact .inr (.inl ⟨ret₁, st₁, rfl, hret₁, hs.of_step hf₁ (hs.1.congr hi₁ ht₁)⟩)
  rw [if_pos rfl]
  rcases h₂ : scoutfsBtreeInsert st₁ r (initExtKey zone.other e.start e.len) with ⟨ret₂, st₂⟩
  obtain ⟨hf₂, ht₂, hc₂⟩ := scoutfsBtreeInsert_step h₂
  dsimp only
  have hframe₂ : ∀ r', r' ≠ r → st₂.roots r' = st.roots r' := fun r' hr' => by
    rw [hf₂ r' hr', hf₁ r' hr']
  rcases hc₂ with ⟨hret₂, hi₂⟩ | ⟨rfl, -, hi₂⟩
  · -- the second insert failed: delete the first item again
    rw [if_pos hret₂]
    rcases h₃ : scoutfsBtreeDelete st₂ r (initExtKey zone e.start e.len) with ⟨err, st₃⟩
    obtain ⟨hf₃, ht₃, hc₃⟩ := scoutfsBtreeDelete_step h₃
    dsimp only
    rcases hc₃ with ⟨herr, -⟩ | ⟨rfl, -, hi₃⟩
    · exact .inl (if_pos herr.ne)
    rw [if_neg (not_not.mpr rfl)]
    have hitems : (st₃.roots r).items = (st.roots r).items := by
      rw [hi₃, hi₂, hi₁, Finset.erase_insert hnew]
    refine .inr (.inl ⟨ret₂, st₃, rfl, hret₂, hs.of_step (fun r' hr' => ?_) ?_⟩)
    · rw [hf₃ r' hr', hframe₂ r' hr']
    · exact hs.1.congr hitems (by rw [ht₃, ht₂, ht₁])
  · -- both items are in: the extent is stored
    rw [if_neg (lt_irrefl 0)]
    have he : e ∉ E := fun he => hnew ((hs.1.extKey_mem_iff zone hl hfree).mpr he)
    refine .inr (.inr ⟨_, rfl, he, hs.of_step (fun r' hr' => ?_) ?_⟩)
    · rw [AllocState.addTotalLen_frame _ _ hr', hframe₂ r' hr']
    · rw [AllocState.addTotalLen_self]
      refine ⟨?_, ?_, ?_, ?_⟩
      · change (st₂.roots r).items = _
        rw [hi₂, hi₁, hs.1.items, extItems_insert zone]
        rfl
      · intro f hf
        rcases Finset.mem_insert.mp hf with rfl | hf
        · exact hl
        · exact hs.1.nonzero f hf
      · intro f hf
        rcases Finset.mem_insert.mp hf with rfl | hf
        · exact hfree
        · exact hs.1.free f hf
      · change (st₂.roots r).totalLen + e.len = _
        rw [ht₂, ht₁, hs.1.totalLen, Finset.sum_insert he, add_comm]

/-- **`alloc_ext_remove` meets `RemoveLawful`**: it takes a stored extent out of both keys and
its length off `total_len`, or fails with root `r`'s items and total as they were, including
when the second delete fails and the first item is inserted again. -/
theorem allocExtRemove_lawful : RemoveLawful (allocExtOps r zone) (RootAt r base) := by
  intro st E e hs he
  dsimp only [allocExtOps]
  unfold allocExtRemove
  have hl := hs.1.nonzero e he
  have hfree := hs.1.free e he
  rcases h₁ : scoutfsBtreeDelete st r (initExtKey zone e.start e.len) with ⟨ret₁, st₁⟩
  obtain ⟨hf₁, ht₁, hc₁⟩ := scoutfsBtreeDelete_step h₁
  simp only [h₁]
  rcases hc₁ with ⟨hret₁, hi₁⟩ | ⟨rfl, hold, hi₁⟩
  · -- the first delete failed and changed nothing
    rw [if_neg hret₁.ne]
    exact .inr (.inl ⟨ret₁, st₁, rfl, hret₁, hs.of_step hf₁ (hs.1.congr hi₁ ht₁)⟩)
  rw [if_pos rfl]
  rcases h₂ : scoutfsBtreeDelete st₁ r (initExtKey zone.other e.start e.len) with ⟨ret₂, st₂⟩
  obtain ⟨hf₂, ht₂, hc₂⟩ := scoutfsBtreeDelete_step h₂
  dsimp only
  have hframe₂ : ∀ r', r' ≠ r → st₂.roots r' = st.roots r' := fun r' hr' => by
    rw [hf₂ r' hr', hf₁ r' hr']
  rcases hc₂ with ⟨hret₂, hi₂⟩ | ⟨rfl, -, hi₂⟩
  · -- the second delete failed: insert the first item again
    rw [if_pos hret₂]
    rcases h₃ : scoutfsBtreeInsert st₂ r (initExtKey zone e.start e.len) with ⟨err, st₃⟩
    obtain ⟨hf₃, ht₃, hc₃⟩ := scoutfsBtreeInsert_step h₃
    dsimp only
    rcases hc₃ with ⟨herr, -⟩ | ⟨rfl, -, hi₃⟩
    · exact .inl (if_pos herr.ne)
    rw [if_neg (not_not.mpr rfl)]
    have hitems : (st₃.roots r).items = (st.roots r).items := by
      rw [hi₃, hi₂, hi₁, Finset.insert_erase hold]
    refine .inr (.inl ⟨ret₂, st₃, rfl, hret₂, hs.of_step (fun r' hr' => ?_) ?_⟩)
    · rw [hf₃ r' hr', hframe₂ r' hr']
    · exact hs.1.congr hitems (by rw [ht₃, ht₂, ht₁])
  · -- both items are out: the extent is no longer stored
    rw [if_neg (lt_irrefl 0)]
    refine .inr (.inr ⟨_, rfl, hs.of_step (fun r' hr' => ?_) ?_⟩)
    · rw [AllocState.addTotalLen_frame _ _ hr', hframe₂ r' hr']
    · rw [AllocState.addTotalLen_self]
      refine ⟨?_, fun f hf => hs.1.nonzero f (Finset.mem_of_mem_erase hf),
        fun f hf => hs.1.free f (Finset.mem_of_mem_erase hf), ?_⟩
      · change (st₂.roots r).items = _
        rw [hi₂, hi₁, hs.1.items, extItems_erase hs.1.keysSeparate he zone]
        rfl
      · change (st₂.roots r).totalLen + -e.len = _
        rw [ht₂, ht₁, hs.1.totalLen, ← Finset.add_sum_erase E _ he]
        grind

/-- **The blkno-zone search meets `NextLawful`**: `next(start, 1)` finds the stored extent with
the least last block at or after `start`, since blkno items sort by last block and every
order item sorts after every blkno item. -/
theorem allocExtNext_blkno_lawful : NextLawful (allocExtOps r .blkno) (RootAt r base) := by
  intro st E start hs
  dsimp only [allocExtOps]
  unfold allocExtNext
  rw [initExtKey_blkno_one]
  have hmem : ∀ f ∈ E, extKey .blkno f ∈ (st.roots r).items := fun f hf =>
    (hs.1.extKey_mem_iff .blkno (hs.1.nonzero f hf) (hs.1.free f hf)).mpr hf
  rcases hk : scoutfsBtreeNext (st.roots r) ⟨36, start, 0, 1, 0, 0⟩ with _ | k
  · -- every item sorts before the search key
    have hlt := Seek.seekGE_eq_none.mp hk
    refine .inr ⟨rfl, fun f hf => ?_⟩
    rw [← UInt64.not_le, ← blknoQuery_le_iff start (hs.1.nonzero f hf)]
    exact not_le.mpr (hlt _ (hmem f hf))
  obtain ⟨hkmem, hqk, hmin⟩ := Seek.seekGE_eq_some.mp hk
  dsimp only
  by_cases hz : k.zone = FreeExtentZone.blkno.toZone
  · -- a blkno item: the extent it stores
    obtain ⟨e, he, rfl⟩ := hs.1.exists_of_mem hkmem .blkno hz
    have hl := hs.1.nonzero e he
    rw [if_neg (not_not.mpr hz), extFromKey_extKey .blkno hl (hs.1.free e he)]
    refine .inl ⟨e, rfl, he, (blknoQuery_le_iff start hl).mp hqk, fun f hf hsf => ?_⟩
    exact extLast_le_of_extKey_le hl (hs.1.nonzero f hf)
      (hmin _ (hmem f hf) ((blknoQuery_le_iff start (hs.1.nonzero f hf)).mpr hsf))
  · -- an order item: no blkno item sorts at or after the search key
    rw [if_pos hz]
    refine .inr ⟨rfl, fun f hf => ?_⟩
    rw [← UInt64.not_le]
    intro hsf
    have hkf := hmin _ (hmem f hf) ((blknoQuery_le_iff start (hs.1.nonzero f hf)).mpr hsf)
    -- the zone of `k` is squeezed between the search key's zone and `f`'s blkno zone
    have h₁ : 36 ≤ k.zone.toNat := ScoutfsKey.zone_le_of_le hqk
    have h₂ := ScoutfsKey.zone_le_of_le hkf
    rw [extKey_zone .blkno (hs.1.nonzero f hf)] at h₂
    apply hz
    apply UInt8.toNat_inj.mp
    change k.zone.toNat ≤ 36 at h₂
    change k.zone.toNat = 36
    omega

/-- **Any order-zone search finds a stored extent**, or fails. -/
theorem allocExtNext_order_member : NextMember (allocExtOps r .order) (RootAt r base) := by
  intro st E start len hs
  dsimp only [allocExtOps]
  unfold allocExtNext
  rcases hk : scoutfsBtreeNext (st.roots r) (initExtKey .order start len) with _ | k
  · exact .inr (by decide)
  obtain ⟨hkmem, -, -⟩ := Seek.seekGE_eq_some.mp hk
  dsimp only
  by_cases hz : k.zone = FreeExtentZone.order.toZone
  · obtain ⟨e, he, rfl⟩ := hs.1.exists_of_mem hkmem .order hz
    rw [if_neg (not_not.mpr hz), extFromKey_extKey .order (hs.1.nonzero e he) (hs.1.free e he)]
    exact .inl ⟨e, rfl, he⟩
  · rw [if_pos hz]
    exact .inr (by decide)

end Lawful

end Scoutfs
