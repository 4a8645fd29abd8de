/-
What every run of the srch server keeps in the srch root.

`SrchInv` is the invariant: every item sits under the key its value gives
(`SrchItem.Keyed`), no two file items name one file (`oneFile`), and each compaction record
keeps its inputs apart from every other record's (`apart`) and in step with the file items
(`SrchCompactOK`): distinct, gone once the record deletes them, and before that the very
file items, under the key of the record's kind.  Each change the server makes to the root
keeps it (`SrchInv.erase`, `SrchInv.insert_file`, `SrchInv.insert_compact`), and each call
is a few such changes.
-/
import Scoutfs.SrchServer
import Scoutfs.Lib.Finmap

namespace Scoutfs

/-! ### Btree modifications -/

theorem SrchState.takeFault_eq (st : SrchState) :
    st.takeFault = (st.faults.headD false, ⟨st.root, st.faults.tail⟩) := by
  obtain ⟨root, faults⟩ := st
  cases faults <;> rfl

section Btree

variable {st st' : SrchState} {key : ScoutfsKey} {val : SrchItem} {ret : Int}

/-- An insert fails and leaves the root, or finds the key free and inserts. -/
theorem srchBtreeInsert_root (h : srchBtreeInsert st key val = (ret, st')) :
    ret < 0 ∧ st'.root = st.root ∨ ret = 0 ∧ key ∉ st.root ∧ st'.root = st.root.insert key val := by
  rw [srchBtreeInsert, SrchState.takeFault_eq] at h
  dsimp only at h
  split_ifs at h with hfail hmem <;> cases h
  · exact .inl ⟨by decide, rfl⟩
  · exact .inl ⟨by decide, rfl⟩
  · exact .inr ⟨rfl, hmem, rfl⟩

/-- A delete fails and leaves the root, or finds the key and removes it. -/
theorem srchBtreeDelete_root (h : srchBtreeDelete st key = (ret, st')) :
    ret < 0 ∧ st'.root = st.root ∨ ret = 0 ∧ key ∈ st.root ∧ st'.root = st.root.erase key := by
  rw [srchBtreeDelete, SrchState.takeFault_eq] at h
  dsimp only at h
  split_ifs at h with hfail hmem <;> cases h
  · exact .inl ⟨by decide, rfl⟩
  · exact .inr ⟨rfl, hmem, rfl⟩
  · exact .inl ⟨by decide, rfl⟩

/-- An update fails and leaves the root, or finds the key and replaces its value. -/
theorem srchBtreeUpdate_root (h : srchBtreeUpdate st key val = (ret, st')) :
    ret < 0 ∧ st'.root = st.root ∨ ret = 0 ∧ key ∈ st.root ∧ st'.root = st.root.insert key val := by
  rw [srchBtreeUpdate, SrchState.takeFault_eq] at h
  dsimp only at h
  split_ifs at h with hfail hmem <;> cases h
  · exact .inl ⟨by decide, rfl⟩
  · exact .inr ⟨rfl, hmem, rfl⟩
  · exact .inl ⟨by decide, rfl⟩

end Btree

/-- `scoutfs_btree_next` finds the least item at or after the key. -/
theorem srchBtreeNext_some {root : SrchRoot} {key k : ScoutfsKey} {v : SrchItem}
    (h : srchBtreeNext root key = some (k, v)) :
    root.lookup k = some v ∧ key ≤ k ∧ ∀ k' ∈ root, key ≤ k' → k ≤ k' := by
  unfold srchBtreeNext at h
  rcases hs : Seek.seekGE root.keys key with _ | k₁
  · rw [hs] at h
    cases h
  · rw [hs] at h
    dsimp only at h
    obtain ⟨-, hle, hmin⟩ := Seek.seekGE_eq_some.mp hs
    rcases hl : root.lookup k₁ with _ | v₁
    · rw [hl] at h
      cases h
    · rw [hl] at h
      cases h
      exact ⟨hl, hle, fun k' hk' hkk' => hmin k' (Finmap.mem_keys.mpr hk') hkk'⟩

/-- `scoutfs_btree_next` finds nothing when every item is before the key. -/
theorem srchBtreeNext_none {root : SrchRoot} {key : ScoutfsKey} (h : srchBtreeNext root key = none) :
    ∀ k ∈ root, k < key := by
  unfold srchBtreeNext at h
  rcases hs : Seek.seekGE root.keys key with _ | k₁
  · exact fun k hk => Seek.seekGE_eq_none.mp hs k (Finmap.mem_keys.mpr hk)
  · rw [hs] at h
    dsimp only at h
    have hk₁ : k₁ ∈ root := Finmap.mem_keys.mp (Seek.seekGE_eq_some.mp hs).1
    obtain ⟨v, hv⟩ := Option.isSome_iff_exists.mp (Finmap.lookup_isSome.mpr hk₁)
    rw [hv] at h
    cases h

/-! ### Keys -/

theorem initSrchKey_inj {t t' : UInt8} {a a' b b' : UInt64} :
    initSrchKey t a b = initSrchKey t' a' b' ↔ t = t' ∧ a = a' ∧ b = b' := by
  simp [initSrchKey]

@[simp] theorem initSrchKey_type (t : UInt8) (a b : UInt64) : (initSrchKey t a b).type = t :=
  rfl

@[simp] theorem initFileKey_type (t : UInt8) (sfl : SrchFileRef) : (initFileKey t sfl).type = t := by
  unfold initFileKey
  split <;> rfl

theorem initFileKey_log (sfl : SrchFileRef) :
    initFileKey SCOUTFS_SRCH_LOG_TYPE sfl = initSrchKey SCOUTFS_SRCH_LOG_TYPE sfl.blkno 0 :=
  if_pos rfl

/-- Two files under one key have one blkno. -/
theorem blkno_eq_of_initFileKey_eq {t t' : UInt8} {a b : SrchFileRef}
    (h : initFileKey t a = initFileKey t' b) : a.blkno = b.blkno := by
  have ht : t = t' := by rw [← initFileKey_type t a, h, initFileKey_type]
  subst ht
  unfold initFileKey at h
  split at h
  · exact (initSrchKey_inj.mp h).2.1
  · exact (initSrchKey_inj.mp h).2.2

/-! ### The invariant -/

/-- The key an item sits under, by its value: a file under `init_file_key` of either kind, a
compaction as pending under its id or as busy for some client. -/
def SrchItem.Keyed (k : ScoutfsKey) : SrchItem → Prop
  | .file sfl =>
    k = initFileKey SCOUTFS_SRCH_LOG_TYPE sfl ∨ k = initFileKey SCOUTFS_SRCH_BLOCKS_TYPE sfl
  | .compact sc =>
    k = initSrchKey SCOUTFS_SRCH_PENDING_TYPE sc.id 0 ∨
      ∃ rid, k = initSrchKey SCOUTFS_SRCH_BUSY_TYPE rid sc.id

/-- No input file of one compaction is an input of the other. -/
def InputsApart (c c' : SrchCompactRec) : Prop :=
  ∀ a ∈ c.inputs, ∀ b ∈ c'.inputs, a.blkno ≠ b.blkno

theorem InputsApart.symm {c c' : SrchCompactRec} (h : InputsApart c c') : InputsApart c' c :=
  fun b hb a ha hab => h a ha b hb hab.symm

/-- What a compaction record keeps of the file items: its inputs are distinct files; once it
deletes them none is a file item, and before that a file item of an input's blkno is that
input, under the key of the record's kind. -/
structure SrchCompactOK (root : SrchRoot) (c : SrchCompactRec) : Prop where
  nodup : (c.inputs.map fun sfl => sfl.blkno).Nodup
  gone : c.flags &&& SCOUTFS_SRCH_COMPACT_FLAG_DELETE ≠ 0 → ∀ sfl ∈ c.inputs, ∀ k f,
    root.lookup k = some (.file f) → f.blkno ≠ sfl.blkno
  live : c.flags &&& SCOUTFS_SRCH_COMPACT_FLAG_DELETE = 0 → ∀ sfl ∈ c.inputs, ∀ k f,
    root.lookup k = some (.file f) → f.blkno = sfl.blkno →
      f = sfl ∧ k = initFileKey (srchCompactType c.flags) f

/-- The invariant of the srch root. -/
structure SrchInv (root : SrchRoot) : Prop where
  keyed : ∀ k v, root.lookup k = some v → v.Keyed k
  oneFile : ∀ k k' a b, root.lookup k = some (.file a) → root.lookup k' = some (.file b) →
    a.blkno = b.blkno → k = k'
  compactOK : ∀ k c, root.lookup k = some (.compact c) → SrchCompactOK root c
  apart : ∀ k k' c c', root.lookup k = some (.compact c) → root.lookup k' = some (.compact c') →
    k ≠ k' → InputsApart c c'

/-! ### Root changes that keep the invariant -/

section Changes

variable {root : SrchRoot} {c : SrchCompactRec}

/-- A record's conditions only get easier with fewer file items. -/
theorem SrchCompactOK.mono {root' : SrchRoot} (h : SrchCompactOK root c)
    (hfiles : ∀ k f, root'.lookup k = some (.file f) → root.lookup k = some (.file f)) :
    SrchCompactOK root' c where
  nodup := h.nodup
  gone hdel sfl hsfl k f hf := h.gone hdel sfl hsfl k f (hfiles k f hf)
  live hdel sfl hsfl k f hf := h.live hdel sfl hsfl k f (hfiles k f hf)

theorem SrchCompactOK.erase (h : SrchCompactOK root c) (a : ScoutfsKey) :
    SrchCompactOK (root.erase a) c :=
  h.mono fun _ _ hf => (Finmap.lookup_erase_eq_some.mp hf).2

/-- A new file of a blkno that is none of a record's inputs keeps the record's conditions. -/
theorem SrchCompactOK.insert_file {k : ScoutfsKey} {sfl : SrchFileRef} (h : SrchCompactOK root c)
    (hfresh : ∀ a ∈ c.inputs, a.blkno ≠ sfl.blkno) :
    SrchCompactOK (root.insert k (.file sfl)) c where
  nodup := h.nodup
  gone hdel a ha k' f hf := by
    rcases Finmap.lookup_insert_eq_some.mp hf with ⟨-, hf⟩ | ⟨-, hf⟩
    · cases hf
      exact (hfresh a ha).symm
    · exact h.gone hdel a ha k' f hf
  live hdel a ha k' f hf hblk := by
    rcases Finmap.lookup_insert_eq_some.mp hf with ⟨-, hf⟩ | ⟨-, hf⟩
    · cases hf
      exact absurd hblk.symm (hfresh a ha)
    · exact h.live hdel a ha k' f hf hblk

/-- The file items after a compaction record goes in are those before. -/
theorem lookup_insert_compact_file {k k' : ScoutfsKey} {f : SrchFileRef}
    (h : (root.insert k (.compact c)).lookup k' = some (.file f)) : root.lookup k' = some (.file f) := by
  rcases Finmap.lookup_insert_eq_some.mp h with ⟨-, h⟩ | ⟨-, h⟩
  · cases h
  · exact h

theorem SrchInv.empty : SrchInv ∅ where
  keyed k v h := by
    rw [Finmap.lookup_empty] at h
    cases h
  oneFile k k' a b h := by
    rw [Finmap.lookup_empty] at h
    cases h
  compactOK k c h := by
    rw [Finmap.lookup_empty] at h
    cases h
  apart k k' c c' h := by
    rw [Finmap.lookup_empty] at h
    cases h

/-- Removing any item keeps the invariant: every part of it is about the items there are. -/
theorem SrchInv.erase (h : SrchInv root) (a : ScoutfsKey) : SrchInv (root.erase a) where
  keyed k v hk := h.keyed k v (Finmap.lookup_erase_eq_some.mp hk).2
  oneFile k k' f g hk hk' :=
    h.oneFile k k' f g (Finmap.lookup_erase_eq_some.mp hk).2 (Finmap.lookup_erase_eq_some.mp hk').2
  compactOK k c hk := (h.compactOK k c (Finmap.lookup_erase_eq_some.mp hk).2).erase a
  apart k k' c c' hk hk' :=
    h.apart k k' c c' (Finmap.lookup_erase_eq_some.mp hk).2 (Finmap.lookup_erase_eq_some.mp hk').2

theorem SrchInv.eraseKeys (h : SrchInv root) (ks : List ScoutfsKey) : SrchInv (root.eraseKeys ks) := by
  induction ks generalizing root with
  | nil => exact h
  | cons k ks ih =>
    rw [Finmap.eraseKeys_cons]
    exact ih (h.erase k)

/-- A file of a new blkno, under its own key, keeps the invariant. -/
theorem SrchInv.insert_file (h : SrchInv root) {k : ScoutfsKey} {sfl : SrchFileRef} (hk : k ∉ root)
    (hkey : (SrchItem.file sfl).Keyed k) (hfresh : SrchFresh root sfl.blkno) :
    SrchInv (root.insert k (.file sfl)) where
  keyed k' v hk' := by
    rcases Finmap.lookup_insert_eq_some.mp hk' with ⟨rfl, rfl⟩ | ⟨-, hk'⟩
    · exact hkey
    · exact h.keyed k' v hk'
  oneFile k₁ k₂ a b h₁ h₂ hab := by
    rcases Finmap.lookup_insert_eq_some.mp h₁ with ⟨rfl, hv₁⟩ | ⟨-, hv₁⟩ <;>
      rcases Finmap.lookup_insert_eq_some.mp h₂ with ⟨rfl, hv₂⟩ | ⟨-, hv₂⟩
    · rfl
    · -- an old file of the new file's blkno
      cases hv₁
      exact absurd hab.symm (hfresh.1 k₂ b hv₂)
    · cases hv₂
      exact absurd hab (hfresh.1 k₁ a hv₁)
    · exact h.oneFile k₁ k₂ a b hv₁ hv₂ hab
  compactOK k' c hk' := by
    rcases Finmap.lookup_insert_eq_some.mp hk' with ⟨-, hc⟩ | ⟨-, hk'⟩
    · cases hc
    · exact (h.compactOK k' c hk').insert_file (hfresh.2 k' c hk')
  apart k₁ k₂ c₁ c₂ h₁ h₂ hne := by
    rcases Finmap.lookup_insert_eq_some.mp h₁ with ⟨-, h₁⟩ | ⟨-, h₁⟩
    · cases h₁
    rcases Finmap.lookup_insert_eq_some.mp h₂ with ⟨-, h₂⟩ | ⟨-, h₂⟩
    · cases h₂
    exact h.apart k₁ k₂ c₁ c₂ h₁ h₂ hne

/-- A compaction record under its own free key keeps the invariant when it meets its
conditions and its inputs are apart from every other record's. -/
theorem SrchInv.insert_compact (h : SrchInv root) {k : ScoutfsKey} (hk : k ∉ root)
    (hkey : (SrchItem.compact c).Keyed k) (hok : SrchCompactOK root c)
    (hapart : ∀ k' c', root.lookup k' = some (.compact c') → InputsApart c c') :
    SrchInv (root.insert k (.compact c)) where
  keyed k' v hk' := by
    rcases Finmap.lookup_insert_eq_some.mp hk' with ⟨rfl, rfl⟩ | ⟨-, hk'⟩
    · exact hkey
    · exact h.keyed k' v hk'
  oneFile k₁ k₂ a b h₁ h₂ :=
    h.oneFile k₁ k₂ a b (lookup_insert_compact_file h₁) (lookup_insert_compact_file h₂)
  compactOK k' c' hk' := by
    rcases Finmap.lookup_insert_eq_some.mp hk' with ⟨-, hc⟩ | ⟨-, hk'⟩
    · cases hc
      exact hok.mono fun _ _ => lookup_insert_compact_file
    · exact (h.compactOK k' c' hk').mono fun _ _ => lookup_insert_compact_file
  apart k₁ k₂ c₁ c₂ h₁ h₂ hne := by
    -- the new record against an old one, either way round
    rcases Finmap.lookup_insert_eq_some.mp h₁ with ⟨rfl, hv₁⟩ | ⟨-, hv₁⟩ <;>
      rcases Finmap.lookup_insert_eq_some.mp h₂ with ⟨rfl, hv₂⟩ | ⟨-, hv₂⟩
    · exact absurd rfl hne
    · cases hv₁
      exact hapart k₂ c₂ hv₂
    · cases hv₂
      exact (hapart k₁ c₁ hv₁).symm
    · exact h.apart k₁ k₂ c₁ c₂ hv₁ hv₂ hne

/-- A record that takes the place of the record under `b`, with the same inputs, keeps the
invariant. -/
theorem SrchInv.replace (h : SrchInv root) {b k : ScoutfsKey} {busy : SrchCompactRec}
    (hbusy : root.lookup b = some (.compact busy)) (hk : k ∉ root.erase b)
    (hkey : (SrchItem.compact c).Keyed k) (hinputs : c.inputs = busy.inputs)
    (hok : SrchCompactOK (root.erase b) c) : SrchInv ((root.erase b).insert k (.compact c)) := by
  refine (h.erase b).insert_compact hk hkey hok fun k' c' hk' => ?_
  obtain ⟨hne, hk'⟩ := Finmap.lookup_erase_eq_some.mp hk'
  unfold InputsApart
  rw [hinputs]
  exact h.apart b k' busy c' hbusy hk' (Ne.symm hne)

end Changes

/-! ### Results and file items -/

section Results

variable {root : SrchRoot} {busy res : SrchCompactRec}

/-- Bits under a mask that holds them agree when the masked words agree. -/
theorem and_bit_eq_of_and_mask_eq {x y m b : UInt8} (hm : m &&& b = b) (h : x &&& m = y &&& m) :
    x &&& b = y &&& b := by
  rw [← hm, ← UInt8.and_assoc, h, UInt8.and_assoc]

theorem SrchResultOf.refl (c : SrchCompactRec) : SrchResultOf c c :=
  ⟨rfl, rfl, rfl⟩

theorem SrchResultOf.delete_eq (h : SrchResultOf busy res) :
    res.flags &&& SCOUTFS_SRCH_COMPACT_FLAG_DELETE = busy.flags &&& SCOUTFS_SRCH_COMPACT_FLAG_DELETE :=
  and_bit_eq_of_and_mask_eq (by decide) h.2.2

theorem SrchResultOf.compactType_eq (h : SrchResultOf busy res) :
    srchCompactType res.flags = srchCompactType busy.flags := by
  unfold srchCompactType
  rw [and_bit_eq_of_and_mask_eq (by decide) h.2.2]

/-- A client's result meets the conditions its busy record met: it has the same input files,
and the same kind and phase. -/
theorem SrchCompactOK.of_resultOf (hc : SrchCompactOK root busy) (hr : SrchResultOf busy res) :
    SrchCompactOK root res where
  nodup := by
    rw [hr.2.1]
    exact hc.nodup
  gone hdel := by
    rw [hr.2.1]
    rw [hr.delete_eq] at hdel
    exact hc.gone hdel
  live hdel := by
    rw [hr.2.1, hr.compactType_eq]
    rw [hr.delete_eq] at hdel
    exact hc.live hdel

theorem InputsApart.of_resultOf {c : SrchCompactRec} (h : InputsApart busy c)
    (hr : SrchResultOf busy res) : InputsApart res c := by
  unfold InputsApart
  rw [hr.2.1]
  exact h

/-- Two roots with the same file items. -/
def SameFiles (root root' : SrchRoot) : Prop :=
  ∀ k f, root'.lookup k = some (.file f) ↔ root.lookup k = some (.file f)

theorem SameFiles.refl (root : SrchRoot) : SameFiles root root :=
  fun _ _ => Iff.rfl

theorem SameFiles.trans {root₁ root₂ : SrchRoot} (h₁ : SameFiles root root₁)
    (h₂ : SameFiles root₁ root₂) : SameFiles root root₂ :=
  fun k f => (h₂ k f).trans (h₁ k f)

/-- Putting a compaction record under a key that holds no file keeps the file items. -/
theorem sameFiles_insert_compact {k : ScoutfsKey} {c : SrchCompactRec}
    (hk : ∀ f, root.lookup k ≠ some (.file f)) : SameFiles root (root.insert k (.compact c)) := by
  intro x f
  rw [Finmap.lookup_insert_eq_some]
  constructor
  · rintro (⟨-, hv⟩ | ⟨-, hx⟩)
    · cases hv
    · exact hx
  · intro hx
    refine .inr ⟨fun hxk => ?_, hx⟩
    subst hxk
    exact hk f hx

/-- Removing a key that holds no file keeps the file items. -/
theorem sameFiles_erase {k : ScoutfsKey} (hk : ∀ f, root.lookup k ≠ some (.file f)) :
    SameFiles root (root.erase k) := by
  intro x f
  rw [Finmap.lookup_erase_eq_some]
  constructor
  · exact fun hx => hx.2
  · intro hx
    refine ⟨fun hxk => ?_, hx⟩
    subst hxk
    exact hk f hx

theorem not_file_of_compact {k : ScoutfsKey} {c : SrchCompactRec}
    (hk : root.lookup k = some (.compact c)) (f : SrchFileRef) : root.lookup k ≠ some (.file f) := by
  rw [hk]
  intro h
  cases h

theorem not_file_of_not_mem {k : ScoutfsKey} (hk : k ∉ root) (f : SrchFileRef) :
    root.lookup k ≠ some (.file f) := by
  rw [Finmap.lookup_eq_none.mpr hk]
  intro h
  cases h

end Results

/-! ### Keys of the srch zone -/

theorem SrchItem.Keyed.zone {k : ScoutfsKey} {v : SrchItem} (h : v.Keyed k) :
    k.zone = SCOUTFS_SRCH_ZONE := by
  cases v with
  | file sfl =>
    rcases h with rfl | rfl <;>
    · unfold initFileKey
      split <;> rfl
  | compact sc =>
    rcases h with rfl | ⟨rid, rfl⟩ <;> rfl

/-- A key of the srch zone is far below the greatest key, so the loops' increments never
wrap. -/
theorem toNat_add_two_lt {k : ScoutfsKey} (hz : k.zone = SCOUTFS_SRCH_ZONE) :
    k.toNat + 2 < 2 ^ 216 := by
  have := k.first.toNat_lt
  have := k.second.toNat_lt
  have := k.third.toNat_lt
  have := k.type.toNat_lt
  have := k.fourth.toNat_lt
  have hz' : k.zone.toNat = 32 := by rw [hz]; rfl
  simp only [ScoutfsKey.toNat, hz']
  omega

theorem lt_scoutfsKeyInc_iff_of_zone {k x : ScoutfsKey} (hz : k.zone = SCOUTFS_SRCH_ZONE) :
    x < scoutfsKeyInc k ↔ x ≤ k := by
  have := toNat_add_two_lt hz
  rw [ScoutfsKey.lt_iff_toNat, ScoutfsKey.le_iff_toNat, toNat_scoutfsKeyInc]
  omega

theorem lt_scoutfsKeyInc_inc_of_le {k x : ScoutfsKey} (hz : k.zone = SCOUTFS_SRCH_ZONE)
    (hx : x ≤ k) : x < scoutfsKeyInc (scoutfsKeyInc k) := by
  have := toNat_add_two_lt hz
  rw [ScoutfsKey.le_iff_toNat] at hx
  rw [ScoutfsKey.lt_iff_toNat, toNat_scoutfsKeyInc, toNat_scoutfsKeyInc]
  omega

/-- Of two srch keys, the one of the smaller type comes first. -/
theorem initSrchKey_lt_of_type_lt {t t' : UInt8} (ht : t < t') (a b a' b' : UInt64) :
    initSrchKey t a b < initSrchKey t' a' b' := by
  have := a.toNat_lt
  have := b.toNat_lt
  have := a'.toNat_lt
  have := b'.toNat_lt
  rw [UInt8.lt_iff_toNat_lt] at ht
  rw [ScoutfsKey.lt_iff_toNat]
  simp only [ScoutfsKey.toNat, initSrchKey]
  omega

theorem initSrchKey_zero_le (t : UInt8) (a b : UInt64) : initSrchKey t 0 0 ≤ initSrchKey t a b := by
  have := a.toNat_lt
  have := b.toNat_lt
  rw [ScoutfsKey.le_iff_toNat]
  simp only [ScoutfsKey.toNat, initSrchKey, UInt64.toNat_zero]
  omega

/-- Every compaction record sits at or after the first pending key. -/
theorem SrchInv.pending_le {root : SrchRoot} (h : SrchInv root) {k : ScoutfsKey}
    {c : SrchCompactRec} (hk : root.lookup k = some (.compact c)) :
    initSrchKey SCOUTFS_SRCH_PENDING_TYPE 0 0 ≤ k := by
  rcases h.keyed k _ hk with rfl | ⟨rid, rfl⟩
  · exact initSrchKey_zero_le _ _ _
  · exact (initSrchKey_lt_of_type_lt (by decide) _ _ _ _).le

theorem initSrchKey_pending_ne_busy (a b c d : UInt64) :
    initSrchKey SCOUTFS_SRCH_PENDING_TYPE a b ≠ initSrchKey SCOUTFS_SRCH_BUSY_TYPE c d :=
  fun h => absurd (initSrchKey_inj.mp h).1 (by decide)

/-- A file item's key is of a file type. -/
theorem SrchInv.file_type {root : SrchRoot} (h : SrchInv root) {k : ScoutfsKey}
    {f : SrchFileRef} (hk : root.lookup k = some (.file f)) :
    k.type = SCOUTFS_SRCH_LOG_TYPE ∨ k.type = SCOUTFS_SRCH_BLOCKS_TYPE := by
  rcases h.keyed k _ hk with rfl | rfl
  · exact .inl (initFileKey_type _ _)
  · exact .inr (initFileKey_type _ _)

/-- A busy key of the root holds a compaction record. -/
theorem SrchInv.busy_compact {root : SrchRoot} (h : SrchInv root) {rid id : UInt64}
    (hmem : initSrchKey SCOUTFS_SRCH_BUSY_TYPE rid id ∈ root) :
    ∃ busy, root.lookup (initSrchKey SCOUTFS_SRCH_BUSY_TYPE rid id) = some (.compact busy) := by
  obtain ⟨v, hv⟩ := Option.isSome_iff_exists.mp (Finmap.lookup_isSome.mpr hmem)
  cases v with
  | file f =>
    rcases h.file_type hv with ht | ht <;> rw [initSrchKey_type] at ht <;> exact absurd ht (by decide)
  | compact busy => exact ⟨busy, hv⟩

/-! ### Rotating log files -/

/-- A rotation leaves the root or puts the file in under its log key, which was free. -/
theorem scoutfsSrchRotateLog_root (st : SrchState) (sfl : SrchFileRef) (force : Bool) :
    (scoutfsSrchRotateLog st sfl force).2.root = st.root ∨
      initFileKey SCOUTFS_SRCH_LOG_TYPE sfl ∉ st.root ∧
        (scoutfsSrchRotateLog st sfl force).2.root =
          st.root.insert (initFileKey SCOUTFS_SRCH_LOG_TYPE sfl) (.file sfl) := by
  unfold scoutfsSrchRotateLog
  split_ifs
  · exact .inl rfl
  · rw [initFileKey_log]
    rcases hins : srchBtreeInsert st (initSrchKey SCOUTFS_SRCH_LOG_TYPE sfl.blkno 0) (.file sfl) with
      ⟨ret, st'⟩
    rcases srchBtreeInsert_root hins with ⟨-, hroot⟩ | ⟨-, hk, hroot⟩
    · exact .inl hroot
    · exact .inr ⟨hk, hroot⟩

/-! ### Getting a compaction -/

section GetCompact

variable {root : SrchRoot}

/-- The first loop returns a record that is not under a busy key. -/
theorem getCompactScan_pending :
    ∀ {fuel : ℕ} {key : ScoutfsKey} {busy busy' : List UInt64} {sc : SrchCompactRec},
      getCompactScan root fuel key busy = some (.ok (some sc, busy')) →
        ∃ k, root.lookup k = some (.compact sc) ∧ k.type ≠ SCOUTFS_SRCH_BUSY_TYPE
  | 0, _, _, _, _, h => by cases h
  | fuel + 1, key, busy, busy', sc, h => by
    rw [getCompactScan] at h
    rcases hnext : srchBtreeNext root key with _ | ⟨k, _ | c⟩
    · rw [hnext] at h
      cases h
    · rw [hnext] at h
      cases h
    · rw [hnext] at h
      dsimp only at h
      split_ifs at h with hbusy
      · exact getCompactScan_pending h
      · cases h
        exact ⟨k, (srchBtreeNext_some hnext).1, hbusy⟩

/-- When the first loop finds no pending record, its bitmap holds the inputs of every
record: it walked every record from its start key on, and those before were in the bitmap
it started with. -/
theorem getCompactScan_busy (h : SrchInv root) :
    ∀ {fuel : ℕ} {key : ScoutfsKey} {busy busy' : List UInt64},
      getCompactScan root fuel key busy = some (.ok (none, busy')) →
      (∀ k c, root.lookup k = some (.compact c) → k < key → ∀ a ∈ c.inputs, a.blkno ∈ busy) →
        ∀ k c, root.lookup k = some (.compact c) → ∀ a ∈ c.inputs, a.blkno ∈ busy'
  | 0, _, _, _, hscan, _ => by cases hscan
  | fuel + 1, key, busy, busy', hscan, hbefore => by
    rw [getCompactScan] at hscan
    rcases hnext : srchBtreeNext root key with _ | ⟨k, _ | c⟩
    · -- nothing at or after the key: every record is before it
      rw [hnext] at hscan
      cases hscan
      intro k c hk
      exact hbefore k c hk (srchBtreeNext_none hnext k (Finmap.mem_of_lookup_eq_some hk))
    · rw [hnext] at hscan
      cases hscan
    · obtain ⟨hkc, -, hmin⟩ := srchBtreeNext_some hnext
      rw [hnext] at hscan
      dsimp only at hscan
      split_ifs at hscan with hbusy
      · -- a busy record: its inputs join the bitmap, and the loop goes on after it
        refine getCompactScan_busy h hscan fun k' c' hk' hlt a ha => ?_
        rcases ((lt_scoutfsKeyInc_iff_of_zone (h.keyed k _ hkc).zone).mp hlt).lt_or_eq with
          hlt' | rfl
        · have hkey : k' < key := lt_of_not_ge fun hkey =>
            not_le.mpr hlt' (hmin k' (Finmap.mem_of_lookup_eq_some hk') hkey)
          exact List.mem_append_left _ (hbefore k' c' hk' hkey a ha)
        · rw [hkc] at hk'
          cases hk'
          exact List.mem_append_right _ (List.mem_map_of_mem ha)
      · cases hscan

/-- The files the second loop has gathered before key `key`: files of `type` outside the
bitmap, under keys before `key`, of distinct blknos. -/
def SelectedFiles (root : SrchRoot) (busy : List UInt64) (type : UInt8) (key : ScoutfsKey)
    (ins : List SrchFileRef) : Prop :=
  (∀ sfl ∈ ins, ∃ k < key, root.lookup k = some (.file sfl) ∧ k.type = type ∧ sfl.blkno ∉ busy) ∧
    (ins.map fun sfl => sfl.blkno).Nodup

theorem SelectedFiles.nil (busy : List UInt64) (type : UInt8) (key : ScoutfsKey) :
    SelectedFiles root busy type key [] :=
  ⟨fun _ h => absurd h List.not_mem_nil, List.nodup_nil⟩

theorem SelectedFiles.mono_key {busy : List UInt64} {type : UInt8} {key key' : ScoutfsKey}
    {ins : List SrchFileRef} (h : SelectedFiles root busy type key ins) (hle : key ≤ key') :
    SelectedFiles root busy type key' ins :=
  ⟨fun sfl hsfl => by
    obtain ⟨k, hk, hrest⟩ := h.1 sfl hsfl
    exact ⟨k, lt_of_lt_of_le hk hle, hrest⟩, h.2⟩

/-- Gathering a file found at or after the loop's key keeps the files gathered: one file item
of each blkno. -/
theorem SelectedFiles.snoc (hinv : SrchInv root) {busy : List UInt64} {type : UInt8}
    {key k : ScoutfsKey} {ins : List SrchFileRef} {sfl : SrchFileRef}
    (h : SelectedFiles root busy type key ins) (hk : root.lookup k = some (.file sfl))
    (hkey : key ≤ k) (htype : k.type = type) (hbusy : sfl.blkno ∉ busy) :
    SelectedFiles root busy type (scoutfsKeyInc (scoutfsKeyInc k)) (ins ++ [sfl]) := by
  have hz := (hinv.keyed k _ hk).zone
  refine ⟨fun a ha => ?_, ?_⟩
  · rcases List.mem_append.mp ha with ha | ha
    · obtain ⟨k', hk', hrest⟩ := h.1 a ha
      exact ⟨k', lt_scoutfsKeyInc_inc_of_le hz (hk'.le.trans hkey), hrest⟩
    · rw [List.mem_singleton] at ha
      subst ha
      exact ⟨k, lt_scoutfsKeyInc_inc_of_le hz le_rfl, hk, htype, hbusy⟩
  · rw [List.map_append, List.nodup_append]
    refine ⟨h.2, List.nodup_singleton _, fun b hb c hc hbc => ?_⟩
    -- an earlier file of the same blkno would be the same file item, before the key
    obtain ⟨a, ha, rfl⟩ := List.mem_map.mp hb
    rw [List.map_singleton, List.mem_singleton] at hc
    subst hc
    obtain ⟨k', hk', hak', -⟩ := h.1 a ha
    have := hinv.oneFile k' k a sfl hak' hk hbc
    exact absurd (this ▸ hk') (not_lt.mpr hkey)

theorem getCompactRegroup_snd (type : UInt8) (order curOrder : ℤ) (ins : List SrchFileRef) :
    (getCompactRegroup type order curOrder ins).2 = [] ∨
      (getCompactRegroup type order curOrder ins).2 = ins := by
  unfold getCompactRegroup
  split_ifs
  · exact .inl rfl
  · exact .inr rfl

/-- The second loop gathers files of its type, outside the bitmap, of distinct blknos. -/
theorem getCompactSelect_files (h : SrchInv root) {busy : List UInt64} {type : UInt8} :
    ∀ {fuel : ℕ} {key : ScoutfsKey} {curOrder : ℤ} {ins ins' : List SrchFileRef},
      getCompactSelect root busy type fuel key curOrder ins = some (.ok (some ins')) →
      SelectedFiles root busy type key ins → ∃ key', SelectedFiles root busy type key' ins'
  | 0, _, _, _, _, hsel, _ => by cases hsel
  | fuel + 1, key, curOrder, ins, ins', hsel, hins => by
    rw [getCompactSelect] at hsel
    rcases hnext : srchBtreeNext root key with _ | ⟨k, v⟩
    · rw [hnext] at hsel
      cases hsel
    obtain ⟨hkv, hle, -⟩ := srchBtreeNext_some hnext
    have hz := (h.keyed k v hkv).zone
    rw [hnext] at hsel
    dsimp only at hsel
    split_ifs at hsel with htype
    · cases hsel
    cases v with
    | compact c => cases hsel
    | file sfl =>
      dsimp only at hsel
      by_cases hbusy : sfl.blkno ∈ busy
      · -- a busy file is skipped
        rw [if_pos hbusy] at hsel
        exact getCompactSelect_files h hsel
          (hins.mono_key (hle.trans ((lt_scoutfsKeyInc_iff_of_zone hz).mpr le_rfl).le))
      · rw [if_neg hbusy] at hsel
        rcases hg : getCompactRegroup type (fls64 sfl.blocks / SCOUTFS_SRCH_COMPACT_ORDER : ℕ)
          curOrder ins with ⟨curOrder', base⟩
        rw [hg] at hsel
        dsimp only at hsel
        -- the gathering goes on from nothing or from all it had
        have hbase : SelectedFiles root busy type key base := by
          rcases getCompactRegroup_snd type (fls64 sfl.blocks / SCOUTFS_SRCH_COMPACT_ORDER : ℕ)
            curOrder ins with hb | hb <;> rw [hg] at hb <;> dsimp only at hb <;> subst hb
          · exact SelectedFiles.nil busy type key
          · exact hins
        have hadd := hbase.snoc h hkv hle (not_not.mp htype) hbusy
        split_ifs at hsel with hlen
        · cases hsel
          exact ⟨_, hadd⟩
        · exact getCompactSelect_files h hsel hadd

theorem getCompactNew_inputs (type : UInt8) (ins : List SrchFileRef) :
    (getCompactNew type ins).inputs = ins := by
  simp [getCompactNew, SrchCompactRec.inputs, List.map_map, Function.comp_def]

theorem getCompactNew_flags (type : UInt8) (ins : List SrchFileRef) :
    (getCompactNew type ins).flags =
      if type = SCOUTFS_SRCH_LOG_TYPE then SCOUTFS_SRCH_COMPACT_FLAG_LOG
      else SCOUTFS_SRCH_COMPACT_FLAG_SORTED :=
  rfl

theorem getCompactNew_delete (type : UInt8) (ins : List SrchFileRef) :
    (getCompactNew type ins).flags &&& SCOUTFS_SRCH_COMPACT_FLAG_DELETE = 0 := by
  rw [getCompactNew_flags]
  split <;> decide

theorem srchCompactType_getCompactNew {type : UInt8}
    (htype : type = SCOUTFS_SRCH_LOG_TYPE ∨ type = SCOUTFS_SRCH_BLOCKS_TYPE) (ins : List SrchFileRef) :
    srchCompactType (getCompactNew type ins).flags = type := by
  rw [getCompactNew_flags]
  rcases htype with rfl | rfl <;> decide

theorem getCompactStart_root (st : SrchState) (rid : UInt64) (type : UInt8) (ins : List SrchFileRef) :
    (getCompactStart st rid type ins).2.1.root = st.root ∨
      initSrchKey SCOUTFS_SRCH_BUSY_TYPE rid (getCompactNew type ins).id ∉ st.root ∧
        (getCompactStart st rid type ins).2.1.root =
          st.root.insert (initSrchKey SCOUTFS_SRCH_BUSY_TYPE rid (getCompactNew type ins).id)
            (.compact (getCompactNew type ins)) := by
  unfold getCompactStart
  dsimp only
  rcases hins : srchBtreeInsert st (initSrchKey SCOUTFS_SRCH_BUSY_TYPE rid (getCompactNew type ins).id)
    (.compact (getCompactNew type ins)) with ⟨ret, st'⟩
  rcases srchBtreeInsert_root hins with ⟨-, hroot⟩ | ⟨-, hk, hroot⟩
  · exact .inl hroot
  · exact .inr ⟨hk, hroot⟩

/-- The changes `scoutfs_srch_get_compact` for client `rid` makes to the root. -/
inductive GetCompactChange (root : SrchRoot) (rid : UInt64) : SrchRoot → Prop
  /-- an error, nothing to compact, or a change undone -/
  | same : GetCompactChange root rid root
  /-- the pending record `c` moves to busy -/
  | resume {c : SrchCompactRec}
      (hpend : root.lookup (initSrchKey SCOUTFS_SRCH_PENDING_TYPE c.id 0) = some (.compact c))
      (hfree : initSrchKey SCOUTFS_SRCH_BUSY_TYPE rid c.id ∉ root) :
      GetCompactChange root rid
        ((root.insert (initSrchKey SCOUTFS_SRCH_BUSY_TYPE rid c.id) (.compact c)).erase
          (initSrchKey SCOUTFS_SRCH_PENDING_TYPE c.id 0))
  /-- a new busy record for files `ins` of one type that no record reads -/
  | start {type : UInt8} {ins : List SrchFileRef}
      (htype : type = SCOUTFS_SRCH_LOG_TYPE ∨ type = SCOUTFS_SRCH_BLOCKS_TYPE)
      (hfiles : ∀ sfl ∈ ins, ∃ k, root.lookup k = some (.file sfl) ∧ k.type = type)
      (hnodup : (ins.map fun sfl => sfl.blkno).Nodup)
      (hapart : ∀ k c, root.lookup k = some (.compact c) →
        ∀ a ∈ c.inputs, ∀ sfl ∈ ins, a.blkno ≠ sfl.blkno)
      (hfree : initSrchKey SCOUTFS_SRCH_BUSY_TYPE rid (getCompactNew type ins).id ∉ root) :
      GetCompactChange root rid
        (root.insert (initSrchKey SCOUTFS_SRCH_BUSY_TYPE rid (getCompactNew type ins).id)
          (.compact (getCompactNew type ins)))

/-- A new record from the files the second loop gathered. -/
theorem getCompactStart_change {faults : List Bool} {rid : UInt64} {busy : List UInt64}
    {type : UInt8} {ins : List SrchFileRef}
    (hall : ∀ k c, root.lookup k = some (.compact c) → ∀ a ∈ c.inputs, a.blkno ∈ busy)
    (htype : type = SCOUTFS_SRCH_LOG_TYPE ∨ type = SCOUTFS_SRCH_BLOCKS_TYPE)
    (hsel : ∃ key, SelectedFiles root busy type key ins) :
    GetCompactChange root rid (getCompactStart ⟨root, faults⟩ rid type ins).2.1.root := by
  obtain ⟨key, hfiles, hnodup⟩ := hsel
  rcases getCompactStart_root ⟨root, faults⟩ rid type ins with hroot | ⟨hfree, hroot⟩
  · rw [hroot]
    exact .same
  · rw [hroot]
    refine .start htype (fun sfl hsfl => ?_) hnodup (fun k c hk a ha sfl hsfl hab => ?_) hfree
    · obtain ⟨k, -, hk, hkt, -⟩ := hfiles sfl hsfl
      exact ⟨k, hk, hkt⟩
    · -- every record's inputs are in the bitmap, and the gathered files are not
      obtain ⟨-, -, -, -, hnot⟩ := hfiles sfl hsfl
      exact hnot (hab ▸ hall k c hk a ha)

/-- What `scoutfs_srch_get_compact` can do to the root. -/
theorem scoutfsSrchGetCompact_change (h : SrchInv root) {faults : List Bool} {rid : UInt64}
    {ret : Int} {st : SrchState} {sc : SrchCompactRec}
    (hget : scoutfsSrchGetCompact ⟨root, faults⟩ rid = some (ret, st, sc)) :
    GetCompactChange root rid st.root := by
  unfold scoutfsSrchGetCompact at hget
  dsimp only at hget
  rcases hscan : getCompactScan root (root.keys.card + 1) (initSrchKey SCOUTFS_SRCH_PENDING_TYPE 0 0)
    [] with _ | (ret₀ | ⟨_ | c, busy⟩)
  · rw [hscan] at hget
    cases hget
  · rw [hscan] at hget
    cases hget
    exact .same
  · -- no pending record: the bitmap holds every record's inputs
    rw [hscan] at hget
    dsimp only at hget
    have hall := getCompactScan_busy h hscan fun k c hk hlt => absurd (h.pending_le hk) (not_le.mpr hlt)
    rcases hlog : getCompactSelect root busy SCOUTFS_SRCH_LOG_TYPE (root.keys.card + 1)
      (initSrchKey SCOUTFS_SRCH_LOG_TYPE 0 0) (-1) [] with _ | (ret₁ | (_ | ins))
    · rw [hlog] at hget
      cases hget
    · rw [hlog] at hget
      cases hget
      exact .same
    · -- no log files to compact: sorted files
      rw [hlog] at hget
      dsimp only at hget
      rcases hblk : getCompactSelect root busy SCOUTFS_SRCH_BLOCKS_TYPE (root.keys.card + 1)
        (scoutfsKeyInc (initSrchKey SCOUTFS_SRCH_BLOCKS_TYPE 0 0)) (-1) [] with
          _ | (ret₂ | (_ | ins))
      · rw [hblk] at hget
        cases hget
      · rw [hblk] at hget
        cases hget
        exact .same
      · rw [hblk] at hget
        cases hget
        exact .same
      · rw [hblk] at hget
        have hst : st = (getCompactStart ⟨root, faults⟩ rid SCOUTFS_SRCH_BLOCKS_TYPE ins).2.1 := by
          rw [Option.some_inj.mp hget]
        rw [hst]
        exact getCompactStart_change hall (.inr rfl)
          (getCompactSelect_files h hblk (SelectedFiles.nil _ _ _))
    · rw [hlog] at hget
      have hst : st = (getCompactStart ⟨root, faults⟩ rid SCOUTFS_SRCH_LOG_TYPE ins).2.1 := by
        rw [Option.some_inj.mp hget]
      rw [hst]
      exact getCompactStart_change hall (.inl rfl)
        (getCompactSelect_files h hlog (SelectedFiles.nil _ _ _))
  · -- a pending record, which sits under its id's pending key
    rw [hscan] at hget
    dsimp only at hget
    obtain ⟨k, hk, htype⟩ := getCompactScan_pending hscan
    have hkey : k = initSrchKey SCOUTFS_SRCH_PENDING_TYPE c.id 0 := by
      rcases h.keyed k _ hk with hk' | ⟨rid', rfl⟩
      · exact hk'
      · exact absurd rfl htype
    subst hkey
    rcases hins : srchBtreeInsert ⟨root, faults⟩ (initSrchKey SCOUTFS_SRCH_BUSY_TYPE rid c.id)
      (.compact c) with ⟨ret₁, st₁⟩
    rw [hins] at hget
    dsimp only at hget
    rcases srchBtreeInsert_root hins with ⟨hret₁, hroot₁⟩ | ⟨rfl, hfree, hroot₁⟩
    · rw [if_pos hret₁] at hget
      cases hget
      rw [hroot₁]
      exact .same
    rw [if_neg (lt_irrefl 0)] at hget
    rcases hdel : srchBtreeDelete st₁ (initSrchKey SCOUTFS_SRCH_PENDING_TYPE c.id 0) with ⟨ret₂, st₂⟩
    rw [hdel] at hget
    dsimp only at hget
    rcases srchBtreeDelete_root hdel with ⟨hret₂, hroot₂⟩ | ⟨rfl, -, hroot₂⟩
    · -- the pending item stays, so the busy item goes back out
      rw [if_pos hret₂] at hget
      rcases hdel' : srchBtreeDelete st₂ (initSrchKey SCOUTFS_SRCH_BUSY_TYPE rid c.id) with ⟨err, st₃⟩
      rw [hdel'] at hget
      dsimp only at hget
      split_ifs at hget with herr
      cases hget
      rcases srchBtreeDelete_root hdel' with ⟨herr', -⟩ | ⟨-, -, hroot₃⟩
      · exact absurd herr' (by omega)
      · rw [hroot₃, hroot₂, hroot₁, Finmap.erase_insert_of_not_mem hfree]
        exact .same
    · rw [if_neg (lt_irrefl 0)] at hget
      cases hget
      rw [hroot₂, hroot₁]
      exact .resume hk hfree

theorem GetCompactChange.inv {root' : SrchRoot} {rid : UInt64} (h : SrchInv root)
    (hc : GetCompactChange root rid root') : SrchInv root' := by
  cases hc with
  | same => exact h
  | resume hpend hfree =>
    -- the record leaves its pending key and comes back under the busy one
    rw [Finmap.erase_insert_comm _ (initSrchKey_pending_ne_busy _ _ _ _)]
    exact h.replace hpend (fun hmem => hfree (Finmap.mem_erase.mp hmem).2) (.inr ⟨rid, rfl⟩) rfl
      ((h.compactOK _ _ hpend).erase _)
  | @start type ins htype hfiles hnodup hapart hfree =>
    refine h.insert_compact hfree (.inr ⟨rid, rfl⟩) ⟨?_, ?_, ?_⟩ fun k c hk => ?_
    · rw [getCompactNew_inputs]
      exact hnodup
    · exact fun hdel => absurd (getCompactNew_delete type ins) hdel
    · -- a file item of an input's blkno is the input, under its key
      intro _ sfl hsfl k f hf hblk
      rw [getCompactNew_inputs] at hsfl
      obtain ⟨k', hk', hk't⟩ := hfiles sfl hsfl
      obtain rfl : k = k' := h.oneFile k k' f sfl hf hk' hblk
      rw [hf] at hk'
      cases hk'
      refine ⟨rfl, ?_⟩
      rw [srchCompactType_getCompactNew htype]
      rcases h.keyed k _ hf with hkey | hkey <;> rw [hkey, initFileKey_type] at hk't <;>
        rw [← hk't] <;> exact hkey
    · intro a ha b hb hab
      rw [getCompactNew_inputs] at ha
      exact hapart k c hk b hb a ha hab.symm

theorem GetCompactChange.sameFiles {root' : SrchRoot} {rid : UInt64}
    (hc : GetCompactChange root rid root') : SameFiles root root' := by
  cases hc with
  | same => exact SameFiles.refl root
  | resume hpend hfree =>
    refine (sameFiles_insert_compact (not_file_of_not_mem hfree)).trans (sameFiles_erase ?_)
    rw [Finmap.lookup_insert_of_ne _ (initSrchKey_pending_ne_busy _ _ _ _)]
    exact not_file_of_compact hpend
  | start _ _ _ _ hfree => exact sameFiles_insert_compact (not_file_of_not_mem hfree)

end GetCompact

/-! ### Updating and cancelling -/

theorem scoutfsSrchUpdateCompact_root (st : SrchState) (rid : UInt64) (sc : SrchCompactRec) :
    (scoutfsSrchUpdateCompact st rid sc).2.root = st.root ∨
      initSrchKey SCOUTFS_SRCH_BUSY_TYPE rid sc.id ∈ st.root ∧
        (scoutfsSrchUpdateCompact st rid sc).2.root =
          st.root.insert (initSrchKey SCOUTFS_SRCH_BUSY_TYPE rid sc.id) (.compact sc) := by
  unfold scoutfsSrchUpdateCompact
  rcases hupd : srchBtreeUpdate st (initSrchKey SCOUTFS_SRCH_BUSY_TYPE rid sc.id) (.compact sc) with
    ⟨ret, st'⟩
  rcases srchBtreeUpdate_root hupd with ⟨-, hroot⟩ | ⟨-, hk, hroot⟩
  · exact .inl hroot
  · exact .inr ⟨hk, hroot⟩

theorem scoutfsSrchCancelCompact_root (st : SrchState) (rid : UInt64) :
    (scoutfsSrchCancelCompact st rid).2.root = st.root ∨
      ∃ k c, st.root.lookup k = some (.compact c) ∧
        (scoutfsSrchCancelCompact st rid).2.root = st.root.erase k := by
  unfold scoutfsSrchCancelCompact
  rcases hnext : srchBtreeNext st.root (initSrchKey SCOUTFS_SRCH_BUSY_TYPE rid 0) with
    _ | ⟨k, _ | c⟩
  · exact .inl rfl
  · dsimp only
    split_ifs <;> exact .inl rfl
  · dsimp only
    split_ifs
    · exact .inl rfl
    · rcases hdel : srchBtreeDelete st k with ⟨ret, st'⟩
      rcases srchBtreeDelete_root hdel with ⟨-, hroot⟩ | ⟨-, -, hroot⟩
      · exact .inl hroot
      · exact .inr ⟨k, c, (srchBtreeNext_some hnext).1, hroot⟩

end Scoutfs
