/-
What the extent helpers do to the set of extents a store holds.

The callbacks are specified against an abstraction `R s E` ("store `s` holds
exactly the extents `E`"): `insert` adds one extent or fails leaving the
store's contents as they were, `remove` takes one held extent out or fails
likewise, and `next s start 1` finds the held extent with the least last block
at or after `start`.  Under these specifications:

* `applyChanges_lawful` — `apply_changes` either completes all changes, or
  fails with the store back at its old contents (the undo sequence restores
  it), or stops at `BUG_ON`;
* for stores of free extents (no mapping, no flags) that are pairwise
  separated — disjoint and never adjacent — `scoutfs_ext_insert`,
  `scoutfs_ext_remove` and `scoutfs_ext_alloc` keep the store a separated
  set of free extents (`extInsert_freeSet`, `extRemove_freeSet`,
  `extAlloc_freeSet`).

Block arithmetic is done on `toNat`, where a valid extent ends strictly below
`2 ^ 64`; the `u64` sums of the source agree with the natural ones there.
-/
import Scoutfs.Ext
import Mathlib.Data.Finset.Basic
import Mathlib.Data.List.Pairwise

namespace Scoutfs

/-! ### Extents as ranges of naturals -/

/-- A stored extent: non-empty, and its blocks `[start, start + len)` below `2 ^ 64 - 1`, so
that neither its end nor a merge with a neighbour wraps. -/
def ExtValid (e : ScoutfsExtent) : Prop :=
  0 < e.len.toNat ∧ e.start.toNat + e.len.toNat < 2 ^ 64

/-- Two extents are separated: disjoint, with at least one block between them. -/
def Separated (a b : ScoutfsExtent) : Prop :=
  a.start.toNat + a.len.toNat < b.start.toNat ∨ b.start.toNat + b.len.toNat < a.start.toNat

/-- A free extent carries neither a mapping nor flags. -/
def ExtFree (e : ScoutfsExtent) : Prop := e.map = 0 ∧ e.flags = 0

/-- A set of valid free extents that are pairwise separated. -/
structure FreeSet (E : Finset ScoutfsExtent) : Prop where
  valid : ∀ e ∈ E, ExtValid e
  free : ∀ e ∈ E, ExtFree e
  separated : ∀ a ∈ E, ∀ b ∈ E, a ≠ b → Separated a b

/-- The last block of an extent, with the source's `u64` arithmetic. -/
def extLast (e : ScoutfsExtent) : UInt64 := e.start + e.len - 1

theorem extLast_toNat {e : ScoutfsExtent} (h : ExtValid e) :
    (extLast e).toNat = e.start.toNat + e.len.toNat - 1 := by
  obtain ⟨h₁, h₂⟩ := h
  simp only [extLast, UInt64.toNat_sub, UInt64.toNat_add, UInt64.toNat_one]
  omega

theorem separated_comm {a b : ScoutfsExtent} : Separated a b ↔ Separated b a := or_comm

instance : Std.Symm Separated := ⟨fun _ _ h => separated_comm.mp h⟩

/-! ### The callbacks' specifications -/

section Lawful

variable {σ : Type} (ops : ScoutfsExtOps σ) (R : σ → Finset ScoutfsExtent → Prop)

/-- `insert` of a non-empty extent adds it to the store's contents, or fails with them
unchanged, or stops at `BUG_ON`. -/
def InsertLawful : Prop :=
  ∀ s E e, R s E → e.len ≠ 0 →
    ops.insert s e.start e.len e.map e.flags = none ∨
    (∃ r s', ops.insert s e.start e.len e.map e.flags = some (r, s') ∧ r < 0 ∧ R s' E) ∨
    (∃ s', ops.insert s e.start e.len e.map e.flags = some (0, s') ∧ e ∉ E ∧
      R s' (insert e E))

/-- `remove` of a held extent takes it out, or fails with the contents unchanged, or stops
at `BUG_ON`. -/
def RemoveLawful : Prop :=
  ∀ s E e, R s E → e ∈ E →
    ops.remove s e.start e.len e.map e.flags = none ∨
    (∃ r s', ops.remove s e.start e.len e.map e.flags = some (r, s') ∧ r < 0 ∧ R s' E) ∨
    (∃ s', ops.remove s e.start e.len e.map e.flags = some (0, s') ∧ R s' (E.erase e))

/-- `next s start 1` finds the held extent with the least last block at or after `start`,
or reports `-ENOENT` with a zeroed extent when every held extent ends before `start`. -/
def NextLawful : Prop :=
  ∀ s E start, R s E →
    (∃ e, ops.next s start 1 = (0, e) ∧ e ∈ E ∧ start ≤ extLast e ∧
      ∀ f ∈ E, start ≤ extLast f → extLast e ≤ extLast f) ∨
    (ops.next s start 1 = (-ENOENT, extZero) ∧ ∀ f ∈ E, extLast f < start)

/-- Any `next` search finds a held extent, or fails. -/
def NextMember : Prop :=
  ∀ s E start len, R s E →
    (∃ e, ops.next s start len = (0, e) ∧ e ∈ E) ∨ (ops.next s start len).1 < 0

end Lawful

/-! ### Applying changes -/

/-- What one change does to the set of held extents. -/
def changeApply (E : Finset ScoutfsExtent) (c : ScoutfsExtent × Bool) : Finset ScoutfsExtent :=
  if c.2 then insert c.1 E else E.erase c.1

/-- What a list of changes does to the set of held extents. -/
def changesApply (E : Finset ScoutfsExtent) (chg : ExtentChanges) : Finset ScoutfsExtent :=
  chg.foldl changeApply E

/-- Every change is of a non-empty extent, and every removal removes a held extent. -/
def ChangesValid : Finset ScoutfsExtent → ExtentChanges → Prop
  | _, [] => True
  | E, (e, ins) :: chg => e.len ≠ 0 ∧ (ins = false → e ∈ E) ∧ ChangesValid (changeApply E (e, ins)) chg

theorem changesApply_append (E : Finset ScoutfsExtent) (c₁ c₂ : ExtentChanges) :
    changesApply E (c₁ ++ c₂) = changesApply (changesApply E c₁) c₂ :=
  List.foldl_append

theorem changesApply_removals (E : Finset ScoutfsExtent) (D : List ScoutfsExtent) :
    changesApply E (D.map (·, false)) = E \ D.toFinset := by
  induction D generalizing E with
  | nil => simp [changesApply]
  | cons d D ih =>
    change changesApply (E.erase d) (D.map (·, false)) = _
    rw [ih, List.toFinset_cons, Finset.sdiff_insert]
    ext x
    simp only [Finset.mem_sdiff, Finset.mem_erase]
    tauto

theorem changesApply_inserts (E : Finset ScoutfsExtent) (A : List ScoutfsExtent) :
    changesApply E (A.map (·, true)) = E ∪ A.toFinset := by
  induction A generalizing E with
  | nil => simp [changesApply]
  | cons a A ih =>
    change changesApply (insert a E) (A.map (·, true)) = _
    rw [ih, List.toFinset_cons, Finset.union_insert, Finset.insert_union]

theorem changesValid_append {E : Finset ScoutfsExtent} {c₁ c₂ : ExtentChanges}
    (h₁ : ChangesValid E c₁) (h₂ : ChangesValid (changesApply E c₁) c₂) :
    ChangesValid E (c₁ ++ c₂) := by
  induction c₁ generalizing E with
  | nil => exact h₂
  | cons c c₁ ih =>
    obtain ⟨e, ins⟩ := c
    exact ⟨h₁.1, h₁.2.1, ih h₁.2.2 h₂⟩

theorem changesValid_removals {E : Finset ScoutfsExtent} {D : List ScoutfsExtent}
    (hD : D.Nodup) (hDE : ∀ d ∈ D, d ∈ E ∧ d.len ≠ 0) :
    ChangesValid E (D.map (·, false)) := by
  induction D generalizing E with
  | nil => trivial
  | cons d D ih =>
    rw [List.nodup_cons] at hD
    refine ⟨(hDE d (by simp)).2, fun _ => (hDE d (by simp)).1, ih hD.2 fun x hx => ?_⟩
    have hxd : x ≠ d := fun h => hD.1 (h ▸ hx)
    exact ⟨Finset.mem_erase.mpr ⟨hxd, (hDE x (by simp [hx])).1⟩, (hDE x (by simp [hx])).2⟩

theorem changesValid_inserts {E : Finset ScoutfsExtent} {A : List ScoutfsExtent}
    (hA : ∀ a ∈ A, a.len ≠ 0) : ChangesValid E (A.map (·, true)) := by
  induction A generalizing E with
  | nil => trivial
  | cons a A ih => exact ⟨hA a (by simp), nofun, ih fun x hx => hA x (by simp [hx])⟩

theorem len_ne_zero_of_valid {e : ScoutfsExtent} (h : ExtValid e) : e.len ≠ 0 := by
  intro h0
  have := h.1
  rw [h0] at this
  exact absurd this (by decide)

/-- **Replacing extents in a free set.**  Removing held extents `D` and inserting extents `A`
that are separated from each other and from every extent left is a valid change list, and
leaves a separated free set. -/
theorem replace_freeSet {E : Finset ScoutfsExtent} (hE : FreeSet E) {D A : List ScoutfsExtent}
    (hD : D.Nodup) (hDE : ∀ d ∈ D, d ∈ E) (hA : ∀ a ∈ A, ExtValid a ∧ ExtFree a)
    (hAA : A.Pairwise Separated) (hAE : ∀ a ∈ A, ∀ f ∈ E, f ∉ D → Separated a f) :
    ChangesValid E (D.map (·, false) ++ A.map (·, true)) ∧
      FreeSet (changesApply E (D.map (·, false) ++ A.map (·, true))) := by
  refine ⟨changesValid_append (changesValid_removals hD fun d hd =>
      ⟨hDE d hd, len_ne_zero_of_valid (hE.valid d (hDE d hd))⟩)
    (changesValid_inserts fun a ha => len_ne_zero_of_valid (hA a ha).1), ?_⟩
  rw [changesApply_append, changesApply_removals, changesApply_inserts]
  have hmem : ∀ x ∈ E \ D.toFinset ∪ A.toFinset, (x ∈ E ∧ x ∉ D) ∨ x ∈ A := by
    intro x hx
    simpa [Finset.mem_union, Finset.mem_sdiff, List.mem_toFinset] using hx
  refine ⟨fun x hx => ?_, fun x hx => ?_, fun x hx y hy hxy => ?_⟩
  · rcases hmem x hx with h | h
    · exact hE.valid x h.1
    · exact (hA x h).1
  · rcases hmem x hx with h | h
    · exact hE.free x h.1
    · exact (hA x h).2
  · rcases hmem x hx with hx' | hx' <;> rcases hmem y hy with hy' | hy'
    · exact hE.separated x hx'.1 y hy'.1 hxy
    · exact separated_comm.mp (hAE y hy' x hx'.1 hx'.2)
    · exact hAE x hx' y hy'.1 hy'.2
    · exact hAA.forall hx' hy' hxy

/-- An extent lies inside another. -/
def ExtInside (a e : ScoutfsExtent) : Prop :=
  e.start.toNat ≤ a.start.toNat ∧ a.start.toNat + a.len.toNat ≤ e.start.toNat + e.len.toNat

/-- **Cutting a held extent into pieces.**  Removing a held extent and inserting separated
valid free pieces of it keeps a separated free set. -/
theorem pieces_freeSet {E : Finset ScoutfsExtent} (hE : FreeSet E) {e : ScoutfsExtent}
    (he : e ∈ E) {A : List ScoutfsExtent} (hA : ∀ a ∈ A, ExtValid a ∧ ExtFree a ∧ ExtInside a e)
    (hAA : A.Pairwise Separated) :
    ChangesValid E ([e].map (·, false) ++ A.map (·, true)) ∧
      FreeSet (changesApply E ([e].map (·, false) ++ A.map (·, true))) := by
  refine replace_freeSet hE (List.nodup_singleton e) (by simpa using he)
    (fun a ha => ⟨(hA a ha).1, (hA a ha).2.1⟩) hAA fun a ha f hf hfe => ?_
  have hfe' : f ≠ e := by simpa using hfe
  obtain ⟨-, -, hin₁, hin₂⟩ := hA a ha
  rcases hE.separated e he f hf (Ne.symm hfe') with h | h
  · exact .inl (by omega)
  · exact .inr (by omega)

section Apply

variable {σ : Type} {ops : ScoutfsExtOps σ} {R : σ → Finset ScoutfsExtent → Prop}

/-- The outcomes of running changes from contents `E`: a `BUG_ON`, a failure with the
contents restored, or success with contents `E'`. -/
def Outcome (R : σ → Finset ScoutfsExtent → Prop) (E E' : Finset ScoutfsExtent) :
    Option (Int × σ) → Prop
  | none => True
  | some (r, s') => (r < 0 ∧ R s' E) ∨ (r = 0 ∧ R s' E')

/-- One callback call for a valid change: it stops, fails with the contents unchanged, or
makes the change. -/
theorem opCall_lawful (hins : InsertLawful ops R) (hrem : RemoveLawful ops R)
    {s : σ} {E : Finset ScoutfsExtent} {e : ScoutfsExtent} {ins : Bool} (hs : R s E)
    (hlen : e.len ≠ 0) (hmem : ins = false → e ∈ E) :
    opCall ops s e ins = none ∨
      (∃ r s₁, opCall ops s e ins = some (r, s₁) ∧ r < 0 ∧ R s₁ E) ∨
      (∃ s₁, opCall ops s e ins = some (0, s₁) ∧ (ins = true → e ∉ E) ∧
        R s₁ (changeApply E (e, ins))) := by
  cases ins with
  | true =>
    rcases hins s E e hs hlen with h | h | ⟨s₁, h, hn, h₁⟩
    · exact .inl h
    · exact .inr (.inl h)
    · exact .inr (.inr ⟨s₁, h, fun _ => hn, h₁⟩)
  | false =>
    rcases hrem s E e hs (hmem rfl) with h | h | ⟨s₁, h, h₁⟩
    · exact .inl h
    · exact .inr (.inl h)
    · exact .inr (.inr ⟨s₁, h, nofun, h₁⟩)

/-- Undoing a made change restores the contents it changed, unless the undo fails. -/
theorem undo_lawful (hins : InsertLawful ops R) (hrem : RemoveLawful ops R)
    {E : Finset ScoutfsExtent} {e : ScoutfsExtent} {s₂ : σ} {ins : Bool}
    (hlen : e.len ≠ 0) (hin : ins = true → e ∉ E) (hmem : ins = false → e ∈ E)
    (hs : R s₂ (changeApply E (e, ins))) :
    opCall ops s₂ e (!ins) = none ∨
      (∃ err s₃, opCall ops s₂ e (!ins) = some (err, s₃) ∧ err ≠ 0) ∨
      (∃ s₃, opCall ops s₂ e (!ins) = some (0, s₃) ∧ R s₃ E) := by
  have hmem' : (!ins) = false → e ∈ changeApply E (e, ins) := by
    cases ins <;> simp [changeApply]
  rcases opCall_lawful hins hrem hs hlen hmem' with h | ⟨err, s₃, h, herr, -⟩ | ⟨s₃, h, -, h₃⟩
  · exact .inl h
  · exact .inr (.inl ⟨err, s₃, h, herr.ne⟩)
  · refine .inr (.inr ⟨s₃, h, ?_⟩)
    cases ins with
    | true => simpa [changeApply, Finset.erase_insert (hin rfl)] using h₃
    | false => simpa [changeApply, Finset.insert_erase (hmem rfl)] using h₃

/-- **`apply_changes` is all or nothing.**  Run from contents `E`, it completes every change,
or fails with the undo sequence having restored `E`, or stops at `BUG_ON`. -/
theorem applyChanges_lawful (hins : InsertLawful ops R) (hrem : RemoveLawful ops R) :
    ∀ (chg : ExtentChanges) (s : σ) (E : Finset ScoutfsExtent), R s E → ChangesValid E chg →
      Outcome R E (changesApply E chg) (applyChanges ops 0 s chg) := by
  intro chg
  induction chg with
  | nil =>
    intro s E hs _
    exact .inr ⟨rfl, hs⟩
  | cons c chg ih =>
    obtain ⟨e, ins⟩ := c
    intro s E hs ⟨hlen, hmem, hv⟩
    rcases opCall_lawful hins hrem hs hlen hmem with h | ⟨r, s₁, h, hr, h₁⟩ | ⟨s₁, h, hin, h₁⟩
    · simp [applyChanges, h, Outcome]
    · simp [applyChanges, h, hr, Outcome, h₁]
    · -- the remaining changes run from the changed contents
      have hrest := ih s₁ _ h₁ hv
      simp only [applyChanges, h, lt_self_iff_false, if_false]
      rcases hq : applyChanges ops 0 s₁ chg with _ | ⟨r₂, s₂⟩
      · trivial
      · rw [hq] at hrest
        rcases hrest with ⟨hr₂, h₂⟩ | ⟨rfl, h₂⟩
        · -- a later change failed: the undo of this one restores `E`
          rcases undo_lawful hins hrem hlen hin hmem h₂ with
            hu | ⟨err, s₃, hu, herr⟩ | ⟨s₃, hu, h₃⟩
          · simp [hr₂, hu, Outcome]
          · simp [hr₂, hu, herr, Outcome]
          · simp [hr₂, hu, Outcome, h₃]
        · simpa [Outcome, changesApply] using h₂

end Apply

/-! ### Free extents -/

section Free

theorem extOverlap_iff {e : ScoutfsExtent} {start len : UInt64} (he : ExtValid e)
    (hl : 0 < len.toNat) (hs : start.toNat + len.toNat < 2 ^ 64) :
    extOverlap e start len = true ↔
      e.start.toNat < start.toNat + len.toNat ∧ start.toNat < e.start.toNat + e.len.toNat := by
  obtain ⟨he₁, he₂⟩ := he
  simp only [extOverlap, Bool.not_eq_true', Bool.or_eq_false_iff, decide_eq_false_iff_not,
    UInt64.lt_iff_toNat_lt, UInt64.toNat_sub, UInt64.toNat_add, UInt64.toNat_one]
  omega

theorem scoutfsExtCanMerge_free {a b : ScoutfsExtent} (ha : a.start.toNat + a.len.toNat < 2 ^ 64)
    (hfa : ExtFree a) (hfb : ExtFree b) :
    scoutfsExtCanMerge a b = true ↔ a.start.toNat + a.len.toNat = b.start.toNat := by
  obtain ⟨ham, haf⟩ := hfa
  obtain ⟨hbm, hbf⟩ := hfb
  simp only [scoutfsExtCanMerge, ham, hbm, haf, hbf, beq_self_eq_true, Bool.and_self,
    Bool.true_or, Bool.and_true, beq_iff_eq, UInt64.toNat_inj.symm, UInt64.toNat_add]
  omega

variable {σ : Type} {ops : ScoutfsExtOps σ} {R : σ → Finset ScoutfsExtent → Prop}
  {s : σ} {E : Finset ScoutfsExtent}

/-- `next s start 1` on a separated free set: the first extent ending at or after `start`,
every other extent ending before `start` or lying past that one; or no extent reaches
`start`. -/
theorem next_free_cases (hnext : NextLawful ops R) (hs : R s E) (hE : FreeSet E)
    (start : UInt64) :
    (∃ e, ops.next s start 1 = (0, e) ∧ e ∈ E ∧ start.toNat < e.start.toNat + e.len.toNat ∧
      ∀ f ∈ E, f ≠ e → f.start.toNat + f.len.toNat ≤ start.toNat ∨
        e.start.toNat + e.len.toNat < f.start.toNat) ∨
    (ops.next s start 1 = (-ENOENT, extZero) ∧
      ∀ f ∈ E, f.start.toNat + f.len.toNat ≤ start.toNat) := by
  rcases hnext s E start hs with ⟨e, heq, he, hle, hmin⟩ | ⟨heq, hlt⟩
  · have hve := hE.valid e he
    rw [UInt64.le_iff_toNat_le, extLast_toNat hve] at hle
    have hel := hve.1
    refine .inl ⟨e, heq, he, by omega, fun f hf hfe => ?_⟩
    have hvf := hE.valid f hf
    by_cases hsf : start ≤ extLast f
    · have hef := hmin f hf hsf
      rw [UInt64.le_iff_toNat_le, extLast_toNat hve, extLast_toNat hvf] at hef
      rcases hE.separated e he f hf (Ne.symm hfe) with h | h
      · exact .inr h
      · obtain ⟨-, -⟩ := hvf; omega
    · rw [UInt64.le_iff_toNat_le, extLast_toNat hvf] at hsf
      exact .inl (by obtain ⟨-, -⟩ := hvf; omega)
  · refine .inr ⟨heq, fun f hf => ?_⟩
    have hvf := hE.valid f hf
    have := hlt f hf
    rw [UInt64.lt_iff_toNat_lt, extLast_toNat hvf] at this
    obtain ⟨-, -⟩ := hvf
    omega

/-- What the right-hand lookup of an insertion leaves: `ins` starts at the caller's `start`,
covers the caller's range and, when it merged, the right neighbour `D` it will remove; every
other held extent ends at or before `start` or lies past `ins` with a gap. -/
structure InsertRight (E : Finset ScoutfsExtent) (start len : UInt64) (ins : ScoutfsExtent)
    (D : List ScoutfsExtent) : Prop where
  start_eq : ins.start = start
  free : ExtFree ins
  valid : ExtValid ins
  covers : start.toNat + len.toNat ≤ ins.start.toNat + ins.len.toNat
  nodup : D.Nodup
  removed : ∀ d ∈ D, d ∈ E ∧ start.toNat + len.toNat ≤ d.start.toNat
  others : ∀ f ∈ E, f ∉ D → f.start.toNat + f.len.toNat ≤ start.toNat ∨
    ins.start.toNat + ins.len.toNat < f.start.toNat

theorem extInsertRight_error {ins : ScoutfsExtent} {ret : Int}
    (h : extInsertRight ops s ins = .error ret) : ret < 0 := by
  unfold extInsertRight at h
  generalize ops.next s ins.start 1 = r at h
  obtain ⟨ret', found⟩ := r
  dsimp only at h
  split_ifs at h with h₁ h₂ <;> cases h
  · exact h₁.1
  · unfold EINVAL; omega

theorem extInsertRight_free (hnext : NextLawful ops R) (hs : R s E) (hE : FreeSet E)
    {start len : UInt64} (hv : ExtValid ⟨start, len, 0, 0⟩) {ins : ScoutfsExtent}
    {chg : ExtentChanges} (h : extInsertRight ops s ⟨start, len, 0, 0⟩ = .ok (ins, chg)) :
    ∃ D, chg = D.map (·, false) ∧ InsertRight E start len ins D := by
  have hfree : ExtFree ⟨start, len, 0, 0⟩ := ⟨rfl, rfl⟩
  obtain ⟨hl, hend⟩ := hv
  dsimp only at hl hend
  unfold extInsertRight at h
  rcases next_free_cases hnext hs hE start with ⟨e, heq, he, hse, hoth⟩ | ⟨heq, hall⟩
  · have hve := hE.valid e he
    obtain ⟨hel, heend⟩ := hve
    have hlen : e.len ≠ 0 := len_ne_zero_of_valid ⟨hel, heend⟩
    have hover := @extOverlap_iff ⟨start, len, 0, 0⟩ e.start e.len ⟨hl, hend⟩ hel heend
    have hmerge := @scoutfsExtCanMerge_free ⟨start, len, 0, 0⟩ e hend hfree (hE.free e he)
    dsimp only at hover hmerge
    simp only [heq] at h
    rw [if_neg (by decide)] at h
    -- the neighbour cannot overlap the inserted range
    have hgap : start.toNat + len.toNat ≤ e.start.toNat := by
      by_contra hov
      rw [if_pos ⟨hlen, hover.mpr ⟨hse, by omega⟩⟩] at h
      cases h
    rw [if_neg (fun hc => by have := hover.mp hc.2; omega)] at h
    by_cases hm : start.toNat + len.toNat = e.start.toNat
    · -- the right neighbour merges
      rw [if_pos ⟨hlen, hmerge.mpr hm⟩] at h
      cases h
      have hsum : (len + e.len).toNat = len.toNat + e.len.toNat := by
        rw [UInt64.toNat_add]; omega
      refine ⟨[e], by simp [addChange, hlen], ⟨rfl, hfree, ⟨?_, ?_⟩, ?_, by simp, ?_, ?_⟩⟩
      · dsimp only; omega
      · dsimp only; omega
      · dsimp only; omega
      · intro d hd
        rw [List.mem_singleton] at hd
        subst hd
        exact ⟨he, hgap⟩
      · intro f hf hfD
        have hfe : f ≠ e := fun hfe => hfD (by simp [hfe])
        dsimp only
        rcases hoth f hf hfe with h' | h'
        · exact .inl h'
        · exact .inr (by omega)
    · rw [if_neg (fun hc => hm (hmerge.mp hc.2))] at h
      cases h
      refine ⟨[], rfl, ⟨rfl, hfree, ⟨hl, hend⟩, le_refl _, List.nodup_nil, nofun, ?_⟩⟩
      intro f hf _
      dsimp only
      by_cases hfe : f = e
      · subst hfe; exact .inr (by omega)
      · rcases hoth f hf hfe with h' | h'
        · exact .inl h'
        · exact .inr (by omega)
  · simp only [heq] at h
    rw [if_neg (by decide), if_neg (by simp [extZero]), if_neg (by simp [extZero])] at h
    cases h
    exact ⟨[], rfl, ⟨rfl, hfree, ⟨hl, hend⟩, le_refl _, List.nodup_nil, nofun,
      fun f hf _ => .inl (hall f hf)⟩⟩

theorem extInsertLeft_error {start : UInt64} {ins : ScoutfsExtent} {chg : ExtentChanges}
    {ret : Int} (h : extInsertLeft ops s start ins chg = .error ret) : ret < 0 := by
  unfold extInsertLeft at h
  generalize ops.next s (start - 1) 1 = r at h
  obtain ⟨ret', found⟩ := r
  dsimp only at h
  split_ifs at h with h₁ h₂
  all_goals cases h
  exact h₂.1

/-- Inserting `A`, once the held extents `D` are removed, as a change list. -/
theorem addChange_removals_insert {D : List ScoutfsExtent} {M : ScoutfsExtent}
    (hM : M.len ≠ 0) :
    addChange (D.map (·, false)) M true = D.map (·, false) ++ [M].map (·, true) := by
  simp [addChange, hM]

theorem extInsertLeft_free (hnext : NextLawful ops R) (hs : R s E) (hE : FreeSet E)
    {start len : UInt64} {ins : ScoutfsExtent} {D : List ScoutfsExtent}
    (hr : InsertRight E start len ins D) {chg : ExtentChanges}
    (h : extInsertLeft ops s start ins (D.map (·, false)) = .ok chg) :
    ChangesValid E chg ∧ FreeSet (changesApply E chg) := by
  have hins := hr.valid
  obtain ⟨hil, hiend⟩ := hins
  have hst := hr.start_eq
  have hstN : ins.start.toNat = start.toNat := by rw [hst]
  have hinsNe : ins.len ≠ 0 := len_ne_zero_of_valid hr.valid
  -- inserting `ins` itself, once nothing on its left can merge
  have hplain : (∀ f ∈ E, f ∉ D → f.start.toNat + f.len.toNat ≠ start.toNat) →
      ChangesValid E (addChange (D.map (·, false)) ins true) ∧
        FreeSet (changesApply E (addChange (D.map (·, false)) ins true)) := by
    intro hnl
    rw [addChange_removals_insert hinsNe]
    refine replace_freeSet hE hr.nodup (fun d hd => (hr.removed d hd).1)
      (by simpa using ⟨hr.valid, hr.free⟩) (List.pairwise_singleton _ _) ?_
    intro a ha f hf hfD
    rw [List.mem_singleton] at ha
    subst ha
    rcases hr.others f hf hfD with h' | h'
    · have := hnl f hf hfD
      exact .inr (by omega)
    · exact .inl h'
  unfold extInsertLeft at h
  by_cases hpos : 0 < start
  · rw [if_pos hpos] at h
    have hpos' : 0 < start.toNat := UInt64.lt_iff_toNat_lt.mp hpos
    have hdec : (start - 1).toNat = start.toNat - 1 := by
      rw [UInt64.toNat_sub_of_le _ _ (UInt64.le_iff_toNat_le.mpr (by simp; omega))]
      simp
    rcases next_free_cases hnext hs hE (start - 1) with ⟨e, heq, he, hse, hoth⟩ | ⟨heq, hall⟩
    · rw [hdec] at hse hoth
      have hve := hE.valid e he
      have hmerge := @scoutfsExtCanMerge_free e ins hve.2 (hE.free e he) hr.free
      simp only [heq] at h
      rw [if_neg (by decide)] at h
      by_cases hm : e.start.toNat + e.len.toNat = start.toNat
      · -- the left neighbour merges
        rw [if_pos ⟨trivial, hmerge.mpr (by rw [hst]; exact hm)⟩] at h
        cases h
        have hlenE : e.len ≠ 0 := len_ne_zero_of_valid hve
        have hMlen : (ins.len + e.len).toNat = ins.len.toNat + e.len.toNat := by
          rw [UInt64.toNat_add]; omega
        have hMne : ins.len + e.len ≠ 0 := by
          intro h0
          rw [h0] at hMlen
          simp at hMlen; omega
        have heD : e ∉ D := fun heD => by
          have := (hr.removed e heD).2
          have := hve.1
          omega
        rw [show addChange (addChange (D.map (·, false)) e false)
            { ins with start := e.start, map := e.map, len := ins.len + e.len } true =
            (D ++ [e]).map (·, false) ++
              [{ ins with start := e.start, map := e.map, len := ins.len + e.len }].map (·, true)
            by simp [addChange, hlenE, hMne]]
        refine replace_freeSet hE (List.nodup_append.mpr ⟨hr.nodup, by simp,
            fun a ha b hb hab => heD (by rw [List.mem_singleton] at hb; rw [← hb, ← hab]; exact ha)⟩)
          ?_ ?_ (List.pairwise_singleton _ _) ?_
        · intro d hd
          rcases List.mem_append.mp hd with hd | hd
          · exact (hr.removed d hd).1
          · rw [List.mem_singleton] at hd
            exact hd ▸ he
        · intro a ha
          rw [List.mem_singleton] at ha
          subst ha
          refine ⟨⟨by dsimp only; omega, by dsimp only; omega⟩, (hE.free e he).1, hr.free.2⟩
        · intro a ha f hf hfD
          rw [List.mem_singleton] at ha
          subst ha
          have hfD' : f ∉ D := fun h' => hfD (List.mem_append_left _ h')
          have hfe : f ≠ e := fun h' => hfD (by simp [h'])
          unfold Separated
          dsimp only
          rw [hMlen]
          rcases hr.others f hf hfD' with h' | h'
          · -- left of the inserted range: left of the merged neighbour too
            have hfl := (hE.valid f hf).1
            rcases hoth f hf hfe with h'' | h''
            · rcases hE.separated f hf e he hfe with h''' | h'''
              · exact .inr h'''
              · omega
            · omega
          · exact .inl (by omega)
      · rw [if_neg (fun hc => hm (by rw [← hst]; exact hmerge.mp hc.2))] at h
        cases h
        refine hplain fun f hf hfD hfs => ?_
        by_cases hfe : f = e
        · exact hm (hfe ▸ hfs)
        · have := (hE.valid f hf).1
          rcases hoth f hf hfe with h' | h' <;> omega
    · simp only [heq] at h
      rw [if_neg (by decide), if_neg (fun hc => absurd hc.1 (by decide))] at h
      cases h
      refine hplain fun f hf _ hfs => ?_
      have := hall f hf
      rw [hdec] at this
      omega
  · rw [if_neg hpos] at h
    cases h
    refine hplain fun f hf _ hfs => ?_
    have := (hE.valid f hf).1
    have : start.toNat = 0 := by
      have := UInt64.lt_iff_toNat_lt.not.mp hpos
      simp at this; omega
    omega

theorem scoutfsExtInside_iff {e : ScoutfsExtent} {start len : UInt64} (he : ExtValid e)
    (hl : 0 < len.toNat) (hs : start.toNat + len.toNat < 2 ^ 64) :
    scoutfsExtInside start len e = true ↔
      e.start.toNat ≤ start.toNat ∧ start.toNat + len.toNat ≤ e.start.toNat + e.len.toNat := by
  obtain ⟨he₁, he₂⟩ := he
  simp only [scoutfsExtInside, Bool.and_eq_true, decide_eq_true_eq, UInt64.le_iff_toNat_le,
    ge_iff_le, UInt64.toNat_sub, UInt64.toNat_add, UInt64.toNat_one]
  omega

theorem extRemoveChanges_error {start len : UInt64} {ret : Int}
    (h : extRemoveChanges ops s start len = .error ret) : ret < 0 := by
  unfold extRemoveChanges at h
  generalize ops.next s start 1 = r at h
  obtain ⟨ret', found⟩ := r
  dsimp only at h
  split_ifs at h with h₁
  all_goals cases h
  · exact h₁
  · unfold EINVAL; omega

/-- Two pieces, each kept only when non-empty, as `add_change` records them. -/
theorem addChange_pieces (c : ExtentChanges) (a b : ScoutfsExtent) :
    addChange (addChange c a true) b true = c ++ ([a, b].filter (·.len ≠ 0)).map (·, true) := by
  unfold addChange
  by_cases ha : a.len ≠ 0 <;> by_cases hb : b.len ≠ 0 <;> simp [ha, hb]

section Split

variable {e : ScoutfsExtent} {start len : UInt64}

/-- The left part `ext_split` leaves of a free extent around a range inside it:
`[e.start, start)`, when non-empty. -/
theorem extSplit_left_free (he : ExtValid e) (hf : ExtFree e)
    (hin : e.start.toNat ≤ start.toNat ∧ start.toNat + len.toNat ≤ e.start.toNat + e.len.toNat)
    (hne : (extSplit e start len).1.len ≠ 0) :
    ExtValid (extSplit e start len).1 ∧ ExtFree (extSplit e start len).1 ∧
      ExtInside (extSplit e start len).1 e ∧
      (extSplit e start len).1.start.toNat + (extSplit e start len).1.len.toNat ≤
        start.toNat := by
  obtain ⟨he₁, he₂⟩ := he
  obtain ⟨hm, hfl⟩ := hf
  unfold extSplit at hne ⊢
  dsimp only at hne ⊢
  split_ifs at hne ⊢ with hlt
  · rw [UInt64.lt_iff_toNat_lt] at hlt
    have hlen : (start - e.start).toNat = start.toNat - e.start.toNat :=
      UInt64.toNat_sub_of_le _ _ (UInt64.le_iff_toNat_le.mpr (by omega))
    refine ⟨⟨?_, ?_⟩, ⟨hm, hfl⟩, ⟨?_, ?_⟩, ?_⟩ <;> dsimp only <;> omega
  · exact absurd rfl hne

/-- The right part `ext_split` leaves: `[start + len, e.start + e.len)`, when non-empty. -/
theorem extSplit_right_free (he : ExtValid e) (hf : ExtFree e)
    (hin : e.start.toNat ≤ start.toNat ∧ start.toNat + len.toNat ≤ e.start.toNat + e.len.toNat)
    (hne : (extSplit e start len).2.len ≠ 0) :
    ExtValid (extSplit e start len).2 ∧ ExtFree (extSplit e start len).2 ∧
      ExtInside (extSplit e start len).2 e ∧
      start.toNat + len.toNat ≤ (extSplit e start len).2.start.toNat := by
  obtain ⟨he₁, he₂⟩ := he
  obtain ⟨hm, hfl⟩ := hf
  have hsl : (start + len).toNat = start.toNat + len.toNat := by
    rw [UInt64.toNat_add]; omega
  have hel : (e.start + e.len).toNat = e.start.toNat + e.len.toNat := by
    rw [UInt64.toNat_add]; omega
  unfold extSplit at hne ⊢
  dsimp only at hne ⊢
  split_ifs at hne ⊢ with hlt
  · rw [gt_iff_lt, UInt64.lt_iff_toNat_lt, hsl, hel] at hlt
    have hlen : (e.start + e.len - (start + len)).toNat =
        e.start.toNat + e.len.toNat - (start.toNat + len.toNat) := by
      rw [UInt64.toNat_sub_of_le _ _ (UInt64.le_iff_toNat_le.mpr (by omega)), hsl, hel]
    refine ⟨⟨?_, ?_⟩, ⟨by simp [extMapAdd, hm], hfl⟩, ⟨?_, ?_⟩, ?_⟩ <;> dsimp only <;> omega
  · exact absurd rfl hne

/-- Removing a range inside a held free extent replaces the extent by its non-empty
remainders, a valid change keeping the set free. -/
theorem split_freeSet {E : Finset ScoutfsExtent} (hE : FreeSet E) (he : e ∈ E) (hl : 0 < len.toNat)
    (hin : e.start.toNat ≤ start.toNat ∧ start.toNat + len.toNat ≤ e.start.toNat + e.len.toNat) :
    ChangesValid E ([e].map (·, false) ++
        ([(extSplit e start len).1, (extSplit e start len).2].filter (·.len ≠ 0)).map (·, true)) ∧
      FreeSet (changesApply E ([e].map (·, false) ++
        ([(extSplit e start len).1, (extSplit e start len).2].filter (·.len ≠ 0)).map
          (·, true))) := by
  have hL := extSplit_left_free (hE.valid e he) (hE.free e he) hin
  have hR := extSplit_right_free (hE.valid e he) (hE.free e he) hin
  refine pieces_freeSet hE he (fun a ha => ?_) ?_
  · rw [List.mem_filter, List.mem_pair] at ha
    obtain ⟨rfl | rfl, hne⟩ := ha
    · obtain ⟨h₁, h₂, h₃, -⟩ := hL (by simpa using hne)
      exact ⟨h₁, h₂, h₃⟩
    · obtain ⟨h₁, h₂, h₃, -⟩ := hR (by simpa using hne)
      exact ⟨h₁, h₂, h₃⟩
  · -- the two remainders lie on either side of the removed range
    have hpair : [(extSplit e start len).1, (extSplit e start len).2].Pairwise
        (fun a b : ScoutfsExtent => a.len ≠ 0 → b.len ≠ 0 → Separated a b) :=
      List.pairwise_pair.mpr fun hl' hr' =>
        .inl (by have := (hL hl').2.2.2; have := (hR hr').2.2.2; omega)
    refine (hpair.filter _).imp_of_mem fun ha hb hab => ?_
    rw [List.mem_filter] at ha hb
    exact hab (by simpa using ha.2) (by simpa using hb.2)

end Split

theorem extRemoveChanges_free (hnext : NextLawful ops R) (hs : R s E) (hE : FreeSet E)
    {start len : UInt64} (hl : 0 < len.toNat) (hend : start.toNat + len.toNat < 2 ^ 64)
    {chg : ExtentChanges} (h : extRemoveChanges ops s start len = .ok chg) :
    ChangesValid E chg ∧ FreeSet (changesApply E chg) := by
  unfold extRemoveChanges at h
  rcases next_free_cases hnext hs hE start with ⟨e, heq, he, -, -⟩ | ⟨heq, -⟩
  · simp only [heq] at h
    rw [if_neg (by decide)] at h
    have hve := hE.valid e he
    by_cases hin : scoutfsExtInside start len e = true
    · rw [if_neg (by simp [hin])] at h
      cases h
      rw [addChange_pieces, show addChange [] e false = [e].map (·, false) by
        simp [addChange, len_ne_zero_of_valid hve]]
      exact split_freeSet hE he hl ((scoutfsExtInside_iff hve hl hend).mp hin)
    · rw [if_pos (by simpa using hin)] at h
      cases h
  · simp only [heq] at h
    rw [if_pos (by decide)] at h
    cases h

theorem extAllocChanges_error {start len count : UInt64} {ret : Int}
    (h : extAllocChanges ops s start len count = .error ret) :
    ret < 0 := by
  unfold extAllocChanges at h
  generalize ops.next s start len = r at h
  obtain ⟨ret', found⟩ := r
  dsimp only at h
  split_ifs at h with h₁
  all_goals cases h
  exact h₁

/-- The changes of `scoutfs_ext_alloc`: the found extent is held, and removing it while
inserting what is left past its first `count` blocks keeps the set free. -/
theorem extAllocChanges_free (hnext : NextMember ops R) (hs : R s E) (hE : FreeSet E)
    {start len count : UInt64} {found : ScoutfsExtent} {chg : ExtentChanges}
    (h : extAllocChanges ops s start len count = .ok (found, chg)) :
    found ∈ E ∧ ChangesValid E chg ∧ FreeSet (changesApply E chg) := by
  unfold extAllocChanges at h
  rcases hnext s E start len hs with ⟨e, heq, he⟩ | hneg
  · simp only [heq] at h
    rw [if_neg (by decide)] at h
    have hve := hE.valid e he
    obtain ⟨hm, hfl⟩ := hE.free e he
    have hdel : addChange [] e false = [e].map (·, false) := by
      simp [addChange, len_ne_zero_of_valid hve]
    split_ifs at h with hgt
    · cases h
      obtain ⟨he₁, he₂⟩ := hve
      rw [gt_iff_lt, UInt64.lt_iff_toNat_lt] at hgt
      have hrs : (found.start + count).toNat = found.start.toNat + count.toNat := by
        rw [UInt64.toNat_add]; omega
      have hrl : (found.len - count).toNat = found.len.toNat - count.toNat :=
        UInt64.toNat_sub_of_le _ _ (UInt64.le_iff_toNat_le.mpr (by omega))
      have hrne : found.len - count ≠ 0 := fun h0 => by rw [h0] at hrl; simp at hrl; omega
      rw [hdel, show addChange ([found].map (·, false))
          ⟨found.start + count, found.len - count, extMapAdd found.map count, found.flags⟩ true =
          [found].map (·, false) ++
            [(⟨found.start + count, found.len - count, extMapAdd found.map count, found.flags⟩ : ScoutfsExtent)].map
              (·, true) by simp [addChange, hrne]]
      refine ⟨he, pieces_freeSet hE he (fun a ha => ?_) (List.pairwise_singleton _ _)⟩
      rw [List.mem_singleton] at ha
      subst ha
      refine ⟨⟨?_, ?_⟩, ⟨by simp [extMapAdd, hm], hfl⟩, ⟨?_, ?_⟩⟩ <;> dsimp only <;> omega
    · cases h
      rw [hdel]
      exact ⟨he, by simpa using pieces_freeSet hE he (A := []) (by simp) List.Pairwise.nil⟩
  · generalize hr : ops.next s start len = r at h hneg
    obtain ⟨ret', found'⟩ := r
    dsimp only at h hneg
    rw [if_pos hneg] at h
    cases h

/-- What `scoutfs_ext_alloc` hands out, when it hands out blocks, is a valid free extent:
the first blocks of a held extent. -/
theorem extAlloc_valid (hnext : NextMember ops R) (hs : R s E) (hE : FreeSet E)
    {start len count : UInt64} {ret : Int} {s' : σ} {ext : ScoutfsExtent}
    (h : scoutfsExtAlloc ops s start len count = some (ret, s', ext)) (hl : ext.len ≠ 0) :
    ExtValid ext ∧ ExtFree ext := by
  unfold scoutfsExtAlloc at h
  rcases hp : extAllocChanges ops s start len count with ret' | ⟨found, chg⟩ <;>
    rw [hp] at h
  · -- an early error hands out the zeroed extent
    cases h
    exact absurd rfl hl
  obtain ⟨hfE, -, -⟩ := extAllocChanges_free hnext hs hE hp
  dsimp only at h
  rcases ha : applyChanges ops 0 s chg with _ | ⟨ret₂, s₂⟩ <;> rw [ha] at h
  · cases h
  dsimp only at h
  split_ifs at h
  · cases h
    obtain ⟨hv₁, hv₂⟩ := hE.valid found hfE
    have hmin : (min found.len count).toNat ≠ 0 := fun h0 =>
      hl (UInt64.toNat_inj.mp (by rw [h0, UInt64.toNat_zero]))
    rw [UInt64.toNat_min] at hmin
    refine ⟨⟨?_, ?_⟩, hE.free found hfE⟩ <;> dsimp only <;> rw [UInt64.toNat_min] <;> omega
  · cases h
    exact absurd rfl hl

variable (hins : InsertLawful ops R) (hrem : RemoveLawful ops R)
include hins hrem

/-- A helper that plans changes and applies them: an early error leaves the store as it was,
and a valid plan that keeps the set free is all or nothing. -/
theorem outcome_of_plan (hs : R s E) (hE : FreeSet E) {plan : Except Int ExtentChanges}
    (herr : ∀ ret, plan = .error ret → ret < 0)
    (hok : ∀ chg, plan = .ok chg → ChangesValid E chg ∧ FreeSet (changesApply E chg)) :
    ∃ E', FreeSet E' ∧ Outcome R E E' (applyPlan ops s plan) := by
  rcases hp : plan with ret | chg
  · exact ⟨E, hE, .inl ⟨herr ret hp, hs⟩⟩
  · obtain ⟨hv, hf⟩ := hok chg hp
    exact ⟨_, hf, applyChanges_lawful hins hrem chg s E hs hv⟩

/-- **`scoutfs_ext_insert` keeps a separated free set.**  Inserting a valid free range stops at
`BUG_ON`, or fails with the store's contents unchanged, or succeeds with contents that are
again a separated free set. -/
theorem extInsert_freeSet (hnext : NextLawful ops R) (hs : R s E) (hE : FreeSet E)
    {start len : UInt64} (hv : ExtValid ⟨start, len, 0, 0⟩) :
    ∃ E', FreeSet E' ∧ Outcome R E E' (scoutfsExtInsert ops s start len 0 0) := by
  apply outcome_of_plan hins hrem hs hE
  · intro ret h
    unfold extInsertChanges at h
    rcases hr : extInsertRight ops s ⟨start, len, 0, 0⟩ with ret' | ⟨ins, chg⟩ <;>
      rw [hr] at h
    · cases h
      exact extInsertRight_error hr
    · exact extInsertLeft_error h
  · intro chg h
    unfold extInsertChanges at h
    rcases hr : extInsertRight ops s ⟨start, len, 0, 0⟩ with ret' | ⟨ins, chg₁⟩ <;>
      rw [hr] at h
    · cases h
    · obtain ⟨D, rfl, hD⟩ := extInsertRight_free hnext hs hE hv hr
      exact extInsertLeft_free hnext hs hE hD h

/-- **`scoutfs_ext_remove` keeps a separated free set.** -/
theorem extRemove_freeSet (hnext : NextLawful ops R) (hs : R s E) (hE : FreeSet E)
    {start len : UInt64} (hl : 0 < len.toNat) (hend : start.toNat + len.toNat < 2 ^ 64) :
    ∃ E', FreeSet E' ∧ Outcome R E E' (scoutfsExtRemove ops s start len) :=
  outcome_of_plan hins hrem hs hE (fun _ h => extRemoveChanges_error h)
    (fun _ h => extRemoveChanges_free hnext hs hE hl hend h)

/-- **`scoutfs_ext_alloc` keeps a separated free set**, and what it allocates comes from a
held extent. -/
theorem extAlloc_freeSet (hnext : NextMember ops R) (hs : R s E) (hE : FreeSet E)
    (start len count : UInt64) :
    ∃ E', FreeSet E' ∧ Outcome R E E' ((scoutfsExtAlloc ops s start len count).map
      fun r => (r.1, r.2.1)) := by
  unfold scoutfsExtAlloc
  rcases hp : extAllocChanges ops s start len count with ret | ⟨found, chg⟩
  · exact ⟨E, hE, .inl ⟨extAllocChanges_error hp, hs⟩⟩
  · obtain ⟨-, hv, hf⟩ := extAllocChanges_free hnext hs hE hp
    refine ⟨_, hf, ?_⟩
    have happ := applyChanges_lawful hins hrem chg s E hs hv
    dsimp only
    rcases ha : applyChanges ops 0 s chg with _ | ⟨ret, s'⟩
    · trivial
    · rw [ha] at happ
      dsimp only
      split_ifs <;> exact happ

end Free

end Scoutfs
