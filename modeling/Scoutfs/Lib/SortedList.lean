/-
Lists in strictly increasing key order.

A list whose elements carry keys `f x` from a linear order, in strictly increasing key
order, is a finite map from keys to elements:

* `find?_key_eq_some_iff` — the lookup of a key finds exactly the element with that key;
* `mem_dropWhile_lt` and `mem_takeWhile_le` — dropping the elements below `a` and taking
  those up to `b` keep exactly the elements whose keys lie in the range, and
  `dropWhile_lt_eq_filter`, `takeWhile_le_eq_filter` say it as filters;
* `pairwise_orderedInsert` — inserting an element of a new key at its place keeps the
  order, and `eq_append_of_mem` splits the list at an element into the smaller and the
  greater keys, which is how a removal or a replacement at one key is computed.

Nothing here names the filesystem.
-/
import Mathlib.Data.List.Sort

namespace KeyedList

variable {α β : Type} [LinearOrder β] (f : α → β)

theorem find?_key_eq_some_iff [DecidableEq β] {l : List α} (h : l.Pairwise (fun a b => f a < f b)) {k : β}
    {x : α} : l.find? (fun y => decide (f y = k)) = some x ↔ x ∈ l ∧ f x = k := by
  constructor
  · intro hx
    exact ⟨List.mem_of_find?_eq_some hx, by simpa using List.find?_some hx⟩
  · rintro ⟨hx, hk⟩
    induction l with
    | nil => cases hx
    | cons y l ih =>
      rw [List.pairwise_cons] at h
      by_cases hy : f y = k
      · -- the head has the key, so it is `x`: any later element has a greater key
        rw [List.find?_cons_of_pos (by simpa using hy)]
        rcases List.mem_cons.mp hx with rfl | hxl
        · rfl
        · exact absurd (hy.trans hk.symm) (ne_of_lt (h.1 x hxl))
      · rw [List.find?_cons_of_neg (by simpa using hy)]
        rcases List.mem_cons.mp hx with rfl | hxl
        · exact absurd hk hy
        · exact ih h.2 hxl

omit [LinearOrder β] in
theorem find?_key_eq_none_iff [DecidableEq β] {l : List α} {k : β} :
    l.find? (fun y => decide (f y = k)) = none ↔ ∀ x ∈ l, f x ≠ k := by
  simp [List.find?_eq_none]

theorem mem_dropWhile_lt {l : List α} (h : l.Pairwise (fun a b => f a < f b)) {a : β} {x : α} :
    x ∈ l.dropWhile (fun y => decide (f y < a)) ↔ x ∈ l ∧ a ≤ f x := by
  induction l with
  | nil => simp
  | cons y l ih =>
    rw [List.pairwise_cons] at h
    by_cases hy : f y < a
    · rw [List.dropWhile_cons_of_pos (by simpa using hy), ih h.2]
      constructor
      · exact fun hx => ⟨List.mem_cons_of_mem y hx.1, hx.2⟩
      · rintro ⟨hx, hax⟩
        rcases List.mem_cons.mp hx with rfl | hxl
        · exact absurd hax (not_le.mpr hy)
        · exact ⟨hxl, hax⟩
    · -- the first kept element is at or above `a`, and every later one above it
      rw [List.dropWhile_cons_of_neg (by simpa using hy)]
      constructor
      · intro hx
        refine ⟨hx, ?_⟩
        rcases List.mem_cons.mp hx with rfl | hxl
        · exact not_lt.mp hy
        · exact (not_lt.mp hy).trans (h.1 x hxl).le
      · exact fun hx => hx.1

theorem mem_takeWhile_le {l : List α} (h : l.Pairwise (fun a b => f a < f b)) {b : β} {x : α} :
    x ∈ l.takeWhile (fun y => decide (f y ≤ b)) ↔ x ∈ l ∧ f x ≤ b := by
  induction l with
  | nil => simp
  | cons y l ih =>
    rw [List.pairwise_cons] at h
    by_cases hy : f y ≤ b
    · rw [List.takeWhile_cons_of_pos (by simpa using hy), List.mem_cons, ih h.2, List.mem_cons]
      constructor
      · rintro (rfl | hx)
        · exact ⟨Or.inl rfl, hy⟩
        · exact ⟨Or.inr hx.1, hx.2⟩
      · rintro ⟨rfl | hx, hxb⟩
        · exact Or.inl rfl
        · exact Or.inr ⟨hx, hxb⟩
    · -- the first element is past `b`, and every later one further
      rw [List.takeWhile_cons_of_neg (by simpa using hy)]
      simp only [List.not_mem_nil, false_iff, not_and, List.mem_cons]
      rintro (rfl | hxl)
      · exact hy
      · exact fun hxb => hy ((h.1 x hxl).le.trans hxb)

/-- On a sorted list, dropping the elements below `a` keeps those at or above it. -/
theorem dropWhile_lt_eq_filter {l : List α} (h : l.Pairwise (fun a b => f a < f b)) {a : β} :
    l.dropWhile (fun y => decide (f y < a)) = l.filter (fun y => decide (a ≤ f y)) := by
  induction l with
  | nil => rfl
  | cons y l ih =>
    rw [List.pairwise_cons] at h
    by_cases hy : f y < a
    · rw [List.dropWhile_cons_of_pos (by simpa using hy), ih h.2,
        List.filter_cons_of_neg (by simpa using hy)]
    · -- from `y` on every key is at or above `a`, so the filter keeps the whole list
      have hall : ∀ z ∈ l, a ≤ f z := fun z hz => (not_lt.mp hy).trans (h.1 z hz).le
      rw [List.dropWhile_cons_of_neg (by simpa using hy),
        List.filter_cons_of_pos (by simpa using hy), List.filter_eq_self.mpr (by simpa using hall)]

/-- On a sorted list, taking the elements up to `b` keeps exactly those. -/
theorem takeWhile_le_eq_filter {l : List α} (h : l.Pairwise (fun a b => f a < f b)) {b : β} :
    l.takeWhile (fun y => decide (f y ≤ b)) = l.filter (fun y => decide (f y ≤ b)) := by
  induction l with
  | nil => rfl
  | cons y l ih =>
    rw [List.pairwise_cons] at h
    by_cases hy : f y ≤ b
    · rw [List.takeWhile_cons_of_pos (by simpa using hy), ih h.2,
        List.filter_cons_of_pos (by simpa using hy)]
    · -- past `y` every key is above `b`, so the filter keeps nothing
      have hnone : ∀ z ∈ l, ¬ f z ≤ b := fun z hz hz' => hy ((h.1 z hz).le.trans hz')
      rw [List.takeWhile_cons_of_neg (by simpa using hy),
        List.filter_cons_of_neg (by simpa using hy), List.filter_eq_nil_iff.mpr (by simpa using hnone)]

/-- Inserting an element of a new key at its place keeps the keys increasing. -/
theorem pairwise_orderedInsert (r : α → α → Prop) [DecidableRel r]
    (hr : ∀ x y, r x y ↔ f x ≤ f y) {a : α} :
    ∀ {l : List α}, l.Pairwise (fun a b => f a < f b) → (∀ y ∈ l, f y ≠ f a) →
      (l.orderedInsert r a).Pairwise (fun a b => f a < f b)
  | [], _, _ => List.pairwise_singleton _ a
  | y :: l, h, hne => by
    rw [List.pairwise_cons] at h
    have hya : f y ≠ f a := hne y List.mem_cons_self
    by_cases hay : r a y
    · -- `a` goes first: it is below `y`, hence below everything after `y`
      have hlt : f a < f y := lt_of_le_of_ne ((hr a y).mp hay) hya.symm
      rw [List.orderedInsert_cons_of_le _ _ hay, List.pairwise_cons]
      refine ⟨fun z hz => ?_, List.pairwise_cons.mpr h⟩
      rcases List.mem_cons.mp hz with rfl | hzl
      · exact hlt
      · exact hlt.trans (h.1 z hzl)
    · have hlt : f y < f a := lt_of_not_ge fun hle => hay ((hr a y).mpr hle)
      rw [List.orderedInsert_of_not_le _ _ hay, List.pairwise_cons]
      refine ⟨fun z hz => ?_, pairwise_orderedInsert r hr h.2 fun z hz => hne z
        (List.mem_cons_of_mem y hz)⟩
      rcases (List.mem_orderedInsert r).mp hz with rfl | hzl
      · exact hlt
      · exact h.1 z hzl

/-- A sorted list splits at any of its elements into the smaller and the greater keys. -/
theorem eq_append_of_mem {l : List α} (h : l.Pairwise (fun a b => f a < f b)) {x : α}
    (hx : x ∈ l) :
    ∃ as bs, l = as ++ x :: bs ∧ (∀ a ∈ as, f a < f x) ∧ ∀ b ∈ bs, f x < f b := by
  obtain ⟨as, bs, rfl⟩ := List.append_of_mem hx
  rw [List.pairwise_append, List.pairwise_cons] at h
  exact ⟨as, bs, rfl, fun a ha => h.2.2 a ha x List.mem_cons_self, h.2.1.1⟩

end KeyedList
