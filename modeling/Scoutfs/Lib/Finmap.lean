/-
Finite maps as stores: removing a list of keys, and undoing an insertion.

A store of values under keys is Mathlib's `Finmap`.  What a run of removals leaves
(`lookup_eraseKeys_of_mem`, `lookup_eraseKeys_of_not_mem`), that removing a key just
inserted at a free key gives the store back (`erase_insert_of_not_mem`), and how an insertion
and a removal at other keys commute (`erase_insert_comm`) are read through `lookup` and
closed by `Finmap.ext_lookup`.  For stores of one value type, `lookup_insert_eq_some` and
`lookup_erase_eq_some` say what a lookup finds after a change.

A list of entries with distinct keys is read as a map by `List.dlookup`: appending an entry at
a free key, replacing the entry at a place by one of the same key, and dropping an entry update
that map at the key (`List.dlookup_append_singleton`, `List.dlookup_set`,
`List.dlookup_of_perm_cons`).

Nothing here names the filesystem.
-/
import Mathlib.Data.Finmap

namespace Finmap

variable {α : Type} [DecidableEq α]

section Dependent

variable {β : α → Type}

/-- The store without the values of the keys `ks`, removed in turn. -/
def eraseKeys (s : Finmap β) (ks : List α) : Finmap β :=
  ks.foldl (fun s k => s.erase k) s

theorem eraseKeys_nil (s : Finmap β) : s.eraseKeys [] = s :=
  rfl

theorem eraseKeys_cons (s : Finmap β) (k : α) (ks : List α) :
    s.eraseKeys (k :: ks) = (s.erase k).eraseKeys ks :=
  rfl

theorem lookup_eraseKeys_of_not_mem {s : Finmap β} {ks : List α} {a : α} (h : a ∉ ks) :
    (s.eraseKeys ks).lookup a = s.lookup a := by
  induction ks generalizing s with
  | nil => rfl
  | cons k ks ih =>
    rw [List.mem_cons, not_or] at h
    rw [eraseKeys_cons, ih h.2, lookup_erase_ne h.1]

theorem lookup_eraseKeys_of_mem {s : Finmap β} {ks : List α} {a : α} (h : a ∈ ks) :
    (s.eraseKeys ks).lookup a = none := by
  induction ks generalizing s with
  | nil => cases h
  | cons k ks ih =>
    rw [eraseKeys_cons]
    by_cases hks : a ∈ ks
    · exact ih hks
    · -- the key is the head, and no later removal brings it back
      rcases List.mem_cons.mp h with rfl | habs
      · rw [lookup_eraseKeys_of_not_mem hks, lookup_erase]
      · exact absurd habs hks

/-- Removing a key that was free before an insertion undoes the insertion. -/
theorem erase_insert_of_not_mem {s : Finmap β} {a : α} {b : β a} (h : a ∉ s) :
    (s.insert a b).erase a = s :=
  ext_lookup fun x => by
    by_cases hx : x = a
    · subst hx
      rw [lookup_erase, lookup_eq_none.mpr h]
    · rw [lookup_erase_ne hx, lookup_insert_of_ne _ hx]

theorem erase_insert_comm {s : Finmap β} {a a' : α} (b : β a) (h : a' ≠ a) :
    (s.insert a b).erase a' = (s.erase a').insert a b :=
  ext_lookup fun x => by
    by_cases hx : x = a
    · subst hx
      rw [lookup_erase_ne (Ne.symm h), lookup_insert, lookup_insert]
    · rw [lookup_insert_of_ne _ hx]
      by_cases hx' : x = a'
      · subst hx'
        rw [lookup_erase, lookup_erase]
      · rw [lookup_erase_ne hx', lookup_erase_ne hx', lookup_insert_of_ne _ hx]

/-- An insertion at a key replaces whatever the key held. -/
theorem insert_erase_self (s : Finmap β) (a : α) (b : β a) :
    (s.erase a).insert a b = s.insert a b :=
  ext_lookup fun x => by
    by_cases hx : x = a
    · subst hx
      rw [lookup_insert, lookup_insert]
    · rw [lookup_insert_of_ne _ hx, lookup_insert_of_ne _ hx, lookup_erase_ne hx]

end Dependent

section Simple

variable {β : Type}

theorem lookup_insert_eq_some {s : Finmap fun _ : α => β} {a x : α} {b v : β} :
    (s.insert a b).lookup x = some v ↔ x = a ∧ v = b ∨ x ≠ a ∧ s.lookup x = some v := by
  by_cases hx : x = a
  · subst hx
    rw [lookup_insert, Option.some_inj]
    simp [eq_comm]
  · rw [lookup_insert_of_ne _ hx]
    simp [hx]

theorem lookup_erase_eq_some {s : Finmap fun _ : α => β} {a x : α} {v : β} :
    (s.erase a).lookup x = some v ↔ x ≠ a ∧ s.lookup x = some v := by
  by_cases hx : x = a
  · subst hx
    simp [lookup_erase]
  · rw [lookup_erase_ne hx]
    simp [hx]

end Simple

end Finmap

/-! ### Entry lists read as maps -/

namespace List

variable {α : Type} [DecidableEq α] {β : α → Type}

/-- An entry appended at a key the list does not hold sets that key. -/
theorem dlookup_append_singleton {l : List (Sigma β)} {a : α} {b : β a} (h : a ∉ l.keys) :
    (fun x => (l ++ [(⟨a, b⟩ : Sigma β)]).dlookup x) = Function.update (fun x => l.dlookup x) a (some b) := by
  funext x
  rw [dlookup_append]
  by_cases hx : x = a
  · subst hx
    rw [Function.update_self, dlookup_eq_none.2 h, dlookup_cons_eq, Option.none_or]
  · rw [Function.update_of_ne hx, dlookup_cons_ne _ (⟨a, b⟩ : Sigma β) hx, dlookup_nil, Option.or_none]

/-- The entries of a list with distinct keys but one: the key of that one is gone. -/
theorem dlookup_of_perm_cons {l l' : List (Sigma β)} {s : Sigma β} (nd : l.NodupKeys)
    (p : List.Perm (s :: l') l) :
    (fun x => l'.dlookup x) = Function.update (fun x => l.dlookup x) s.1 none := by
  have nd' : (s :: l').NodupKeys := (perm_nodupKeys p).2 nd
  funext x
  by_cases hx : x = s.1
  · subst hx
    rw [Function.update_self, dlookup_eq_none]
    exact (nodupKeys_cons.1 nd').1
  · rw [Function.update_of_ne hx, ← perm_dlookup x nd' p, dlookup_cons_ne _ _ hx]

/-- Replacing the entry at a place by one of the same key sets that key. -/
theorem dlookup_set {l : List (Sigma β)} (nd : l.NodupKeys) {i : ℕ} (hi : i < l.length)
    {a : α} {b : β a} (ha : a = l[i].1) :
    (fun x => (l.set i ⟨a, b⟩).dlookup x) = Function.update (fun x => l.dlookup x) a (some b) := by
  -- both lists hold the entries of `l.eraseIdx i` and one more of key `a`
  have p₁ : List.Perm (l.set i ⟨a, b⟩) (⟨a, b⟩ :: l.eraseIdx i) := set_perm_cons_eraseIdx hi _
  have p₂ : List.Perm (l[i] :: l.eraseIdx i) l := getElem_cons_eraseIdx_perm hi
  have nd₂ : (l[i] :: l.eraseIdx i).NodupKeys := (perm_nodupKeys p₂).2 nd
  have nd₁ : (l.set i ⟨a, b⟩).NodupKeys := by
    refine (perm_nodupKeys p₁).2 (nodupKeys_cons.2 ⟨?_, (nodupKeys_cons.1 nd₂).2⟩)
    show a ∉ (l.eraseIdx i).keys
    rw [ha]
    exact (nodupKeys_cons.1 nd₂).1
  funext x
  rw [perm_dlookup x nd₁ p₁]
  by_cases hx : x = a
  · subst hx
    rw [Function.update_self, dlookup_cons_eq]
  · rw [Function.update_of_ne hx, ← perm_dlookup x nd₂ p₂, dlookup_cons_ne _ _ hx,
      dlookup_cons_ne _ _ (ha ▸ hx)]

end List
