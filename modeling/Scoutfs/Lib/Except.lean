/-
Errors of `Except` computations drawn from a known set.

`ErrorsIn P x` says that every error `x` can end in satisfies `P`.  It is closed under
`pure`, `bind`, `map` and `List.foldlM`, so a bound on the errors of a program follows
from bounds on the errors of the steps it is built from; `ErrorsIn.of_eq_error` reads the
bound back at a run that failed.

`foldlM_ok_induct` is the induction rule of a fold that succeeded: an invariant of the
elements read so far and the accumulator, kept by every step, holds at the end.

Nothing here names the filesystem.
-/
import Mathlib.Logic.Basic

namespace Except

variable {ε α β : Type} {P : ε → Prop}

/-- Every error `x` can end in satisfies `P`. -/
def ErrorsIn (P : ε → Prop) : Except ε α → Prop
  | .error e => P e
  | .ok _ => True

@[simp] theorem throw_eq_error (e : ε) : (throw e : Except ε α) = .error e := rfl

@[simp] theorem pure_eq_ok (a : α) : (pure a : Except ε α) = .ok a := rfl

/-- A computation that succeeded passes its value on. -/
@[simp] theorem ok_bind (a : α) (f : α → Except ε β) : (Except.ok a >>= f) = f a := rfl

/-- A computation that failed ends the computation. -/
@[simp] theorem error_bind (e : ε) (f : α → Except ε β) : (Except.error e >>= f) = .error e := rfl

@[simp] theorem errorsIn_ok (a : α) : ErrorsIn P (.ok a : Except ε α) := trivial

@[simp] theorem errorsIn_pure (a : α) : ErrorsIn P (pure a : Except ε α) := trivial

@[simp] theorem errorsIn_error {e : ε} : ErrorsIn P (.error e : Except ε α) ↔ P e := Iff.rfl

theorem ErrorsIn.bind {x : Except ε α} {f : α → Except ε β} (hx : ErrorsIn P x)
    (hf : ∀ a, ErrorsIn P (f a)) : ErrorsIn P (x >>= f) := by
  cases x with
  | error e => exact hx
  | ok a => exact hf a

theorem ErrorsIn.map {x : Except ε α} (f : α → β) (hx : ErrorsIn P x) :
    ErrorsIn P (x.map f) := by
  cases x with
  | error e => exact hx
  | ok a => trivial

/-- A fold whose every step keeps its errors in `P` keeps them there. -/
theorem errorsIn_foldlM {f : β → α → Except ε β} (hf : ∀ b a, ErrorsIn P (f b a)) :
    ∀ (l : List α) (b : β), ErrorsIn P (l.foldlM f b)
  | [], b => trivial
  | a :: l, b => by
    rw [List.foldlM_cons]
    exact (hf b a).bind fun b' => errorsIn_foldlM hf l b'

theorem ErrorsIn.of_eq_error {x : Except ε α} {e : ε} (hx : ErrorsIn P x) (h : x = .error e) :
    P e := by
  subst h
  exact hx

/-- A successful fold keeps an invariant of the prefix read and the accumulator; each step
knows where in the list it stands. -/
theorem foldlM_ok_induct {f : β → α → Except ε β} {l : List α} (I : List α → β → Prop)
    (step : ∀ pre a post b b', pre ++ a :: post = l → I pre b → f b a = .ok b' →
      I (pre ++ [a]) b')
    {b r : β} (h0 : I [] b) (h : l.foldlM f b = .ok r) : I l r := by
  -- induction on the part of the list still to fold, the prefix read so far generalized
  have key : ∀ (post pre : List α) (b : β), pre ++ post = l → I pre b →
      post.foldlM f b = .ok r → I l r := by
    intro post
    induction post with
    | nil =>
      intro pre b hl hb h
      simp only [List.foldlM_nil, pure, Except.pure, Except.ok.injEq] at h
      subst h
      simpa [← hl] using hb
    | cons a post ih =>
      intro pre b hl hb h
      rw [List.foldlM_cons] at h
      cases hfa : f b a with
      | error e =>
        rw [hfa] at h
        cases h
      | ok b' =>
        rw [hfa] at h
        exact ih (pre ++ [a]) b' (by simpa using hl) (step pre a post b b' hl hb hfa) h
  exact key l [] b rfl h0 h

end Except
