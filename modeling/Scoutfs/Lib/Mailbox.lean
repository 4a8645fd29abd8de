/-
Message queues of a network of nodes.

Each node `i` has a queue `q i` of the messages addressed to it.  A node that sends a batch
of addressed messages `(i, m)` appends each to its addressee's queue, in order (`post`); a
node that sends on one connection appends to that one queue (`send`).  A queue changes only
by the messages addressed to it (`post_of_forall_ne`, `send_ne`), batches compose
(`post_append`), and a batch built from a list of senders' records lands in each queue as the
records addressed there (`post_map`).

Nothing here names the filesystem.
-/
import Mathlib.Logic.Function.Basic
import Mathlib.Data.List.Basic

namespace Mailbox

variable {ι M α : Type} [DecidableEq ι]

/-- Every message of the batch `msgs` appended, in order, to the queue of its addressee. -/
def post (q : ι → List M) (msgs : List (ι × M)) (i : ι) : List M :=
  q i ++ (msgs.filter fun m => m.1 = i).map Prod.snd

/-- The messages `ms` appended to the queue of `i`. -/
def send (q : ι → List M) (i : ι) (ms : List M) : ι → List M :=
  Function.update q i (q i ++ ms)

theorem post_apply (q : ι → List M) (msgs : List (ι × M)) (i : ι) :
    post q msgs i = q i ++ (msgs.filter fun m => m.1 = i).map Prod.snd :=
  rfl

@[simp] theorem post_nil (q : ι → List M) : post q [] = q := by
  funext i
  simp [post]

/-- Posting two batches is posting their concatenation. -/
theorem post_append (q : ι → List M) (a b : List (ι × M)) :
    post q (a ++ b) = post (post q a) b := by
  funext i
  simp [post, List.filter_append]

/-- A queue no message of the batch is addressed to is unchanged. -/
theorem post_of_forall_ne {q : ι → List M} {msgs : List (ι × M)} {i : ι}
    (h : ∀ m ∈ msgs, m.1 ≠ i) : post q msgs i = q i := by
  rw [post_apply, List.filter_eq_nil_iff.mpr (by simpa using h)]
  simp

/-- A batch with one message to each of a list of records, addressed by `a` and carrying
`m`, adds to the queue of `i` the messages of the records addressed to `i`. -/
theorem post_map (q : ι → List M) (l : List α) (a : α → ι) (m : α → M) (i : ι) :
    post q (l.map fun x => (a x, m x)) i = q i ++ (l.filter fun x => a x = i).map m := by
  rw [post_apply, List.filter_map, List.map_map]
  rfl

@[simp] theorem post_singleton_self (q : ι → List M) (i : ι) (m : M) :
    post q [(i, m)] i = q i ++ [m] := by
  simp [post]

theorem post_singleton_ne (q : ι → List M) {i j : ι} (m : M) (h : i ≠ j) :
    post q [(i, m)] j = q j :=
  post_of_forall_ne (by simpa using h)

@[simp] theorem send_self (q : ι → List M) (i : ι) (ms : List M) :
    send q i ms i = q i ++ ms := by
  simp [send]

@[simp] theorem send_ne (q : ι → List M) {i j : ι} (ms : List M) (h : j ≠ i) :
    send q i ms j = q j := by
  simp [send, h]

end Mailbox
