/-
The client side of the lock protocol, `lock.c`, for one lock.

A mount's `struct scoutfs_lock` for a key exists while anything goes on with it: the first
`lock_key_range` for the key creates it and `put_lock` frees it once it is idle in the null
mode.  Callers count as `waiters` of their mode inside `lock_key_range`, and as `users` of it
from a successful lock to its `scoutfs_unlock`.  A caller whose mode the granted mode does not
cover sends a request to the server, one at a time (`request_pending`), and the grant response
sets the new mode.  An invalidation request from the server queues on the lock; the
invalidation worker waits until the users are compatible with the new mode, sets it, and
answers.  The shrinker sends a null request for an idle lock that has a mode.

Each handler takes the lock's slot, `none` when the lock does not exist, and returns it with the
messages it sends.  A `BUG_ON` is an `Except` error that names its condition.

Left out: the key ranges (one lock is modelled), the item cache and inode invalidation of
`lock_invalidate` (only its `BUG_ON` is kept), `refresh_gen`, `dirty_trans_seq`, the coverage
lists, the lru list (an idle lock with a mode is on it), non-blocking locks, lock recovery,
shutdown, and allocation and send failures.
-/
import Scoutfs.LockServer
import Scoutfs.Lib.Except

namespace Scoutfs

/-! ### Modes and counts -/

/-- `lock_modes_match`: a lock granted `granted` can be used in `requested`. -/
def lockModesMatch (granted requested : LockMode) : Bool :=
  granted = requested ∨ (granted = .write ∧ requested = .read)

/-- The modes that `lock_counts_match` and `lock_idle` loop over, up to
`SCOUTFS_LOCK_NR_MODES`. -/
def lockModes : List LockMode := [.null, .read, .write, .writeOnly]

/-- `lock_counts_match`: the granted mode satisfies every mode in use. -/
def lockCountsMatch (granted : LockMode) (counts : LockMode → ℕ) : Bool :=
  lockModes.all fun mode => counts mode = 0 ∨ lockModesMatch granted mode

/-- `lock_inc_count`. -/
def lockIncCount (counts : LockMode → ℕ) (mode : LockMode) : LockMode → ℕ :=
  Function.update counts mode (counts mode + 1)

/-- `lock_dec_count`. -/
def lockDecCount (counts : LockMode → ℕ) (mode : LockMode) : LockMode → ℕ :=
  Function.update counts mode (counts mode - 1)

/-! ### The lock -/

/-- `struct scoutfs_lock` for the lock's key, with what the protocol reads of it: the granted
`mode` and its `write_seq`, `request_pending`, the modes of the invalidation requests queued on
`inv_list` (`invalidate_pending` is that it is not empty), whether the invalidation worker has
taken the lock onto its ready list, and the `waiters` and `users` counts of each mode. -/
structure ClientLock where
  mode : LockMode
  writeSeq : ℕ
  requestPending : Bool
  invList : List (LockMode × LockMode)
  ready : Bool
  waiters : LockMode → ℕ
  users : LockMode → ℕ

/-- `lock_alloc`: a new lock, null and unused. -/
def lockAlloc : ClientLock := ⟨.null, 0, false, [], false, fun _ => 0, fun _ => 0⟩

/-- `lock_idle`. -/
def lockIdle (lock : ClientLock) : Bool :=
  !lock.requestPending && lock.invList.isEmpty &&
    lockModes.all fun mode => lock.waiters mode = 0 ∧ lock.users mode = 0

/-- `put_lock`: an idle lock in the null mode is freed. -/
def putLock (lock : ClientLock) : Option ClientLock :=
  if lockIdle lock ∧ lock.mode = .null then none else some lock

/-- `create_lock`: the existing lock, or a new one. -/
def createLock (slot : Option ClientLock) : ClientLock :=
  slot.getD lockAlloc

/-! ### The handlers -/

/-- The entry of `lock_key_range` for `mode`: the lock is found or created, and the caller
counts among its waiters. -/
def lockKeyRangeEnter (slot : Option ClientLock) (mode : LockMode) : ClientLock :=
  let lock := createLock slot
  { lock with waiters := lockIncCount lock.waiters mode }

/-- One pass of the loop of `lock_key_range` for a caller waiting for `mode`, `netId` being the
id the network gives a request: a granted mode that covers `mode` lets the caller leave as a user
(and `put_lock`); otherwise a caller that finds no request in flight sends one for `mode`, and
the caller waits. -/
def lockKeyRangeRound (lock : ClientLock) (mode : LockMode) (netId : ℕ) :
    Option ClientLock × List ToServer :=
  if lockModesMatch lock.mode mode then
    (putLock { lock with
      users := lockIncCount lock.users mode
      waiters := lockDecCount lock.waiters mode }, [])
  else if !lock.requestPending then
    (some { lock with requestPending := true }, [.request netId lock.mode mode])
  else (some lock, [])

/-- `lock_key_range` leaving its wait unsatisfied (an interrupted wait): the caller stops
waiting. -/
def lockKeyRangeAbort (lock : ClientLock) (mode : LockMode) : Option ClientLock :=
  putLock { lock with waiters := lockDecCount lock.waiters mode }

/-- `scoutfs_unlock`. -/
def scoutfsUnlock (lock : ClientLock) (mode : LockMode) : Option ClientLock :=
  putLock { lock with users := lockDecCount lock.users mode }

/-- `scoutfs_lock_grant_response`: the lock, which waits for this grant, takes its mode and
`write_seq`. -/
def scoutfsLockGrantResponse (slot : Option ClientLock) (writeSeq : ℕ) (newMode : LockMode) :
    Except String (Option ClientLock) :=
  match slot with
  | none => throw "BUG_ON(!lock)"
  | some lock =>
    if !lock.requestPending then throw "BUG_ON(!lock->request_pending)"
    else pure (putLock { lock with requestPending := false, mode := newMode, writeSeq := writeSeq })

/-- `scoutfs_lock_invalidate_request`: the request queues on the lock; without a lock the
client answers at once. -/
def scoutfsLockInvalidateRequest (slot : Option ClientLock) (oldMode newMode : LockMode) :
    Option ClientLock × List ToServer :=
  match slot with
  | some lock => (some { lock with invList := lock.invList ++ [(oldMode, newMode)] }, [])
  | none => (none, [.response oldMode newMode])

/-- The first pass of `lock_invalidate_worker`, over a lock with queued invalidations that is not
on the ready list yet: once its users are compatible with the first request's new mode, the lock
takes that mode and moves to the ready list. -/
def lockInvalidateWorkerStart (lock : ClientLock) : ClientLock :=
  match lock.invList with
  | [] => lock
  | (_, newMode) :: _ =>
    if !lock.ready && lockCountsMatch newMode lock.users then
      { lock with mode := newMode, ready := true }
    else lock

/-- `lock_invalidate`, of which the check is kept that an invalidation drops a lock to null or
from write to read. -/
def lockInvalidate (prev mode : LockMode) : Except String Unit :=
  if ¬(prev = .write ∧ mode = .read) ∧ mode ≠ .null then
    throw "BUG_ON(!(prev == SCOUTFS_LOCK_WRITE && mode == SCOUTFS_LOCK_READ) && mode != SCOUTFS_LOCK_NULL)"
  else pure ()

/-- The later passes of `lock_invalidate_worker`, for a lock on the ready list whose first
request is `(oldMode, newMode)` with `rest` behind it: the lock is invalidated, the client
answers with the request's modes, and the request is dropped. -/
def lockInvalidateWorkerFinish (lock : ClientLock) (oldMode newMode : LockMode)
    (rest : List (LockMode × LockMode)) : Except String (Option ClientLock × List ToServer) := do
  lockInvalidate oldMode newMode
  pure (putLock { lock with invList := rest, ready := false }, [.response oldMode newMode])

/-- `lock_scan_objects` and `lock_shrink_worker`, for an idle lock with a mode (a lock on the
lru): the lock waits for a request, and a null request is sent. -/
def lockShrink (lock : ClientLock) (netId : ℕ) : ClientLock × List ToServer :=
  ({ lock with requestPending := true }, [.request netId lock.mode .null])

/-! ### Modes -/

theorem lockModesMatch_refl (mode : LockMode) : lockModesMatch mode mode := by
  simp [lockModesMatch]

/-- A mode that covers a mode covering a third covers the third. -/
theorem lockModesMatch_trans {a b c : LockMode} (hab : lockModesMatch a b)
    (hbc : lockModesMatch b c) : lockModesMatch a c := by
  cases a <;> cases b <;> cases c <;> simp_all [lockModesMatch]

/-- The null mode covers only itself. -/
theorem eq_null_of_lockModesMatch_null {mode : LockMode} (h : lockModesMatch .null mode) :
    mode = .null := by
  cases mode <;> simp_all [lockModesMatch]

/-- A shared mode covers only itself. -/
theorem eq_of_lockModesMatch_shared {granted mode : LockMode} (h : lockModesMatch granted mode)
    (hg : granted = .read ∨ granted = .writeOnly) : mode = granted := by
  rcases hg with rfl | rfl <;> cases mode <;> simp_all [lockModesMatch]

theorem lockCountsMatch_iff {granted : LockMode} {counts : LockMode → ℕ} :
    lockCountsMatch granted counts ↔ ∀ mode, counts mode ≠ 0 → lockModesMatch granted mode := by
  simp only [lockCountsMatch, lockModes, List.all_cons, List.all_nil, Bool.and_true,
    Bool.and_eq_true, decide_eq_true_eq]
  constructor
  · rintro ⟨h0, h1, h2, h3⟩ mode hm
    cases mode
    · exact h0.resolve_left hm
    · exact h1.resolve_left hm
    · exact h2.resolve_left hm
    · exact h3.resolve_left hm
  · intro h
    have hm : ∀ mode, counts mode = 0 ∨ lockModesMatch granted mode := fun mode =>
      or_iff_not_imp_left.mpr (h mode)
    exact ⟨hm _, hm _, hm _, hm _⟩

@[simp] theorem lockIncCount_self (counts : LockMode → ℕ) (mode : LockMode) :
    lockIncCount counts mode mode = counts mode + 1 := by
  simp [lockIncCount]

theorem lockIncCount_ne (counts : LockMode → ℕ) {mode mode' : LockMode} (h : mode' ≠ mode) :
    lockIncCount counts mode mode' = counts mode' := by
  simp [lockIncCount, h]

@[simp] theorem lockDecCount_self (counts : LockMode → ℕ) (mode : LockMode) :
    lockDecCount counts mode mode = counts mode - 1 := by
  simp [lockDecCount]

/-- Taking one off a count lowers it at most. -/
theorem lockDecCount_le (counts : LockMode → ℕ) (mode mode' : LockMode) :
    lockDecCount counts mode mode' ≤ counts mode' := by
  unfold lockDecCount
  by_cases h : mode' = mode
  · subst h; simp
  · simp [h]

/-! ### `put_lock` -/

theorem lockIdle_iff {lock : ClientLock} :
    lockIdle lock ↔ lock.requestPending = false ∧ lock.invList = [] ∧
      ∀ mode, lock.waiters mode = 0 ∧ lock.users mode = 0 := by
  simp only [lockIdle, lockModes, List.all_cons, List.all_nil, Bool.and_true, Bool.and_eq_true,
    Bool.not_eq_true', List.isEmpty_iff, decide_eq_true_eq]
  constructor
  · rintro ⟨⟨hp, hi⟩, h0, h1, h2, h3⟩
    exact ⟨hp, hi, fun mode => by cases mode <;> assumption⟩
  · rintro ⟨hp, hi, h⟩
    exact ⟨⟨hp, hi⟩, h _, h _, h _, h _⟩

/-- A lock that stays is the lock itself. -/
theorem putLock_eq_some {lock lock' : ClientLock} (h : putLock lock = some lock') :
    lock' = lock := by
  unfold putLock at h
  split_ifs at h
  exact (Option.some.inj h).symm

/-- A lock with a user is never freed. -/
theorem putLock_of_users {lock : ClientLock} {mode : LockMode} (h : 0 < lock.users mode) :
    putLock lock = some lock := by
  have : ¬lockIdle lock := fun hi => by
    have := ((lockIdle_iff.mp hi).2.2 mode).2
    omega
  simp [putLock, this]

/-! ### The handlers' results -/

theorem scoutfsLockGrantResponse_eq_ok {slot slot' : Option ClientLock} {writeSeq : ℕ}
    {newMode : LockMode} :
    scoutfsLockGrantResponse slot writeSeq newMode = .ok slot' ↔
      ∃ lock, slot = some lock ∧ lock.requestPending = true ∧
        slot' = putLock { lock with requestPending := false, mode := newMode, writeSeq := writeSeq } := by
  cases slot with
  | none => simp [scoutfsLockGrantResponse]
  | some lock =>
    cases hp : lock.requestPending
    · simp [scoutfsLockGrantResponse, hp]
    · simp only [scoutfsLockGrantResponse, hp, Bool.not_true, Bool.false_eq_true, if_false,
        Except.pure_eq_ok, Except.ok.injEq, Option.some.injEq, exists_eq_left', true_and]
      exact eq_comm

theorem lockInvalidate_eq_ok {prev mode : LockMode} :
    lockInvalidate prev mode = .ok () ↔ mode = .null ∨ prev = .write ∧ mode = .read := by
  unfold lockInvalidate
  by_cases h : ¬(prev = .write ∧ mode = .read) ∧ mode ≠ .null
  · rw [if_pos h]
    simp only [Except.throw_eq_error, reduceCtorEq, false_iff]
    tauto
  · rw [if_neg h]
    simp only [Except.pure_eq_ok, true_iff]
    tauto

theorem lockInvalidateWorkerFinish_eq_ok {lock : ClientLock} {oldMode newMode : LockMode}
    {rest : List (LockMode × LockMode)} {slot : Option ClientLock} {msgs : List ToServer} :
    lockInvalidateWorkerFinish lock oldMode newMode rest = .ok (slot, msgs) ↔
      lockInvalidate oldMode newMode = .ok () ∧
        slot = putLock { lock with invList := rest, ready := false } ∧
        msgs = [.response oldMode newMode] := by
  unfold lockInvalidateWorkerFinish
  cases h : lockInvalidate oldMode newMode with
  | error e => simp
  | ok u => simp [eq_comm]

end Scoutfs
