/-
The lock server of `lock_server.c`, for one lock.

The server keeps the clients' entries for a lock on three lists: `granted`, `requested` in
the order the requests arrived, and `invalidated`, the grants it has asked the clients to give
up and whose answers it waits for.  `process_waiting_requests` walks the requests in order; for
each it sends an invalidation to every grant incompatible with it and stops until all answers
are in, or else grants it, replacing the client's own grant.  A write grant takes its
`write_seq` from the server's `seq`.

The messages of the protocol are `ToClient` (the grant answering a request, and the
invalidation request) and `ToServer` (the request, and the answer to an invalidation), each
with the fields of `struct scoutfs_net_lock` that its receiver reads; the key is the lock's.  A
handler returns the server's state and the messages it sent, addressed by client `rid`.

`entriesOf` reads one client's entries off a list; the lemmas after each handler say what it
does to them, so that the protocol's invariant can be proved one client at a time.

Left out: the other locks (each has its own lists, and a handler only touches the lock of its
message), the recovery of locks after a server failover (`scoutfs_recov_next_pending` is taken
as 0), allocation and send failures, and the statistics.
-/
import Mathlib.Data.List.Basic
import Scoutfs.Format

namespace Scoutfs

/-! ### Modes, messages and entries -/

/-- `enum scoutfs_lock_mode`.  `SCOUTFS_LOCK_INVALID` is left out: a message with a mode at or
past it fails `invalid_mode` and changes nothing. -/
inductive LockMode
  | null
  | read
  | write
  | writeOnly
  deriving DecidableEq, Repr

/-- A message of the server to a client: the response to the client's request `netId`,
granting `newMode` in place of `oldMode` with the server's `writeSeq`, or a request to
invalidate the client's grant from `oldMode` down to `newMode`.  The `write_seq` of an
invalidation is whatever the server's `nl` last held and is never read. -/
inductive ToClient
  | grant (netId writeSeq : ℕ) (oldMode newMode : LockMode)
  | invalidate (oldMode newMode : LockMode)
  deriving DecidableEq, Repr

/-- A message of a client to the server: its request `netId` for `newMode` while it holds
`oldMode`, or its response to an invalidation, with the modes of the request it answers. -/
inductive ToServer
  | request (netId : ℕ) (oldMode newMode : LockMode)
  | response (oldMode newMode : LockMode)
  deriving DecidableEq, Repr

namespace ToClient

def isGrant : ToClient → Bool
  | grant .. => true
  | invalidate .. => false

def isInvalidate : ToClient → Bool
  | grant .. => false
  | invalidate .. => true

end ToClient

namespace ToServer

def isRequest : ToServer → Bool
  | request .. => true
  | response .. => false

def isResponse : ToServer → Bool
  | request .. => false
  | response .. => true

end ToServer

/-- `struct client_lock_entry`: a client's grant or request on the lock. -/
structure ClientEntry where
  rid : ℕ
  netId : ℕ
  mode : LockMode
  deriving DecidableEq, Repr

/-- The server's state for the lock: the three lists of `struct server_lock_node`, and the
server's `seq_atomic`. -/
structure LockServer where
  granted : List ClientEntry
  requested : List ClientEntry
  invalidated : List ClientEntry
  seq : ℕ
  deriving DecidableEq, Repr

/-- The server before any request. -/
def LockServer.empty : LockServer := ⟨[], [], [], 0⟩

/-- `invalidation_mode`. -/
def invalidationMode (granted requested : LockMode) : LockMode :=
  if granted = .write ∧ requested = .read then .read else .null

/-- `client_entries_compatible`. -/
def clientEntriesCompatible (granted requested : ClientEntry) : Bool :=
  (granted.mode = requested.mode ∧ (granted.mode = .read ∨ granted.mode = .writeOnly)) ∨
    (granted.rid = requested.rid ∧ granted.mode = .read ∧ requested.mode = .write)

/-- `find_entry`: the first entry of the client `rid` on a list. -/
def findEntry (list : List ClientEntry) (rid : ℕ) : Option ClientEntry :=
  list.find? fun e => e.rid = rid

/-! ### `process_waiting_requests` -/

/-- The loop of `process_waiting_requests` over `granted` for the request `req`: each grant
incompatible with it is sent an invalidation down to `invalidation_mode` and moves to the tail
of `invalidated`, in list order. -/
def invalidateGrants (req : ClientEntry) (s : LockServer) : LockServer × List (ℕ × ToClient) :=
  let stale := s.granted.filter fun gr => !clientEntriesCompatible gr req
  ({ s with
      granted := s.granted.filter fun gr => clientEntriesCompatible gr req
      invalidated := s.invalidated ++ stale },
    stale.map fun gr => (gr.rid, .invalidate gr.mode (invalidationMode gr.mode req.mode)))

/-- The grant of `req` by `process_waiting_requests`: the client's own grant, if any, gives the
response its old mode and is freed; a write mode takes the next `seq` as its `write_seq`; a null
request is not tracked, any other joins `granted`. -/
def grantRequest (req : ClientEntry) (s : LockServer) : LockServer × List (ℕ × ToClient) :=
  let oldMode := ((findEntry s.granted req.rid).map ClientEntry.mode).getD .null
  let granted := s.granted.eraseP fun gr => gr.rid = req.rid
  let seq := if req.mode = .write ∨ req.mode = .writeOnly then s.seq + 1 else s.seq
  let writeSeq := if req.mode = .write ∨ req.mode = .writeOnly then seq else 0
  ({ s with granted := if req.mode = .null then granted else granted ++ [req], seq := seq },
    [(req.rid, .grant req.netId writeSeq oldMode req.mode)])

/-- The walk of `process_waiting_requests` through `requested`, which is `req :: reqs` when it
reaches `req`: once invalidations are outstanding the walk stops, otherwise `req` leaves the
list and is granted. -/
def processRequests : List ClientEntry → LockServer → LockServer × List (ℕ × ToClient)
  | [], s => (s, [])
  | req :: reqs, s =>
    let inv := invalidateGrants req s
    if inv.1.invalidated ≠ [] then inv
    else
      let gr := grantRequest req { inv.1 with requested := reqs }
      let rest := processRequests reqs gr.1
      (rest.1, inv.2 ++ gr.2 ++ rest.2)

/-- `process_waiting_requests`: nothing moves while an invalidation is outstanding. -/
def processWaitingRequests (s : LockServer) : LockServer × List (ℕ × ToClient) :=
  if s.invalidated ≠ [] then (s, []) else processRequests s.requested s

/-! ### The handlers -/

/-- `scoutfs_lock_server_request` from the client `rid`: the request joins the tail of
`requested` and the waiting requests are processed. -/
def scoutfsLockServerRequest (s : LockServer) (rid netId : ℕ) (newMode : LockMode) :
    LockServer × List (ℕ × ToClient) :=
  processWaitingRequests { s with requested := s.requested ++ [⟨rid, netId, newMode⟩] }

/-- `scoutfs_lock_server_response` from the client `rid`, answering an invalidation down to
`newMode`: `-EINVAL` if the client has no entry on `invalidated`; otherwise its entry is freed
(a null answer) or takes the new mode and moves to the tail of `granted`, and the waiting
requests are processed. -/
def scoutfsLockServerResponse (s : LockServer) (rid : ℕ) (newMode : LockMode) :
    ℤ × LockServer × List (ℕ × ToClient) :=
  match findEntry s.invalidated rid with
  | none => (-EINVAL, s, [])
  | some c =>
    let invalidated := s.invalidated.eraseP fun e => e.rid = rid
    let s' := if newMode = .null then { s with invalidated := invalidated }
      else { s with invalidated := invalidated, granted := s.granted ++ [{ c with mode := newMode }] }
    let p := processWaitingRequests s'
    (0, p.1, p.2)

/-- `scoutfs_lock_server_farewell` for the client `rid`, on this lock: every entry of the client
is freed, and if any was, the waiting requests are processed. -/
def scoutfsLockServerFarewell (s : LockServer) (rid : ℕ) : LockServer × List (ℕ × ToClient) :=
  let keep := fun e : ClientEntry => e.rid ≠ rid
  let s' := { s with
    granted := s.granted.filter keep
    requested := s.requested.filter keep
    invalidated := s.invalidated.filter keep }
  if (s.granted ++ s.requested ++ s.invalidated).any (fun e => e.rid = rid) then
    processWaitingRequests s'
  else (s', [])

/-! ### Modes -/

/-- An invalidation drops a grant to null, or a write grant to read. -/
theorem invalidationMode_cases (granted requested : LockMode) :
    invalidationMode granted requested = .null ∨
      granted = .write ∧ invalidationMode granted requested = .read := by
  unfold invalidationMode
  split_ifs with h
  · exact .inr ⟨h.1, rfl⟩
  · exact .inl rfl

/-- Two entries of different clients are compatible only in the same shared mode. -/
theorem clientEntriesCompatible_of_ne {gr req : ClientEntry} (h : clientEntriesCompatible gr req)
    (hrid : gr.rid ≠ req.rid) :
    gr.mode = req.mode ∧ (gr.mode = .read ∨ gr.mode = .writeOnly) := by
  simp only [clientEntriesCompatible, decide_eq_true_eq] at h
  rcases h with h | h
  · exact h
  · exact absurd h.1 hrid

/-! ### One client's entries -/

/-- The entries of the client `rid` on a list. -/
def entriesOf (l : List ClientEntry) (rid : ℕ) : List ClientEntry :=
  l.filter fun e => e.rid = rid

@[simp] theorem entriesOf_nil (rid : ℕ) : entriesOf [] rid = [] := rfl

@[simp] theorem entriesOf_append (l l' : List ClientEntry) (rid : ℕ) :
    entriesOf (l ++ l') rid = entriesOf l rid ++ entriesOf l' rid :=
  List.filter_append ..

theorem entriesOf_singleton (e : ClientEntry) (rid : ℕ) :
    entriesOf [e] rid = if e.rid = rid then [e] else [] := by
  by_cases h : e.rid = rid <;> simp [entriesOf, h]

@[simp] theorem entriesOf_singleton_self (e : ClientEntry) : entriesOf [e] e.rid = [e] := by
  simp [entriesOf_singleton]

theorem entriesOf_singleton_ne {e : ClientEntry} {rid : ℕ} (h : e.rid ≠ rid) :
    entriesOf [e] rid = [] := by
  simp [entriesOf_singleton, h]

theorem mem_entriesOf {l : List ClientEntry} {rid : ℕ} {e : ClientEntry} :
    e ∈ entriesOf l rid ↔ e ∈ l ∧ e.rid = rid := by
  simp [entriesOf]

theorem entriesOf_filter (l : List ClientEntry) (p : ClientEntry → Bool) (rid : ℕ) :
    entriesOf (l.filter p) rid = (entriesOf l rid).filter p := by
  simp only [entriesOf, List.filter_filter, Bool.and_comm]

/-- Freeing the first entry of a client takes the head off its entries. -/
theorem entriesOf_eraseP_self (l : List ClientEntry) (rid : ℕ) :
    entriesOf (l.eraseP fun e => e.rid = rid) rid = (entriesOf l rid).tail := by
  induction l with
  | nil => rfl
  | cons e l ih =>
    by_cases h : e.rid = rid
    · simp [entriesOf, h]
    · simp only [List.eraseP_cons, h, decide_false, cond_false]
      simpa [entriesOf, h] using ih

/-- Freeing an entry of one client leaves every other client's entries. -/
theorem entriesOf_eraseP_ne (l : List ClientEntry) {rid rid' : ℕ} (h : rid ≠ rid') :
    entriesOf (l.eraseP fun e => e.rid = rid) rid' = entriesOf l rid' := by
  induction l with
  | nil => rfl
  | cons e l ih =>
    by_cases he : e.rid = rid
    · simp [entriesOf, he, h]
    · simp only [List.eraseP_cons, he, decide_false, cond_false]
      by_cases he' : e.rid = rid' <;> simpa [entriesOf, he'] using ih

theorem findEntry_eq_head? (l : List ClientEntry) (rid : ℕ) :
    findEntry l rid = (entriesOf l rid).head? := by
  simp [findEntry, entriesOf, List.head?_filter]

/-! ### What each step does to one client's entries -/

section Entries

variable (req : ClientEntry) (s : LockServer) (rid : ℕ)

@[simp] theorem invalidateGrants_granted :
    (invalidateGrants req s).1.granted = s.granted.filter fun gr => clientEntriesCompatible gr req :=
  rfl

@[simp] theorem invalidateGrants_invalidated :
    (invalidateGrants req s).1.invalidated =
      s.invalidated ++ s.granted.filter fun gr => !clientEntriesCompatible gr req :=
  rfl

@[simp] theorem invalidateGrants_requested : (invalidateGrants req s).1.requested = s.requested :=
  rfl

/-- The invalidations go to the clients of the incompatible grants, one each. -/
theorem invalidateGrants_sent :
    (invalidateGrants req s).2 = (s.granted.filter fun gr => !clientEntriesCompatible gr req).map
      fun gr => (gr.rid, ToClient.invalidate gr.mode (invalidationMode gr.mode req.mode)) :=
  rfl

/-- The old mode of a grant is the mode of the client's own grant, null if it has none. -/
theorem grantRequest_sent :
    (grantRequest req s).2 = [(req.rid, .grant req.netId
      (if req.mode = .write ∨ req.mode = .writeOnly then s.seq + 1 else 0)
      (((entriesOf s.granted req.rid).head?.map ClientEntry.mode).getD .null) req.mode)] := by
  simp only [grantRequest, findEntry_eq_head?]
  split_ifs <;> rfl

@[simp] theorem grantRequest_requested : (grantRequest req s).1.requested = s.requested :=
  rfl

@[simp] theorem grantRequest_invalidated : (grantRequest req s).1.invalidated = s.invalidated :=
  rfl

theorem grantRequest_granted :
    (grantRequest req s).1.granted = if req.mode = .null then s.granted.eraseP (fun gr => gr.rid = req.rid)
      else s.granted.eraseP (fun gr => gr.rid = req.rid) ++ [req] :=
  rfl

/-- The granted client's entries become the request, or none for a null request. -/
theorem entriesOf_grantRequest_self :
    entriesOf (grantRequest req s).1.granted req.rid =
      (entriesOf s.granted req.rid).tail ++ (if req.mode = .null then [] else [req]) := by
  rw [grantRequest_granted]
  split_ifs <;> simp [entriesOf_eraseP_self]

theorem entriesOf_grantRequest_ne (h : req.rid ≠ rid) :
    entriesOf (grantRequest req s).1.granted rid = entriesOf s.granted rid := by
  rw [grantRequest_granted]
  split_ifs <;> simp [entriesOf_eraseP_ne _ h, entriesOf_singleton_ne h]

end Entries

end Scoutfs
