/-
The lock protocol of `lock_server.c` and `lock.c`, for one lock, as a system of the server and
its clients.

`LockWorld` holds the server's state, each client's lock (`none` when it does not exist), the
messages the server has sent each client and the client has not received yet, and the messages
each client has sent the server and the server has not received yet.  A client receives its
messages in the order they were sent, as `lock.c` relies on ("called synchronously in the net
recv path to avoid reordering with grants"); the server may receive a client's messages in any
order, which covers every order the network and the server's handlers may take.

`LockStep` is every move of a client (`lock_key_range` entering, passing its loop or giving up,
`scoutfs_unlock`, the shrinker, receiving a grant or an invalidation request, the two phases of
the invalidation worker) and of the server (receiving a request or an answer, a client's
farewell).  A handler that hits a `BUG_ON` has no step.  `LockReach` is every world a run from
the start reaches.

A client sends its request before it lets go of its spinlock in the model, where `lock.c` sends
it just after; the server cannot tell the two apart, since it may receive the request at any
later time.
-/
import Scoutfs.LockClient
import Scoutfs.Lib.Mailbox

namespace Scoutfs

/-- The lock protocol: the server, each client's lock, and the queues between them. -/
structure LockWorld where
  server : LockServer
  clients : ℕ → Option ClientLock
  toClient : ℕ → List ToClient
  toServer : ℕ → List ToServer

namespace LockWorld

/-- No lock, no message. -/
def init : LockWorld := ⟨LockServer.empty, fun _ => none, fun _ => [], fun _ => []⟩

/-- The lock of client `r` as the protocol reads it: a lock that does not exist is a new one. -/
def lockOf (w : LockWorld) (r : ℕ) : ClientLock :=
  createLock (w.clients r)

/-- Client `r` has set its lock to `slot` and sent `msgs` to the server. -/
def client (w : LockWorld) (r : ℕ) (slot : Option ClientLock) (msgs : List ToServer) : LockWorld :=
  { w with
    clients := Function.update w.clients r slot
    toServer := Mailbox.send w.toServer r msgs }

/-- Client `r` has taken the first message off its queue, which leaves `rest`. -/
def recv (w : LockWorld) (r : ℕ) (rest : List ToClient) : LockWorld :=
  { w with toClient := Function.update w.toClient r rest }

/-- The server has taken the message `msg` of client `r`. -/
def take (w : LockWorld) (r : ℕ) (msg : ToServer) : LockWorld :=
  { w with toServer := Function.update w.toServer r ((w.toServer r).erase msg) }

/-- The server has moved to the state `p.1` and sent the messages `p.2`. -/
def serve (w : LockWorld) (p : LockServer × List (ℕ × ToClient)) : LockWorld :=
  { w with server := p.1, toClient := Mailbox.post w.toClient p.2 }

/-- Client `r` has left: its lock and its queues are gone. -/
def leave (w : LockWorld) (r : ℕ) : LockWorld :=
  { w with
    clients := Function.update w.clients r none
    toClient := Function.update w.toClient r []
    toServer := Function.update w.toServer r [] }

end LockWorld

open LockWorld

/-- One move of a client or of the server. -/
inductive LockStep : LockWorld → LockWorld → Prop
  /-- A caller enters `lock_key_range` for `mode`. -/
  | enter (w : LockWorld) (r : ℕ) (mode : LockMode) :
      LockStep w (w.client r (some (lockKeyRangeEnter (w.clients r) mode)) [])
  /-- A waiting caller makes a pass of the loop of `lock_key_range`. -/
  | round (w : LockWorld) (r : ℕ) (lock : ClientLock) (mode : LockMode) (netId : ℕ)
      (hl : w.clients r = some lock) (hw : 0 < lock.waiters mode) :
      LockStep w (w.client r (lockKeyRangeRound lock mode netId).1
        (lockKeyRangeRound lock mode netId).2)
  /-- A waiting caller gives up. -/
  | abort (w : LockWorld) (r : ℕ) (lock : ClientLock) (mode : LockMode)
      (hl : w.clients r = some lock) (hw : 0 < lock.waiters mode) :
      LockStep w (w.client r (lockKeyRangeAbort lock mode) [])
  /-- A user unlocks. -/
  | unlock (w : LockWorld) (r : ℕ) (lock : ClientLock) (mode : LockMode)
      (hl : w.clients r = some lock) (hu : 0 < lock.users mode) :
      LockStep w (w.client r (scoutfsUnlock lock mode) [])
  /-- The shrinker lets an idle lock go. -/
  | shrink (w : LockWorld) (r : ℕ) (lock : ClientLock) (netId : ℕ)
      (hl : w.clients r = some lock) (hi : lockIdle lock) (hm : lock.mode ≠ .null) :
      LockStep w (w.client r (some (lockShrink lock netId).1) (lockShrink lock netId).2)
  /-- The client receives a grant. -/
  | grant (w : LockWorld) (r netId writeSeq : ℕ) (oldMode newMode : LockMode)
      (rest : List ToClient) (slot : Option ClientLock)
      (hq : w.toClient r = .grant netId writeSeq oldMode newMode :: rest)
      (hg : scoutfsLockGrantResponse (w.clients r) writeSeq newMode = .ok slot) :
      LockStep w ((w.recv r rest).client r slot [])
  /-- The client receives an invalidation request. -/
  | invalidate (w : LockWorld) (r : ℕ) (oldMode newMode : LockMode) (rest : List ToClient)
      (hq : w.toClient r = .invalidate oldMode newMode :: rest) :
      LockStep w ((w.recv r rest).client r
        (scoutfsLockInvalidateRequest (w.clients r) oldMode newMode).1
        (scoutfsLockInvalidateRequest (w.clients r) oldMode newMode).2)
  /-- The invalidation worker's first pass over a lock. -/
  | workerStart (w : LockWorld) (r : ℕ) (lock : ClientLock) (hl : w.clients r = some lock) :
      LockStep w (w.client r (some (lockInvalidateWorkerStart lock)) [])
  /-- The invalidation worker finishes a lock on its ready list. -/
  | workerFinish (w : LockWorld) (r : ℕ) (lock : ClientLock) (oldMode newMode : LockMode)
      (rest : List (LockMode × LockMode)) (slot : Option ClientLock) (msgs : List ToServer)
      (hl : w.clients r = some lock) (hr : lock.ready = true)
      (hi : lock.invList = (oldMode, newMode) :: rest)
      (hf : lockInvalidateWorkerFinish lock oldMode newMode rest = .ok (slot, msgs)) :
      LockStep w (w.client r slot msgs)
  /-- The server receives a request. -/
  | request (w : LockWorld) (r netId : ℕ) (oldMode newMode : LockMode)
      (hm : .request netId oldMode newMode ∈ w.toServer r) :
      LockStep w ((w.take r (.request netId oldMode newMode)).serve
        (scoutfsLockServerRequest w.server r netId newMode))
  /-- The server receives the answer to an invalidation. -/
  | response (w : LockWorld) (r : ℕ) (oldMode newMode : LockMode)
      (hm : .response oldMode newMode ∈ w.toServer r) :
      LockStep w ((w.take r (.response oldMode newMode)).serve
        (scoutfsLockServerResponse w.server r newMode).2)
  /-- A client leaves, and the server receives its farewell. -/
  | farewell (w : LockWorld) (r : ℕ) :
      LockStep w ((w.leave r).serve (scoutfsLockServerFarewell w.server r))

/-- The worlds that runs from the start reach. -/
inductive LockReach : LockWorld → Prop
  | init : LockReach LockWorld.init
  | step {w w' : LockWorld} : LockReach w → LockStep w w' → LockReach w'

namespace LockWorld

/-! ### What each update changes -/

variable (w : LockWorld) (r : ℕ)

@[simp] theorem client_server (slot : Option ClientLock) (msgs : List ToServer) :
    (w.client r slot msgs).server = w.server := rfl

@[simp] theorem client_toClient (slot : Option ClientLock) (msgs : List ToServer) :
    (w.client r slot msgs).toClient = w.toClient := rfl

@[simp] theorem client_clients (slot : Option ClientLock) (msgs : List ToServer) :
    (w.client r slot msgs).clients = Function.update w.clients r slot := rfl

@[simp] theorem client_toServer (slot : Option ClientLock) (msgs : List ToServer) :
    (w.client r slot msgs).toServer = Mailbox.send w.toServer r msgs := rfl

@[simp] theorem recv_server (rest : List ToClient) : (w.recv r rest).server = w.server := rfl

@[simp] theorem recv_clients (rest : List ToClient) : (w.recv r rest).clients = w.clients := rfl

@[simp] theorem recv_toServer (rest : List ToClient) : (w.recv r rest).toServer = w.toServer :=
  rfl

@[simp] theorem recv_toClient (rest : List ToClient) :
    (w.recv r rest).toClient = Function.update w.toClient r rest := rfl

@[simp] theorem take_server (msg : ToServer) : (w.take r msg).server = w.server := rfl

@[simp] theorem take_clients (msg : ToServer) : (w.take r msg).clients = w.clients := rfl

@[simp] theorem take_toClient (msg : ToServer) : (w.take r msg).toClient = w.toClient := rfl

@[simp] theorem take_toServer (msg : ToServer) :
    (w.take r msg).toServer = Function.update w.toServer r ((w.toServer r).erase msg) := rfl

@[simp] theorem serve_server (p : LockServer × List (ℕ × ToClient)) : (w.serve p).server = p.1 :=
  rfl

@[simp] theorem serve_clients (p : LockServer × List (ℕ × ToClient)) :
    (w.serve p).clients = w.clients := rfl

@[simp] theorem serve_toServer (p : LockServer × List (ℕ × ToClient)) :
    (w.serve p).toServer = w.toServer := rfl

@[simp] theorem serve_toClient (p : LockServer × List (ℕ × ToClient)) :
    (w.serve p).toClient = Mailbox.post w.toClient p.2 := rfl

/-- Serving twice is serving once with both batches of messages. -/
theorem serve_serve (p q : LockServer × List (ℕ × ToClient)) :
    (w.serve p).serve q = w.serve (q.1, p.2 ++ q.2) := by
  simp [serve, Mailbox.post_append]

theorem lockOf_client_self (slot : Option ClientLock) (msgs : List ToServer) :
    (w.client r slot msgs).lockOf r = createLock slot := by
  simp [lockOf]

theorem lockOf_client_ne {r' : ℕ} (slot : Option ClientLock) (msgs : List ToServer) (h : r' ≠ r) :
    (w.client r slot msgs).lockOf r' = w.lockOf r' := by
  simp [lockOf, h]

theorem lockOf_of_clients {lock : ClientLock} (h : w.clients r = some lock) : w.lockOf r = lock := by
  simp [lockOf, createLock, h]

end LockWorld

end Scoutfs
