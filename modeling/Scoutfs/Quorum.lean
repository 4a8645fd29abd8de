/-
The quorum election of `quorum.c`.

Each quorum slot's mount runs `scoutfs_quorum_worker`, a simplified raft leader
election over UDP.  One pass of its loop is `scoutfsQuorumWorkerIteration`, built
from one function per block of the loop body, in the source's order.  The cluster is
`QuorumWorld`: a worker status per mounted slot, each slot's server status and quorum
block, and every datagram ever sent, which the network may deliver to its slot any
number of times and in any order, or never.  `QuorumStep` is every move of a worker,
a server, a mount or the network.

The timeouts are left to the environment: whether a `ktime_after(ktime_get(),
qst.timeout)` test holds is an argument of the iteration, so the blocks that only
reset `qst.timeout` change nothing in the model.  `QuorumSpec.lean` proves what the
steps keep and that two slots can be elected in one term.
-/
import Mathlib.Data.Finset.Card
import Mathlib.Data.UInt
import Scoutfs.Format

namespace Scoutfs

/-! ### Roles, messages, events and the server status -/

/-- `enum quorum_role`. -/
inductive QuorumRole
  | follower
  | candidate
  | leader
  deriving DecidableEq, Repr

/-- `SCOUTFS_QUORUM_MSG_*`; the worker turns an ignored or missing message into
`invalid`. -/
inductive QuorumMsgType
  | requestVote
  | vote
  | heartbeat
  | resignation
  | invalid
  deriving DecidableEq, Repr

/-- The events of a quorum block, `SCOUTFS_QUORUM_EVENT_*`. -/
inductive QuorumEvent
  | begin
  | term
  | elect
  | fence
  | stop
  | «end»
  deriving DecidableEq, Repr

/-- The events in the order of the block's `events` array. -/
def quorumEvents : List QuorumEvent :=
  [.begin, .term, .elect, .fence, .stop, .«end»]

/-- The server's `status`; `SERVER_NOP` is only the probe value of `cmpxchg`. -/
inductive ServerStatus
  | starting
  | up
  | stopping
  | down
  deriving DecidableEq, Repr

def SCOUTFS_QUORUM_MAX_SLOTS : ℕ := 15

/-- `struct quorum_host_msg`: a received message the worker may use. -/
structure QuorumHostMsg where
  term : UInt64
  type : QuorumMsgType
  «from» : ℕ
  deriving DecidableEq, Repr

/-- A datagram on the network: `struct scoutfs_quorum_message` without the fields
`recv_msg` validates (`fsid`, `crc`), with the slot it is addressed to. -/
structure QuorumMessage where
  term : UInt64
  type : QuorumMsgType
  «from» : ℕ
  dest : ℕ
  deriving DecidableEq, Repr

/-- `struct quorum_status`, without `timeout`. -/
structure QuorumStatus where
  role : QuorumRole
  term : UInt64
  serverStartTerm : UInt64
  serverEvent : QuorumEvent
  voteFor : Int
  /-- `vote_bits`, the bitmap of slots whose votes were counted. -/
  voteBits : Finset ℕ
  deriving DecidableEq

/-- The quorum configuration of the super block: the slots whose address is set, all
below `SCOUTFS_QUORUM_MAX_SLOTS` as the slot array is that long. -/
structure QuorumConfig where
  present : Finset ℕ
  present_lt : ∀ s ∈ present, s < SCOUTFS_QUORUM_MAX_SLOTS

/-- The configuration part of `struct quorum_info` that the worker reads. -/
structure QuorumInfo where
  /-- The slots `quorum_slot_present` accepts. -/
  present : Finset ℕ
  ourQuorumSlotNr : ℕ
  votesNeeded : ℕ

/-- A quorum block: the term of each event whose `rid` is set. -/
def QuorumBlock := QuorumEvent → Option UInt64

/-! ### The server and the quorum block -/

/-- `scoutfs_server_is_running`. -/
def scoutfsServerIsRunning (status : ServerStatus) : Bool :=
  status == .starting || status == .up

/-- `scoutfs_server_start`: only a server that is down starts. -/
def scoutfsServerStart : ServerStatus → ServerStatus
  | .down => .starting
  | status => status

/-- `stop_server`, also `scoutfs_server_stop`. -/
def stopServer : ServerStatus → ServerStatus
  | .starting => .stopping
  | .up => .stopping
  | status => status

/-- `server_up`, when the server has started. -/
def serverUp : ServerStatus → ServerStatus
  | .starting => .up
  | status => status

/-- `set_quorum_block_event` as `update_quorum_block` writes it back. -/
def updateQuorumBlock (blk : QuorumBlock) (event : QuorumEvent) (term : UInt64) : QuorumBlock :=
  Function.update blk event (some term)

/-- One event's turn in `read_greatest_term`: an event whose `rid` is set raises the
greatest term to its own. -/
def maxEventTerm (blk : QuorumBlock) (term : UInt64) (e : QuorumEvent) : UInt64 :=
  match blk e with
  | some t => max term t
  | none => term

/-- The greatest term among the set events of one block, folded from `term`. -/
def blockGreatestTerm (blk : QuorumBlock) (term : UInt64) : UInt64 :=
  quorumEvents.foldl (maxEventTerm blk) term

/-- One slot's turn in `read_greatest_term`: only present slots' blocks are read. -/
def maxSlotTerm (present : Finset ℕ) (blocks : ℕ → QuorumBlock) (term : UInt64) (s : ℕ) :
    UInt64 :=
  if s ∈ present then blockGreatestTerm (blocks s) term else term

/-- `read_greatest_term`: the greatest term in all events of all present slots. -/
def readGreatestTerm (present : Finset ℕ) (blocks : ℕ → QuorumBlock) : UInt64 :=
  (List.range SCOUTFS_QUORUM_MAX_SLOTS).foldl (maxSlotTerm present blocks) 0

/-- `votes_needed` as `scoutfs_quorum_setup` sets it from the number of present slots. -/
def votesNeeded (found : ℕ) : ℕ :=
  if found < 3 then 1 else found / 2 + 1

/-- The worker's `quorum_info` for slot `nr` of the configuration `cfg`. -/
def quorumInfo (cfg : QuorumConfig) (nr : ℕ) : QuorumInfo :=
  ⟨cfg.present, nr, votesNeeded cfg.present.card⟩

/-- `send_msg_members`: the datagrams sent to every present slot but ours, or only to
`only` when it is not negative. -/
def sendMsgMembers (qinf : QuorumInfo) (type : QuorumMsgType) (term : UInt64) (only : Int) :
    List QuorumMessage :=
  ((List.range SCOUTFS_QUORUM_MAX_SLOTS).filter fun i =>
      i ∈ qinf.present ∧ (only < 0 ∨ (i : Int) = only) ∧ i ≠ qinf.ourQuorumSlotNr).map
    fun i => ⟨term, type, qinf.ourQuorumSlotNr, i⟩

/-- `send_msg_others`. -/
def sendMsgOthers (qinf : QuorumInfo) (type : QuorumMsgType) (term : UInt64) :
    List QuorumMessage :=
  sendMsgMembers qinf type term (-1)

/-- `send_msg_to`. -/
def sendMsgTo (qinf : QuorumInfo) (type : QuorumMsgType) (term : UInt64) (nr : ℕ) :
    List QuorumMessage :=
  sendMsgMembers qinf type term nr

/-- `recv_msg` as the worker sees it: a timeout or an invalid datagram gives the zeroed
message with type `invalid`. -/
def recvMsg : Option QuorumMessage → QuorumHostMsg
  | none => ⟨0, .invalid, 0⟩
  | some m => ⟨m.term, m.type, m.«from»⟩

/-! ### One pass of the worker's loop -/

/-- What one pass of the loop reads and changes: the worker's status, the received
message, the server's status, the slot's quorum block and the datagrams sent so far. -/
structure QuorumIter where
  qst : QuorumStatus
  msg : QuorumHostMsg
  server : ServerStatus
  blk : QuorumBlock
  sent : List QuorumMessage

/-- "ignore messages from older terms" -/
def quorumIgnoreOlder (it : QuorumIter) : QuorumIter :=
  if it.msg.type ≠ .invalid ∧ it.msg.term < it.qst.term then
    { it with msg := { it.msg with type := .invalid } }
  else it

/-- "receiving greater terms resets term, becomes follower", storing the new term. -/
def quorumGreaterTerm (it : QuorumIter) : QuorumIter :=
  if it.msg.type ≠ .invalid ∧ it.msg.term > it.qst.term then
    { it with
      qst := { it.qst with role := .follower, term := it.msg.term, voteFor := -1, voteBits := ∅ }
      blk := updateQuorumBlock it.blk .term it.msg.term }
  else it

/-- "followers and candidates start new election on timeout", once their server is
down: a new term, our own vote, and vote requests to the others. -/
def quorumStandForElection (qinf : QuorumInfo) (it : QuorumIter) : QuorumIter :=
  let term := it.qst.term + 1
  { it with
    qst := { it.qst with role := .candidate, term := term, voteFor := -1,
                         voteBits := {qinf.ourQuorumSlotNr} }
    sent := it.sent ++ sendMsgOthers qinf .requestVote term
    blk := updateQuorumBlock it.blk .term term }

/-- "candidates count votes in their term" -/
def quorumCountVote (it : QuorumIter) : QuorumIter :=
  if it.qst.role = .candidate ∧ it.msg.type = .vote then
    { it with qst := { it.qst with voteBits := insert it.msg.«from» it.qst.voteBits } }
  else it

/-- "Candidates become leaders when they receive enough votes": heartbeats, the elect
event, and the server started in the term. -/
def quorumBecomeLeader (qinf : QuorumInfo) (it : QuorumIter) : QuorumIter :=
  if it.qst.role = .candidate ∧ it.qst.voteBits.card ≥ qinf.votesNeeded then
    { it with
      qst := { it.qst with role := .leader, serverStartTerm := it.qst.term,
                           serverEvent := .elect }
      sent := it.sent ++ sendMsgOthers qinf .heartbeat it.qst.term
      blk := updateQuorumBlock it.blk .elect it.qst.term
      server := scoutfsServerStart it.server }
  else it

/-- "This leader's server is up, having finished fencing previous leaders." -/
def quorumRecordFence (it : QuorumIter) : QuorumIter :=
  if it.qst.role = .leader ∧ it.qst.serverEvent ≠ .fence ∧ it.server = .up then
    { it with
      qst := { it.qst with serverEvent := .fence }
      blk := updateQuorumBlock it.blk .fence it.qst.term }
  else it

/-- "Stop a running server if we're no longer leader in its term." -/
def quorumStopServer (it : QuorumIter) : QuorumIter :=
  if ¬(it.qst.role = .leader ∧ it.qst.term = it.qst.serverStartTerm) ∧
      scoutfsServerIsRunning it.server then
    { it with server := stopServer it.server }
  else it

/-- "A previously running server has stopped": a leader steps down to follower in the
same term, forgetting its vote, and sends resignations; the stop event is recorded. -/
def quorumServerStopped (qinf : QuorumInfo) (it : QuorumIter) : QuorumIter :=
  if it.qst.serverStartTerm > 0 ∧ it.server = .down then
    let it :=
      if it.qst.role = .leader then
        { it with
          qst := { it.qst with role := .follower, voteFor := -1, voteBits := ∅ }
          sent := it.sent ++ sendMsgOthers qinf .resignation it.qst.serverStartTerm }
      else it
    { it with
      blk := updateQuorumBlock it.blk .stop it.qst.serverStartTerm
      qst := { it.qst with serverStartTerm := 0 } }
  else it

/-- "leaders regularly send heartbeats to delay elections" -/
def quorumSendHeartbeat (qinf : QuorumInfo) (heartbeatDue : Bool) (it : QuorumIter) :
    QuorumIter :=
  if it.qst.role = .leader ∧ heartbeatDue then
    { it with sent := it.sent ++ sendMsgOthers qinf .heartbeat it.qst.term }
  else it

/-- "followers vote once per term" -/
def quorumFollowerVote (qinf : QuorumInfo) (it : QuorumIter) : QuorumIter :=
  if it.qst.role = .follower ∧ it.msg.type = .requestVote ∧ it.qst.voteFor = -1 then
    { it with
      qst := { it.qst with voteFor := it.msg.«from» }
      sent := it.sent ++ sendMsgTo qinf .vote it.qst.term it.msg.«from» }
  else it

/-- The blocks of the loop body after the election timeout test, in order. -/
def quorumAfterTimeout (qinf : QuorumInfo) (heartbeatDue : Bool) (it : QuorumIter) :
    QuorumIter :=
  quorumFollowerVote qinf <| quorumSendHeartbeat qinf heartbeatDue <|
    quorumServerStopped qinf <| quorumStopServer <| quorumRecordFence <|
    quorumBecomeLeader qinf <| quorumCountVote it

/-- The loop body of `scoutfs_quorum_worker` after `recv_msg`.  `electionDue` and
`heartbeatDue` are the two timeout tests.  A follower or candidate whose election
timeout expires while its server is not down takes the `continue`, skipping the rest
of the pass. -/
def scoutfsQuorumWorkerIteration (qinf : QuorumInfo) (electionDue heartbeatDue : Bool)
    (it : QuorumIter) : QuorumIter :=
  let it := quorumGreaterTerm (quorumIgnoreOlder it)
  if it.qst.role ≠ .leader ∧ electionDue ∧ it.server ≠ .down then it
  else
    quorumAfterTimeout qinf heartbeatDue <|
      if it.qst.role ≠ .leader ∧ electionDue then quorumStandForElection qinf it else it

/-! ### The cluster -/

/-- The quorum members of one file system.  `elected` records each CANDIDATE to LEADER
transition with its slot and term; nothing in the protocol reads it. -/
structure QuorumWorld where
  /-- The worker status of the mount in each slot, `none` while the slot is not mounted. -/
  mounts : ℕ → Option QuorumStatus
  servers : ℕ → ServerStatus
  blocks : ℕ → QuorumBlock
  /-- Every datagram ever sent. -/
  sent : List QuorumMessage
  elected : List (ℕ × UInt64)

/-- No mounts, servers down, quorum blocks as `mkfs` writes them, nothing sent. -/
def QuorumWorld.init : QuorumWorld :=
  ⟨fun _ => none, fun _ => .down, fun _ _ => none, [], []⟩

/-- The worker's status as `scoutfs_quorum_worker` starts. -/
def quorumStartStatus (term : UInt64) : QuorumStatus :=
  ⟨.follower, term, 0, .begin, -1, ∅⟩

/-- A mount of slot `s` starts its worker: a follower at the greatest term in the quorum
blocks, recorded in its begin event, with a server that is down. -/
def QuorumWorld.mount (w : QuorumWorld) (cfg : QuorumConfig) (s : ℕ) : QuorumWorld :=
  let term := readGreatestTerm cfg.present w.blocks
  { w with
    mounts := Function.update w.mounts s (some (quorumStartStatus term))
    servers := Function.update w.servers s .down
    blocks := Function.update w.blocks s (updateQuorumBlock (w.blocks s) .begin term) }

/-- One pass of the worker of slot `s` with status `qst`, which receives `msg`. -/
def QuorumWorld.iterate (w : QuorumWorld) (cfg : QuorumConfig) (s : ℕ) (qst : QuorumStatus)
    (msg : QuorumHostMsg) (electionDue heartbeatDue : Bool) : QuorumWorld :=
  let it := scoutfsQuorumWorkerIteration (quorumInfo cfg s) electionDue heartbeatDue
    ⟨qst, msg, w.servers s, w.blocks s, []⟩
  { mounts := Function.update w.mounts s (some it.qst)
    servers := Function.update w.servers s it.server
    blocks := Function.update w.blocks s it.blk
    sent := w.sent ++ it.sent
    elected :=
      if qst.role ≠ .leader ∧ it.qst.role = .leader then w.elected ++ [(s, it.qst.term)]
      else w.elected }

/-- The worker of slot `s` leaves its loop on unmount: it stops a running server and
waits for it, resigns and records the stop, then records its end. -/
def QuorumWorld.unmount (w : QuorumWorld) (cfg : QuorumConfig) (s : ℕ) (qst : QuorumStatus) :
    QuorumWorld :=
  let qinf := quorumInfo cfg s
  let w := { w with mounts := Function.update w.mounts s none }
  let w :=
    if scoutfsServerIsRunning (w.servers s) then
      { w with
        servers := Function.update w.servers s .down
        sent := w.sent ++ sendMsgOthers qinf .resignation qst.term
        blocks :=
          if qst.serverStartTerm > 0 then
            Function.update w.blocks s
              (updateQuorumBlock (w.blocks s) .stop qst.serverStartTerm)
          else w.blocks }
    else w
  { w with blocks := Function.update w.blocks s (updateQuorumBlock (w.blocks s) .«end» qst.term) }

/-- The mount of slot `s` is lost with its server. -/
def QuorumWorld.crash (w : QuorumWorld) (s : ℕ) : QuorumWorld :=
  { w with
    mounts := Function.update w.mounts s none
    servers := Function.update w.servers s .down }

/-- The server of slot `s` changes its own status. -/
def QuorumWorld.setServer (w : QuorumWorld) (s : ℕ) (f : ServerStatus → ServerStatus) :
    QuorumWorld :=
  { w with servers := Function.update w.servers s (f (w.servers s)) }

/-- Every move of the cluster with configuration `cfg`.  A pass of a worker
receives a datagram sent to its slot, any earlier one and again as often as the network
duplicates it, or none; a server comes up, stops or goes down on its own; a slot's
mount starts, leaves, or is lost. -/
inductive QuorumStep (cfg : QuorumConfig) : QuorumWorld → QuorumWorld → Prop
  | iterate {w : QuorumWorld} {s : ℕ} {qst : QuorumStatus} (hs : w.mounts s = some qst)
      (msg : Option QuorumMessage) (hmsg : ∀ m ∈ msg, m ∈ w.sent ∧ m.dest = s)
      (electionDue heartbeatDue : Bool) :
      QuorumStep cfg w (w.iterate cfg s qst (recvMsg msg) electionDue heartbeatDue)
  | serverUp {w : QuorumWorld} (s : ℕ) : QuorumStep cfg w (w.setServer s serverUp)
  | serverStop {w : QuorumWorld} (s : ℕ) : QuorumStep cfg w (w.setServer s stopServer)
  | serverDown {w : QuorumWorld} (s : ℕ) : QuorumStep cfg w (w.setServer s fun _ => .down)
  | mount {w : QuorumWorld} {s : ℕ} (hs : w.mounts s = none) (hp : s ∈ cfg.present) :
      QuorumStep cfg w (w.mount cfg s)
  | unmount {w : QuorumWorld} {s : ℕ} {qst : QuorumStatus} (hs : w.mounts s = some qst) :
      QuorumStep cfg w (w.unmount cfg s qst)
  | crash {w : QuorumWorld} (s : ℕ) : QuorumStep cfg w (w.crash s)

/-- The worlds reachable from `QuorumWorld.init`. -/
inductive QuorumReachable (cfg : QuorumConfig) : QuorumWorld → Prop
  | init : QuorumReachable cfg QuorumWorld.init
  | step {w w' : QuorumWorld} : QuorumReachable cfg w → QuorumStep cfg w w' →
      QuorumReachable cfg w'

end Scoutfs
