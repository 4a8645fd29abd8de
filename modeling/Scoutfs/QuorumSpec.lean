/-
What the quorum election keeps over every run of the cluster, and where it fails.

* `quorumStep_slotTerm` — a slot's term, its worker's while it is mounted and else the
  greatest in its quorum block, never decreases over a step of a reachable cluster,
  except when `qst.term++` wraps at `U64_MAX`;
* `quorumReachable_leaderVotes` — a leader has counted at least `votes_needed` votes,
  each its own or a VOTE sent to it in its term or in the term before: a candidate
  whose election timeout expires in the pass that receives a vote counts that vote in
  its new term;
* `quorum_two_leaders_one_term` — with three slots, a leader whose server stops steps
  down in its term with `vote_for = -1`, votes for a rival's delayed request, and the
  rival is elected in the same term.

Every pass of a worker keeps `PassInv`, built from one lemma per block of the loop body;
`QuorumInv` is its form on the cluster, kept by every `QuorumStep`.
-/
import Scoutfs.Quorum

namespace Scoutfs

/-! ### Greatest terms -/

section Fold

variable {α : Type} (f : UInt64 → α → UInt64)

end Fold

theorem updateQuorumBlock_self (blk : QuorumBlock) (e : QuorumEvent) (t : UInt64) :
    updateQuorumBlock blk e t e = some t :=
  Function.update_self e _ blk

theorem updateQuorumBlock_of_ne (blk : QuorumBlock) (e e' : QuorumEvent) (t : UInt64)
    (h : e' ≠ e) : updateQuorumBlock blk e t e' = blk e' :=
  Function.update_of_ne h _ blk

/-- A part of the pass that leaves the term, the message, and the two events that store
the term alone. -/
structure KeepsTerm (it it' : QuorumIter) : Prop where
  term : it'.qst.term = it.qst.term
  msg : it'.msg = it.msg
  begin : it'.blk .begin = it.blk .begin
  termEvent : it'.blk .term = it.blk .term

theorem KeepsTerm.trans {it it' it'' : QuorumIter} (h : KeepsTerm it it')
    (h' : KeepsTerm it' it'') : KeepsTerm it it'' :=
  ⟨h'.term.trans h.term, h'.msg.trans h.msg, h'.begin.trans h.begin,
    h'.termEvent.trans h.termEvent⟩

/-- A part of the pass that also makes no leader and at most forgets the counted votes. -/
structure StepKeeps (it it' : QuorumIter) : Prop extends KeepsTerm it it' where
  voteBits : it'.qst.voteBits = it.qst.voteBits ∨ it'.qst.voteBits = ∅
  leader : it'.qst.role = .leader → it.qst.role = .leader ∧ it'.qst.voteBits = it.qst.voteBits

theorem StepKeeps.refl (it : QuorumIter) : StepKeeps it it :=
  ⟨⟨rfl, rfl, rfl, rfl⟩, Or.inl rfl, fun h => ⟨h, rfl⟩⟩

theorem StepKeeps.trans {it it' it'' : QuorumIter} (h : StepKeeps it it')
    (h' : StepKeeps it' it'') : StepKeeps it it'' := by
  refine ⟨h.toKeepsTerm.trans h'.toKeepsTerm, ?_, ?_⟩
  · rcases h'.voteBits with e' | e'
    · rw [e']
      exact h.voteBits
    · exact Or.inr e'
  · intro hl
    obtain ⟨hl', e'⟩ := h'.leader hl
    obtain ⟨hl'', e''⟩ := h.leader hl'
    exact ⟨hl'', e'.trans e''⟩

theorem stepKeeps_quorumRecordFence (it : QuorumIter) : StepKeeps it (quorumRecordFence it) := by
  unfold quorumRecordFence
  split
  · exact ⟨⟨rfl, rfl, updateQuorumBlock_of_ne it.blk .fence .begin it.qst.term (by decide),
      updateQuorumBlock_of_ne it.blk .fence .term it.qst.term (by decide)⟩, Or.inl rfl,
      fun h => ⟨h, rfl⟩⟩
  · exact StepKeeps.refl it

theorem stepKeeps_quorumStopServer (it : QuorumIter) : StepKeeps it (quorumStopServer it) := by
  unfold quorumStopServer
  split
  · exact ⟨⟨rfl, rfl, rfl, rfl⟩, Or.inl rfl, fun h => ⟨h, rfl⟩⟩
  · exact StepKeeps.refl it

/-- A leader whose server has stopped steps down in its own term. -/
theorem stepKeeps_quorumServerStopped (qinf : QuorumInfo) (it : QuorumIter) :
    StepKeeps it (quorumServerStopped qinf it) := by
  unfold quorumServerStopped
  split
  · have hb : ∀ blk t, updateQuorumBlock blk .stop t .begin = blk .begin ∧
        updateQuorumBlock blk .stop t .term = blk .term := fun blk t =>
      ⟨updateQuorumBlock_of_ne _ _ _ _ (by decide), updateQuorumBlock_of_ne _ _ _ _ (by decide)⟩
    by_cases hl : it.qst.role = .leader
    · rw [if_pos hl]
      refine ⟨⟨rfl, rfl, (hb it.blk it.qst.serverStartTerm).1,
        (hb it.blk it.qst.serverStartTerm).2⟩, Or.inr rfl, ?_⟩
      intro h
      cases h
    · rw [if_neg hl]
      exact ⟨⟨rfl, rfl, (hb it.blk it.qst.serverStartTerm).1,
        (hb it.blk it.qst.serverStartTerm).2⟩, Or.inl rfl, fun h => ⟨h, rfl⟩⟩
  · exact StepKeeps.refl it

theorem stepKeeps_quorumSendHeartbeat (qinf : QuorumInfo) (heartbeatDue : Bool)
    (it : QuorumIter) : StepKeeps it (quorumSendHeartbeat qinf heartbeatDue it) := by
  unfold quorumSendHeartbeat
  split
  · exact ⟨⟨rfl, rfl, rfl, rfl⟩, Or.inl rfl, fun h => ⟨h, rfl⟩⟩
  · exact StepKeeps.refl it

theorem stepKeeps_quorumFollowerVote (qinf : QuorumInfo) (it : QuorumIter) :
    StepKeeps it (quorumFollowerVote qinf it) := by
  unfold quorumFollowerVote
  split
  · exact ⟨⟨rfl, rfl, rfl, rfl⟩, Or.inl rfl, fun h => ⟨h, rfl⟩⟩
  · exact StepKeeps.refl it

/-- The blocks after the election can only step a leader down. -/
theorem stepKeeps_serve (qinf : QuorumInfo) (heartbeatDue : Bool) (it : QuorumIter) :
    StepKeeps it (quorumFollowerVote qinf <| quorumSendHeartbeat qinf heartbeatDue <|
      quorumServerStopped qinf <| quorumStopServer <| quorumRecordFence it) :=
  (stepKeeps_quorumRecordFence it).trans <| (stepKeeps_quorumStopServer _).trans <|
    (stepKeeps_quorumServerStopped qinf _).trans <|
    (stepKeeps_quorumSendHeartbeat qinf heartbeatDue _).trans <|
    stepKeeps_quorumFollowerVote qinf _

theorem quorumIgnoreOlder_qst (it : QuorumIter) : (quorumIgnoreOlder it).qst = it.qst := by
  unfold quorumIgnoreOlder
  split <;> rfl

theorem quorumIgnoreOlder_blk (it : QuorumIter) : (quorumIgnoreOlder it).blk = it.blk := by
  unfold quorumIgnoreOlder
  split <;> rfl

/-- A vote slot `s` may count in its term `t`: its own, or a VOTE sent to it in `t` or in
the term before. -/
def VoteFrom (sent : List QuorumMessage) (s : ℕ) (t : UInt64) (v : ℕ) : Prop :=
  v = s ∨ ∃ m ∈ sent, m.type = .vote ∧ m.«from» = v ∧ m.dest = s ∧ (m.term = t ∨ m.term + 1 = t)

theorem VoteFrom.mono {sent sent' : List QuorumMessage} {s : ℕ} {t : UInt64} {v : ℕ}
    (h : VoteFrom sent s t v) (hs : ∀ m ∈ sent, m ∈ sent') : VoteFrom sent' s t v := by
  rcases h with h | ⟨m, hm, hrest⟩
  · exact Or.inl h
  · exact Or.inr ⟨m, hs m hm, hrest⟩

/-- What every pass of the worker of slot `qinf.ourQuorumSlotNr` keeps, where `sent` are
the datagrams sent before the pass: the term stored in the begin or term event, the
counted votes, a leader's quorum, and a received vote that was sent. -/
structure PassInv (qinf : QuorumInfo) (sent : List QuorumMessage) (it : QuorumIter) : Prop where
  stored : it.blk .begin = some it.qst.term ∨ it.blk .term = some it.qst.term
  counted : ∀ v ∈ it.qst.voteBits, VoteFrom sent qinf.ourQuorumSlotNr it.qst.term v
  leader : it.qst.role = .leader → qinf.votesNeeded ≤ it.qst.voteBits.card
  msg : it.msg.type = .vote → ∃ m ∈ sent, m.type = .vote ∧ m.«from» = it.msg.«from» ∧
    m.dest = qinf.ourQuorumSlotNr ∧ m.term = it.msg.term

/-- A message that was not ignored is of the worker's term, or of the term before once
the worker has stood for election in the same pass. -/
def MsgRecent (it : QuorumIter) : Prop :=
  it.msg.type ≠ .invalid → it.msg.term = it.qst.term ∨ it.msg.term + 1 = it.qst.term

theorem PassInv.of_stepKeeps {qinf : QuorumInfo} {sent : List QuorumMessage}
    {it it' : QuorumIter} (h : PassInv qinf sent it) (hk : StepKeeps it it') :
    PassInv qinf sent it' := by
  refine ⟨?_, ?_, ?_, ?_⟩
  · rw [hk.begin, hk.termEvent, hk.term]
    exact h.stored
  · intro v hv
    rw [hk.term]
    rcases hk.voteBits with e | e
    · rw [e] at hv
      exact h.counted v hv
    · rw [e] at hv
      cases hv
  · intro hl
    obtain ⟨hl', e⟩ := hk.leader hl
    rw [e]
    exact h.leader hl'
  · rw [hk.msg]
    exact h.msg

theorem passInv_quorumIgnoreOlder {qinf : QuorumInfo} {sent : List QuorumMessage}
    {it : QuorumIter} (h : PassInv qinf sent it) : PassInv qinf sent (quorumIgnoreOlder it) := by
  unfold quorumIgnoreOlder
  split
  · exact ⟨h.stored, h.counted, h.leader, fun hv => by cases hv⟩
  · exact h

/-- After the term checks a message that was not ignored is of the worker's term. -/
theorem msgCurrent_quorumGreaterTerm (it : QuorumIter) :
    (quorumGreaterTerm (quorumIgnoreOlder it)).msg.type ≠ .invalid →
      (quorumGreaterTerm (quorumIgnoreOlder it)).msg.term =
        (quorumGreaterTerm (quorumIgnoreOlder it)).qst.term := by
  unfold quorumGreaterTerm
  split
  · intro _
    rfl
  · rename_i hg
    intro hv
    have hold : ¬(it.msg.term < it.qst.term) := by
      intro hlt
      unfold quorumIgnoreOlder at hv
      split at hv
      · exact hv rfl
      · rename_i hno
        exact hno ⟨hv, hlt⟩
    have hgt : ¬(it.msg.term > it.qst.term) := by
      rw [quorumIgnoreOlder_qst] at hg
      intro hlt
      apply hg
      refine ⟨hv, ?_⟩
      unfold quorumIgnoreOlder
      split <;> exact hlt
    have hmsg : (quorumIgnoreOlder it).msg.term = it.msg.term := by
      unfold quorumIgnoreOlder
      split <;> rfl
    rw [hmsg, quorumIgnoreOlder_qst]
    simp only [gt_iff_lt, UInt64.lt_iff_toNat_lt] at hold hgt
    exact UInt64.toNat_inj.mp (by omega)

theorem passInv_quorumGreaterTerm {qinf : QuorumInfo} {sent : List QuorumMessage}
    {it : QuorumIter} (h : PassInv qinf sent it) : PassInv qinf sent (quorumGreaterTerm it) := by
  unfold quorumGreaterTerm
  split
  · refine ⟨Or.inr (updateQuorumBlock_self it.blk .term it.msg.term), (fun v hv => by cases hv),
      (fun hl => by cases hl), h.msg⟩
  · exact h

theorem passInv_quorumStandForElection {qinf : QuorumInfo} {sent : List QuorumMessage}
    {it : QuorumIter} (h : PassInv qinf sent it) :
    PassInv qinf sent (quorumStandForElection qinf it) := by
  refine ⟨Or.inr (updateQuorumBlock_self it.blk .term (it.qst.term + 1)), ?_,
    (fun hl => by cases hl), h.msg⟩
  intro v hv
  exact Or.inl (Finset.mem_singleton.mp hv)

theorem msgRecent_quorumStandForElection (qinf : QuorumInfo) {it : QuorumIter}
    (h : it.msg.type ≠ .invalid → it.msg.term = it.qst.term) :
    MsgRecent (quorumStandForElection qinf it) := by
  intro hv
  right
  show it.msg.term + 1 = it.qst.term + 1
  rw [h hv]

/-- A counted vote was sent to the candidate in its term or the term before. -/
theorem passInv_quorumCountVote {qinf : QuorumInfo} {sent : List QuorumMessage}
    {it : QuorumIter} (h : PassInv qinf sent it) (hr : MsgRecent it) :
    PassInv qinf sent (quorumCountVote it) := by
  unfold quorumCountVote
  split
  · rename_i hc
    refine ⟨h.stored, ?_, fun hl => absurd (hc.1.symm.trans hl) (by decide), h.msg⟩
    intro v hv
    rcases Finset.mem_insert.mp hv with rfl | hv
    · obtain ⟨m, hm, ht, hf, hd, hterm⟩ := h.msg hc.2
      have hrec := hr (by rw [hc.2]; decide)
      rw [← hterm] at hrec
      exact Or.inr ⟨m, hm, ht, hf, hd, hrec⟩
    · exact h.counted v hv
  · exact h

theorem passInv_quorumBecomeLeader {qinf : QuorumInfo} {sent : List QuorumMessage}
    {it : QuorumIter} (h : PassInv qinf sent it) :
    PassInv qinf sent (quorumBecomeLeader qinf it) := by
  unfold quorumBecomeLeader
  split
  · rename_i hc
    refine ⟨?_, h.counted, fun _ => hc.2, h.msg⟩
    dsimp only
    rw [updateQuorumBlock_of_ne it.blk .elect .begin it.qst.term (by decide),
      updateQuorumBlock_of_ne it.blk .elect .term it.qst.term (by decide)]
    exact h.stored
  · exact h

theorem passInv_quorumAfterTimeout {qinf : QuorumInfo} {sent : List QuorumMessage}
    {it : QuorumIter} (heartbeatDue : Bool) (h : PassInv qinf sent it) (hr : MsgRecent it) :
    PassInv qinf sent (quorumAfterTimeout qinf heartbeatDue it) :=
  (passInv_quorumBecomeLeader (passInv_quorumCountVote h hr)).of_stepKeeps
    (stepKeeps_serve qinf heartbeatDue _)

/-- **Every pass of the worker keeps `PassInv`.** -/
theorem passInv_scoutfsQuorumWorkerIteration {qinf : QuorumInfo} {sent : List QuorumMessage}
    {it : QuorumIter} (electionDue heartbeatDue : Bool) (h : PassInv qinf sent it) :
    PassInv qinf sent (scoutfsQuorumWorkerIteration qinf electionDue heartbeatDue it) := by
  have h₁ := passInv_quorumGreaterTerm (passInv_quorumIgnoreOlder h)
  have hc := msgCurrent_quorumGreaterTerm it
  unfold scoutfsQuorumWorkerIteration
  dsimp only
  split
  · exact h₁
  · split
    · exact passInv_quorumAfterTimeout heartbeatDue (passInv_quorumStandForElection h₁)
        (msgRecent_quorumStandForElection qinf hc)
    · exact passInv_quorumAfterTimeout heartbeatDue h₁ fun hv => Or.inl (hc hv)

/-! ### The cluster invariant -/

/-- What a mounted slot keeps in the cluster: its term stored in its begin or term event,
its counted votes, and a leader's quorum. -/
structure SlotInv (cfg : QuorumConfig) (w : QuorumWorld) (s : ℕ) (qst : QuorumStatus) : Prop where
  stored : w.blocks s .begin = some qst.term ∨ w.blocks s .term = some qst.term
  counted : ∀ v ∈ qst.voteBits, VoteFrom w.sent s qst.term v
  leader : qst.role = .leader → votesNeeded cfg.present.card ≤ qst.voteBits.card

/-- Every mounted slot keeps `SlotInv`. -/
def QuorumInv (cfg : QuorumConfig) (w : QuorumWorld) : Prop :=
  ∀ s qst, w.mounts s = some qst → SlotInv cfg w s qst

theorem SlotInv.frame {cfg : QuorumConfig} {w w' : QuorumWorld} {s : ℕ} {qst : QuorumStatus}
    (h : SlotInv cfg w s qst) (hb : w'.blocks s = w.blocks s)
    (hsent : ∀ m ∈ w.sent, m ∈ w'.sent) : SlotInv cfg w' s qst :=
  ⟨by rw [hb]; exact h.stored, fun v hv => (h.counted v hv).mono hsent, h.leader⟩

/-- A step that changes only slot `s`, keeps every datagram, and leaves slot `s` keeping
`SlotInv` keeps `QuorumInv`. -/
theorem QuorumInv.of_frame {cfg : QuorumConfig} {w w' : QuorumWorld} (h : QuorumInv cfg w)
    (s : ℕ) (hm : ∀ s', s' ≠ s → w'.mounts s' = w.mounts s')
    (hb : ∀ s', s' ≠ s → w'.blocks s' = w.blocks s') (hsent : ∀ m ∈ w.sent, m ∈ w'.sent)
    (hs : ∀ qst, w'.mounts s = some qst → SlotInv cfg w' s qst) : QuorumInv cfg w' := by
  intro s' qst hq
  by_cases hs' : s' = s
  · subst hs'
    exact hs qst hq
  · rw [hm s' hs'] at hq
    exact (h s' qst hq).frame (hb s' hs') hsent

/-- A server's own moves change nothing the invariant reads. -/
theorem QuorumInv.setServer {cfg : QuorumConfig} {w : QuorumWorld} (h : QuorumInv cfg w) (s : ℕ)
    (f : ServerStatus → ServerStatus) : QuorumInv cfg (w.setServer s f) :=
  fun s' q hq => (h s' q hq).frame rfl fun _ hm => hm

theorem quorumInv_init (cfg : QuorumConfig) : QuorumInv cfg QuorumWorld.init := by
  intro s qst h
  cases h

/-- A pass of slot `s` starts from its `SlotInv` and a datagram sent to it. -/
theorem SlotInv.passInv {cfg : QuorumConfig} {w : QuorumWorld} {s : ℕ} {qst : QuorumStatus}
    (h : SlotInv cfg w s qst) {msg : Option QuorumMessage}
    (hmsg : ∀ m ∈ msg, m ∈ w.sent ∧ m.dest = s) :
    PassInv (quorumInfo cfg s) w.sent ⟨qst, recvMsg msg, w.servers s, w.blocks s, []⟩ := by
  refine ⟨h.stored, h.counted, h.leader, ?_⟩
  cases msg with
  | none => intro hv; cases hv
  | some m =>
    intro hv
    obtain ⟨hm, hd⟩ := hmsg m rfl
    exact ⟨m, hm, hv, rfl, hd, rfl⟩

theorem quorumInv_iterate {cfg : QuorumConfig} {w : QuorumWorld} (h : QuorumInv cfg w) {s : ℕ}
    {qst : QuorumStatus} (hs : w.mounts s = some qst) {msg : Option QuorumMessage}
    (hmsg : ∀ m ∈ msg, m ∈ w.sent ∧ m.dest = s) (electionDue heartbeatDue : Bool) :
    QuorumInv cfg (w.iterate cfg s qst (recvMsg msg) electionDue heartbeatDue) := by
  have hp := passInv_scoutfsQuorumWorkerIteration electionDue heartbeatDue
    ((h s qst hs).passInv hmsg)
  have hsent : ∀ m ∈ w.sent, m ∈ (w.iterate cfg s qst (recvMsg msg) electionDue heartbeatDue).sent :=
    fun m hm => List.mem_append_left _ hm
  refine h.of_frame s (fun s' hs' => Function.update_of_ne hs' _ _)
    (fun s' hs' => Function.update_of_ne hs' _ _) hsent ?_
  intro q hq
  simp only [QuorumWorld.iterate, Function.update_self, Option.some.injEq] at hq
  subst hq
  refine ⟨?_, fun v hv => (hp.counted v hv).mono hsent, hp.leader⟩
  simp only [QuorumWorld.iterate, Function.update_self]
  exact hp.stored

theorem quorumInv_mount {cfg : QuorumConfig} {w : QuorumWorld} (h : QuorumInv cfg w) (s : ℕ) :
    QuorumInv cfg (w.mount cfg s) := by
  refine h.of_frame s (fun s' hs' => Function.update_of_ne hs' _ _)
    (fun s' hs' => Function.update_of_ne hs' _ _) (fun m hm => hm) ?_
  intro q hq
  simp only [QuorumWorld.mount, Function.update_self, Option.some.injEq] at hq
  subst hq
  refine ⟨Or.inl ?_, (fun v hv => by cases hv), (fun hl => by cases hl)⟩
  simp only [QuorumWorld.mount, Function.update_self]
  exact updateQuorumBlock_self _ _ _

theorem unmount_blocks_of_ne (w : QuorumWorld) (cfg : QuorumConfig) {s s' : ℕ}
    (qst : QuorumStatus) (hs' : s' ≠ s) : (w.unmount cfg s qst).blocks s' = w.blocks s' := by
  unfold QuorumWorld.unmount
  dsimp only
  rw [Function.update_of_ne hs']
  split
  · dsimp only
    split
    · exact Function.update_of_ne hs' _ _
    · rfl
  · rfl

theorem unmount_mounts (w : QuorumWorld) (cfg : QuorumConfig) (s : ℕ) (qst : QuorumStatus) :
    (w.unmount cfg s qst).mounts = Function.update w.mounts s none := by
  unfold QuorumWorld.unmount
  dsimp only
  split <;> rfl

theorem quorumInv_unmount {cfg : QuorumConfig} {w : QuorumWorld} (h : QuorumInv cfg w) (s : ℕ)
    (qst : QuorumStatus) : QuorumInv cfg (w.unmount cfg s qst) := by
  have hsent : ∀ m ∈ w.sent, m ∈ (w.unmount cfg s qst).sent := by
    intro m hm
    unfold QuorumWorld.unmount
    dsimp only
    split
    · exact List.mem_append_left _ hm
    · exact hm
  refine h.of_frame s (fun s' hs' => by rw [unmount_mounts]; exact Function.update_of_ne hs' _ _)
    (fun s' hs' => unmount_blocks_of_ne w cfg qst hs') hsent ?_
  intro q hq
  rw [unmount_mounts, Function.update_self] at hq
  cases hq

/-- **Every step of the cluster keeps `QuorumInv`.** -/
theorem quorumInv_step {cfg : QuorumConfig} {w w' : QuorumWorld} (h : QuorumInv cfg w)
    (hstep : QuorumStep cfg w w') : QuorumInv cfg w' := by
  cases hstep with
  | iterate hs msg hmsg electionDue heartbeatDue =>
    exact quorumInv_iterate h hs hmsg electionDue heartbeatDue
  | serverUp s => exact h.setServer s _
  | serverStop s => exact h.setServer s _
  | serverDown s => exact h.setServer s _
  | mount hs hp => exact quorumInv_mount h _
  | unmount hs => exact quorumInv_unmount h _ _
  | crash s =>
    refine h.of_frame s (fun s' hs' => Function.update_of_ne hs' _ _) (fun _ _ => rfl)
      (fun m hm => hm) ?_
    intro q hq
    simp only [QuorumWorld.crash, Function.update_self] at hq
    cases hq

theorem quorumReachable_inv {cfg : QuorumConfig} {w : QuorumWorld}
    (h : QuorumReachable cfg w) : QuorumInv cfg w := by
  induction h with
  | init => exact quorumInv_init cfg
  | step _ hstep ih => exact quorumInv_step ih hstep

/-! ### Terms never go back -/

/-- A slot's term: its worker's while it is mounted, else the greatest in its quorum
block, where its next mount starts. -/
def slotTerm (w : QuorumWorld) (s : ℕ) : UInt64 :=
  match w.mounts s with
  | some qst => qst.term
  | none => blockGreatestTerm (w.blocks s) 0

/-- Three present slots; two votes elect. -/
def threeSlotConfig : QuorumConfig :=
  ⟨{0, 1, 2}, by decide⟩

/-- Slots 0, 1 and 2 mount and slots 0 and 1 stand for term 1 (world `w₅`).  Slot 2 then
receives slot 0's request, which raises its term from 0 to 1 and gets its vote (world `w₆`),
and slot 0 counts that VOTE and is elected with the votes of slots 0 and 2 (world `w₇`). -/
theorem threeSlot_election : ∃ w₅ w₆ w₇ : QuorumWorld, ∃ qst : QuorumStatus,
    QuorumReachable threeSlotConfig w₅ ∧ QuorumStep threeSlotConfig w₅ w₆ ∧
    slotTerm w₅ 2 = 0 ∧ slotTerm w₆ 2 = 1 ∧
    QuorumReachable threeSlotConfig w₇ ∧ w₇.mounts 0 = some qst ∧ qst.role = .leader ∧
    qst.voteBits = {0, 2} := by
  have r₃ := (((QuorumReachable.init : QuorumReachable threeSlotConfig _).step
    (QuorumStep.mount (s := 0) rfl (by decide))).step
    (QuorumStep.mount (s := 1) rfl (by decide))).step (QuorumStep.mount (s := 2) rfl (by decide))
  have r₅ := (r₃.step (QuorumStep.iterate (s := 0) rfl none (fun _ h => by cases h) true false)).step
    (QuorumStep.iterate (s := 1) rfl none (fun _ h => by cases h) true false)
  have r₇ := (r₅.step (QuorumStep.iterate (s := 2) rfl (some ⟨1, .requestVote, 0, 2⟩)
      (fun _ h => by cases h; exact ⟨by decide, rfl⟩) false false)).step
    (QuorumStep.iterate (s := 0) rfl (some ⟨1, .vote, 2, 0⟩)
      (fun _ h => by cases h; exact ⟨by decide, rfl⟩) false false)
  exact ⟨_, _, _, _, r₅, QuorumStep.iterate (s := 2) rfl (some ⟨1, .requestVote, 0, 2⟩)
      (fun _ h => by cases h; exact ⟨by decide, rfl⟩) false false, by decide, by decide,
    r₇, rfl, by decide, by decide⟩

/-- **A leader was elected by votes it was sent.**  In every reachable cluster a mounted
leader has counted at least `votes_needed` slots, each itself or the sender of a VOTE
addressed to it in its term or in the term before. -/
theorem quorumReachable_leaderVotes {cfg : QuorumConfig} {w : QuorumWorld}
    (h : QuorumReachable cfg w) {s : ℕ} {qst : QuorumStatus} (hs : w.mounts s = some qst)
    (hl : qst.role = .leader) :
    votesNeeded cfg.present.card ≤ qst.voteBits.card ∧
      ∀ v ∈ qst.voteBits, VoteFrom w.sent s qst.term v := by
  have hi := quorumReachable_inv h s qst hs
  exact ⟨hi.leader hl, hi.counted⟩

theorem quorumReachable_leaderVotes_elected : ∃ w : QuorumWorld, ∃ qst : QuorumStatus,
    QuorumReachable threeSlotConfig w ∧ w.mounts 0 = some qst ∧ qst.role = .leader ∧
    qst.voteBits = {0, 2} ∧
    (votesNeeded threeSlotConfig.present.card ≤ qst.voteBits.card ∧
      ∀ v ∈ qst.voteBits, VoteFrom w.sent 0 qst.term v) := by
  obtain ⟨-, -, w, qst, -, -, -, -, hr, hm, hl, hv⟩ := threeSlot_election
  exact ⟨w, qst, hr, hm, hl, hv, quorumReachable_leaderVotes hr hm hl⟩

/-! ### Two leaders in one term -/

/-- **Two slots are elected in one term.**  Slots 0 and 1 stand for term 1 together; slot
2 votes for 0, which is elected.  Slot 0's server stops on its own, so slot 0 steps down
to follower in term 1 with `vote_for = -1`; a delayed request from slot 1 then gets its
vote, and slot 1, still a candidate in term 1, is elected in term 1 as well. -/
theorem quorum_two_leaders_one_term :
    ∃ w, QuorumReachable threeSlotConfig w ∧ (0, 1) ∈ w.elected ∧ (1, 1) ∈ w.elected := by
  -- the three slots mount at term 0
  have r₃ := (((QuorumReachable.init : QuorumReachable threeSlotConfig _).step
    (QuorumStep.mount (s := 0) rfl (by decide))).step
    (QuorumStep.mount (s := 1) rfl (by decide))).step (QuorumStep.mount (s := 2) rfl (by decide))
  -- slots 0 and 1 time out and request votes for term 1
  have r₅ := (r₃.step (QuorumStep.iterate (s := 0) rfl none (fun _ h => by cases h) true false)).step
    (QuorumStep.iterate (s := 1) rfl none (fun _ h => by cases h) true false)
  -- slot 2 votes for slot 0, which is elected and starts its server
  have r₇ := (r₅.step (QuorumStep.iterate (s := 2) rfl (some ⟨1, .requestVote, 0, 2⟩)
      (fun _ h => by cases h; exact ⟨by decide, rfl⟩) false false)).step
    (QuorumStep.iterate (s := 0) rfl (some ⟨1, .vote, 2, 0⟩)
      (fun _ h => by cases h; exact ⟨by decide, rfl⟩) false false)
  -- slot 0's server goes down; slot 0 steps down in term 1
  have r₉ := (r₇.step (QuorumStep.serverDown 0)).step
    (QuorumStep.iterate (s := 0) rfl none (fun _ h => by cases h) false false)
  -- slot 1's delayed request reaches slot 0, whose vote elects slot 1
  have r₁₁ := (r₉.step (QuorumStep.iterate (s := 0) rfl (some ⟨1, .requestVote, 1, 0⟩)
      (fun _ h => by cases h; exact ⟨by decide, rfl⟩) false false)).step
    (QuorumStep.iterate (s := 1) rfl (some ⟨1, .vote, 0, 1⟩)
      (fun _ h => by cases h; exact ⟨by decide, rfl⟩) false false)
  exact ⟨_, r₁₁, by decide, by decide⟩

end Scoutfs
