/-
Mutual exclusion of the lock protocol, over every run.

`LockInv` is the protocol's invariant: the server's entries of different clients share one
shared mode (`ServerInv`), and every client's side keeps `ClientInv`.  It holds at the start
and every step keeps it (`lockInv_step`); the server's handlers keep it because each pass of
`process_waiting_requests` does (`LockInv.serve_processRequests`, by induction on the requests, one
invalidation loop and one grant at a time).  So it holds in every reachable world
(`lockInv_of_reach`), and there two clients that use the lock at once use it in the same shared
mode, read or write-only (`lockReach_users_compatible`).
-/
import Scoutfs.LockInv

namespace Scoutfs

open LockWorld

/-! ### The invariant -/

/-- The server's entries have a mode, and entries of different clients share one mode, read or
write-only. -/
structure ServerInv (s : LockServer) : Prop where
  notNull : ∀ e ∈ s.granted ++ s.invalidated, e.mode ≠ .null
  compatible : ∀ e₁ ∈ s.granted ++ s.invalidated, ∀ e₂ ∈ s.granted ++ s.invalidated,
    e₁.rid ≠ e₂.rid → e₁.mode = e₂.mode ∧ (e₁.mode = .read ∨ e₁.mode = .writeOnly)

/-- The invariant of client `r`'s side of the world `w`. -/
def LockWorld.ClientOk (w : LockWorld) (r : ℕ) : Prop :=
  ClientInv (entriesOf w.server.granted r) (entriesOf w.server.invalidated r)
    (entriesOf w.server.requested r).length (w.toClient r) (w.toServer r) (w.lockOf r)

/-- The invariant of the lock protocol. -/
structure LockInv (w : LockWorld) : Prop where
  server : ServerInv w.server
  client : ∀ r, w.ClientOk r

/-- Fewer entries keep the server's invariant. -/
theorem ServerInv.mono {s s' : LockServer} (h : ServerInv s)
    (hsub : ∀ e ∈ s'.granted ++ s'.invalidated, e ∈ s.granted ++ s.invalidated) : ServerInv s' :=
  ⟨fun e he => h.notNull e (hsub e he),
    fun e₁ h₁ e₂ h₂ hne => h.compatible e₁ (hsub e₁ h₁) e₂ (hsub e₂ h₂) hne⟩

/-- A new entry compatible with the other clients' entries keeps the server's invariant. -/
theorem ServerInv.add {s s' : LockServer} (h : ServerInv s) (new : ClientEntry)
    (hsub : ∀ e ∈ s'.granted ++ s'.invalidated, e ∈ s.granted ++ s.invalidated ∨ e = new)
    (hnew : new.mode ≠ .null)
    (hcompat : ∀ e ∈ s.granted ++ s.invalidated, e.rid ≠ new.rid →
      e.mode = new.mode ∧ (e.mode = .read ∨ e.mode = .writeOnly)) : ServerInv s' := by
  refine ⟨fun e he => ?_, fun e₁ h₁ e₂ h₂ hne => ?_⟩
  · rcases hsub e he with he | rfl
    · exact h.notNull e he
    · exact hnew
  · rcases hsub e₁ h₁ with h₁ | rfl <;> rcases hsub e₂ h₂ with h₂ | rfl
    · exact h.compatible e₁ h₁ e₂ h₂ hne
    · exact hcompat e₁ h₁ hne
    · obtain ⟨hm, hs⟩ := hcompat e₂ h₂ (Ne.symm hne)
      exact ⟨hm.symm, hm ▸ hs⟩
    · exact absurd rfl hne

theorem LockInv.clientOk {w : LockWorld} (h : LockInv w) (r : ℕ) :
    ClientInv (entriesOf w.server.granted r) (entriesOf w.server.invalidated r)
      (entriesOf w.server.requested r).length (w.toClient r) (w.toServer r) (w.lockOf r) :=
  h.client r

theorem LockInv.clientInv {w : LockWorld} (h : LockInv w) {r : ℕ} {lock : ClientLock}
    (hl : w.clients r = some lock) :
    ClientInv (entriesOf w.server.granted r) (entriesOf w.server.invalidated r)
      (entriesOf w.server.requested r).length (w.toClient r) (w.toServer r) lock :=
  lockOf_of_clients w r hl ▸ h.clientOk r

theorem mem_entriesOf_append {G I : List ClientEntry} {r : ℕ} {e : ClientEntry} :
    e ∈ entriesOf G r ++ entriesOf I r ↔ e ∈ G ++ I ∧ e.rid = r := by
  simp only [List.mem_append, mem_entriesOf]
  tauto

theorem LockInv.notNull {w : LockWorld} (h : LockInv w) (r : ℕ) :
    ∀ e ∈ entriesOf w.server.granted r ++ entriesOf w.server.invalidated r, e.mode ≠ .null :=
  fun e he => h.server.notNull e (mem_entriesOf_append.mp he).1

/-! ### The client's moves -/

/-- A move of client `r` that keeps the server and the other clients keeps the invariant if it
keeps `r`'s. -/
theorem LockInv.of_client {w w' : LockWorld} {r : ℕ} (h : LockInv w) (hs : w'.server = w.server)
    (hr : w'.ClientOk r)
    (hother : ∀ r', r' ≠ r → w'.toClient r' = w.toClient r' ∧ w'.toServer r' = w.toServer r' ∧
      w'.clients r' = w.clients r') : LockInv w' := by
  refine ⟨hs ▸ h.server, fun r' => ?_⟩
  by_cases hr' : r' = r
  · exact hr' ▸ hr
  · obtain ⟨h1, h2, h3⟩ := hother r' hr'
    have hc := h.client r'
    unfold LockWorld.ClientOk LockWorld.lockOf at hc ⊢
    rwa [hs, h1, h2, h3]

theorem LockInv.client_step {w : LockWorld} {r : ℕ} {slot : Option ClientLock}
    {msgs : List ToServer} (h : LockInv w)
    (hr : ClientInv (entriesOf w.server.granted r) (entriesOf w.server.invalidated r)
      (entriesOf w.server.requested r).length (w.toClient r) (w.toServer r ++ msgs)
      (createLock slot)) : LockInv (w.client r slot msgs) := by
  refine h.of_client (r := r) rfl ?_ fun r' (hr' : r' ≠ r) => ?_
  · simpa [LockWorld.ClientOk, LockWorld.lockOf] using hr
  · simp [hr']

theorem LockInv.recv_step {w : LockWorld} {r : ℕ} {rest : List ToClient}
    {slot : Option ClientLock} {msgs : List ToServer} (h : LockInv w)
    (hr : ClientInv (entriesOf w.server.granted r) (entriesOf w.server.invalidated r)
      (entriesOf w.server.requested r).length rest (w.toServer r ++ msgs) (createLock slot)) :
    LockInv ((w.recv r rest).client r slot msgs) := by
  refine h.of_client (r := r) rfl ?_ fun r' (hr' : r' ≠ r) => ?_
  · simpa [LockWorld.ClientOk, LockWorld.lockOf] using hr
  · simp [hr']

/-! ### The server's moves -/

theorem filter_rid_eq_entriesOf (l : List ClientEntry) (r : ℕ) :
    l.filter (fun x => decide (x.rid = r)) = entriesOf l r :=
  rfl

/-- The loop over `granted` keeps the invariant. -/
theorem LockInv.serve_invalidateGrants {w : LockWorld} (h : LockInv w) (req : ClientEntry) :
    LockInv (w.serve (invalidateGrants req w.server)) := by
  refine ⟨h.server.mono fun e he => ?_, fun r => ?_⟩
  · simp only [serve_server, invalidateGrants_granted, invalidateGrants_invalidated,
      List.mem_append, List.mem_filter] at he ⊢
    tauto
  · have hc := (h.client r).invalidate (fun gr => clientEntriesCompatible gr req)
      (fun m => invalidationMode m req.mode) (fun m => invalidationMode_cases m req.mode)
    unfold LockWorld.ClientOk LockWorld.lockOf
    simp only [serve_server, serve_toClient, serve_toServer, serve_clients,
      invalidateGrants_granted, invalidateGrants_invalidated, invalidateGrants_requested,
      invalidateGrants_sent, Mailbox.post_map, filter_rid_eq_entriesOf, entriesOf_append,
      entriesOf_filter]
    exact hc

/-- Granting a request no grant conflicts with keeps the invariant. -/
theorem LockInv.serve_grantRequest {w : LockWorld} {req : ClientEntry} {reqs : List ClientEntry}
    (h : LockInv w) (hinv : w.server.invalidated = []) (hreq : w.server.requested = req :: reqs)
    (hc : ∀ gr ∈ w.server.granted, clientEntriesCompatible gr req) :
    LockInv (w.serve (grantRequest req { w.server with requested := reqs })) := by
  refine ⟨?_, fun r => ?_⟩
  · by_cases hn : req.mode = .null
    · refine h.server.mono fun e he => ?_
      simp only [serve_server, grantRequest_granted, grantRequest_invalidated, hn, if_true] at he
      simp only [List.mem_append] at he ⊢
      exact he.imp_left (List.mem_of_mem_eraseP)
    · refine h.server.add req (fun e he => ?_) hn fun e he hne => ?_
      · simp only [serve_server, grantRequest_granted, grantRequest_invalidated, hn, if_false,
          List.mem_append, List.mem_singleton] at he ⊢
        rcases he with (he | rfl) | he
        · exact .inl (.inl (List.mem_of_mem_eraseP he))
        · exact .inr rfl
        · exact .inl (.inr he)
      · rw [hinv, List.append_nil] at he
        exact clientEntriesCompatible_of_ne (hc e he) hne
  · unfold LockWorld.ClientOk LockWorld.lockOf
    simp only [serve_server, serve_toClient, serve_clients, serve_toServer,
      grantRequest_invalidated, grantRequest_requested, grantRequest_sent]
    have hcr := h.client r
    unfold LockWorld.ClientOk LockWorld.lockOf at hcr
    rw [hinv, hreq] at hcr
    rw [hinv]
    by_cases hr : req.rid = r
    · subst hr
      have hq := hcr.grant (by simp [entriesOf]) req
        (fun gr hgr => hc gr (mem_entriesOf.mp hgr).1)
        (if req.mode = .write ∨ req.mode = .writeOnly then w.server.seq + 1 else 0)
      have hnq : (entriesOf (req :: reqs) req.rid).length - 1 = (entriesOf reqs req.rid).length := by
        simp [entriesOf]
      rw [hnq] at hq
      simp only [srvMode, List.append_nil] at hq
      rw [entriesOf_grantRequest_self, Mailbox.post_singleton_self]
      exact hq
    · rw [entriesOf_grantRequest_ne _ _ _ hr, Mailbox.post_singleton_ne _ _ hr]
      simpa [entriesOf, hr] using hcr

/-- Each pass of `process_waiting_requests` keeps the invariant. -/
theorem LockInv.serve_processRequests :
    ∀ (reqs : List ClientEntry) {w : LockWorld}, LockInv w → w.server.requested = reqs →
      LockInv (w.serve (processRequests reqs w.server))
  | [], w, h, _ => by
    simpa [processRequests, serve] using h
  | req :: reqs, w, h, hreq => by
    -- the invalidation loop, then either the wait or the grant and the rest of the walk
    have h1 := h.serve_invalidateGrants req
    by_cases hinv : (invalidateGrants req w.server).1.invalidated ≠ []
    · rw [processRequests, if_pos hinv]
      exact h1
    · rw [processRequests, if_neg hinv]
      simp only [ne_eq, not_not] at hinv
      have hc : ∀ gr ∈ (w.serve (invalidateGrants req w.server)).server.granted,
          clientEntriesCompatible gr req := by
        intro gr hgr
        simp only [serve_server, invalidateGrants_granted, List.mem_filter] at hgr
        exact hgr.2
      have h2 := h1.serve_grantRequest hinv (by simpa using hreq) hc
      have h3 := LockInv.serve_processRequests reqs h2 (by simp)
      rw [serve_serve, serve_serve] at h3
      simpa only [List.append_assoc, serve_server] using h3

theorem LockInv.serve_processWaitingRequests {w : LockWorld} (h : LockInv w) :
    LockInv (w.serve (processWaitingRequests w.server)) := by
  unfold processWaitingRequests
  split_ifs
  · simpa [serve] using h
  · exact LockInv.serve_processRequests _ h rfl

theorem entriesOf_filter_ne (l : List ClientEntry) (r r' : ℕ) :
    entriesOf (l.filter fun e => e.rid ≠ r) r' = if r' = r then [] else entriesOf l r' := by
  rw [entriesOf_filter]
  split_ifs with hr
  · rw [List.filter_eq_nil_iff]
    intro e he
    simp [(mem_entriesOf.mp he).2, hr]
  · rw [List.filter_eq_self]
    intro e he
    simp [(mem_entriesOf.mp he).2, hr]

/-- Receiving a request keeps the invariant. -/
theorem LockInv.request {w : LockWorld} {r netId : ℕ} {o n : LockMode} (h : LockInv w)
    (hm : ToServer.request netId o n ∈ w.toServer r) :
    LockInv ((w.take r (.request netId o n)).serve (scoutfsLockServerRequest w.server r netId n)) := by
  -- the request joins `requested`, then the waiting requests are processed
  have h1 : LockInv ((w.take r (.request netId o n)).serve
      ({ w.server with requested := w.server.requested ++ [⟨r, netId, n⟩] }, [])) := by
    refine ⟨h.server.mono fun e he => by simpa using he, fun r' => ?_⟩
    have hc := h.client r'
    unfold LockWorld.ClientOk LockWorld.lockOf at hc ⊢
    simp only [serve_server, serve_toClient, serve_clients, serve_toServer, take_toServer,
      take_clients, take_toClient, Mailbox.post_nil, entriesOf_append, List.length_append]
    by_cases hr : r' = r
    · subst hr
      rw [entriesOf_singleton, if_pos rfl, List.length_singleton, Function.update_self]
      exact hc.takeRequest hm
    · rw [entriesOf_singleton_ne (Ne.symm hr), Function.update_of_ne hr]
      simpa using hc
  have h2 := h1.serve_processWaitingRequests
  rw [serve_serve] at h2
  simpa [scoutfsLockServerRequest] using h2

/-- An answer on its way to the server has its client's entry on `invalidated`. -/
theorem ClientInv.exists_invalidated_of_response {G I : List ClientEntry} {nq : ℕ}
    {chan : List ToClient} {bag : List ToServer} {c : ClientLock} {o n : LockMode}
    (hc : ClientInv G I nq chan bag c) (hm : ToServer.response o n ∈ bag) :
    ∃ e I', I = e :: I' := by
  have hinv := hc.invalidations
  have hpos := List.countP_pos_iff.mpr ⟨_, hm, (rfl : ToServer.isResponse (.response o n) = true)⟩
  cases I with
  | nil =>
    rw [List.length_nil] at hinv
    omega
  | cons e I' => exact ⟨e, I', rfl⟩

theorem findEntry_of_entriesOf_cons {l : List ClientEntry} {r : ℕ} {e : ClientEntry}
    {I : List ClientEntry} (h : entriesOf l r = e :: I) : findEntry l r = some e := by
  rw [findEntry_eq_head?, h]
  rfl

/-- Receiving the answer to an invalidation keeps the invariant. -/
theorem LockInv.response {w : LockWorld} {r : ℕ} {o n : LockMode} (h : LockInv w)
    (hm : ToServer.response o n ∈ w.toServer r) :
    LockInv ((w.take r (.response o n)).serve (scoutfsLockServerResponse w.server r n).2) := by
  have hc := h.clientOk r
  -- the client's entry is on `invalidated`
  obtain ⟨e, I', hI⟩ := hc.exists_invalidated_of_response hm
  have he : e ∈ w.server.invalidated ∧ e.rid = r := mem_entriesOf.mp (hI ▸ List.mem_cons_self)
  have hfind := findEntry_of_entriesOf_cons hI
  rw [hI] at hc
  have heo : e.mode = o := by
    have := (hc.invModes o n (.inr (.inr hm))).1
    simp only [List.map_cons, List.cons.injEq] at this
    exact this.1
  have hn := (hc.invModes o n (.inr (.inr hm))).2
  -- the server's lists once the entry has moved
  let s' : LockServer := if n = .null then
      { w.server with invalidated := w.server.invalidated.eraseP fun x => x.rid = r }
    else { w.server with
      invalidated := w.server.invalidated.eraseP fun x => x.rid = r
      granted := w.server.granted ++ [{ e with mode := n }] }
  have hsg : s'.granted = w.server.granted ++ if n = .null then [] else [{ e with mode := n }] := by
    simp only [s']
    split_ifs <;> simp
  have hsi : s'.invalidated = w.server.invalidated.eraseP fun x => x.rid = r := by
    simp only [s']
    split_ifs <;> rfl
  have hsr : s'.requested = w.server.requested := by
    simp only [s']
    split_ifs <;> rfl
  have hres : (scoutfsLockServerResponse w.server r n).2 = processWaitingRequests s' := by
    simp only [scoutfsLockServerResponse, hfind]
    rfl
  have h1 : LockInv ((w.take r (.response o n)).serve (s', [])) := by
    refine ⟨?_, fun r' => ?_⟩
    · by_cases hnull : n = .null
      · refine h.server.mono fun x hx => ?_
        simp only [serve_server, hsg, hsi, hnull, if_true, List.append_nil, List.mem_append] at hx ⊢
        exact hx.imp_right List.mem_of_mem_eraseP
      · refine h.server.add { e with mode := n } (fun x hx => ?_) hnull fun x hx hne => ?_
        · simp only [serve_server, hsg, hsi, hnull, if_false, List.mem_append,
            List.mem_singleton] at hx ⊢
          rcases hx with (hx | rfl) | hx
          · exact .inl (.inl hx)
          · exact .inr rfl
          · exact .inl (.inr (List.mem_of_mem_eraseP hx))
        · -- a write entry dropped to read has no other client's entry beside it
          have hw := hn.resolve_left hnull
          have := (h.server.compatible x hx e (List.mem_append_right _ he.1) hne).2
          rw [(h.server.compatible x hx e (List.mem_append_right _ he.1) hne).1, heo, hw.1] at this
          simp at this
    · have hcr := h.client r'
      unfold LockWorld.ClientOk LockWorld.lockOf at hcr ⊢
      simp only [serve_server, serve_toClient, serve_clients, serve_toServer, take_toServer,
        take_clients, take_toClient, Mailbox.post_nil, hsg, hsi, hsr, entriesOf_append]
      by_cases hr : r' = r
      · subst hr
        rw [entriesOf_eraseP_self, hI, Function.update_self]
        have hsingle : entriesOf (if n = .null then [] else [{ e with mode := n }]) r' =
            if n = .null then [] else [{ e with mode := n }] := by
          split_ifs
          · rfl
          · rw [entriesOf_singleton, if_pos he.2]
        rw [hsingle]
        exact hc.takeResponse hm
      · have hne : (if n = .null then [] else [{ e with mode := n }]).all (fun x => x.rid ≠ r') := by
          split_ifs <;> simp [he.2, Ne.symm hr]
        rw [entriesOf_eraseP_ne _ (Ne.symm hr), Function.update_of_ne hr]
        have hnil : entriesOf (if n = .null then [] else [{ e with mode := n }]) r' = [] := by
          split_ifs
          · rfl
          · exact entriesOf_singleton_ne (by simp [he.2, Ne.symm hr])
        rw [hnil, List.append_nil]
        exact hcr
  have h2 := h1.serve_processWaitingRequests
  rw [serve_serve] at h2
  rw [hres]
  simpa using h2

/-- A client's farewell keeps the invariant. -/
theorem LockInv.farewell {w : LockWorld} (h : LockInv w) (r : ℕ) :
    LockInv ((w.leave r).serve (scoutfsLockServerFarewell w.server r)) := by
  let s' : LockServer := { w.server with
    granted := w.server.granted.filter fun e => e.rid ≠ r
    requested := w.server.requested.filter fun e => e.rid ≠ r
    invalidated := w.server.invalidated.filter fun e => e.rid ≠ r }
  have h1 : LockInv ((w.leave r).serve (s', [])) := by
    refine ⟨h.server.mono fun x hx => ?_, fun r' => ?_⟩
    · simp only [serve_server, s', List.mem_append, List.mem_filter] at hx ⊢
      tauto
    · have hcr := h.client r'
      unfold LockWorld.ClientOk LockWorld.lockOf at hcr ⊢
      simp only [serve_server, serve_toClient, serve_clients, serve_toServer, Mailbox.post_nil,
        LockWorld.leave, s', entriesOf_filter_ne]
      by_cases hr : r' = r
      · subst hr
        simpa [createLock] using ClientInv.init
      · simpa [hr] using hcr
  have hf : scoutfsLockServerFarewell w.server r =
      if ((w.server.granted ++ w.server.requested ++ w.server.invalidated).any
        fun e => decide (e.rid = r)) = true then processWaitingRequests s' else (s', []) := rfl
  rw [hf]
  split_ifs
  · have h2 := h1.serve_processWaitingRequests
    rw [serve_serve] at h2
    simpa using h2
  · exact h1

/-! ### Every step, every run -/

theorem lockInv_init : LockInv LockWorld.init :=
  ⟨⟨by simp [LockWorld.init, LockServer.empty], by simp [LockWorld.init, LockServer.empty]⟩,
    fun _ => ClientInv.init⟩

/-- Every move of a client or of the server keeps the invariant. -/
theorem lockInv_step {w w' : LockWorld} (h : LockInv w) (hs : LockStep w w') : LockInv w' := by
  cases hs with
  | enter r mode =>
    apply h.client_step
    rw [List.append_nil]
    exact (h.client r).congr rfl rfl rfl rfl (h.client r).users
  | round r lock mode netId hl hw =>
    have hc := h.clientInv hl
    apply h.client_step
    unfold lockKeyRangeRound
    split_ifs with hmatch hpend
    · dsimp only
      rw [List.append_nil]
      -- the caller becomes a user of a mode the lock's mode covers
      refine ClientInv.createLock_putLock ?_
      refine hc.congr rfl rfl rfl rfl fun m hm hu => ?_
      by_cases hmm : m = mode
      · subst hmm
        exact hmatch
      · simp only [lockIncCount_ne _ hmm] at hu
        exact hc.users m hm hu
    · exact hc.sendRequest (by simpa using hpend) netId lock.mode mode
    · dsimp only
      rw [List.append_nil]
      exact hc
  | abort r lock mode hl hw =>
    have hc := h.clientInv hl
    apply h.client_step
    rw [List.append_nil]
    unfold lockKeyRangeAbort
    refine ClientInv.createLock_putLock ?_
    exact hc.congr rfl rfl rfl rfl hc.users
  | unlock r lock mode hl hu =>
    have hc := h.clientInv hl
    apply h.client_step
    rw [List.append_nil]
    unfold scoutfsUnlock
    refine ClientInv.createLock_putLock ?_
    refine hc.congr rfl rfl rfl rfl fun m hm hpos => hc.users m hm ?_
    exact lt_of_lt_of_le hpos (lockDecCount_le _ _ _)
  | shrink r lock netId hl hi hm =>
    exact h.client_step ((h.clientInv hl).sendRequest (lockIdle_iff.mp hi).1 netId lock.mode .null)
  | grant r netId ws o n rest slot hq hg =>
    obtain ⟨lock, hl, -, rfl⟩ := scoutfsLockGrantResponse_eq_ok.mp hg
    have hc := h.clientInv hl
    rw [hq] at hc
    apply h.recv_step
    rw [List.append_nil]
    exact hc.recvGrant.createLock_putLock
  | invalidate r o n rest hq =>
    have hc := h.clientOk r
    rw [hq] at hc
    apply h.recv_step
    cases hcl : w.clients r with
    | none =>
      -- the lock of a client an invalidation is on its way to has a mode, so it exists
      exfalso
      have := hc.mode_ne_null_of_invalidate (h.notNull r)
      simp [LockWorld.lockOf, hcl, createLock, lockAlloc] at this
    | some lock =>
      rw [lockOf_of_clients w r hcl] at hc
      simp only [scoutfsLockInvalidateRequest, List.append_nil]
      exact hc.recvInvalidate
  | workerStart r lock hl =>
    apply h.client_step
    rw [List.append_nil]
    exact (h.clientInv hl).workerStart
  | workerFinish r lock o n rest slot msgs hl hr hi hf =>
    obtain ⟨-, rfl, rfl⟩ := lockInvalidateWorkerFinish_eq_ok.mp hf
    exact h.client_step (((h.clientInv hl).workerFinish hr hi).createLock_putLock)
  | request r netId o n hm => exact h.request hm
  | response r o n hm => exact h.response hm
  | farewell r => exact h.farewell r

theorem lockInv_of_reach {w : LockWorld} (h : LockReach w) : LockInv w := by
  induction h with
  | init => exact lockInv_init
  | step _ hs ih => exact lockInv_step ih hs

/-! ### Mutual exclusion -/

/-- Two clients that use the lock at once, in modes other than null, use it in one shared mode,
read or write-only. -/
theorem lockReach_users_compatible {w : LockWorld} (hw : LockReach w) {r₁ r₂ : ℕ} (hr : r₁ ≠ r₂)
    {l₁ l₂ : ClientLock} (h₁ : w.clients r₁ = some l₁) (h₂ : w.clients r₂ = some l₂)
    {m₁ m₂ : LockMode} (hm₁ : m₁ ≠ .null) (hm₂ : m₂ ≠ .null)
    (hu₁ : 0 < l₁.users m₁) (hu₂ : 0 < l₂.users m₂) :
    m₁ = m₂ ∧ (m₁ = .read ∨ m₁ = .writeOnly) := by
  have h := lockInv_of_reach hw
  -- each mode in use is covered by its client's entry on the server
  obtain ⟨e₁, he₁, hc₁⟩ := (h.clientInv h₁).users_covered hm₁ hu₁
  obtain ⟨e₂, he₂, hc₂⟩ := (h.clientInv h₂).users_covered hm₂ hu₂
  obtain ⟨hin₁, hrid₁⟩ := mem_entriesOf_append.mp he₁
  obtain ⟨hin₂, hrid₂⟩ := mem_entriesOf_append.mp he₂
  -- and the entries of two clients share one shared mode
  obtain ⟨heq, hshared⟩ := h.server.compatible e₁ hin₁ e₂ hin₂ (by rw [hrid₁, hrid₂]; exact hr)
  have h₁' := eq_of_lockModesMatch_shared hc₁ hshared
  have h₂' := eq_of_lockModesMatch_shared hc₂ (heq ▸ hshared)
  exact ⟨by rw [h₁', h₂', heq], h₁' ▸ hshared⟩

/-- A run in which clients 1 and 2 each lock for read: each sends its request, the server grants
both (reads are compatible), and each caller becomes a user. -/
theorem twoReaders_reach : ∃ w : LockWorld, LockReach w ∧ ∃ l₁ l₂ : ClientLock,
    w.clients 1 = some l₁ ∧ w.clients 2 = some l₂ ∧ 0 < l₁.users .read ∧ 0 < l₂.users .read := by
  have h1 := LockReach.step LockReach.init (LockStep.enter _ 1 .read)
  have h2 := LockReach.step h1 (LockStep.round _ 1 _ .read 0 rfl (by decide))
  have h3 := LockReach.step h2 (LockStep.request _ 1 0 .null .read (by decide))
  have h4 := LockReach.step h3 (LockStep.grant _ 1 0 0 .null .read [] _ rfl rfl)
  have h5 := LockReach.step h4 (LockStep.round _ 1 _ .read 0 rfl (by decide))
  have h6 := LockReach.step h5 (LockStep.enter _ 2 .read)
  have h7 := LockReach.step h6 (LockStep.round _ 2 _ .read 1 rfl (by decide))
  have h8 := LockReach.step h7 (LockStep.request _ 2 1 .null .read (by decide))
  have h9 := LockReach.step h8 (LockStep.grant _ 2 1 0 .null .read [] _ rfl rfl)
  have h10 := LockReach.step h9 (LockStep.round _ 2 _ .read 1 rfl (by decide))
  exact ⟨_, h10, _, _, rfl, rfl, by decide, by decide⟩

theorem lockReach_users_compatible_twoReaders : ∃ w : LockWorld, ∃ l₁ l₂ : ClientLock,
    LockReach w ∧ w.clients 1 = some l₁ ∧ w.clients 2 = some l₂ ∧ 0 < l₁.users .read ∧
      0 < l₂.users .read ∧
      (LockMode.read = .read ∧ (LockMode.read = .read ∨ LockMode.read = .writeOnly)) := by
  obtain ⟨w, hw, l₁, l₂, h₁, h₂, hu₁, hu₂⟩ := twoReaders_reach
  exact ⟨w, l₁, l₂, hw, h₁, h₂, hu₁, hu₂,
    lockReach_users_compatible hw (by decide) h₁ h₂ (by decide) (by decide) hu₁ hu₂⟩


/-! ### The handlers' checks hold

The client's handlers `BUG_ON` what the protocol should rule out, and the server answers
`-EINVAL` to an answer it has no invalidation for.  In every reachable world none of these
happens. -/

/-- A grant reaches a client whose lock exists and waits for it, so neither `BUG_ON` of
`scoutfs_lock_grant_response` fires. -/
theorem lockReach_grantResponse_ok {w : LockWorld} (hw : LockReach w) {r netId ws : ℕ}
    {o n : LockMode} {rest : List ToClient} (hq : w.toClient r = .grant netId ws o n :: rest) :
    ∃ slot, scoutfsLockGrantResponse (w.clients r) ws n = .ok slot := by
  have hc := (lockInv_of_reach hw).clientOk r
  rw [hq] at hc
  have hp := hc.pending_of_grant
  cases hcl : w.clients r with
  | none =>
    -- a new lock waits for no grant
    simp [LockWorld.lockOf, hcl, createLock, lockAlloc] at hp
  | some lock =>
    rw [lockOf_of_clients w r hcl] at hp
    exact ⟨_, scoutfsLockGrantResponse_eq_ok.mpr ⟨lock, rfl, hp, rfl⟩⟩

/-- Every invalidation a client queues drops its lock to null or from write to read, so the
`BUG_ON` of `lock_invalidate` never fires and the worker always answers. -/
theorem lockReach_workerFinish_ok {w : LockWorld} (hw : LockReach w) {r : ℕ} {lock : ClientLock}
    (hl : w.clients r = some lock) {o n : LockMode} {rest : List (LockMode × LockMode)}
    (hi : lock.invList = (o, n) :: rest) :
    ∃ slot msgs, lockInvalidateWorkerFinish lock o n rest = .ok (slot, msgs) := by
  have hok := ((lockInv_of_reach hw).clientInv hl).invalidate_ok hi
  exact ⟨_, _, lockInvalidateWorkerFinish_eq_ok.mpr ⟨lockInvalidate_eq_ok.mpr hok, rfl, rfl⟩⟩

/-- The server finds the invalidated entry of every answer it receives, so
`scoutfs_lock_server_response` returns 0. -/
theorem lockReach_serverResponse_ok {w : LockWorld} (hw : LockReach w) {r : ℕ} {o n : LockMode}
    (hm : ToServer.response o n ∈ w.toServer r) :
    (scoutfsLockServerResponse w.server r n).1 = 0 := by
  have hc := (lockInv_of_reach hw).clientOk r
  obtain ⟨e, I', hI⟩ := hc.exists_invalidated_of_response hm
  simp only [scoutfsLockServerResponse, findEntry_of_entriesOf_cons hI]

/-- A run in which client 1 locks for read and lets go, and client 2 then locks for write: the
server grants client 1 (world `w₁`), then invalidates it for client 2's request, which client
1 queues (world `w₂`) and its worker answers (world `w₃`). -/
theorem readThenWrite_reach : ∃ w₁ w₂ w₃ : LockWorld, ∃ l : ClientLock,
    LockReach w₁ ∧ w₁.toClient 1 = [.grant 0 0 .null .read] ∧
    LockReach w₂ ∧ w₂.clients 1 = some l ∧ l.invList = [(.read, .null)] ∧
    LockReach w₃ ∧ ToServer.response .read .null ∈ w₃.toServer 1 := by
  have h1 := LockReach.step LockReach.init (LockStep.enter _ 1 .read)
  have h2 := LockReach.step h1 (LockStep.round _ 1 _ .read 0 rfl (by decide))
  have h3 := LockReach.step h2 (LockStep.request _ 1 0 .null .read (by decide))
  have h4 := LockReach.step h3 (LockStep.grant _ 1 0 0 .null .read [] _ rfl rfl)
  have h5 := LockReach.step h4 (LockStep.round _ 1 _ .read 0 rfl (by decide))
  have h6 := LockReach.step h5 (LockStep.unlock _ 1 _ .read rfl (by decide))
  have h7 := LockReach.step h6 (LockStep.enter _ 2 .write)
  have h8 := LockReach.step h7 (LockStep.round _ 2 _ .write 1 rfl (by decide))
  have h9 := LockReach.step h8 (LockStep.request _ 2 1 .null .write (by decide))
  have h10 := LockReach.step h9 (LockStep.invalidate _ 1 .read .null [] rfl)
  have h11 := LockReach.step h10 (LockStep.workerStart _ 1 _ rfl)
  have h12 := LockReach.step h11 (LockStep.workerFinish _ 1 _ .read .null [] _ _ rfl rfl rfl rfl)
  exact ⟨_, _, _, _, h3, rfl, h10, rfl, rfl, h12, by decide⟩

theorem lockReach_grantResponse_ok_readGrant : ∃ w : LockWorld, LockReach w ∧
    w.toClient 1 = [.grant 0 0 .null .read] ∧
    ∃ slot, scoutfsLockGrantResponse (w.clients 1) 0 .read = .ok slot := by
  obtain ⟨w, -, -, -, hw, hq, -⟩ := readThenWrite_reach
  exact ⟨w, hw, hq, lockReach_grantResponse_ok hw hq⟩

theorem lockReach_workerFinish_ok_readToNull : ∃ w : LockWorld, ∃ l : ClientLock, LockReach w ∧
    w.clients 1 = some l ∧ l.invList = [(.read, .null)] ∧
    ∃ slot msgs, lockInvalidateWorkerFinish l .read .null [] = .ok (slot, msgs) := by
  obtain ⟨-, w, -, l, -, -, hw, hl, hi, -⟩ := readThenWrite_reach
  exact ⟨w, l, hw, hl, hi, lockReach_workerFinish_ok hw hl hi⟩

theorem lockReach_serverResponse_ok_readToNull : ∃ w : LockWorld, LockReach w ∧
    ToServer.response .read .null ∈ w.toServer 1 ∧
    (scoutfsLockServerResponse w.server 1 .null).1 = 0 := by
  obtain ⟨-, -, w, -, -, -, -, -, -, hw, hm⟩ := readThenWrite_reach
  exact ⟨w, hw, hm, lockReach_serverResponse_ok hw hm⟩

end Scoutfs
