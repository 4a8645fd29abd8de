/-
The invariant of the lock protocol, one client at a time.

`ClientInv` relates what the protocol holds about one client: its entries on the server's
lists (`G` granted, `I` invalidated, `nq` requests), the server's queue to it, its queue to the
server, and its lock.  Its idea is that each client has at most one request and at most one
invalidation in flight, each somewhere along its way, and that the lock's mode is the server's
mode for the client once the messages in flight have arrived:

* `requests`: a request is in the queue to the server, on `requested`, or granted in the queue
  to the client, exactly while `request_pending` is set;
* `invalidations`: an invalidation is in the queue to the client, queued on the lock, or
  answered in the queue to the server, exactly while the client's entry is on `invalidated`;
* `grantModes`, `readyMode`, `respMode`, `settled`: what the lock's mode is at each of those
  places;
* `users`: every mode in use is covered by the lock's mode.

From these, a mode a client uses is covered by its entry on the server (`ClientInv.users_covered`),
which with the server's compatibility of entries gives mutual exclusion in `LockSafety`.

Each move of the client, and the effect of each server handler on the client's entries and
queue, has its lemma here; `LockSafety` assembles them over the whole world.
-/
import Scoutfs.LockProtocol
import Mathlib.Data.List.Count

namespace Scoutfs

/-! ### Reading the state -/

/-- The server's mode for a client with granted entries `G` and invalidated entries `I`: the
mode of its entry, null without one. -/
def srvMode (G I : List ClientEntry) : LockMode :=
  ((G ++ I).head?.map ClientEntry.mode).getD .null

/-- The server's queue to a client holds the grants before the invalidations. -/
def ChanShape (chan : List ToClient) : Prop :=
  ∃ gs is, chan = gs ++ is ∧ (∀ m ∈ gs, m.isGrant) ∧ ∀ m ∈ is, m.isInvalidate

/-- The invalidation request `(o, n)` is still to be answered: in the queue to the client,
queued on its lock, or answered in the queue to the server. -/
def Outstanding (chan : List ToClient) (c : ClientLock) (bag : List ToServer) (o n : LockMode) :
    Prop :=
  ToClient.invalidate o n ∈ chan ∨ (o, n) ∈ c.invList ∨ ToServer.response o n ∈ bag

@[simp] theorem srvMode_nil : srvMode [] [] = .null := rfl

@[simp] theorem srvMode_granted (e : ClientEntry) : srvMode [e] [] = e.mode := rfl

@[simp] theorem srvMode_invalidated (e : ClientEntry) : srvMode [] [e] = e.mode := rfl

/-- A client with a mode on the server has an entry of that mode. -/
theorem exists_mem_of_srvMode_ne_null {G I : List ClientEntry} (h : srvMode G I ≠ .null) :
    ∃ e ∈ G ++ I, e.mode = srvMode G I := by
  unfold srvMode at h ⊢
  cases hGI : G ++ I with
  | nil => simp [hGI] at h
  | cons e rest => exact ⟨e, by simp, rfl⟩

/-- Every message to a client is a grant or an invalidation. -/
theorem eq_nil_of_countP {chan : List ToClient} (hg : chan.countP ToClient.isGrant = 0)
    (hi : chan.countP ToClient.isInvalidate = 0) : chan = [] := by
  cases chan with
  | nil => rfl
  | cons m rest =>
    cases m <;> simp [List.countP_cons, ToClient.isGrant, ToClient.isInvalidate] at hg hi

theorem ChanShape.nil : ChanShape [] :=
  ⟨[], [], rfl, by simp, by simp⟩

/-- Receiving the first message keeps the shape. -/
theorem ChanShape.tail {m : ToClient} {rest : List ToClient} (h : ChanShape (m :: rest)) :
    ChanShape rest := by
  obtain ⟨gs, is, hc, hg, hi⟩ := h
  cases gs with
  | nil =>
    cases is with
    | nil => simp at hc
    | cons i is' =>
      simp only [List.nil_append, List.cons.injEq] at hc
      exact ⟨[], is', by simp [hc.2], by simp, fun x hx => hi x (by simp [hx])⟩
  | cons g gs' =>
    simp only [List.cons_append, List.cons.injEq] at hc
    exact ⟨gs', is, hc.2, fun x hx => hg x (by simp [hx]), hi⟩

/-- An invalidation joins the queue at its end. -/
theorem ChanShape.append_invalidate {chan : List ToClient} (h : ChanShape chan) (o n : LockMode) :
    ChanShape (chan ++ [.invalidate o n]) := by
  obtain ⟨gs, is, hc, hg, hi⟩ := h
  refine ⟨gs, is ++ [.invalidate o n], by simp [hc], hg, ?_⟩
  intro x hx
  rcases List.mem_append.mp hx with hx | hx
  · exact hi x hx
  · rw [List.mem_singleton.mp hx]
    rfl

/-- Behind an invalidation there is no grant. -/
theorem ChanShape.countP_isGrant_of_invalidate {o n : LockMode} {rest : List ToClient}
    (h : ChanShape (.invalidate o n :: rest)) : rest.countP ToClient.isGrant = 0 := by
  obtain ⟨gs, is, hc, hg, hi⟩ := h
  cases gs with
  | nil =>
    simp only [List.nil_append] at hc
    rw [List.countP_eq_zero]
    intro x hx hgx
    have := hi x (hc ▸ List.mem_cons_of_mem _ hx)
    cases x <;> simp_all [ToClient.isGrant, ToClient.isInvalidate]
  | cons g gs' =>
    simp only [List.cons_append, List.cons.injEq] at hc
    have := hg g (by simp)
    rw [← hc.1] at this
    simp [ToClient.isGrant] at this

/-! ### The invariant -/

/-- The invariant of one client's side of the protocol, over its entries on the server
(`G` granted, `I` invalidated, `nq` requested), the server's queue to it, its queue to the
server, and its lock. -/
structure ClientInv (G I : List ClientEntry) (nq : ℕ) (chan : List ToClient)
    (bag : List ToServer) (c : ClientLock) : Prop where
  single : G.length + I.length ≤ 1
  requests : bag.countP ToServer.isRequest + nq + chan.countP ToClient.isGrant =
    if c.requestPending then 1 else 0
  invalidations : chan.countP ToClient.isInvalidate + c.invList.length +
    bag.countP ToServer.isResponse = I.length
  shape : ChanShape chan
  ready : c.ready = true → c.invList ≠ []
  invModes : ∀ o n, Outstanding chan c bag o n →
    I.map ClientEntry.mode = [o] ∧ (n = .null ∨ o = .write ∧ n = .read)
  grantModes : ∀ netId ws o n, ToClient.grant netId ws o n ∈ chan →
    c.mode = o ∧ srvMode G I = n ∧ (o = .null ∨ lockModesMatch n o) ∧ c.invList = [] ∧
      bag.countP ToServer.isResponse = 0
  readyMode : ∀ o n rest, c.ready = true → c.invList = (o, n) :: rest → c.mode = n
  respMode : ∀ o n, ToServer.response o n ∈ bag → c.mode = n
  settled : chan.countP ToClient.isGrant = 0 → c.ready = false →
    bag.countP ToServer.isResponse = 0 → c.mode = srvMode G I
  users : ∀ mode, mode ≠ .null → 0 < c.users mode → lockModesMatch c.mode mode

variable {G I : List ClientEntry} {nq : ℕ} {chan : List ToClient} {bag : List ToServer}
  {c : ClientLock}

/-- A client with nothing: no entry, no message, no lock. -/
theorem ClientInv.init : ClientInv [] [] 0 [] [] lockAlloc where
  single := by simp
  requests := by simp [lockAlloc]
  invalidations := by simp [lockAlloc]
  shape := ChanShape.nil
  ready := by simp [lockAlloc]
  invModes := by simp [Outstanding, lockAlloc]
  grantModes := by simp
  readyMode := by simp [lockAlloc]
  respMode := by simp
  settled := by simp [lockAlloc]
  users := by simp [lockAlloc]

/-- The invariant reads the lock's mode, request, invalidations and ready flag, and of its
users only that they are covered. -/
theorem ClientInv.congr {c' : ClientLock} (h : ClientInv G I nq chan bag c)
    (hm : c'.mode = c.mode) (hp : c'.requestPending = c.requestPending)
    (hi : c'.invList = c.invList) (hr : c'.ready = c.ready)
    (hu : ∀ mode, mode ≠ .null → 0 < c'.users mode → lockModesMatch c'.mode mode) :
    ClientInv G I nq chan bag c' where
  single := h.single
  requests := by rw [hp]; exact h.requests
  invalidations := by rw [hi]; exact h.invalidations
  shape := h.shape
  ready := by rw [hr, hi]; exact h.ready
  invModes := by simpa only [Outstanding, hi] using h.invModes
  grantModes := by simpa only [hm, hi] using h.grantModes
  readyMode := by simpa only [hm, hr, hi] using h.readyMode
  respMode := by simpa only [hm] using h.respMode
  settled := by simpa only [hm, hr] using h.settled
  users := hu

theorem ClientInv.ready_eq_false (h : ClientInv G I nq chan bag c) (hi : c.invList = []) :
    c.ready = false := by
  cases hr : c.ready
  · rfl
  · exact absurd hi (h.ready hr)

/-- `put_lock` frees only a lock the invariant reads as a new one. -/
theorem ClientInv.createLock_putLock (h : ClientInv G I nq chan bag c) :
    ClientInv G I nq chan bag (createLock (putLock c)) := by
  unfold putLock
  split_ifs with hf
  · obtain ⟨hidle, hnull⟩ := hf
    obtain ⟨hp, hi, -⟩ := lockIdle_iff.mp hidle
    refine h.congr ?_ ?_ ?_ ?_ ?_
    · simp [createLock, lockAlloc, hnull]
    · simp [createLock, lockAlloc, hp]
    · simp [createLock, lockAlloc, hi]
    · simp [createLock, lockAlloc, h.ready_eq_false hi]
    · simp [createLock, lockAlloc]
  · exact h

/-! ### The client's moves -/

/-- A client without a request in flight sends one. -/
theorem ClientInv.sendRequest (h : ClientInv G I nq chan bag c) (hp : c.requestPending = false)
    (netId : ℕ) (o n : LockMode) :
    ClientInv G I nq chan (bag ++ [.request netId o n]) { c with requestPending := true } where
  single := h.single
  requests := by
    have := h.requests
    simp only [hp, Bool.false_eq_true, if_false] at this
    simp [ToServer.isRequest]
    omega
  invalidations := by simpa [ToServer.isResponse] using h.invalidations
  shape := h.shape
  ready := h.ready
  invModes o' n' ho := h.invModes o' n' (by simpa [Outstanding] using ho)
  grantModes := by simpa [ToServer.isResponse] using h.grantModes
  readyMode := h.readyMode
  respMode o' n' hm := h.respMode o' n' (by simpa using hm)
  settled := by simpa [ToServer.isResponse] using h.settled
  users := h.users

/-- A grant in the queue is the answer to the request in flight. -/
theorem ClientInv.pending_of_grant {netId ws : ℕ} {o n : LockMode} {rest : List ToClient}
    (h : ClientInv G I nq (.grant netId ws o n :: rest) bag c) : c.requestPending = true := by
  have hreq := h.requests
  cases hc : c.requestPending
  · simp [hc, ToClient.isGrant] at hreq
  · rfl

/-- Receiving a grant. -/
theorem ClientInv.recvGrant {netId ws : ℕ} {o n : LockMode} {rest : List ToClient}
    (h : ClientInv G I nq (.grant netId ws o n :: rest) bag c) :
    ClientInv G I nq rest bag { c with requestPending := false, mode := n, writeSeq := ws } := by
  obtain ⟨hmo, hsrv, hup, hinv, hresp⟩ := h.grantModes netId ws o n List.mem_cons_self
  have hreq := h.requests
  simp only [h.pending_of_grant, if_true, List.countP_cons, ToClient.isGrant] at hreq
  have hgrants : rest.countP ToClient.isGrant = 0 := by omega
  have hnoresp : ∀ o' n', ToServer.response o' n' ∉ bag := fun o' n' hm =>
    (List.countP_eq_zero.mp hresp) _ hm rfl
  refine ⟨h.single, ?_, ?_, h.shape.tail, h.ready, ?_, ?_, ?_, ?_, ?_, ?_⟩
  · simp only [Bool.false_eq_true, if_false]
    omega
  · simpa [ToClient.isInvalidate] using h.invalidations
  · intro o' n' ho
    exact h.invModes o' n' (by
      rcases ho with ho | ho | ho
      · exact .inl (List.mem_cons_of_mem _ ho)
      · exact .inr (.inl ho)
      · exact .inr (.inr ho))
  · intro netId' ws' o' n' hm
    exact (List.countP_eq_zero.mp hgrants _ hm rfl).elim
  · intro o' n' rest' hr
    simp [h.ready_eq_false hinv] at hr
  · intro o' n' hm
    exact absurd hm (hnoresp o' n')
  · intro _ _ _
    exact hsrv.symm
  · intro mode hmode hu
    have hom := h.users mode hmode hu
    rw [hmo] at hom
    rcases hup with rfl | hno
    · exact absurd (eq_null_of_lockModesMatch_null hom) hmode
    · exact lockModesMatch_trans hno hom

/-- The lock of a client that an invalidation is on its way to has a mode. -/
theorem ClientInv.mode_ne_null_of_invalidate {o n : LockMode} {rest : List ToClient}
    (h : ClientInv G I nq (.invalidate o n :: rest) bag c)
    (hnn : ∀ e ∈ G ++ I, e.mode ≠ .null) : c.mode ≠ .null := by
  have hinv := h.invalidations
  simp only [List.countP_cons, ToClient.isInvalidate, if_true] at hinv
  obtain ⟨hI, -⟩ := h.invModes o n (.inl List.mem_cons_self)
  obtain ⟨e, rfl⟩ : ∃ e, I = [e] := by
    cases I with
    | nil => simp at hI
    | cons e I' => cases I' with
      | nil => exact ⟨e, rfl⟩
      | cons e' I'' => simp at hI
  have hG : G = [] := by
    have hs := h.single
    simp only [List.length_singleton] at hs
    exact List.eq_nil_of_length_eq_zero (by omega)
  subst hG
  have hready : c.ready = false := h.ready_eq_false (List.eq_nil_of_length_eq_zero (by simp at hinv; omega))
  have hgrants : (ToClient.invalidate o n :: rest).countP ToClient.isGrant = 0 := by
    simp [ToClient.isGrant, h.shape.countP_isGrant_of_invalidate]
  rw [h.settled hgrants hready (by simp at hinv; omega)]
  exact hnn e (by simp)

/-- Receiving an invalidation request for an existing lock queues it. -/
theorem ClientInv.recvInvalidate {o n : LockMode} {rest : List ToClient}
    (h : ClientInv G I nq (.invalidate o n :: rest) bag c) :
    ClientInv G I nq rest bag { c with invList := c.invList ++ [(o, n)] } := by
  have hinv := h.invalidations
  simp only [List.countP_cons, ToClient.isInvalidate, if_true] at hinv
  have hsingle := h.single
  have hlist : c.invList = [] := List.eq_nil_of_length_eq_zero (by omega)
  have hready : c.ready = false := h.ready_eq_false hlist
  have hgrants := h.shape.countP_isGrant_of_invalidate
  refine ⟨h.single, ?_, ?_, h.shape.tail, ?_, ?_, ?_, ?_, h.respMode, ?_, h.users⟩
  · simpa [ToClient.isGrant] using h.requests
  · simp only [List.length_append, List.length_singleton]
    omega
  · simp
  · intro o' n' ho
    apply h.invModes o' n'
    rcases ho with ho | ho | ho
    · exact .inl (List.mem_cons_of_mem _ ho)
    · rcases List.mem_append.mp ho with ho | ho
      · exact .inr (.inl ho)
      · simp only [List.mem_singleton, Prod.mk.injEq] at ho
        obtain ⟨rfl, rfl⟩ := ho
        exact .inl List.mem_cons_self
    · exact .inr (.inr ho)
  · intro netId ws o' n' hm
    exact (List.countP_eq_zero.mp hgrants _ hm rfl).elim
  · intro o' n' rest' hr
    simp [hready] at hr
  · intro _ _ hresp
    exact h.settled (by simpa [ToClient.isGrant] using hgrants) hready hresp

/-- The worker moves a lock whose users allow the new mode onto its ready list, in that mode. -/
theorem ClientInv.setReady {o n : LockMode} {rest : List (LockMode × LockMode)}
    (h : ClientInv G I nq chan bag c) (hi : c.invList = (o, n) :: rest)
    (hu : ∀ mode, c.users mode ≠ 0 → lockModesMatch n mode) :
    ClientInv G I nq chan bag { c with mode := n, ready := true } := by
  have hinv := h.invalidations
  have hsingle := h.single
  rw [hi] at hinv
  simp only [List.length_cons] at hinv
  have hresp : bag.countP ToServer.isResponse = 0 := by omega
  refine ⟨h.single, h.requests, h.invalidations, h.shape, by simp [hi], h.invModes, ?_, ?_, ?_,
    ?_, ?_⟩
  · intro netId ws o' n' hm
    have := (h.grantModes netId ws o' n' hm).2.2.2.1
    simp [hi] at this
  · intro o' n' rest' _ hi'
    simp only [hi, List.cons.injEq, Prod.mk.injEq] at hi'
    exact hi'.1.2
  · intro o' n' hm
    exact (List.countP_eq_zero.mp hresp _ hm rfl).elim
  · intro _ hr' _
    simp at hr'
  · intro mode hmode hpos
    exact hu mode (Nat.pos_iff_ne_zero.mp hpos)

/-- The first pass of the invalidation worker. -/
theorem ClientInv.workerStart (h : ClientInv G I nq chan bag c) :
    ClientInv G I nq chan bag (lockInvalidateWorkerStart c) := by
  unfold lockInvalidateWorkerStart
  split
  · exact h
  · rename_i o n rest hi
    split_ifs with hc
    · simp only [Bool.and_eq_true, Bool.not_eq_true'] at hc
      exact h.setReady hi (lockCountsMatch_iff.mp hc.2)
    · exact h

/-- A ready lock's queued request drops the lock to null, or from write to read. -/
theorem ClientInv.invalidate_ok {o n : LockMode} {rest : List (LockMode × LockMode)}
    (h : ClientInv G I nq chan bag c) (hi : c.invList = (o, n) :: rest) :
    n = .null ∨ o = .write ∧ n = .read :=
  (h.invModes o n (.inr (.inl (by simp [hi])))).2

/-- The later passes of the invalidation worker answer the request. -/
theorem ClientInv.workerFinish {o n : LockMode} {rest : List (LockMode × LockMode)}
    (h : ClientInv G I nq chan bag c) (hr : c.ready = true) (hi : c.invList = (o, n) :: rest) :
    ClientInv G I nq chan (bag ++ [.response o n]) { c with invList := rest, ready := false } := by
  have hinv := h.invalidations
  have hsingle := h.single
  rw [hi] at hinv
  simp only [List.length_cons] at hinv
  have hresp : bag.countP ToServer.isResponse = 0 := by omega
  have hmode := h.readyMode o n rest hr hi
  refine ⟨h.single, ?_, ?_, h.shape, by simp, ?_, ?_, ?_, ?_, ?_, h.users⟩
  · simpa [ToServer.isRequest] using h.requests
  · simp [ToServer.isResponse]
    omega
  · intro o' n' ho
    apply h.invModes o' n'
    rcases ho with ho | ho | ho
    · exact .inl ho
    · exact .inr (.inl (by simp [hi, ho]))
    · rcases List.mem_append.mp ho with ho | ho
      · exact .inr (.inr ho)
      · simp only [List.mem_singleton, ToServer.response.injEq] at ho
        obtain ⟨rfl, rfl⟩ := ho
        exact .inr (.inl (by simp [hi]))
  · intro netId ws o' n' hm
    have := (h.grantModes netId ws o' n' hm).2.2.2.1
    simp [hi] at this
  · intro o' n' rest' hr'
    simp at hr'
  · intro o' n' hm
    rcases List.mem_append.mp hm with hm | hm
    · exact (List.countP_eq_zero.mp hresp _ hm rfl).elim
    · simp only [List.mem_singleton, ToServer.response.injEq] at hm
      show c.mode = n'
      rw [hm.2]
      exact hmode
  · intro _ _ hresp'
    simp [ToServer.isResponse] at hresp'

/-! ### What the server does to a client -/

/-- The server takes a request off the client's queue onto `requested`. -/
theorem ClientInv.takeRequest {netId : ℕ} {o n : LockMode} (h : ClientInv G I nq chan bag c)
    (hm : ToServer.request netId o n ∈ bag) :
    ClientInv G I (nq + 1) chan (bag.erase (.request netId o n)) c := by
  have hreq : (bag.erase (.request netId o n)).countP ToServer.isRequest + 1 =
      bag.countP ToServer.isRequest := by
    have := List.countP_pos_iff.mpr ⟨_, hm, (rfl : ToServer.isRequest (.request netId o n) = true)⟩
    rw [List.countP_erase]
    simp [hm, ToServer.isRequest]
    omega
  have hresp : (bag.erase (.request netId o n)).countP ToServer.isResponse =
      bag.countP ToServer.isResponse := by
    simp [List.countP_erase, ToServer.isResponse]
  refine ⟨h.single, ?_, ?_, h.shape, h.ready, ?_, ?_, h.readyMode, ?_, ?_, h.users⟩
  · rw [← h.requests]
    omega
  · rw [hresp]
    exact h.invalidations
  · intro o' n' ho
    apply h.invModes o' n'
    rcases ho with ho | ho | ho
    · exact .inl ho
    · exact .inr (.inl ho)
    · exact .inr (.inr (List.mem_of_mem_erase ho))
  · simpa only [hresp] using h.grantModes
  · intro o' n' hm'
    exact h.respMode o' n' (List.mem_of_mem_erase hm')
  · simpa only [hresp] using h.settled

/-- The server takes the answer to an invalidation: the client's entry leaves `invalidated`,
and stays on `granted` in the new mode unless that is null. -/
theorem ClientInv.takeResponse {e : ClientEntry} {I' : List ClientEntry} {o n : LockMode}
    (h : ClientInv G (e :: I') nq chan bag c) (hm : ToServer.response o n ∈ bag) :
    ClientInv (G ++ if n = .null then [] else [{ e with mode := n }]) I' nq chan
      (bag.erase (.response o n)) c := by
  have hsingle := h.single
  simp only [List.length_cons] at hsingle
  have hG : G = [] := List.eq_nil_of_length_eq_zero (by omega)
  have hI' : I' = [] := List.eq_nil_of_length_eq_zero (by omega)
  subst hG hI'
  have hinv := h.invalidations
  have hpos := List.countP_pos_iff.mpr ⟨_, hm, (rfl : ToServer.isResponse (.response o n) = true)⟩
  have hresp : (bag.erase (.response o n)).countP ToServer.isResponse = 0 := by
    rw [List.countP_erase]
    simp only [List.length_cons, List.length_nil] at hinv
    simp [hm, ToServer.isResponse]
    omega
  have hchan : chan.countP ToClient.isInvalidate = 0 := by simp at hinv; omega
  have hlist : c.invList = [] := List.eq_nil_of_length_eq_zero (by simp at hinv; omega)
  have hready := h.ready_eq_false hlist
  have hmode := h.respMode o n hm
  have hn := (h.invModes o n (.inr (.inr hm))).2
  have hnoresp : ∀ o' n', ToServer.response o' n' ∉ bag.erase (.response o n) := fun o' n' hm' =>
    (List.countP_eq_zero.mp hresp) _ hm' rfl
  refine ⟨by split_ifs <;> simp, ?_, ?_, h.shape, h.ready, ?_, ?_, ?_, ?_, ?_, h.users⟩
  · have hreq : (bag.erase (.response o n)).countP ToServer.isRequest =
        bag.countP ToServer.isRequest := by
      simp [List.countP_erase, ToServer.isRequest]
    rw [hreq]
    exact h.requests
  · simp [hchan, hlist, hresp]
  · intro o' n' ho
    rcases ho with ho | ho | ho
    · exact (List.countP_eq_zero.mp hchan _ ho rfl).elim
    · simp [hlist] at ho
    · exact absurd ho (hnoresp o' n')
  · intro netId ws o' n' hg
    have := (h.grantModes netId ws o' n' hg).2.2.2.2
    omega
  · intro o' n' rest hr
    simp [hready] at hr
  · intro o' n' hm'
    exact absurd hm' (hnoresp o' n')
  · intro _ _ _
    rw [hmode]
    split_ifs with hnull
    · simp [hnull]
    · simp

/-- The server sends an invalidation for the client's grant `gr`. -/
theorem ClientInv.invalidateOne {gr : ClientEntry} {n : LockMode} (h : ClientInv [gr] [] nq chan bag c)
    (hn : n = .null ∨ gr.mode = .write ∧ n = .read) :
    ClientInv [] [gr] nq (chan ++ [.invalidate gr.mode n]) bag c := by
  have hinv := h.invalidations
  simp only [List.length_nil] at hinv
  have hchan : chan.countP ToClient.isInvalidate = 0 := by omega
  have hlist : c.invList = [] := List.eq_nil_of_length_eq_zero (by omega)
  have hresp : bag.countP ToServer.isResponse = 0 := by omega
  have hready := h.ready_eq_false hlist
  refine ⟨by simp, ?_, ?_, h.shape.append_invalidate _ _, h.ready, ?_, ?_, ?_, ?_, ?_, h.users⟩
  · simpa [ToClient.isGrant] using h.requests
  · simp [ToClient.isInvalidate, hchan, hlist, hresp]
  · intro o' n' ho
    rcases ho with ho | ho | ho
    · rcases List.mem_append.mp ho with ho | ho
      · exact (List.countP_eq_zero.mp hchan _ ho rfl).elim
      · simp only [List.mem_singleton, ToClient.invalidate.injEq] at ho
        obtain ⟨rfl, rfl⟩ := ho
        exact ⟨rfl, hn⟩
    · simp [hlist] at ho
    · exact (List.countP_eq_zero.mp hresp _ ho rfl).elim
  · intro netId ws o' n' hg
    have hg' : ToClient.grant netId ws o' n' ∈ chan := by simpa using hg
    simpa using h.grantModes netId ws o' n' hg'
  · intro o' n' rest hr
    simp [hready] at hr
  · intro o' n' hm
    exact (List.countP_eq_zero.mp hresp _ hm rfl).elim
  · intro hg hr hr'
    simpa using h.settled (by simpa [ToClient.isGrant] using hg) hr hr'

/-- The loop of `process_waiting_requests` over `granted` sends the client an invalidation for
its grant if the grant fails the test `p`. -/
theorem ClientInv.invalidate (h : ClientInv G I nq chan bag c) (p : ClientEntry → Bool)
    (f : LockMode → LockMode) (hf : ∀ m, f m = .null ∨ m = .write ∧ f m = .read) :
    ClientInv (G.filter p) (I ++ G.filter fun e => !p e) nq
      (chan ++ (G.filter fun e => !p e).map fun gr => .invalidate gr.mode (f gr.mode)) bag c := by
  match G, h.single with
  | [], _ => simpa using h
  | _ :: _ :: _, hs =>
    simp only [List.length_cons] at hs
    omega
  | [gr], hs =>
    have hI : I = [] := List.eq_nil_of_length_eq_zero (by
      simp only [List.length_singleton] at hs
      omega)
    subst hI
    by_cases hp : p gr
    · simpa [hp] using h
    · simpa [hp] using h.invalidateOne (hf gr.mode)

/-- A grant compatible with a request is covered by the request's mode. -/
theorem lockModesMatch_of_compatible {gr req : ClientEntry} (h : clientEntriesCompatible gr req) :
    lockModesMatch req.mode gr.mode := by
  simp only [clientEntriesCompatible, decide_eq_true_eq] at h
  rcases h with ⟨hm, -⟩ | ⟨-, hr, hw⟩
  · rw [hm]
    exact lockModesMatch_refl _
  · simp [lockModesMatch, hr, hw]

/-- `process_waiting_requests` grants the client's request `req`: its grant, if any, is
replaced, and the grant joins the client's queue. -/
theorem ClientInv.grant (h : ClientInv G [] nq chan bag c) (hq : 0 < nq) (req : ClientEntry)
    (hc : ∀ gr ∈ G, clientEntriesCompatible gr req)
    (ws : ℕ) :
    ClientInv (G.tail ++ if req.mode = .null then [] else [req]) [] (nq - 1)
      (chan ++ [.grant req.netId ws (srvMode G []) req.mode]) bag c := by
  have hinv := h.invalidations
  have hreq := h.requests
  simp only [List.length_nil] at hinv
  have hchanI : chan.countP ToClient.isInvalidate = 0 := by omega
  have hlist : c.invList = [] := List.eq_nil_of_length_eq_zero (by omega)
  have hresp : bag.countP ToServer.isResponse = 0 := by omega
  have hready := h.ready_eq_false hlist
  have hpend : c.requestPending = true := by
    cases hp : c.requestPending
    · simp [hp] at hreq; omega
    · rfl
  simp only [hpend, if_true] at hreq
  have hchanG : chan.countP ToClient.isGrant = 0 := by omega
  have hchan : chan = [] := eq_nil_of_countP hchanG hchanI
  subst hchan
  have hmode := h.settled hchanG hready hresp
  have htail : G.tail = [] := by
    have hs := h.single
    cases G with
    | nil => rfl
    | cons gr G' =>
      simp only [List.length_cons, List.length_nil] at hs
      rw [List.tail_cons]
      exact List.eq_nil_of_length_eq_zero (by omega)
  rw [htail, List.nil_append]
  have hsrv : srvMode (if req.mode = .null then [] else [req]) [] = req.mode := by
    split_ifs with hn
    · simp [hn]
    · simp
  refine ⟨by split_ifs <;> simp, ?_, by simp [ToClient.isInvalidate, hlist, hresp],
    ⟨[.grant req.netId ws (srvMode G []) req.mode], [], by simp, by simp [ToClient.isGrant],
      by simp⟩, h.ready, ?_, ?_, ?_, ?_, ?_, h.users⟩
  · have hsum : bag.countP ToServer.isRequest + nq = 1 := by simpa using hreq
    simp [ToClient.isGrant, hpend, -List.countP_eq_zero]
    omega
  · intro o' n' ho
    rcases ho with ho | ho | ho
    · simp at ho
    · simp [hlist] at ho
    · exact (List.countP_eq_zero.mp hresp _ ho rfl).elim
  · intro netId ws' o' n' hg
    simp only [List.nil_append, List.mem_singleton, ToClient.grant.injEq] at hg
    obtain ⟨-, -, rfl, rfl⟩ := hg
    refine ⟨hmode, hsrv, ?_, hlist, hresp⟩
    cases G with
    | nil => exact .inl rfl
    | cons gr G' =>
      have hgr : gr ∈ gr :: G' := List.mem_cons_self
      exact .inr (lockModesMatch_of_compatible (hc gr hgr))
  · intro o' n' rest hr
    simp [hready] at hr
  · intro o' n' hm
    exact (List.countP_eq_zero.mp hresp _ hm rfl).elim
  · intro hg
    simp [ToClient.isGrant] at hg

/-! ### What the invariant gives -/

/-- The lock's mode is covered by the client's entry on the server. -/
theorem ClientInv.covered (h : ClientInv G I nq chan bag c) (hm : c.mode ≠ .null) :
    ∃ e ∈ G ++ I, lockModesMatch e.mode c.mode := by
  -- the entry covering an invalidated lock's mode: a write entry dropped to read
  have hinval : ∀ o n, Outstanding chan c bag o n → c.mode = n → ∃ e ∈ G ++ I,
      lockModesMatch e.mode c.mode := by
    intro o n ho hcm
    obtain ⟨hI, hn⟩ := h.invModes o n ho
    obtain ⟨e, he, heo⟩ : ∃ e ∈ I, e.mode = o := by
      cases I with
      | nil => simp at hI
      | cons e I' => exact ⟨e, List.mem_cons_self, (List.cons.inj hI).1⟩
    rcases hn with rfl | ⟨rfl, rfl⟩
    · exact absurd hcm hm
    · exact ⟨e, List.mem_append_right _ he, by simp [heo, hcm, lockModesMatch]⟩
  by_cases hg : chan.countP ToClient.isGrant = 0
  · by_cases hr : c.ready = true
    · obtain ⟨⟨o, n⟩, rest, hi⟩ := List.exists_cons_of_ne_nil (h.ready hr)
      exact hinval o n (.inr (.inl (by simp [hi]))) (h.readyMode o n rest hr hi)
    · by_cases hresp : bag.countP ToServer.isResponse = 0
      · have hmode := h.settled hg (by simpa using hr) hresp
        rw [hmode] at hm ⊢
        obtain ⟨e, he, hem⟩ := exists_mem_of_srvMode_ne_null hm
        exact ⟨e, he, hem ▸ lockModesMatch_refl _⟩
      · obtain ⟨msg, hmsg, hresp'⟩ := List.countP_pos_iff.mp (Nat.pos_of_ne_zero hresp)
        cases msg with
        | request => simp [ToServer.isResponse] at hresp'
        | response o n => exact hinval o n (.inr (.inr hmsg)) (h.respMode o n hmsg)
  · obtain ⟨msg, hmsg, hgr⟩ := List.countP_pos_iff.mp (Nat.pos_of_ne_zero hg)
    cases msg with
    | invalidate => simp [ToClient.isGrant] at hgr
    | grant netId ws o n =>
      obtain ⟨hmo, hsrv, hup, -⟩ := h.grantModes netId ws o n hmsg
      rcases hup with hnull | hno
      · exact absurd (hmo.trans hnull) hm
      · have hn : srvMode G I ≠ .null := by
          rw [hsrv]
          rintro rfl
          exact hm (hmo.trans (eq_null_of_lockModesMatch_null hno))
        obtain ⟨e, he, hem⟩ := exists_mem_of_srvMode_ne_null hn
        exact ⟨e, he, by rw [hem, hsrv, hmo]; exact hno⟩

/-- A mode in use is covered by the client's entry on the server. -/
theorem ClientInv.users_covered (h : ClientInv G I nq chan bag c) {mode : LockMode}
    (hmode : mode ≠ .null) (hu : 0 < c.users mode) :
    ∃ e ∈ G ++ I, lockModesMatch e.mode mode := by
  have hcm := h.users mode hmode hu
  have hc : c.mode ≠ .null := fun hn => hmode (eq_null_of_lockModesMatch_null (hn ▸ hcm))
  obtain ⟨e, he, hem⟩ := h.covered hc
  exact ⟨e, he, lockModesMatch_trans hem hcm⟩

end Scoutfs
