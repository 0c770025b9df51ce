import Distft.Session.Frame

/-!
# The two phases of a store

`store` asks the receiver with `StoreInit` and sends the chunk with `Store`. The client and the
receiver are two sessions of one world in which the receiver handles the requests to its endpoint,
or they get lost, and nothing else changes the receiver's chunks meanwhile (`Net.Serves`). All that
happens to them then is the insertion that the handler of `Store` makes (`leads_store`), and the
chunk that it inserts is the client's up to a fraction of a second of its time (`store_post`).
-/

namespace Distft

open Exec

namespace Net

variable {W : Type}

/-- The requests of a client to an endpoint are handled by a server or lost, and nothing else
changes the server's chunks: not what the client changes of its own session besides its chunks, not
the clock, and not the pings of either. -/
structure Serves (client : Net W) (server : Environment W) (endpoint : Bytes) : Prop where
  /-- A change of the client's session that keeps its chunks keeps the server's. -/
  withSession : ∀ s w, s.chunks = (client.session w).chunks →
    (server.session (client.withSession s w)).chunks = (server.session w).chunks
  /-- The client's clock. -/
  now : ∀ w, (server.session (client.now w).2).chunks = (server.session w).chunks
  /-- The pings of the client. -/
  pingClient : ∀ endpoint request w,
    (server.session (client.rpc .ping endpoint request w).2).chunks = (server.session w).chunks
  /-- The pings of the server. -/
  pingServer : ∀ endpoint request w,
    (server.session (server.rpc .ping endpoint request w).2).chunks = (server.session w).chunks
  /-- A request of the client to the endpoint is lost, or the server handles it, and if there is a
  response it is the handler's. -/
  rpc : ∀ m request w,
    ((client.rpc m endpoint request w).1 = none ∧
      (server.session (client.rpc m endpoint request w).2).chunks = (server.session w).chunks) ∨
    ((server.session (client.rpc m endpoint request w).2).chunks =
        (server.session (server.handle m request w).state).chunks ∧
      ∀ response, (client.rpc m endpoint request w).1 = some response →
        (server.handle m request w).result = .ok response)

variable {client : Net W} {server : Environment W} {endpoint : Bytes}
  {chunks : AList fun _ : Key => Chunk}

/-- The updates of the client leave the server's chunks. -/
theorem Serves.updateClient (h : client.Serves server endpoint) :
    client.UpdateStable (fun _ => True) fun w => (server.session w).chunks = chunks where
  own _ _ := trivial
  insert w now peer _ hw := (h.withSession _ w (by rfl)).trans hw
  evict w key hw := (h.withSession _ w (by rfl)).trans hw
  deadPeers w n hw := (h.withSession _ w (by rfl)).trans hw
  now w hw := (h.now w).trans hw
  ping endpoint sender w _ hw := (h.pingClient endpoint _ w).trans hw

/-- The updates of a server leave its chunks, if its pings do. -/
theorem updateStable_server (hping : ∀ endpoint request w,
      (server.session (server.rpc .ping endpoint request w).2).chunks = (server.session w).chunks) :
    server.UpdateStable (fun _ => True) fun w => (server.session w).chunks = chunks where
  own _ _ := trivial
  insert w now peer _ hw := by rwa [server.session_withSession]
  evict w key hw := by rwa [server.session_withSession]
  deadPeers w n hw := by rwa [server.session_withSession]
  now w hw := by rwa [server.session_now]
  ping endpoint sender w _ hw := (hping endpoint _ w).trans hw

/-! ## The handlers -/

/-- A key that was sent is read. -/
theorem leads_sentKey {α : Type} {key : Key} {w : W} {f : Key → Op W α} {Q : W → α → Prop} {R : W → Prop}
    (hf : Leads (f key) w Q R) : Leads (toKey key.toBytes >>= f) w Q R := by
  rw [toKey_toBytes]
  exact .bind (leads_pure hf)

/-- The beginning of a handler leaves the chunks. -/
theorem Serves.prelims (h : client.Serves server endpoint) {w : W}
    (hw : (server.session w).chunks = chunks) (sender : RpcPeer) :
    Leads (server.rpcHandlerPrelims sender) w (fun w' _ => (server.session w').chunks = chunks)
      fun w' => (server.session w').chunks = chunks :=
  (silent_rpcHandlerPrelims passesUpdates_nothing (updateStable_server h.pingServer)
    fun _ _ => trivial).leads hw

/-- `StoreInit` leaves the chunks, and answers whether the key is absent. -/
theorem Serves.handleStoreInit (h : client.Serves server endpoint) {w : W}
    (hw : (server.session w).chunks = chunks) (sender : RpcPeer) (key : Key) :
    Leads (server.handleStoreInit ⟨sender, key.toBytes⟩) w
      (fun w' response => (server.session w').chunks = chunks ∧
        response.continueStore = (chunks.lookup key).isNone)
      fun w' => (server.session w').chunks = chunks := by
  refine .bind ((h.prelims hw sender).mono fun w' _ hw' => leads_sentKey ?_)
  refine .bind (leads_emit (.bind (leads_read (.bind (leads_emit (leads_pure ⟨hw', ?_⟩))))))
  exact congrArg (fun c : AList fun _ : Key => Chunk => (c.lookup key).isNone) hw'

/-- `Store` inserts the chunk that it is sent, if it comes to it. -/
theorem Serves.handleStore (h : client.Serves server endpoint) {w : W}
    (hw : (server.session w).chunks = chunks) (sender : RpcPeer) (chunk : Chunk)
    (hlen : chunk.data.length < 2^31)
    (htime : -2^63 ≤ chunk.originalPublish ∧ chunk.originalPublish < 2^63) :
    Leads (server.handleStore ⟨sender, chunk.key.toBytes, chunk.data,
        Int32.ofNat chunk.data.length, toSeconds chunk.originalPublish⟩) w
      (fun w' _ => ∃ lastPublished, (server.session w').chunks = chunks.insert chunk.key
        ⟨false, chunk.key, chunk.data, lastPublished, wholeSeconds chunk.originalPublish⟩)
      fun w' => (server.session w').chunks = chunks := by
  refine .bind ((h.prelims hw sender).mono fun w' _ hw' => leads_sentKey ?_)
  rw [ofSeconds_toSeconds htime.1 htime.2, copyData_length hlen]
  refine .bind (leads_pure (.bind (leads_pure (.bind (leads_act (.bind (leads_emit ?_)))))))
  refine .bind (leads_act (.bind (leads_emit (leads_pure ⟨(server.now w').1, ?_⟩))))
  rw [server.session_withSession, server.session_now]
  exact congrArg (AList.insert _ _) hw'

/-! ## The client -/

/-- A request is handled or lost: either way the server's chunks are what the handler leaves, or
what they were, and a response is one of the handler's. -/
theorem Serves.call (h : client.Serves server endpoint) {m : Method} {peer : Peer}
    (hpeer : peer.endpoint = endpoint) {request : m.Request} {w : W}
    (hw : (server.session w).chunks = chunks) {Q : (AList fun _ : Key => Chunk) → m.Response → Prop}
    {R : (AList fun _ : Key => Chunk) → Prop} {F : W → Prop} (hlost : R chunks)
    (hhandled : Leads (server.handle m request) w
      (fun w' response => Q (server.session w').chunks response ∧ R (server.session w').chunks)
      fun w' => R (server.session w').chunks) :
    Leads (client.call m peer request) w
      (fun w' answer => R (server.session w').chunks ∧
        ∀ response, answer = some response → Q (server.session w').chunks response) F := by
  subst hpeer
  refine .bind (leads_act (.bind (leads_emit (leads_pure ?_))))
  rcases h.rpc m request w with ⟨hnone, hchunks⟩ | ⟨hchunks, hresponse⟩
  · rw [hnone, hchunks, hw]
    exact ⟨hlost, fun _ h => nomatch h⟩
  · rw [hchunks]
    refine ⟨?_, fun response heq => (hhandled.1 response (hresponse response heq)).1⟩
    cases hr : (server.handle m request w).result with
    | ok response => exact (hhandled.1 response hr).2
    | error e => exact hhandled.2 e hr

/-- The server's chunks after a store: they are as they were, or the chunk is inserted, cut to whole
seconds, if the client is not told that it is there or does not care. -/
def Stored (chunks : AList fun _ : Key => Chunk) (chunk : Chunk)
    (chunks' : AList fun _ : Key => Chunk) : Prop :=
  ∃ lastPublished, chunks' = chunks.insert chunk.key
    ⟨false, chunk.key, chunk.data, lastPublished, wholeSeconds chunk.originalPublish⟩

/-- The client's epilogue leaves the server's chunks. -/
theorem Serves.epilogue (h : client.Serves server endpoint) {w : W} (receiver : RpcPeer) :
    Leads (client.rpcCallerEpilogue receiver) w
      (fun w' _ => (server.session w').chunks = (server.session w).chunks)
      fun w' => (server.session w').chunks = (server.session w).chunks :=
  (silent_rpcCallerEpilogue passesUpdates_nothing h.updateClient fun _ _ => trivial).leads rfl

/-- A store leaves the server's chunks or inserts the chunk, however it ends. Where it returns true,
it inserts the chunk, unless it is not forced and the key is there. -/
theorem Serves.store (h : client.Serves server endpoint) {peer : Peer}
    (hpeer : peer.endpoint = endpoint) {w : W} (hw : (server.session w).chunks = chunks)
    (chunk : Chunk) (force : Bool) (hlen : chunk.data.length < 2^31)
    (htime : -2^63 ≤ chunk.originalPublish ∧ chunk.originalPublish < 2^63) :
    Leads (client.store peer chunk force) w
      (fun w' stored =>
        ((server.session w').chunks = chunks ∨ Stored chunks chunk (server.session w').chunks) ∧
        (stored = true →
          (force = false ∧ (chunks.lookup chunk.key).isSome ∧ (server.session w').chunks = chunks) ∨
          ((force = true ∨ chunks.lookup chunk.key = none) ∧
            Stored chunks chunk (server.session w').chunks)))
      fun w' => (server.session w').chunks = chunks ∨
        Stored chunks chunk (server.session w').chunks := by
  unfold Net.store
  refine .bind (leads_read (.bind ?_))
  -- The first phase changes nothing.
  refine (h.call (m := .storeInit) hpeer hw (R := fun c => c = chunks)
    (Q := fun _ response => response.continueStore = (chunks.lookup chunk.key).isNone) rfl
    ((h.handleStoreInit hw _ chunk.key).mono fun w' response hq => ⟨hq.2, hq.1⟩)).mono ?_
  rintro w1 answer ⟨hw1, hanswer⟩
  cases answer with
  | none =>
    have hevict := (silent_evictPeer passesUpdates_nothing h.updateClient peer.key).leads hw1
    refine .bind ((hevict.mono fun w2 _ hw2 => leads_pure ⟨.inl hw2, nofun⟩).weaken fun _ => .inl)
  | some initResponse =>
    have hcontinue := hanswer initResponse rfl
    simp only
    split_ifs with hstop
    · refine leads_pure ⟨.inl hw1, fun _ => .inl ?_⟩
      simp only [Bool.and_eq_true, Bool.not_eq_true', hcontinue, Option.isNone_eq_false_iff] at hstop
      exact ⟨hstop.2, hstop.1, hw1⟩
    · have hgoes : force = true ∨ chunks.lookup chunk.key = none := by
        rw [hcontinue] at hstop
        cases force <;> simp_all
      refine .bind ((h.epilogue _).weaken (fun w2 hw2 => .inl (hw2.trans hw1)) |>.mono ?_)
      intro w2 _ hw2
      refine .bind (leads_read (.bind ?_))
      refine (h.call (m := .store) hpeer (hw2.trans hw1)
        (R := fun c => c = chunks ∨ Stored chunks chunk c)
        (Q := fun c _ => Stored chunks chunk c) (.inl rfl)
        (((h.handleStore (hw2.trans hw1) _ chunk hlen htime).mono fun w' _ hq =>
          ⟨hq, .inr hq⟩).weaken fun _ => .inl)).mono ?_
      rintro w3 answer ⟨hw3, hanswer⟩
      cases answer with
      | none => exact leads_pure ⟨hw3, nofun⟩
      | some response =>
        refine .bind ((h.epilogue _).weaken (fun w4 hw4 => by rwa [hw4]) |>.mono ?_)
        intro w4 _ hw4
        refine leads_pure ⟨by rwa [hw4], fun _ => .inr ⟨hgoes, ?_⟩⟩
        rw [hw4]
        exact hanswer response rfl

/-- The two phases of a store, with a receiver that handles its requests, and no other in between:
the entries of other keys stay. If the store returns true the key is there; if it was forced or the
key was absent, with the chunk's bytes and its time of publication in whole seconds, and otherwise
with what it was. -/
theorem store_post (client : Net W) (server : Environment W) (peer : Peer)
    (hserves : client.Serves server peer.endpoint) (chunk : Chunk) (force : Bool)
    (hlen : chunk.data.length < 2^31)
    (htime : -2^63 ≤ chunk.originalPublish ∧ chunk.originalPublish < 2^63) (w : W) :
    let before := (server.session w).chunks
    let after := (server.session (client.store peer chunk force w).state).chunks
    (∀ key, key ≠ chunk.key → after.lookup key = before.lookup key) ∧
      ((client.store peer chunk force w).result = .ok true →
        ∃ stored, after.lookup chunk.key = some stored ∧
          (force = true ∨ before.lookup chunk.key = none → stored.data = chunk.data ∧
            stored.originalPublish = wholeSeconds chunk.originalPublish) ∧
          (¬(force = true ∨ before.lookup chunk.key = none) →
            before.lookup chunk.key = some stored)) := by
  intro before after
  have hbefore : (server.session w).chunks = before := rfl
  have hstore := hserves.store rfl hbefore chunk force hlen htime
  have hafter : after = before ∨ Stored before chunk after := by
    cases hr : (client.store peer chunk force w).result with
    | ok stored => exact (hstore.1 stored hr).1
    | error e => exact hstore.2 e hr
  constructor
  · intro key hne
    rcases hafter with h | ⟨lastPublished, h⟩
    · rw [h]
    · rw [h, AList.lookup_insert_ne hne]
  · intro hret
    rcases (hstore.1 true hret).2 rfl with ⟨hforce, hthere, (h : after = before)⟩ |
      ⟨hgoes, lastPublished, (h : after = _)⟩
    · obtain ⟨stored, hstored⟩ := Option.isSome_iff_exists.1 hthere
      refine ⟨stored, h.symm ▸ hstored, fun hgoes => ?_, fun _ => hstored⟩
      rcases hgoes with htrue | hnone
      · exact nomatch hforce.symm.trans htrue
      · exact nomatch hstored.symm.trans hnone
    · refine ⟨⟨false, chunk.key, chunk.data, lastPublished, wholeSeconds chunk.originalPublish⟩, ?_,
        fun _ => ⟨rfl, rfl⟩, fun hnot => absurd hgoes hnot⟩
      rw [h, AList.lookup_insert]

/-! ## Two sessions -/

/-- The second of two sessions. -/
def pairServer : Environment (Session × Session) where
  session w := w.2
  withSession s w := (w.1, s)
  now w := (0, w)
  rpc _ _ _ w := (none, w)
  turns := 2
  session_withSession _ _ := rfl
  session_now _ := rfl
  selfPeer_rpc _ _ _ _ := rfl

/-- The first of two sessions, whose requests the second one handles. -/
def pairClient : Net (Session × Session) where
  session w := w.1
  withSession s w := (s, w.2)
  now w := (0, w)
  rpc m _ request w :=
    ((pairServer.handle m request w).result.toOption, (pairServer.handle m request w).state)
  turns := 2

/-- The second session serves the first one. -/
theorem pairClient_serves (endpoint : Bytes) : pairClient.Serves pairServer endpoint where
  withSession _ _ _ := rfl
  now _ := rfl
  pingClient endpoint request w := by
    have hupdate : pairServer.UpdateStable (fun _ => True) fun w' =>
        (pairServer.session w').chunks = w.2.chunks := updateStable_server fun _ _ _ => rfl
    have hping : Silent (fun _ => ([] : List Unit)) (fun w' => (pairServer.session w').chunks =
        w.2.chunks) (pairServer.handlePing request) :=
      (silent_rpcHandlerPrelims passesUpdates_nothing hupdate fun _ _ => trivial).bind fun _ =>
        silent_pure _
    exact Yields.keeps hping w rfl
  pingServer _ _ _ := rfl
  rpc m request w := by
    refine .inr ⟨rfl, fun response hresponse => ?_⟩
    have hoption : (pairServer.handle m request w).result.toOption = some response := hresponse
    cases hr : (pairServer.handle m request w).result with
    | ok answer =>
      rw [hr] at hoption
      rw [Option.some.inj hoption]
    | error e =>
      rw [hr] at hoption
      exact nomatch hoption

/-- A chunk of the time 1.5 s is stored at a session that does not have it with the time 1 s. -/
theorem store_post_pair :
    ∃ stored, (pairServer.session (pairClient.store ⟨1, [1]⟩ ⟨true, 5, [7], 0, 1500000000⟩ false
        (⟨Router.new 0 ⟨4, [0]⟩ ⟨1, [1]⟩, ∅, 0⟩, ⟨Router.new 0 ⟨1, [1]⟩ ⟨4, [0]⟩, ∅, 0⟩)
        ).state).chunks.lookup 5 = some stored ∧
      stored.data = [7] ∧ stored.originalPublish = 1000000000 := by
  obtain ⟨stored, hthere, hsent, -⟩ := (store_post pairClient pairServer ⟨1, [1]⟩
    (pairClient_serves _) ⟨true, 5, [7], 0, 1500000000⟩ false (by decide) (by decide)
    (⟨Router.new 0 ⟨4, [0]⟩ ⟨1, [1]⟩, ∅, 0⟩, ⟨Router.new 0 ⟨1, [1]⟩ ⟨4, [0]⟩, ∅, 0⟩)).2
    (by decide +kernel)
  obtain ⟨hdata, htime⟩ := hsent (.inr (AList.lookup_empty _))
  exact ⟨stored, hthere, hdata, htime.trans (by decide)⟩

end Net

end Distft
