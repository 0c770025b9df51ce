import Distft.Router.Map
import Distft.Session.Publish

/-!
# Calls that fail

The callers issue RPCs at five places (`Net.Fails` has a case for each, and no RPC of a caller fails
elsewhere, by `fails_of_mem_events`; the pings of `update_peer` are calls of `ping`). At four of
them a status that is not OK evicts the peer and nothing else. At the fifth, the second phase of
`store`, it evicts nobody, and the peer is in the router as a rule, since the first phase has just
put it there (`evictsOnly_iff`).
-/

namespace Distft

open Exec

/-- A call of one of the callers. -/
inductive Caller where
  /-- `find_node`. -/
  | findNode (peer : Peer) (searchKey : Key)
  /-- `find_value`. -/
  | findValue (peer : Peer) (searchKey : Key)
  /-- `store`. -/
  | store (peer : Peer) (chunk : Chunk) (force : Bool)
  /-- `ping`. -/
  | ping (peer : Peer)

/-- What a caller does to the buffers that it is given. -/
structure Outputs where
  /-- The peers that are added to `buffer`. -/
  found : List Peer
  /-- What `found_value_buffer` is set to, if it is. -/
  foundValue : Option Bool
  /-- What `data_buffer` is set to, if it is. -/
  data : Option Bytes
  /-- What `receiver_peer_buffer` is set to, if it is. -/
  receiver : Option Peer
  deriving DecidableEq

/-- Nothing. -/
def Outputs.untouched : Outputs := ⟨[], none, none, none⟩

namespace Caller

/-- The peer that is called. -/
def peer : Caller → Peer
  | .findNode peer _ => peer
  | .findValue peer _ => peer
  | .store peer _ _ => peer
  | .ping peer => peer

/-- The methods of the RPCs that the caller issues itself. -/
def methods : Caller → List Method
  | .findNode _ _ => [.findNode]
  | .findValue _ _ => [.findValue]
  | .store _ _ _ => [.storeInit, .store]
  | .ping _ => [.ping]

variable {W : Type}

/-- The call: what it returns, and what it does to the buffers. -/
def run (net : Net W) : Caller → Op W (Bool × Outputs)
  | .findNode peer searchKey => do
    match ← net.findNode peer searchKey with
    | none => return (false, .untouched)
    | some found => return (true, ⟨found, none, none, none⟩)
  | .findValue peer searchKey => do
    match ← net.findValue peer searchKey with
    | none => return (false, .untouched)
    | some (.inl data) => return (true, ⟨[], some true, some data, none⟩)
    | some (.inr found) => return (true, ⟨found, some false, none, none⟩)
  | .store peer chunk force => do
    let stored ← net.store peer chunk force
    return (stored, .untouched)
  | .ping peer => do
    match ← net.ping peer with
    | none => return (false, .untouched)
    | some receiver => return (true, ⟨[], none, none, some receiver⟩)

end Caller

namespace Net

variable {W : Type} (net : Net W)

/-- An RPC that a caller issues from `w` comes back with a status that is not OK, in the last of the
worlds. -/
inductive Fails : Caller → W → Method → W → Prop
  | findNode {peer : Peer} {searchKey : Key} {w w' : W}
      (h : net.rpc .findNode peer.endpoint ⟨net.sender w, searchKey.toBytes⟩ w = (none, w')) :
      Fails (.findNode peer searchKey) w .findNode w'
  | findValue {peer : Peer} {searchKey : Key} {w w' : W}
      (h : net.rpc .findValue peer.endpoint ⟨net.sender w, searchKey.toBytes⟩ w = (none, w')) :
      Fails (.findValue peer searchKey) w .findValue w'
  | storeInit {peer : Peer} {chunk : Chunk} {force : Bool} {w w' : W}
      (h : net.rpc .storeInit peer.endpoint ⟨net.sender w, chunk.key.toBytes⟩ w = (none, w')) :
      Fails (.store peer chunk force) w .storeInit w'
  | store {peer : Peer} {chunk : Chunk} {force : Bool} {w w₁ w₂ w' : W} {events : List Event}
      {init : StoreInitResponse}
      (hinit : net.rpc .storeInit peer.endpoint ⟨net.sender w, chunk.key.toBytes⟩ w = (some init, w₁))
      (hgo : (!init.continueStore && !force) = false)
      (hupdate : net.rpcCallerEpilogue init.receiver w₁ = ⟨events, w₂, .ok ()⟩)
      (h : net.rpc .store peer.endpoint ⟨net.sender w₂, chunk.key.toBytes, chunk.data,
        Int32.ofNat chunk.data.length, toSeconds chunk.originalPublish⟩ w₂ = (none, w')) :
      Fails (.store peer chunk force) w .store w'
  | ping {peer : Peer} {w w' : W}
      (h : net.rpc .ping peer.endpoint ⟨net.sender w⟩ w = (none, w')) :
      Fails (.ping peer) w .ping w'

/-- The caller returns false and has not touched its buffers, the peer that it called is not in the
router, and else the router has the peers, and the session the chunks, of the world in which the RPC
came back. -/
structure EvictsOnly (caller : Caller) (w w' : W) : Prop where
  /-- What the caller returns. -/
  returned : (caller.run net w).result = .ok (false, .untouched)
  /-- The peer. -/
  evicted : caller.peer.key ∉ (net.session (caller.run net w).state).router.allPeers.map Peer.key
  /-- The other peers. -/
  others : ∀ p : Peer, p.key ≠ caller.peer.key →
    (p ∈ (net.session (caller.run net w).state).router.allPeers ↔ p ∈ (net.session w').router.allPeers)
  /-- The chunks. -/
  chunks : (net.session (caller.run net w).state).chunks = (net.session w').chunks

variable {net}

/-! ## The runs -/

/-- What a caller does after the function that it stands for. -/
theorem bind_pure_run {α β : Type} {x : Op W α} {f : α → Op W β} {w w' : W} {events : List Event}
    {a : α} {b : β} (hx : x w = ⟨events, w', .ok a⟩) (hf : f a = pure b) :
    (x >>= f) w = ⟨events, w', .ok b⟩ := by
  rw [bind_run hx, hf, pure_run, List.append_nil]

/-- A call that fails at an RPC other than `Store` evicts the peer. -/
theorem Fails.run_evicts {caller : Caller} {m : Method} {w w' : W} (h : net.Fails caller w m w')
    (hm : m ≠ .store) :
    ∃ events, caller.run net w =
      ⟨events, net.afterEvict caller.peer.key w', .ok (false, .untouched)⟩ := by
  cases h with
  | @findNode peer searchKey w w' h =>
    have hrun : net.findNode peer searchKey w =
        ⟨[.rpc .findNode peer ⟨net.sender w, searchKey.toBytes⟩ none, .evictPeer peer.key],
          net.afterEvict peer.key w', .ok none⟩ := by
      rw [Net.findNode, prelims_run, call_evict_run h rfl]
    exact ⟨_, bind_pure_run hrun rfl⟩
  | @findValue peer searchKey w w' h =>
    have hrun : net.findValue peer searchKey w =
        ⟨[.rpc .findValue peer ⟨net.sender w, searchKey.toBytes⟩ none, .evictPeer peer.key],
          net.afterEvict peer.key w', .ok none⟩ := by
      rw [Net.findValue, prelims_run, call_evict_run h rfl]
    exact ⟨_, bind_pure_run hrun rfl⟩
  | @storeInit peer chunk force w w' h =>
    have hrun : net.store peer chunk force w =
        ⟨[.rpc .storeInit peer ⟨net.sender w, chunk.key.toBytes⟩ none, .evictPeer peer.key],
          net.afterEvict peer.key w', .ok false⟩ := by
      rw [Net.store, prelims_run, call_evict_run h rfl]
    exact ⟨_, bind_pure_run hrun rfl⟩
  | store hinit hgo hupdate h => exact absurd rfl hm
  | @ping peer w w' h =>
    have hrun : net.ping peer w =
        ⟨[.rpc .ping peer ⟨net.sender w⟩ none, .evictPeer peer.key],
          net.afterEvict peer.key w', .ok none⟩ := by
      rw [Net.ping, prelims_run, call_evict_run h rfl]
    exact ⟨_, bind_pure_run hrun rfl⟩

/-- Where a call fails at the RPC `Store`, nothing is done after it. -/
theorem Fails.run_store {caller : Caller} {w w' : W} (h : net.Fails caller w .store w') :
    ∃ events, caller.run net w = ⟨events, w', .ok (false, .untouched)⟩ := by
  cases h with
  | @store peer chunk force w w₁ w₂ w' events init hinit hgo hupdate h =>
    have hstore : ∃ events, net.store peer chunk force w = ⟨events, w', .ok false⟩ := by
      rw [Net.store, prelims_run, bind_run (call_run hinit)]
      simp only [hgo, Bool.false_eq_true, if_false]
      rw [bind_run hupdate, prelims_run, bind_run (call_run h)]
      exact ⟨_, rfl⟩
    obtain ⟨events, hstore⟩ := hstore
    exact ⟨events, bind_pure_run hstore rfl⟩

/-! ## Nothing else fails -/

/-- The event is not an RPC other than a ping. -/
def OnlyPings (e : Event) : Prop :=
  ∀ m peer request response, e = .rpc m peer request response → m = .ping

/-- Updates issue only pings. -/
theorem ofUpdates_onlyPings : OfUpdates OnlyPings :=
  ⟨fun _ _ => nofun, fun _ _ => nofun, fun _ _ => nofun, fun _ => nofun,
    fun _ _ _ _ _ _ _ heq => (Event.rpc.inj heq).1.symm⟩

/-- A computation that issues only pings. -/
abbrev Pings {α : Type} (x : Op W α) : Prop := Steady (fun _ => True) OnlyPings (fun _ => True) x

theorem pings_epilogue (receiver : RpcPeer) : Pings (net.rpcCallerEpilogue receiver) :=
  steady_rpcCallerEpilogue ofUpdates_onlyPings updateFaults_true net.frame_true.update fun _ _ => trivial

theorem pings_learnPeers (rpcPeers : List RpcPeer) : Pings (net.learnPeers rpcPeers) :=
  steady_learnPeers ofUpdates_onlyPings updateFaults_true net.frame_true.update rpcPeers

/-- What comes after a caller's function issues nothing. -/
theorem mem_events_bind_pure {α β : Type} {x : Op W α} {f : α → Op W β} {w : W} {e : Event}
    (hf : ∀ a, ∃ b, f a = pure b) : e ∈ ((x >>= f) w).events ↔ e ∈ (x w).events := by
  rw [events_bind_of_silent fun a s => ?_]
  obtain ⟨b, hb⟩ := hf a
  rw [hb]
  rfl

/-- What a call and what comes after it show. -/
theorem mem_events_call {m : Method} {peer : Peer} {request : m.Request} {α : Type}
    {f : Option m.Response → Op W α} {w : W} {e : Event}
    (he : e ∈ ((net.call m peer request >>= f) w).events) :
    ∃ response w', net.rpc m peer.endpoint request w = (response, w') ∧
      (e = .rpc m peer request response ∨ e ∈ (f response w').events) := by
  rcases hrpc : net.rpc m peer.endpoint request w with ⟨response, w'⟩
  rw [bind_run (call_run hrpc)] at he
  exact ⟨response, w', rfl, (List.mem_append.1 he).imp_left List.mem_singleton.1⟩

/-- A failure that does not show after a response is one of the call. -/
theorem call_fails {m : Method} {called peer : Peer} {request request' : m.Request} {α : Type}
    {f : Option m.Response → Op W α} {w : W}
    (hsome : ∀ response w', Event.rpc m peer request none ∉ (f (some response) w').events)
    (he : .rpc m peer request none ∈ ((net.call m called request' >>= f) w).events) :
    ∃ w', net.rpc m called.endpoint request' w = (none, w') := by
  obtain ⟨response, w', hrpc, hevent⟩ := mem_events_call he
  cases response with
  | none => exact ⟨w', hrpc⟩
  | some response =>
    rcases hevent with hevent | hevent
    · cases hevent
    · exact absurd hevent (hsome response w')

/-- An RPC other than a ping is not among pings. -/
theorem Pings.false_of_mem {α : Type} {x : Op W α} (h : Pings x) {m : Method} (hm : m ≠ .ping)
    {peer : Peer} {request : m.Request} {response : Option m.Response} {w : W}
    (he : .rpc m peer request response ∈ (x w).events) : False :=
  hm (h.shows w trivial _ he m peer request response rfl)

/-- What `find_node` and `find_value` do with a response. -/
theorem pings_findNode (response : FindNodeResponse) :
    Pings (net.rpcCallerEpilogue response.receiver >>= fun _ =>
      net.learnPeers response.closestPeers >>= fun found => pure (some found)) :=
  (pings_epilogue _).bind fun _ => (pings_learnPeers _).bind fun _ => steady_pure _

theorem pings_findValue (response : FindValueResponse) :
    Pings (net.rpcCallerEpilogue response.receiver >>= fun _ =>
      if response.foundValue then copyData response.data response.size >>= fun data =>
        pure (some (Sum.inl data))
      else net.learnPeers response.closestPeers >>= fun found => pure (some (Sum.inr found))) := by
  refine (pings_epilogue _).bind fun _ => ?_
  split_ifs
  · exact (keeps_copyData _ _).bind fun _ => steady_pure _
  · exact (pings_learnPeers _).bind fun _ => steady_pure _

/-- After the first phase of `store` only the second fails. -/
theorem fails_store {called peer : Peer} {chunk : Chunk} {force : Bool} {w w₁ : W}
    {init : StoreInitResponse} {m : Method} {request : m.Request} {f : Option StoreResponse → Op W Bool}
    (hinit : net.rpc .storeInit called.endpoint ⟨net.sender w, chunk.key.toBytes⟩ w = (some init, w₁))
    (hping : m ≠ .ping) (hf : ∀ response, Pings (f response))
    (he : .rpc m peer request none ∈ ((if !init.continueStore && !force then pure true
      else net.rpcCallerEpilogue init.receiver >>= fun _ => net.rpcCallerPrelims >>= fun sender =>
        net.call .store called ⟨sender, chunk.key.toBytes, chunk.data, Int32.ofNat chunk.data.length,
          toSeconds chunk.originalPublish⟩ >>= f : Op W Bool) w₁).events) :
    ∃ w', net.Fails (.store called chunk force) w m w' := by
  by_cases hgo : (!init.continueStore && !force) = true
  · rw [if_pos hgo] at he
    exact nomatch he
  · rw [if_neg hgo] at he
    rcases hupdate : net.rpcCallerEpilogue init.receiver w₁ with ⟨events, w₂, result⟩
    -- The update in between issues only pings, so the failure is the one of `Store`.
    have hevents : Event.rpc m peer request none ∉ events := fun hmem =>
      (pings_epilogue init.receiver).false_of_mem hping (w := w₁) (by rw [hupdate]; exact hmem)
    cases result with
    | error e =>
      rw [bind_run_error hupdate] at he
      exact absurd he hevents
    | ok u =>
      rw [bind_run hupdate, prelims_run] at he
      obtain ⟨response, w', hrpc, hevent⟩ := mem_events_call ((List.mem_append.1 he).resolve_left hevents)
      rcases hevent with hevent | hevent
      · cases hevent
        exact ⟨w', .store hinit (Bool.eq_false_iff.2 hgo) hupdate hrpc⟩
      · exact ((hf response).false_of_mem hping hevent).elim

/-- An RPC of a caller that comes back with a status that is not OK is one of the five. -/
theorem fails_of_mem_events {caller : Caller} {m : Method} {peer : Peer} {request : m.Request} {w : W}
    (hm : m ∈ caller.methods) (he : .rpc m peer request none ∈ (caller.run net w).events) :
    ∃ w', net.Fails caller w m w' := by
  cases caller with
  | findNode called searchKey =>
    obtain rfl : m = .findNode := List.mem_singleton.1 hm
    have he : Event.rpc .findNode peer request none ∈ (net.findNode called searchKey w).events :=
      (mem_events_bind_pure (by rintro (_ | found) <;> exact ⟨_, rfl⟩)).1 he
    rw [findNode, prelims_run] at he
    obtain ⟨w', hrpc⟩ :=
      call_fails (fun response _ => (pings_findNode response).false_of_mem (by decide)) he
    exact ⟨w', .findNode hrpc⟩
  | findValue called searchKey =>
    obtain rfl : m = .findValue := List.mem_singleton.1 hm
    have he : Event.rpc .findValue peer request none ∈ (net.findValue called searchKey w).events :=
      (mem_events_bind_pure (by rintro (_ | _ | found) <;> exact ⟨_, rfl⟩)).1 he
    rw [findValue, prelims_run] at he
    obtain ⟨w', hrpc⟩ :=
      call_fails (fun response _ => (pings_findValue response).false_of_mem (by decide)) he
    exact ⟨w', .findValue hrpc⟩
  | store called chunk force =>
    have he : Event.rpc m peer request none ∈ (net.store called chunk force w).events :=
      (mem_events_bind_pure fun _ => ⟨_, rfl⟩).1 he
    have hping : m ≠ .ping := by
      rintro rfl
      simp [Caller.methods] at hm
    rw [store, prelims_run] at he
    obtain ⟨response, w₁, hinit, hevent⟩ := mem_events_call he
    cases response with
    | none =>
      -- The first phase failed, and after it nothing is issued.
      rcases hevent with hevent | hevent
      · cases hevent
        exact ⟨w₁, .storeInit hinit⟩
      · have hevict : Pings (net.evictPeer called.key >>= fun _ => pure false) :=
          (steady_evictPeer ofUpdates_onlyPings net.frame_true.update _).bind fun _ => steady_pure _
        exact (hevict.false_of_mem hping hevent).elim
    | some init =>
      rcases hevent with hevent | hevent
      · cases hevent
      · refine fails_store hinit hping (fun response => ?_) hevent
        cases response with
        | none => exact steady_pure _
        | some response => exact (pings_epilogue _).bind fun _ => steady_pure _
  | ping called =>
    obtain rfl : m = .ping := List.mem_singleton.1 hm
    have he : Event.rpc .ping peer request none ∈ (net.ping called w).events :=
      (mem_events_bind_pure (by rintro (_ | found) <;> exact ⟨_, rfl⟩)).1 he
    rw [ping, prelims_run] at he
    have hsilent : ∀ response : PingResponse, Steady (fun _ => True) (fun _ => False) (fun _ => True)
        (toLocal response.receiver >>= fun receiver => pure (some receiver) : Op W (Option Peer)) :=
      fun _ => steady_toLocal_bind updateFaults_true fun _ _ => steady_pure _
    obtain ⟨w', hrpc⟩ := call_fails (fun response w' => (hsilent response).shows w' trivial _) he
    exact ⟨w', .ping hrpc⟩

end Net

/-! ## What a failure does -/

namespace Environment

variable {W : Type} {env : Environment W}

/-- The router is still reachable when an RPC of a caller has failed. -/
theorem reachable_of_fails (hrpc : env.KeepsReachable) {caller : Caller} {m : Method} {w w' : W}
    (h : env.toNet.Fails caller w m w') (hw : env.RouterReachable w) : env.RouterReachable w' := by
  have hkeeps : ∀ {m endpoint request w w'} {response : Option (Method.Response m)},
      env.rpc m endpoint request w = (response, w') → env.RouterReachable w → env.RouterReachable w' := by
    intro m endpoint request w w' response heq hw
    have hafter := hrpc m endpoint request w hw
    rwa [heq] at hafter
  cases h with
  | findNode h => exact hkeeps h hw
  | findValue h => exact hkeeps h hw
  | storeInit h => exact hkeeps h hw
  | @store _ _ _ _ w₁ w₂ _ _ init hinit _ hupdate h =>
    have hupdated := (Net.keeps_rpcCallerEpilogue (P := fun _ => True) (frame_reachable hrpc)
      (fun _ _ => trivial) init.receiver).keeps w₁ (hkeeps hinit hw)
    rw [hupdate] at hupdated
    exact hkeeps h hupdated
  | ping h => exact hkeeps h hw

/-- Where a caller evicts its peer and returns false, it has done nothing else since the RPC came
back. -/
theorem evictsOnly_of_run {caller : Caller} {w w' : W} {events : List Event}
    (hr : (env.session w').router.Invariant)
    (hrun : caller.run env.toNet w =
      ⟨events, env.afterEvict caller.peer.key w', .ok (false, .untouched)⟩) :
    env.toNet.EvictsOnly caller w w' := by
  have hsession : env.session (caller.run env.toNet w).state = { env.session w' with
      router := (env.session w').router.evictPeer caller.peer.key } := by
    rw [hrun]
    exact env.session_withSession _ _
  constructor
  · rw [hrun]
  · rw [hsession]
    intro hmem
    obtain ⟨p, hp, hkey⟩ := List.mem_map.1 hmem
    exact (Router.mem_allPeers_evict hr _ p hp).2 hkey
  · intro p hp
    rw [hsession]
    exact Router.mem_allPeers_evict_iff hr hp
  · rw [hsession]

/-- A failed call evicts its peer and nothing else exactly if it did not fail at the RPC `Store`, or
the peer was not in the router any more when it did. -/
theorem evictsOnly_iff (hrpc : env.KeepsReachable) {w : W} (hw : env.RouterReachable w)
    {caller : Caller} {m : Method} {w' : W} (h : env.toNet.Fails caller w m w') :
    env.toNet.EvictsOnly caller w w' ↔
      (m = .store → caller.peer.key ∉ (env.session w').router.allPeers.map Peer.key) := by
  have hinv := (reachable_of_fails hrpc h hw).invariant
  by_cases hm : m = .store
  · subst hm
    -- Nothing is done after the failure, so the peer is gone exactly if it was.
    obtain ⟨events, hrun⟩ := h.run_store
    have hstate : (caller.run env.toNet w).state = w' := by rw [hrun]
    constructor
    · intro hevicts _
      rw [← hstate]
      exact hevicts.evicted
    · intro habsent
      constructor
      · rw [hrun]
      · rw [hstate]
        exact habsent rfl
      · intro p _
        rw [hstate]
      · rw [hstate]
  · obtain ⟨events, hrun⟩ := h.run_evicts hm
    exact iff_of_true (evictsOnly_of_run hinv hrun) fun heq => absurd heq hm

/-- A ping that fails evicts its peer, and leaves the nineteen others. -/
theorem evictsOnly_ping :
    (deaf 0).toNet.EvictsOnly (.ping ⟨7, [1]⟩) ⟨twentyPeers ⟨0, [0]⟩, ∅, 0⟩
      ⟨twentyPeers ⟨0, [0]⟩, ∅, 0⟩ := by
  have hreachable : (deaf 0).RouterReachable ⟨twentyPeers ⟨0, [0]⟩, ∅, 0⟩ :=
    ⟨0, ⟨0, [0]⟩, ⟨20, [1]⟩, _, rfl⟩
  exact (evictsOnly_iff (fun _ _ _ _ hw => hw) hreachable (.ping rfl)).2 (by decide)

/-- An environment whose world is the session, in which `receiver` asks for a chunk and then hangs
up. -/
def hangingUp (receiver : Peer) : Environment Session :=
  { deaf 0 with
    rpc := fun
      | .storeInit, _, _, s => (some ⟨localToRpcPeer receiver, true⟩, s)
      | _, _, _, s => (none, s)
    selfPeer_rpc := fun m _ _ _ => by cases m <;> rfl }

/-- A peer that hangs up in the second phase of `store` stays in the router. -/
theorem not_evictsOnly :
    ¬∀ (env : Environment Session), env.KeepsReachable → ∀ s, env.RouterReachable s →
      ∀ caller m s', env.toNet.Fails caller s m s' → env.toNet.EvictsOnly caller s s' := by
  intro hall
  let s : Session := ⟨Router.new 0 ⟨0, [0]⟩ ⟨1, [1]⟩, ∅, 0⟩
  let env := hangingUp ⟨1, [1]⟩
  let updated := env.rpcCallerEpilogue (localToRpcPeer ⟨1, [1]⟩) s
  have hkeeps : env.KeepsReachable := fun m _ _ _ hw => by cases m <;> exact hw
  have hresult : updated.result = .ok () := by decide +kernel
  have hfails : env.toNet.Fails (.store ⟨1, [1]⟩ ⟨true, 0, [7], 0, 0⟩ false) s .store updated.state :=
    .store rfl rfl (by rw [← hresult]) rfl
  have hevicts := hall env hkeeps s ⟨0, ⟨0, [0]⟩, ⟨1, [1]⟩, [], rfl⟩ _ _ _ hfails
  have habsent := (evictsOnly_iff hkeeps ⟨0, ⟨0, [0]⟩, ⟨1, [1]⟩, [], rfl⟩ hfails).1 hevicts rfl
  revert habsent
  decide +kernel

end Environment

end Distft
