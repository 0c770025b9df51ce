import Distft.Router.Closest
import Distft.Session.Model

/-!
# What the RPC callers do

The callers run between other operations of the session and of the network, so what is said of them
is said under a condition on the world that none of these ends (`Net.Stable`). What the updates of
peers keep, show, and stop at is said once (`steady_updatePeer`). The lookups need one fact about
`find_node`: what it adds to the list is what the successful responses of its run name besides the
session itself (`heard`, `findNode_yields`). The pings of `update_peer`, and the peers that it inserts
and evicts, do not count (`silent_updatePeer`).

No caller accesses an element of a list with `at`, which is the only source of `outOfRange`.
-/

namespace Distft

/-- The peers that an event names, when it is a successful `FindNode` response, other than those with
the key or the endpoint of the session itself. -/
def heardIn (selfPeer : Peer) : Event → List Peer
  | .rpc .findNode _ _ (some response) =>
    (response.closestPeers.filterMap rpcPeerToLocal).filter fun p =>
      !(p.key = selfPeer.key || p.endpoint = selfPeer.endpoint)
  | _ => []

/-- The peers that the successful `FindNode` responses of a run name, other than the session itself.
-/
def heard (selfPeer : Peer) (events : List Event) : List Peer := events.flatMap (heardIn selfPeer)

@[simp]
theorem heard_append (selfPeer : Peer) (events events' : List Event) :
    heard selfPeer (events ++ events') = heard selfPeer events ++ heard selfPeer events' :=
  List.flatMap_append

/-- No peer that is heard of is the session itself. -/
theorem heard_ne_self (selfPeer : Peer) (events : List Event) :
    ∀ p ∈ heard selfPeer events, p.key ≠ selfPeer.key := by
  intro p hp
  obtain ⟨e, -, hp⟩ := List.mem_flatMap.1 hp
  unfold heardIn at hp
  split at hp
  · simp only [List.mem_filter, Bool.not_eq_true', Bool.or_eq_false_iff,
      decide_eq_false_iff_not] at hp
    exact hp.2.1
  · simp at hp

namespace Net

/-! ## What was sent is read -/

section Sent

variable {W : Type}

/-- A string of a key's bits is read as the key. -/
theorem toKey_toBytes (key : Key) : (toKey key.toBytes : Op W Key) = pure key := by
  rw [toKey, Key.ofBytes_toBytes]

/-- A peer that was sent is read as it was. -/
theorem toLocal_localToRpcPeer (peer : Peer) :
    (toLocal (localToRpcPeer peer) : Op W Peer) = pure peer := by
  rw [toLocal, rpcPeerToLocal_localToRpcPeer]

/-- Data that a message can hold is copied as it is. -/
theorem copyData_length {data : Bytes} (hlen : data.length < 2^31) :
    (copyData data (Int32.ofNat data.length) : Op W Bytes) = pure data := by
  have hsize : (Int32.ofNat data.length).toInt = data.length := Int32.toInt_ofNat_of_lt hlen
  rw [copyData, hsize, if_pos (by omega), Int.toNat_natCast, List.take_left]

/-- A time cut to whole seconds, towards the epoch. -/
def wholeSeconds (time : ℤ) : ℤ := time.tdiv (10^9) * 10^9

/-- A time that the clock can show is read in whole seconds. -/
theorem ofSeconds_toSeconds {time : ℤ} (hlo : -2^63 ≤ time) (hhi : time < 2^63) :
    (ofSeconds (toSeconds time) : Op W Time) = pure (wholeSeconds time) := by
  have habs : (wholeSeconds time).natAbs ≤ time.natAbs := by
    rw [wholeSeconds, Int.natAbs_mul, Int.natAbs_tdiv]
    exact Nat.div_mul_le_self _ _
  unfold wholeSeconds at habs ⊢
  have hsec : (toSeconds time).toInt = time.tdiv (10^9) := by
    unfold toSeconds
    rw [Int64.toInt_ofInt_of_le] <;> omega
  rw [ofSeconds, hsec, if_pos (by omega)]

end Sent

/-! ## Runs of calls -/

section Calls

variable {W : Type} (net : Net W)

/-- The sender of a request. -/
def sender (w : W) : RpcPeer := localToRpcPeer (net.session w).router.selfPeer

/-- The world after an eviction. -/
def afterEvict (key : Key) (w : W) : W :=
  net.withSession { net.session w with router := (net.session w).router.evictPeer key } w

variable {net}

/-- Every request is sent as the session. -/
theorem prelims_run {α : Type} (f : RpcPeer → Op W α) (w : W) :
    (net.rpcCallerPrelims >>= f) w = f (net.sender w) w := by
  have hread : net.rpcCallerPrelims w = ⟨[], w, .ok (net.sender w)⟩ := rfl
  rw [Exec.bind_run hread]
  rfl

/-- A call, from what the RPC comes to. -/
theorem call_run {m : Method} {peer : Peer} {request : m.Request} {response : Option m.Response}
    {w w' : W} (h : net.rpc m peer.endpoint request w = (response, w')) :
    net.call m peer request w = ⟨[.rpc m peer request response], w', .ok response⟩ := by
  have hact : (Exec.act fun w => net.rpc m peer.endpoint request w : Op W _) w =
      ⟨[], w', .ok response⟩ := by
    simp only [Exec.act, h]
  unfold call
  rw [Exec.bind_run hact]
  rfl

/-- A peer is evicted after a call that failed. -/
theorem call_evict_run {m : Method} {peer : Peer} {request : m.Request} {w w' : W} {α : Type}
    {f : Option m.Response → Op W α} {a : α}
    (h : net.rpc m peer.endpoint request w = (none, w'))
    (hf : f none = (net.evictPeer peer.key >>= fun _ => pure a)) :
    (net.call m peer request >>= f) w =
      ⟨[.rpc m peer request none, .evictPeer peer.key], net.afterEvict peer.key w', .ok a⟩ := by
  rw [Exec.bind_run (call_run h), hf]
  rfl

end Calls

/-! ## Conditions on the world -/

variable {W : Type}

/-- A condition on the world that no operation on the session, no reading of the clock, and no RPC
ends, and under which the session's own peer is `selfPeer`. -/
structure Stable (net : Net W) (selfPeer : Peer) (I : W → Prop) : Prop where
  /-- The session's own peer. -/
  own : ∀ w, I w → (net.session w).router.selfPeer = selfPeer
  /-- Calls of the router keep the condition. -/
  step : ∀ w call, I w →
    I (net.withSession { net.session w with router := (net.session w).router.step call } w)
  /-- Changes of the chunks keep the condition. -/
  chunks : ∀ w chunks, I w → I (net.withSession { net.session w with chunks } w)
  /-- Counting dead peers keeps the condition. -/
  deadPeers : ∀ w n, I w → I (net.withSession { net.session w with deadPeers := n } w)
  /-- Reading the clock keeps the condition. -/
  now : ∀ w, I w → I (net.now w).2
  /-- RPCs keep the condition. -/
  rpc : ∀ m endpoint request w, I w → I (net.rpc m endpoint request w).2

/-- A condition on the world that `update_peer` of a peer with `K` does not end: no insertion of
such a peer, no eviction, no counting of dead peers, no reading of the clock, and no ping by such a
peer, as the session is one itself. -/
structure UpdateStable (net : Net W) (K : Peer → Prop) (I : W → Prop) : Prop where
  /-- The session's own peer. -/
  own : ∀ w, I w → K (net.session w).router.selfPeer
  /-- Insertions keep the condition. -/
  insert : ∀ w now peer, K peer → I w →
    I (net.withSession { net.session w with
      router := (net.session w).router.step (.insert now peer.key peer.endpoint) } w)
  /-- Evictions keep the condition. -/
  evict : ∀ w key, I w →
    I (net.withSession { net.session w with
      router := (net.session w).router.step (.evict key) } w)
  /-- Counting dead peers keeps the condition. -/
  deadPeers : ∀ w n, I w → I (net.withSession { net.session w with deadPeers := n } w)
  /-- Reading the clock keeps the condition. -/
  now : ∀ w, I w → I (net.now w).2
  /-- Pings keep the condition. -/
  ping : ∀ endpoint sender w, K sender → I w →
    I (net.rpc .ping endpoint ⟨localToRpcPeer sender⟩ w).2

/-- What nothing ends `update_peer` does not end, whatever the peer. -/
theorem Stable.update {net : Net W} {selfPeer : Peer} {I : W → Prop} (h : net.Stable selfPeer I) :
    net.UpdateStable (fun _ => True) I :=
  ⟨fun _ _ => trivial, fun w now peer _ => h.step w (.insert now peer.key peer.endpoint),
    fun w key => h.step w (.evict key), h.deadPeers, h.now, fun _ _ w _ => h.rpc .ping _ _ w⟩

/-- A caller's fault is not one of `at`. -/
abbrev CallerFault (e : Fault) : Prop := e ≠ .outOfRange

/-- A condition on events that those of `update_peer` have: its operations on mutexes, which are not
the one of the chunks, its calls that change the router, and its pings. -/
structure OfUpdates (P : Event → Prop) : Prop where
  /-- `lock()`. -/
  lock : ∀ mutex, mutex ≠ .chunks → P (.lock mutex)
  /-- `unlock()`. -/
  unlock : ∀ mutex, mutex ≠ .chunks → P (.unlock mutex)
  /-- `attempt_insert_peer`. -/
  attemptInsertPeer : ∀ key endpoint, P (.attemptInsertPeer key endpoint)
  /-- `evict_peer`. -/
  evictPeer : ∀ key, P (.evictPeer key)
  /-- `Ping`. -/
  ping : ∀ peer request response, P (.rpc .ping peer request response)

/-- A condition on faults that those of `update_peer` have: a peer that cannot be read, an eviction
candidate that was never set, and no end of its loop. -/
structure UpdateFaults (F : Fault → Prop) : Prop where
  /-- `rpc_peer_to_local`. -/
  invalidArgument : F .invalidArgument
  /-- `lru_peer`. -/
  badPointer : F .badPointer
  /-- The loop. -/
  diverges : F .diverges

section Steady

variable {net : Net W} {K : Peer → Prop} {I : W → Prop} {P : Event → Prop} {F : Fault → Prop}
  {α : Type}

theorem steady_get (f : Session → α) : Exec.Steady I P F (net.get f) := Exec.steady_read _

theorem steady_clock (h : net.UpdateStable K I) : Exec.Steady I P F net.clock :=
  Exec.steady_act h.now

/-- `attempt_insert_peer` changes the router by a call. -/
theorem steady_attemptInsertPeer (hP : OfUpdates P) (h : net.UpdateStable K I) {key : Key}
    {endpoint : Bytes} (hk : K ⟨key, endpoint⟩) :
    Exec.Steady I P F (net.attemptInsertPeer key endpoint) := by
  refine (Exec.steady_emit (hP.attemptInsertPeer _ _)).bind fun _ => (steady_clock h).bind fun now => ?_
  exact Exec.steady_act fun w hw => h.insert w now ⟨key, endpoint⟩ hk hw

/-- `evict_peer` changes the router by a call. -/
theorem steady_evictPeer (hP : OfUpdates P) (h : net.UpdateStable K I) (key : Key) :
    Exec.Steady I P F (net.evictPeer key) :=
  (Exec.steady_emit (hP.evictPeer _)).bind fun _ => Exec.steady_act fun w hw => h.evict w key hw

/-- A peer of a message is used, if it can be read. -/
theorem steady_toLocal_bind (hF : UpdateFaults F) {f : Peer → Op W α} {peer : RpcPeer}
    (hf : ∀ p, rpcPeerToLocal peer = some p → Exec.Steady I P F (f p)) :
    Exec.Steady I P F (toLocal peer >>= f) := by
  unfold toLocal
  cases hpeer : rpcPeerToLocal peer with
  | none => exact (Exec.steady_fault hF.invalidArgument : Exec.Steady I P F (Exec.fault _ : Op W α))
  | some p => exact hf p hpeer

theorem steady_toLocal (hF : UpdateFaults F) (peer : RpcPeer) :
    Exec.Steady I P F (toLocal peer : Op W Peer) := by
  unfold toLocal
  split
  · exact Exec.steady_pure _
  · exact Exec.steady_fault hF.invalidArgument

/-- A call shows its event. -/
theorem steady_call {m : Method} {peer : Peer} {request : m.Request}
    (h : ∀ w, I w → I (net.rpc m peer.endpoint request w).2)
    (hP : ∀ response, P (.rpc m peer request response)) :
    Exec.Steady I P F (net.call m peer request) :=
  (Exec.steady_act h).bind fun response => (Exec.steady_emit (hP response)).bind fun _ =>
    Exec.steady_pure _

/-- A session pings as itself. -/
theorem steady_ping (hP : OfUpdates P) (hF : UpdateFaults F) (h : net.UpdateStable K I)
    (peer : Peer) : Exec.Steady I P F (net.ping peer) := by
  refine Exec.steady_read_bind fun w hw => ?_
  refine (steady_call (fun w' => h.ping _ _ w' (h.own w hw)) (hP.ping _ _)).bind fun response => ?_
  cases response with
  | none => exact (steady_evictPeer hP h _).bind fun _ => Exec.steady_pure _
  | some response => exact (steady_toLocal hF _).bind fun _ => Exec.steady_pure _

theorem steady_updateLoop (hP : OfUpdates P) (hF : UpdateFaults F) (h : net.UpdateStable K I)
    {key : Key} {endpoint : Bytes} (hk : K ⟨key, endpoint⟩) (turns : ℕ) (lruPeer : Option Peer) :
    Exec.Steady I P F (net.updateLoop key endpoint turns lruPeer) := by
  have hlock : ∀ mutex, mutex ≠ .chunks → Exec.Steady I P F (lock mutex : Op W Unit) :=
    fun mutex hne => Exec.steady_emit (hP.lock mutex hne)
  have hunlock : ∀ mutex, mutex ≠ .chunks → Exec.Steady I P F (unlock mutex : Op W Unit) :=
    fun mutex hne => Exec.steady_emit (hP.unlock mutex hne)
  induction turns generalizing lruPeer with
  | zero => exact Exec.steady_fault hF.diverges
  | succ turns ih =>
    unfold updateLoop
    refine (hlock _ (by decide)).bind fun _ => (steady_attemptInsertPeer hP h hk).bind
      fun found => (hunlock _ (by decide)).bind fun _ => ?_
    obtain ⟨inserted, lru⟩ := found
    cases inserted with
    | true => exact Exec.steady_pure _
    | false =>
      cases lru.or lruPeer with
      | none => exact Exec.steady_fault hF.badPointer
      | some lruPeer =>
        refine (steady_ping hP hF h _).bind fun other => ?_
        split_ifs
        · exact Exec.steady_pure _
        · exact (hlock _ (by decide)).bind fun _ => (steady_evictPeer hP h _).bind fun _ =>
            (hunlock _ (by decide)).bind fun _ => (hlock _ (by decide)).bind fun _ =>
            (Exec.steady_act fun w hw => h.deadPeers w _ hw).bind fun _ =>
            (hunlock _ (by decide)).bind fun _ => ih _

theorem steady_updatePeer (hP : OfUpdates P) (hF : UpdateFaults F) (h : net.UpdateStable K I)
    {key : Key} {endpoint : Bytes} (hk : K ⟨key, endpoint⟩) :
    Exec.Steady I P F (net.updatePeer key endpoint) :=
  steady_updateLoop hP hF h hk net.turns none

theorem steady_rpcCallerEpilogue (hP : OfUpdates P) (hF : UpdateFaults F)
    (h : net.UpdateStable K I) {receiver : RpcPeer}
    (hk : ∀ p, rpcPeerToLocal receiver = some p → K p) :
    Exec.Steady I P F (net.rpcCallerEpilogue receiver) :=
  steady_toLocal_bind hF fun p hp => steady_updatePeer hP hF h (hk p hp)

theorem steady_rpcHandlerPrelims (hP : OfUpdates P) (hF : UpdateFaults F)
    (h : net.UpdateStable K I) {sender : RpcPeer}
    (hk : ∀ p, rpcPeerToLocal sender = some p → K p) :
    Exec.Steady I P F (net.rpcHandlerPrelims sender) :=
  steady_toLocal_bind hF fun p hp => (steady_updatePeer hP hF h (hk p hp)).bind fun _ =>
    steady_get _

/-- The peers of a response are learned by updates. -/
theorem steady_learnPeers (hP : OfUpdates P) (hF : UpdateFaults F)
    (h : net.UpdateStable (fun _ => True) I) (rpcPeers : List RpcPeer) :
    Exec.Steady I P F (net.learnPeers rpcPeers) := by
  induction rpcPeers with
  | nil => exact Exec.steady_pure _
  | cons rpcPeer rest ih =>
    unfold learnPeers
    refine (steady_toLocal hF rpcPeer).bind fun peer => ?_
    refine (steady_get _).bind fun selfKey => (steady_get _).bind fun selfEndpoint => ?_
    split_ifs
    · exact ih
    · exact (steady_updatePeer hP hF h trivial).bind fun _ => ih.bind fun _ => Exec.steady_pure _

end Steady

/-- A reading of events that passes over what `update_peer` shows: its operations on mutexes, its
calls that change the router, and its pings. -/
structure PassesUpdates {γ : Type} (f : Event → List γ) : Prop where
  /-- `lock()`. -/
  lock : ∀ mutex, f (.lock mutex) = []
  /-- `unlock()`. -/
  unlock : ∀ mutex, f (.unlock mutex) = []
  /-- `attempt_insert_peer`. -/
  attemptInsertPeer : ∀ key endpoint, f (.attemptInsertPeer key endpoint) = []
  /-- `evict_peer`. -/
  evictPeer : ∀ key, f (.evictPeer key) = []
  /-- `Ping`. -/
  ping : ∀ peer request response, f (.rpc .ping peer request response) = []

/-- Nothing is read of any event. -/
theorem passesUpdates_nothing : PassesUpdates fun _ : Event => ([] : List Unit) :=
  ⟨fun _ => rfl, fun _ => rfl, fun _ _ => rfl, fun _ => rfl, fun _ _ _ => rfl⟩

/-- The computation keeps the condition, and nothing is read of its run. -/
def Silent {γ : Type} (f : Event → List γ) (I : W → Prop) {α : Type} (m : Op W α) : Prop :=
  Exec.Yields I m (fun events _ => events.flatMap f = []) CallerFault

/-- The computation keeps the condition, and its run has no successful response of `FindNode`. -/
def Quiet (selfPeer : Peer) (I : W → Prop) {α : Type} (m : Op W α) : Prop :=
  Exec.Yields I m (fun events _ => heard selfPeer events = []) CallerFault

section Silent

variable {net : Net W} {K : Peer → Prop} {I : W → Prop} {α β γ : Type} {f : Event → List γ}

/-- The faults of `update_peer` are those of callers. -/
theorem updateFaults_callerFault : UpdateFaults CallerFault := ⟨by decide, by decide, by decide⟩

/-- What passes over the events of `update_peer` reads nothing of each of them. -/
theorem PassesUpdates.ofUpdates (hf : PassesUpdates f) : OfUpdates fun e => f e = [] :=
  ⟨fun mutex _ => hf.lock mutex, fun mutex _ => hf.unlock mutex, hf.attemptInsertPeer, hf.evictPeer,
    hf.ping⟩

/-- A computation is silent if nothing is read of its events. -/
theorem silent_of_steady {m : Op W α} (h : Exec.Steady I (fun e => f e = []) CallerFault m) :
    Silent f I m :=
  h.yields.mono fun _ _ hevents => List.flatMap_eq_nil_iff.2 hevents

theorem silent_pure (a : α) : Silent f I (pure a : Op W α) := Exec.yields_pure rfl

theorem Silent.bind {m : Op W α} {g : α → Op W β} (hm : Silent f I m)
    (hg : ∀ a, Silent f I (g a)) : Silent f I (m >>= g) :=
  Exec.Yields.bind hm fun events a h =>
    (hg a).mono fun events' b h' => by rw [List.flatMap_append, h, h', List.append_nil]

theorem silent_get (g : Session → α) : Silent f I (net.get g) := silent_of_steady (steady_get _)

theorem silent_attemptInsertPeer (hf : PassesUpdates f) (h : net.UpdateStable K I) {key : Key}
    {endpoint : Bytes} (hk : K ⟨key, endpoint⟩) :
    Silent f I (net.attemptInsertPeer key endpoint) :=
  silent_of_steady (steady_attemptInsertPeer hf.ofUpdates h hk)

theorem silent_evictPeer (hf : PassesUpdates f) (h : net.UpdateStable K I) (key : Key) :
    Silent f I (net.evictPeer key) :=
  silent_of_steady (steady_evictPeer hf.ofUpdates h key)

/-- A call is silent where nothing is read of it. -/
theorem silent_call {m : Method} {peer : Peer} {request : m.Request}
    (h : ∀ w, I w → I (net.rpc m peer.endpoint request w).2)
    (hf : ∀ response, f (.rpc m peer request response) = []) :
    Silent f I (net.call m peer request) :=
  silent_of_steady (steady_call h hf)

theorem silent_updatePeer (hf : PassesUpdates f) (h : net.UpdateStable K I) {key : Key}
    {endpoint : Bytes} (hk : K ⟨key, endpoint⟩) : Silent f I (net.updatePeer key endpoint) :=
  silent_of_steady (steady_updatePeer hf.ofUpdates updateFaults_callerFault h hk)

/-- A peer of a message is used, if it can be read. -/
theorem yields_toLocal_bind {g : Peer → Op W α} {peer : RpcPeer} {Q : List Event → α → Prop}
    (hg : ∀ p, rpcPeerToLocal peer = some p → Exec.Yields I (g p) Q CallerFault) :
    Exec.Yields I (toLocal peer >>= g) Q CallerFault := by
  unfold toLocal
  cases hpeer : rpcPeerToLocal peer with
  | none =>
    exact Exec.Yields.bind (Q := fun _ _ => False) (Exec.yields_fault (by decide)) fun _ _ =>
      False.elim
  | some p =>
    refine Exec.Yields.bind (Q := fun es q => es = [] ∧ q = p) (Exec.yields_pure ⟨rfl, rfl⟩) ?_
    rintro _ _ ⟨rfl, rfl⟩
    exact hg _ hpeer

theorem silent_rpcCallerEpilogue (hf : PassesUpdates f) (h : net.UpdateStable K I)
    {receiver : RpcPeer} (hk : ∀ p, rpcPeerToLocal receiver = some p → K p) :
    Silent f I (net.rpcCallerEpilogue receiver) :=
  silent_of_steady (steady_rpcCallerEpilogue hf.ofUpdates updateFaults_callerFault h hk)

theorem silent_rpcHandlerPrelims (hf : PassesUpdates f) (h : net.UpdateStable K I)
    {sender : RpcPeer} (hk : ∀ p, rpcPeerToLocal sender = some p → K p) :
    Silent f I (net.rpcHandlerPrelims sender) :=
  silent_of_steady (steady_rpcHandlerPrelims hf.ofUpdates updateFaults_callerFault h hk)

/-- A peer that was sent is the one that is read. -/
theorem of_rpcPeerToLocal {peer p : Peer} (hk : K peer)
    (hp : rpcPeerToLocal (localToRpcPeer peer) = some p) : K p := by
  rw [rpcPeerToLocal_localToRpcPeer] at hp
  exact Option.some.inj hp ▸ hk

/-- The ping of a session is handled. -/
theorem silent_handlePing (hf : PassesUpdates f) (h : net.UpdateStable K I) {sender : Peer}
    (hk : K sender) : Silent f I (net.handlePing ⟨localToRpcPeer sender⟩) :=
  (silent_rpcHandlerPrelims hf h fun _ => of_rpcPeerToLocal hk).bind fun _ => silent_pure _

/-- The peers of a response are learned, where those that do not have the session's own endpoint are
fit to be. -/
theorem silent_learnPeers (hf : PassesUpdates f) (h : net.UpdateStable K I) {selfPeer : Peer}
    (hown : ∀ w, I w → (net.session w).router.selfPeer = selfPeer) (rpcPeers : List RpcPeer)
    (hpeers : ∀ rpcPeer ∈ rpcPeers, ∀ p, rpcPeerToLocal rpcPeer = some p →
      p.endpoint = selfPeer.endpoint ∨ K p) :
    Silent f I (net.learnPeers rpcPeers) := by
  induction rpcPeers with
  | nil => exact silent_pure []
  | cons rpcPeer rest ih =>
    have ih := ih fun p hp => hpeers p (List.mem_cons_of_mem _ hp)
    unfold learnPeers
    refine yields_toLocal_bind fun p hp => Silent.bind (silent_get _) fun selfKey => ?_
    refine Exec.Yields.bind (Q := fun es endpoint => es = [] ∧ endpoint = selfPeer.endpoint)
      (Exec.yields_read fun w hw => ⟨rfl, congrArg Peer.endpoint (hown w hw)⟩) ?_
    rintro _ _ ⟨rfl, rfl⟩
    show Silent f I _
    split_ifs with hself
    · exact ih
    · have hk : K p := (hpeers rpcPeer List.mem_cons_self p hp).resolve_left
        fun hendpoint => hself (.inr hendpoint)
      exact (silent_updatePeer hf h hk).bind fun _ => ih.bind fun _ => silent_pure _

end Silent

variable {net : Net W} {selfPeer : Peer} {I : W → Prop} {α : Type}

/-- What is heard of passes over updates. -/
theorem passesUpdates_heardIn (selfPeer : Peer) : PassesUpdates (heardIn selfPeer) :=
  ⟨fun _ => rfl, fun _ => rfl, fun _ _ => rfl, fun _ => rfl, fun _ _ _ => rfl⟩

/-- A call, with its event and the RPC that its response comes from. -/
theorem yields_call {m : Method} {peer : Peer} (request : m.Request) {F : Fault → Prop}
    (h : ∀ w, I w → I (net.rpc m peer.endpoint request w).2) :
    Exec.Yields I (net.call m peer request) (fun events response =>
      events = [.rpc m peer request response] ∧ ∃ w, (net.rpc m peer.endpoint request w).1 = response)
      F := by
  refine ⟨fun w hw => ?_, fun w response _ hresult => ?_, fun w e _ he => ?_⟩
  · rw [call_run (w := w) rfl]
    exact h w hw
  · rw [call_run (w := w) rfl] at hresult ⊢
    obtain rfl := Except.ok.inj hresult
    exact ⟨rfl, w, rfl⟩
  · rw [call_run (w := w) rfl] at he
    exact nomatch he

/-- What is read of the own peer. -/
theorem yields_own (h : net.Stable selfPeer I) (f : Peer → α) {F : Fault → Prop} :
    Exec.Yields I (net.get fun s => f s.router.selfPeer)
      (fun events a => events = [] ∧ a = f selfPeer) F :=
  Exec.yields_read fun w hw => ⟨rfl, congrArg f (h.own w hw)⟩

/-- The peers of a response that are added are those other than the session, where the updates of
these show nothing. -/
theorem learnPeers_yields {γ : Type} {f : Event → List γ} {F : Fault → Prop}
    (h : net.Stable selfPeer I)
    (hupdate : ∀ key endpoint,
      Exec.Yields I (net.updatePeer key endpoint) (fun events _ => events.flatMap f = []) F)
    (rpcPeers : List RpcPeer)
    (hlocal : ∀ p ∈ rpcPeers, rpcPeerToLocal p = none → F .invalidArgument) :
    Exec.Yields I (net.learnPeers rpcPeers) (fun events found => events.flatMap f = [] ∧
      found = (rpcPeers.filterMap rpcPeerToLocal).filter fun p =>
        !(p.key = selfPeer.key || p.endpoint = selfPeer.endpoint)) F := by
  induction rpcPeers with
  | nil => exact Exec.yields_pure ⟨rfl, rfl⟩
  | cons rpcPeer rest ih =>
    have ih := ih fun p hp => hlocal p (List.mem_cons_of_mem _ hp)
    unfold learnPeers toLocal
    cases hpeer : rpcPeerToLocal rpcPeer with
    | none =>
      exact Exec.Yields.bind (Exec.yields_fault (hlocal _ List.mem_cons_self hpeer)) fun _ _ h => h
    | some peer =>
      refine Exec.Yields.bind (Q := fun es p => es = [] ∧ p = peer) (Exec.yields_pure ⟨rfl, rfl⟩) ?_
      rintro _ _ ⟨rfl, rfl⟩
      refine Exec.Yields.bind (yields_own h Peer.key) ?_
      rintro _ _ ⟨rfl, rfl⟩
      refine Exec.Yields.bind (yields_own h Peer.endpoint) ?_
      rintro _ _ ⟨rfl, rfl⟩
      split_ifs with hself
      · refine ih.mono fun events found hq => ⟨hq.1, ?_⟩
        rw [hq.2, List.filterMap_cons_some hpeer,
          List.filter_cons_of_neg (by simpa [or_iff_not_imp_left] using hself)]
      · refine (hupdate _ _).bind fun events _ hsilent => ?_
        refine ih.bind fun events' found hq => Exec.yields_pure ⟨?_, ?_⟩
        · simpa [hsilent] using hq.1
        · rw [hq.2, List.filterMap_cons_some hpeer, List.filter_cons_of_pos (by simpa using hself)]

/-- What `learn_peers` adds, whatever the fault it ends with. -/
theorem quiet_learnPeers (h : net.Stable selfPeer I) (rpcPeers : List RpcPeer) :
    Exec.Yields I (net.learnPeers rpcPeers) (fun events found => heard selfPeer events = [] ∧
      found = (rpcPeers.filterMap rpcPeerToLocal).filter fun p =>
        !(p.key = selfPeer.key || p.endpoint = selfPeer.endpoint)) CallerFault :=
  learnPeers_yields h
    (fun _ _ => silent_updatePeer (passesUpdates_heardIn selfPeer) h.update trivial) rpcPeers
    fun _ _ _ => by decide

/-- What `find_node` adds to the list is what its run hears of. -/
theorem findNode_yields (h : net.Stable selfPeer I) (peer : Peer) (searchKey : Key) :
    Exec.Yields I (net.findNode peer searchKey)
      (fun events found => heard selfPeer events = found.getD []) CallerFault := by
  have hcall : Exec.Yields I (net.call .findNode peer ⟨localToRpcPeer selfPeer, searchKey.toBytes⟩)
      (fun events response => heard selfPeer events = heardIn selfPeer
        (.rpc .findNode peer ⟨localToRpcPeer selfPeer, searchKey.toBytes⟩ response)) CallerFault := by
    refine Exec.Yields.bind (Q := fun es _ => es = [])
      (Exec.yields_act (h.rpc _ _ _) fun _ _ => rfl) ?_
    rintro _ response rfl
    refine Exec.Yields.bind (Exec.yields_emit rfl) fun events _ (he : events = _) => ?_
    exact Exec.yields_pure (by simp [heard, he])
  have hpasses := passesUpdates_heardIn selfPeer
  unfold findNode
  refine Exec.Yields.bind (yields_own h localToRpcPeer) ?_
  rintro _ _ ⟨rfl, rfl⟩
  refine hcall.bind fun events response hresponse => ?_
  cases response with
  | none =>
    refine Exec.Yields.bind (silent_evictPeer hpasses h.update _) fun events' _ hquiet => ?_
    refine Exec.yields_pure ?_
    have hquiet : heard selfPeer events' = [] := hquiet
    simpa [heardIn, hquiet] using hresponse
  | some response =>
    refine Exec.Yields.bind (silent_rpcCallerEpilogue hpasses h.update fun _ _ => trivial)
      fun events' _ hquiet => ?_
    have hquiet : heard selfPeer events' = [] := hquiet
    refine (quiet_learnPeers h _).bind fun events'' found hfound => Exec.yields_pure ?_
    simpa [hquiet, hfound.1, hfound.2, heardIn] using hresponse

/-- `find_value` faults as the other callers do. -/
theorem quiet_findValue (h : net.Stable selfPeer I) (peer : Peer) (searchKey : Key) :
    Quiet selfPeer I (net.findValue peer searchKey) := by
  have hpasses := passesUpdates_heardIn selfPeer
  unfold findValue copyData
  refine (silent_get _).bind fun _ => (silent_call (h.rpc _ _ _) fun _ => rfl).bind fun response => ?_
  cases response with
  | none => exact (silent_evictPeer hpasses h.update _).bind fun _ => silent_pure _
  | some response =>
    refine (silent_rpcCallerEpilogue hpasses h.update fun _ _ => trivial).bind fun _ => ?_
    split_ifs
    · exact (silent_pure _).bind fun _ => silent_pure _
    · exact Silent.bind (Exec.yields_fault (by decide)) fun _ => silent_pure _
    · exact Silent.bind ((quiet_learnPeers h _).mono fun _ _ hq => hq.1) fun _ => silent_pure _

end Net

end Distft
