import Distft.Router.Map
import Distft.Session.Startup
import Distft.Session.Static

/-!
# Placeholder keys

A session that has not finished its handshake holds the endpoint that it was started with under a
random key (`HoldsSessions`), and it serves. Callers keep every peer that a response names, so where
the session names its placeholder, another router may hold it from then on
(`not_placeholdersGone`). There is no other way for a placeholder to leave its router: as long as
the answers name only sessions, and peers that the caller passes over since they have its own
endpoint, the routers hold only sessions once all handshakes are finished
(`placeholdersGone_of_allSteps`).
-/

namespace Distft

open Exec

variable {n : ℕ} {starters : Starters n}

/-- The key is a session's own. -/
def Starters.IsSession (starters : Starters n) (key : Key) : Prop := ∃ y, key = (starters.peers y).key

instance (key : Key) : Decidable (starters.IsSession key) :=
  inferInstanceAs (Decidable (∃ y, key = (starters.peers y).key))

/-- Once all handshakes are finished and no message is in flight, the routers hold only sessions. -/
def PlaceholdersGone (starters : Starters n) (s : Network n) : Prop :=
  (∀ x, s.startup x = .finished) → s.messages = [] →
    ∀ x, ∀ p ∈ (s.cluster.nodes x).router.allPeers, starters.IsSession p.key

/-- The peers that a session names to a caller. -/
def namedPeers (c : Cluster n) (y : Fin n) : Ask → List Peer
  | .ping => []
  | .findNode searchKey =>
    ((c.nodes y).router.closestPeers (c.clock c.reads).toInt searchKey (UInt32.ofNat kbucketMax)).1
  | .findValue searchKey =>
    if ((c.nodes y).chunks.lookup searchKey).isSome then []
    else
      ((c.nodes y).router.closestPeers (c.clock c.reads).toInt searchKey
        (UInt32.ofNat kbucketMax)).1

/-- If the step is an answer, the peers that it names are sessions, or have the caller's endpoint. -/
def NamesSessions (starters : Starters n) (s : Network n) : NetworkStep n → Prop
  | .answer k =>
    match s.messages[k]? with
    | some (.handled caller _ ask y _) => ∀ p ∈ namedPeers s.cluster y ask,
        p.endpoint = (starters.peers caller).endpoint ∨ starters.IsSession p.key
    | _ => True
  | _ => True

instance (s : Network n) (step : NetworkStep n) : Decidable (NamesSessions starters s step) := by
  unfold NamesSessions
  split
  · split <;> infer_instance
  all_goals infer_instance

/-! ## Routers -/

/-- The router of a session: it holds sessions, and maybe the placeholder. -/
structure HoldsSessions (starters : Starters n) (x : Fin n) (tempKey : Option Key) (r : Router) :
    Prop where
  /-- It is the session's. -/
  own : r.selfPeer = starters.peers x
  /-- It has the invariant of routers. -/
  invariant : r.Invariant
  /-- It holds sessions, and maybe the placeholder. -/
  keys : ∀ p ∈ r.allPeers, starters.IsSession p.key ∨ tempKey = some p.key

variable {x : Fin n} {tempKey : Option Key} {r : Router}

theorem HoldsSessions.insert (h : HoldsSessions starters x tempKey r) (now : Time) {key : Key}
    (endpoint : Bytes) (hkey : starters.IsSession key) :
    HoldsSessions starters x tempKey (r.attemptInsertPeer now key endpoint).2.2 := by
  obtain ⟨hinv, hself⟩ := Router.attemptInsertPeer_invariant h.invariant now key endpoint
  refine ⟨hself.trans h.own, hinv, fun p hp => ?_⟩
  rcases Router.mem_allPeers_insert h.invariant now key endpoint p hp with rfl | hp
  · exact Or.inl hkey
  · exact h.keys p hp

theorem HoldsSessions.evict (h : HoldsSessions starters x tempKey r) (key : Key) :
    HoldsSessions starters x tempKey (r.evictPeer key) := by
  obtain ⟨hinv, hself⟩ := Router.evictPeer_invariant h.invariant key
  refine ⟨hself.trans h.own, hinv, fun p hp => ?_⟩
  exact h.keys p (Router.mem_allPeers_evict h.invariant key p hp).1

/-- With its placeholder evicted, a router holds only sessions. -/
theorem HoldsSessions.evict_tempKey {key : Key} (h : HoldsSessions starters x (some key) r) :
    HoldsSessions starters x none (r.evictPeer key) := by
  obtain ⟨hown, hinv, hkeys⟩ := h.evict key
  refine ⟨hown, hinv, fun p hp => ?_⟩
  have hne := (Router.mem_allPeers_evict h.invariant key p hp).2
  exact Or.inl ((hkeys p hp).resolve_right fun heq => hne (Option.some.inj heq).symm)

theorem HoldsSessions.closest (h : HoldsSessions starters x tempKey r) (now : Time)
    (searchKey : Key) (count : UInt32) :
    HoldsSessions starters x tempKey (r.closestPeers now searchKey count).2 := by
  obtain ⟨hinv, hself⟩ := Router.step_invariant h.invariant (.closest now searchKey count)
  refine ⟨hself.trans h.own, hinv, fun p hp => ?_⟩
  exact h.keys p ((Router.mem_allPeers_closest h.invariant now searchKey count p).1 hp)

/-- A new router holds the placeholder, if anything. -/
theorem holdsSessions_new (starters : Starters n) (x : Fin n) (now : Time) (key : Key)
    (endpoint : Bytes) :
    HoldsSessions starters x (some key) (Router.new now (starters.peers x) ⟨key, endpoint⟩) := by
  have hbare := Router.bare_invariant now (starters.peers x)
  obtain ⟨hinv, hself⟩ := Router.attemptInsertPeer_invariant hbare now key endpoint
  refine ⟨hself, hinv, fun p hp => ?_⟩
  rcases Router.mem_allPeers_insert hbare now key endpoint p hp with rfl | hp
  · exact Or.inr rfl
  · exact absurd hp (by simp [Router.bare, Router.allPeers, BinaryTree.new, BinaryTree.treeAllPeers])

/-! ## Clusters -/

/-- The routers of the sessions that have begun hold sessions, and maybe their placeholders. -/
def Clean (starters : Starters n) (startup : Fin n → Startup) (c : Cluster n) : Prop :=
  ∀ x, startup x ≠ .absent → HoldsSessions starters x (startup x).tempKey (c.nodes x).router

variable {startup : Fin n → Startup} {c : Cluster n} {T : Transport} {depth : ℕ} {y : Fin n}

theorem Clean.update (h : Clean starters startup c) {s : Session}
    (hs : startup y ≠ .absent → HoldsSessions starters y (startup y).tempKey s.router) :
    Clean starters startup { c with nodes := Function.update c.nodes y s } := by
  intro x hx
  by_cases hxy : x = y
  · subst hxy
    simpa using hs hx
  · simpa [Function.update_of_ne hxy] using h x hx

/-- A session goes on with its startup. -/
theorem Clean.advance (h : Clean starters startup c) {stage : Startup}
    (hstage : HoldsSessions starters y stage.tempKey (c.nodes y).router) :
    Clean starters (Function.update startup y stage) c := by
  intro x hx
  by_cases hxy : x = y
  · subst hxy
    simpa using hstage
  · rw [Function.update_of_ne hxy] at hx ⊢
    exact h x hx

/-- The peer is a session. -/
abbrev IsSessionPeer (starters : Starters n) (p : Peer) : Prop := starters.IsSession p.key

/-- Where pings keep the routers clean, so does the update of a session. -/
theorem Clean.updateStable (hy : startup y ≠ .absent)
    {deliver : (m : Method) → Bytes → m.Request → Cluster n → Option m.Response × Cluster n}
    (hping : ∀ endpoint sender c, starters.IsSession sender.key → Clean starters startup c →
      Clean starters startup (deliver .ping endpoint ⟨localToRpcPeer sender⟩ c).2) :
    (Cluster.netOf deliver y).UpdateStable (IsSessionPeer starters) (Clean starters startup) where
  own _ h := ⟨y, congrArg Peer.key (h y hy).own⟩
  insert _ now peer hpeer h := h.update fun hy => (h y hy).insert now peer.endpoint hpeer
  evict _ key h := h.update fun hy => (h y hy).evict key
  deadPeers _ _ h := h.update fun hy => h y hy
  now _ h := h
  ping endpoint sender c := hping endpoint sender c

/-- However deep the pings of an update go, they keep the routers clean. -/
theorem updateStable_deliverTo {serves : Fin n → Bool}
    (hserves : ∀ y, serves y = true → startup y ≠ .absent) (T : Transport) (depth : ℕ) (y : Fin n)
    (hy : startup y ≠ .absent) :
    (Cluster.netOf (Cluster.deliverTo serves T depth) y).UpdateStable (IsSessionPeer starters)
      (Clean starters startup) := by
  -- On the depth of the pings: the handler at the other end updates its sender in turn.
  induction depth generalizing y with
  | zero => exact Clean.updateStable hy fun _ _ _ _ h => h
  | succ depth ih =>
    refine Clean.updateStable hy fun endpoint sender c hsender h => ?_
    refine Cluster.deliverTo_keeps h fun z hz => ?_
    have hping : Net.Silent (fun _ => ([] : List Unit)) (Clean starters startup)
        ((Cluster.netOf (Cluster.deliverTo serves T depth) z).handlePing ⟨localToRpcPeer sender⟩) :=
      Net.silent_handlePing Net.passesUpdates_nothing (ih z (hserves z hz)) hsender
    exact hping.keeps c h

/-- A session that serves has begun. -/
theorem Startup.ne_absent_of_serves {stage : Startup} (h : stage.serves = true) :
    stage ≠ .absent := by
  rintro rfl
  exact Bool.noConfusion h

/-- The updates of a session of the network. -/
theorem updateStable_node (starters : Starters n) (s : Network n) (T : Transport) (depth : ℕ) (y : Fin n)
    (hy : s.startup y ≠ .absent) :
    (s.node T depth y).UpdateStable (IsSessionPeer starters) (Clean starters s.startup) :=
  updateStable_deliverTo (fun _ => Startup.ne_absent_of_serves) T depth y hy

/-! ## Messages -/

/-- A response comes from a session, and names sessions, besides peers with the caller's endpoint. -/
structure HonestResponse (starters : Starters n) (caller : Fin n) (ask : Ask)
    (response : ask.method.Response) : Prop where
  /-- It comes from a session. -/
  receiver : ∀ p, rpcPeerToLocal (ask.receiver response) = some p → starters.IsSession p.key
  /-- It names sessions, besides peers with the caller's endpoint. -/
  closestPeers : ∀ rpcPeer ∈ ask.closestPeers response, ∀ p, rpcPeerToLocal rpcPeer = some p →
    p.endpoint = (starters.peers caller).endpoint ∨ starters.IsSession p.key

/-- A message between sessions that have begun. -/
def Honest (starters : Starters n) (startup : Fin n → Startup) : Message n → Prop
  | .request caller sender _ _ => startup caller ≠ .absent ∧ starters.IsSession sender.key
  | .handled caller _ _ handler receiver =>
    startup caller ≠ .absent ∧ startup handler ≠ .absent ∧
      ∀ p, rpcPeerToLocal receiver = some p → starters.IsSession p.key
  | .response caller _ ask response =>
    startup caller ≠ .absent ∧ ∀ r ∈ response, HonestResponse starters caller ask r

theorem Honest.mono {startup' : Fin n → Startup}
    (hstartup : ∀ y, startup y ≠ .absent → startup' y ≠ .absent) {message : Message n}
    (h : Honest starters startup message) : Honest starters startup' message := by
  cases message with
  | request => exact ⟨hstartup _ h.1, h.2⟩
  | handled => exact ⟨hstartup _ h.1, hstartup _ h.2.1, h.2.2⟩
  | response => exact ⟨hstartup _ h.1, h.2⟩

/-- A call that fails tells nothing. -/
theorem Honest.failed {message : Message n} (h : Honest starters startup message) :
    Honest starters startup message.failed := by
  cases message with
  | request => exact ⟨h.1, fun _ hr => (nomatch hr)⟩
  | handled => exact ⟨h.1, fun _ hr => (nomatch hr)⟩
  | response => exact ⟨h.1, fun _ hr => (nomatch hr)⟩

/-! ## The caller -/

section Caller

variable {W : Type} {net : Net W} {K : Peer → Prop} {I : W → Prop} {F : Fault → Prop}

/-- An answer that is there ends no condition. -/
theorem Net.UpdateStable.answered (h : net.UpdateStable K I) (m : Method)
    (response : Option m.Response) : (net.answered m response).UpdateStable K I := by
  refine ⟨h.own, h.insert, h.evict, h.deadPeers, h.now, fun endpoint sender w hsender hw => ?_⟩
  unfold Net.answered
  simp only
  split_ifs
  · exact hw
  · exact h.ping endpoint sender w hsender hw

/-- A call is answered with the answer that is there. -/
theorem Net.yields_call_answered (net : Net W) (m : Method) (response : Option m.Response)
    (peer : Peer) (request : m.Request) :
    Yields I ((net.answered m response).call m peer request) (fun _ r => r = response) F := by
  unfold Net.call Net.answered
  refine Yields.bind (Q := fun _ r => r = response) (yields_act ?_ ?_) ?_
  · intro w hw
    simpa using hw
  · intro w _
    simp
  · rintro _ _ rfl
    exact Yields.bind (Q := fun _ _ => True) (yields_emit trivial) fun _ _ _ => yields_pure rfl

/-- A caller goes on with the answer that is there. -/
theorem Net.yields_caller_answered {α : Type} {Q : α → Prop} (net : Net W) (m : Method)
    (response : Option m.Response) (peer : Peer) (request : RpcPeer → m.Request)
    {rest : Option m.Response → Op W α}
    (hrest : Yields I (rest response) (fun _ a => Q a) Net.CallerFault) :
    Yields I ((net.answered m response).rpcCallerPrelims >>= fun sender =>
        (net.answered m response).call m peer (request sender) >>= rest)
      (fun _ a => Q a) Net.CallerFault := by
  refine Yields.bind (Net.silent_get (f := fun _ => ([] : List Unit)) _) fun _ _ _ => ?_
  refine (Net.yields_call_answered net m response peer _).bind ?_
  rintro _ _ rfl
  exact hrest

end Caller

/-- A caller that goes on with an honest response, or without one, keeps the routers clean, and
hears of sessions only. -/
theorem yields_goOn {net : Net (Cluster n)}
    (h : net.UpdateStable (IsSessionPeer starters) (Clean starters startup))
    (hown : ∀ c, Clean starters startup c → (net.session c).router.selfPeer = starters.peers x)
    (peer : Peer) (ask : Ask) (response : Option ask.method.Response)
    (hresponse : ∀ r ∈ response, HonestResponse starters x ask r) :
    Yields (Clean starters startup) (net.goOn peer ask response)
      (fun _ other => ∀ p ∈ other, starters.IsSession p.key) Net.CallerFault := by
  have hnothing := Net.passesUpdates_nothing
  have hnone : ∀ p ∈ (none : Option Peer), starters.IsSession p.key := fun _ hp => nomatch hp
  cases ask with
  | ping =>
    have hanswered := h.answered .ping response
    unfold Net.goOn Net.ping
    refine Net.yields_caller_answered net .ping response peer _ ?_
    cases response with
    | none =>
      exact Yields.bind (Net.silent_evictPeer hnothing hanswered _) fun _ _ _ => yields_pure hnone
    | some r =>
      refine Net.yields_toLocal_bind fun p hp => yields_pure ?_
      rintro _ ⟨⟩
      exact (hresponse r rfl).receiver p hp
  | findNode searchKey =>
    have hanswered := h.answered .findNode response
    unfold Net.goOn Net.findNode
    refine Yields.bind (Q := fun _ _ => True) ?_ fun _ _ _ => yields_pure hnone
    refine Net.yields_caller_answered net .findNode response peer _ ?_
    cases response with
    | none =>
      exact Yields.bind (Net.silent_evictPeer hnothing hanswered _) fun _ _ _ => yields_pure trivial
    | some r =>
      have hr := hresponse r rfl
      refine Yields.bind (Net.silent_rpcCallerEpilogue hnothing hanswered hr.receiver) fun _ _ _ => ?_
      exact Yields.bind (Net.silent_learnPeers hnothing hanswered hown _ hr.closestPeers)
        fun _ _ _ => yields_pure trivial
  | findValue searchKey =>
    have hanswered := h.answered .findValue response
    unfold Net.goOn Net.findValue Net.copyData
    refine Yields.bind (Q := fun _ _ => True) ?_ fun _ _ _ => yields_pure hnone
    refine Net.yields_caller_answered net .findValue response peer _ ?_
    cases response with
    | none =>
      exact Yields.bind (Net.silent_evictPeer hnothing hanswered _) fun _ _ _ => yields_pure trivial
    | some r =>
      have hr := hresponse r rfl
      refine Yields.bind (Net.silent_rpcCallerEpilogue hnothing hanswered hr.receiver) fun _ _ _ => ?_
      split_ifs
      · exact Yields.bind (Q := fun _ _ => True) (yields_pure trivial) fun _ _ _ => yields_pure trivial
      · exact Yields.bind (Q := fun _ _ => True) (yields_fault (by decide)) fun _ _ _ =>
          yields_pure trivial
      · exact Yields.bind (Net.silent_learnPeers hnothing hanswered hown _ hr.closestPeers)
          fun _ _ _ => yields_pure trivial

/-! ## The handler -/

section Handler

variable {deliver : (m : Method) → Bytes → m.Request → Cluster n → Option m.Response × Cluster n}

/-- A session that takes a request calls itself a session. -/
theorem yields_rpcHandlerPrelims {net : Net (Cluster n)}
    (h : net.UpdateStable (IsSessionPeer starters) (Clean starters startup)) {sender : Peer}
    (hsender : starters.IsSession sender.key) :
    Yields (Clean starters startup) (net.rpcHandlerPrelims (localToRpcPeer sender))
      (fun _ receiver => ∀ p, rpcPeerToLocal receiver = some p → starters.IsSession p.key)
      Net.CallerFault := by
  refine Net.yields_toLocal_bind fun p hp => ?_
  have hp : IsSessionPeer starters p := Net.of_rpcPeerToLocal hsender hp
  refine Yields.bind (Net.silent_updatePeer Net.passesUpdates_nothing h hp) fun _ _ _ => ?_
  exact yields_read fun c hc _ => Net.of_rpcPeerToLocal (h.own c hc)

/-- What a session answers with is what its router finds; the search keeps the routers clean. -/
theorem succeeds_closestPeers_bind (h : Clean starters startup c) (searchKey : Key) {α : Type}
    {g : List Peer → Op (Cluster n) α} {Q : Cluster n → α → Prop}
    (hg : ∀ c', Clean starters startup c' → Succeeds (fun _ => True) (g ((c.nodes y).router.closestPeers
      (c.clock c.reads).toInt searchKey (UInt32.ofNat kbucketMax)).1) c' Q) :
    Succeeds (fun _ => True)
      ((Cluster.netOf deliver y).closestPeers searchKey (UInt32.ofNat kbucketMax) >>= g) c Q := by
  refine Succeeds.bind (Succeeds.bind (succeeds_emit ?_))
  refine Succeeds.bind (succeeds_act (Succeeds.bind (succeeds_act ?_)))
  refine Succeeds.bind (succeeds_emit (succeeds_pure (hg _ ?_)))
  have hrouter := fun hy =>
    (h y hy).closest (c.clock c.reads).toInt searchKey (UInt32.ofNat kbucketMax)
  exact fun x hx => h.update (s := { c.nodes y with router := _ }) hrouter x hx

/-- The peers of an answer are read as they were sent. -/
theorem honest_closestPeers {peers : List Peer}
    (hpeers : ∀ p ∈ peers, p.endpoint = (starters.peers x).endpoint ∨ starters.IsSession p.key) :
    ∀ rpcPeer ∈ peers.map localToRpcPeer, ∀ p, rpcPeerToLocal rpcPeer = some p →
      p.endpoint = (starters.peers x).endpoint ∨ starters.IsSession p.key := by
  intro rpcPeer hmem p hp
  obtain ⟨q, hq, rfl⟩ := List.mem_map.1 hmem
  rw [rpcPeerToLocal_localToRpcPeer] at hp
  exact Option.some.inj hp ▸ hpeers q hq

/-- A session that answers keeps the routers clean, and its answer is honest if it names sessions. -/
theorem succeeds_answer (h : Clean starters startup c) {receiver : RpcPeer}
    (hreceiver : ∀ p, rpcPeerToLocal receiver = some p → starters.IsSession p.key) (ask : Ask)
    (hnames : ∀ p ∈ namedPeers c y ask,
      p.endpoint = (starters.peers x).endpoint ∨ starters.IsSession p.key) :
    Succeeds (fun _ => True) ((Cluster.netOf deliver y).answer receiver ask) c fun c' response =>
      Clean starters startup c' ∧ HonestResponse starters x ask response := by
  cases ask with
  | ping => exact succeeds_pure ⟨h, hreceiver, List.forall_mem_nil _⟩
  | findNode searchKey =>
    refine Succeeds.bind (succeeds_toKey (succeeds_closestPeers_bind h searchKey fun c' h' => ?_))
    exact succeeds_pure ⟨h', hreceiver, honest_closestPeers hnames⟩
  | findValue searchKey =>
    simp only [namedPeers] at hnames
    refine Succeeds.bind (succeeds_toKey (Succeeds.bind (succeeds_emit ?_)))
    refine Succeeds.bind (succeeds_get ?_)
    cases hlookup : (c.nodes y).chunks.lookup searchKey with
    | some chunk =>
      exact Succeeds.bind (succeeds_emit (succeeds_pure ⟨h, hreceiver, List.forall_mem_nil _⟩))
    | none =>
      rw [hlookup, if_neg (by simp)] at hnames
      refine Succeeds.bind (succeeds_emit (succeeds_closestPeers_bind h searchKey fun c' h' => ?_))
      exact succeeds_pure ⟨h', hreceiver, honest_closestPeers hnames⟩

end Handler

/-! ## Steps and runs -/

/-- What holds of the network as long as answers name sessions. -/
structure Sound (starters : Starters n) (s : Network n) : Prop where
  /-- The routers hold sessions, and maybe their placeholders. -/
  clean : Clean starters s.startup s.cluster
  /-- The messages are honest. -/
  honest : ∀ message ∈ s.messages, Honest starters s.startup message
  /-- A peer that answered a ping of a startup is a session. -/
  heard : ∀ x tempKey otherPeer, s.startup x = .answered tempKey otherPeer →
    starters.IsSession otherPeer.key

variable {s : Network n}

/-- A session that has begun stays so. -/
theorem ne_absent_update {stage : Startup} (hstage : stage ≠ .absent) (y : Fin n)
    (hy : startup y ≠ .absent) : Function.update startup x stage y ≠ .absent := by
  by_cases hyx : y = x
  · subst hyx
    simpa using hstage
  · rwa [Function.update_of_ne hyx]

/-- A session whose startup has come to a stage. -/
theorem Sound.holdsSessions (h : Sound starters s) {stage : Startup} (hx : s.startup x = stage)
    (hstage : stage ≠ .absent) :
    HoldsSessions starters x stage.tempKey (s.cluster.nodes x).router := by
  subst hx
  exact h.clean x hstage

/-- A step of a startup keeps the network sound, where it leaves the own router with sessions and
maybe what is now the placeholder. -/
theorem Sound.advance (h : Sound starters s) (stage : Startup) (hstage : stage ≠ .absent)
    {c : Cluster n} (hc : Clean starters s.startup c)
    (hx : HoldsSessions starters x stage.tempKey (c.nodes x).router) {messages : List (Message n)}
    (hmessages : ∀ message ∈ messages, Honest starters s.startup message)
    (hheard : ∀ tempKey otherPeer, stage = .answered tempKey otherPeer →
      starters.IsSession otherPeer.key) :
    Sound starters ⟨c, Function.update s.startup x stage, messages⟩ := by
  refine ⟨hc.advance hx, fun message hmessage => ?_, fun y tempKey otherPeer hy => ?_⟩
  · exact (hmessages message hmessage).mono (ne_absent_update hstage)
  · simp only [Function.update_apply] at hy
    split_ifs at hy with hyx
    · exact hheard tempKey otherPeer hy
    · exact h.heard y tempKey otherPeer hy

/-- A message is replaced by an honest one. -/
theorem Sound.honest_set (h : Sound starters s) (k : ℕ) {message : Message n}
    (hmessage : Honest starters s.startup message) :
    ∀ message' ∈ s.messages.set k message, Honest starters s.startup message' := by
  intro message' hmem
  rcases List.mem_or_eq_of_mem_set hmem with hmem | rfl
  · exact h.honest message' hmem
  · exact hmessage

/-- A session that has begun sends a request as itself. -/
theorem Sound.honest_request (h : Sound starters s) (hx : s.startup x ≠ .absent) (peer : Peer)
    (ask : Ask) :
    ∀ message ∈ s.messages ++ [.request x (s.cluster.nodes x).router.selfPeer peer ask],
      Honest starters s.startup message := by
  intro message hmem
  rcases List.mem_append.1 hmem with hmem | hmem
  · exact h.honest message hmem
  · rw [List.mem_singleton.1 hmem]
    exact ⟨hx, x, congrArg Peer.key (h.clean x hx).own⟩

/-- A session begins. -/
theorem sound_create (h : Sound starters s) (T : Transport) (depth : ℕ) (x : Fin n) (tempKey : Key) :
    Sound starters (s.step T depth starters (.create x tempKey)) := by
  simp only [Network.step]
  split_ifs with hx
  · have hclean : Clean starters s.startup (Network.newRouter starters s.cluster x tempKey) := by
      -- The session did not count before.
      intro y hy
      have hyx : y ≠ x := fun heq => hy (heq ▸ hx)
      simpa [Network.newRouter, hyx] using h.clean y hy
    refine h.advance (.created tempKey) (by simp) hclean ?_ h.honest (by simp)
    simpa [Network.newRouter, Startup.tempKey] using holdsSessions_new starters x _ tempKey _
  · exact h

/-- A session takes a request. -/
theorem sound_take (h : Sound starters s) (T : Transport) (depth : ℕ) (k : ℕ) (y : Fin n) :
    Sound starters (s.step T depth starters (.take k y)) := by
  simp only [Network.step]
  split
  · next caller sender peer ask hmessage =>
    obtain ⟨hcaller, hsender⟩ := h.honest _ (List.mem_of_getElem? hmessage)
    split_ifs with hy
    · have hbegun := Startup.ne_absent_of_serves hy.1
      have hstable := updateStable_node starters s T depth y hbegun
      -- The sender is a session, as requests are honest.
      have hprelims := yields_rpcHandlerPrelims hstable hsender
      refine ⟨hprelims.keeps _ h.clean, h.honest_set k ?_, h.heard⟩
      split
      · next receiver hresult =>
        exact ⟨hcaller, hbegun, hprelims.returns _ receiver h.clean hresult⟩
      · exact ⟨hcaller, fun _ hr => nomatch hr⟩
    · exact h
  · exact h

/-- A session answers. -/
theorem sound_answer (h : Sound starters s) (T : Transport) (depth : ℕ) (k : ℕ)
    (hnames : NamesSessions starters s (.answer k)) :
    Sound starters (s.step T depth starters (.answer k)) := by
  simp only [Network.step]
  unfold NamesSessions at hnames
  split
  · next caller peer ask y receiver hmessage =>
    simp only [hmessage] at hnames
    obtain ⟨hcaller, hy, hreceiver⟩ := h.honest _ (List.mem_of_getElem? hmessage)
    -- This is where a placeholder could leave its router, and the condition on the step is used.
    obtain ⟨response, hresult, hclean, hhonest⟩ :=
      succeeds_answer h.clean hreceiver ask hnames fun _ _ => trivial
    refine ⟨hclean, h.honest_set k ⟨hcaller, ?_⟩, h.heard⟩
    unfold Network.node
    rw [hresult]
    rintro _ ⟨⟩
    exact hhonest
  · exact h

/-- A caller goes on. -/
theorem sound_goOn (h : Sound starters s) (T : Transport) (depth : ℕ) (k : ℕ) :
    Sound starters (s.step T depth starters (.goOn k)) := by
  simp only [Network.step]
  split
  · next caller peer ask response hmessage =>
    obtain ⟨hcaller, hresponse⟩ := h.honest _ (List.mem_of_getElem? hmessage)
    have hstable := updateStable_node starters s T depth caller hcaller
    have hgoOn := yields_goOn hstable (fun c hc => (hc caller hcaller).own) peer ask response hresponse
    have hclean := hgoOn.keeps _ h.clean
    have hmessages : ∀ message ∈ s.messages.eraseIdx k, Honest starters s.startup message :=
      fun message hmem => h.honest message (List.mem_of_mem_eraseIdx hmem)
    split_ifs with hask
    · subst hask
      -- Only the answer to a ping moves the startup on.
      rcases Startup.afterPing_cases (s.startup caller) _ with
        ⟨tempKey, otherPeer, hx, hresult, hafter⟩ | ⟨tempKey, hx, hafter⟩ | hafter
      · rw [hafter]
        have hrouter := hclean caller hcaller
        rw [hx] at hrouter
        refine h.advance (.answered tempKey otherPeer) (by simp) hclean hrouter hmessages ?_
        rintro _ _ ⟨⟩
        exact hgoOn.returns _ _ h.clean hresult otherPeer rfl
      · rw [hafter]
        have hrouter := hclean caller hcaller
        rw [hx] at hrouter
        exact h.advance (.serving tempKey) (by simp) hclean hrouter hmessages (by simp)
      · rw [hafter, Function.update_eq_self]
        exact ⟨hclean, hmessages, h.heard⟩
    · exact ⟨hclean, hmessages, h.heard⟩
  · exact h

/-- One step. -/
theorem step_sound (T : Transport) (depth : ℕ) (h : Sound starters s) (step : NetworkStep n)
    (hnames : NamesSessions starters s step) : Sound starters (s.step T depth starters step) := by
  have hnothing := Net.passesUpdates_nothing
  cases step with
  | create x tempKey => exact sound_create h T depth x tempKey
  | take k y => exact sound_take h T depth k y
  | answer k => exact sound_answer h T depth k hnames
  | goOn k => exact sound_goOn h T depth k
  | serve x =>
    simp only [Network.step]
    split
    · next tempKey hx =>
      have hrouter := h.holdsSessions hx (by simp)
      exact h.advance (.serving tempKey) (by simp) h.clean hrouter h.honest (by simp)
    · exact h
  | ping x =>
    simp only [Network.step]
    split
    · next tempKey hx =>
      have hbegun : s.startup x ≠ .absent := by simp [hx]
      have hrouter := h.holdsSessions hx (by simp)
      exact h.advance (.pinging tempKey) (by simp) h.clean hrouter (h.honest_request hbegun _ _)
        (by simp)
    · exact h
  | insert x =>
    simp only [Network.step]
    split
    · next tempKey otherPeer hx =>
      have hbegun : s.startup x ≠ .absent := by simp [hx]
      have hstable := updateStable_node starters s T depth x hbegun
      have hsession : IsSessionPeer starters otherPeer := h.heard x tempKey otherPeer hx
      have hclean := (Net.silent_attemptInsertPeer hnothing hstable hsession).keeps _ h.clean
      have hrouter := hclean x hbegun
      rw [hx] at hrouter
      exact h.advance (.inserted tempKey) (by simp) hclean hrouter h.honest (by simp)
    · exact h
  | evict x =>
    simp only [Network.step]
    split
    · next tempKey hx =>
      have hbegun : s.startup x ≠ .absent := by simp [hx]
      have hstable := updateStable_node starters s T depth x hbegun
      have hclean := (Net.silent_evictPeer hnothing hstable tempKey).keeps _ h.clean
      -- The placeholder goes with the last step of the startup.
      have hevicted : (((s.node T depth x).evictPeer tempKey s.cluster).state.nodes x).router =
          (s.cluster.nodes x).router.evictPeer tempKey := by
        show (Function.update s.cluster.nodes x _ x).router = _
        rw [Function.update_self]
        rfl
      have hrouter := (h.holdsSessions hx (by simp)).evict_tempKey
      rw [← hevicted] at hrouter
      exact h.advance .finished (by simp) hclean hrouter h.honest (by simp)
    · exact h
  | find x peer ask =>
    simp only [Network.step]
    split_ifs with hx
    · exact ⟨h.clean, h.honest_request (Startup.ne_absent_of_serves hx.1) _ _, h.heard⟩
    · exact h
  | fail k =>
    simp only [Network.step]
    split
    · next message hmessage =>
      exact ⟨h.clean, h.honest_set k (h.honest _ (List.mem_of_getElem? hmessage)).failed, h.heard⟩
    · exact h

/-- Where no session has begun, nothing holds a placeholder. -/
theorem initial_sound (starters : Starters n) (c : Cluster n) :
    Sound starters (Network.initial c) :=
  ⟨fun _ hx => absurd rfl hx, fun _ hmessage => (nomatch hmessage), fun _ _ _ hx => nomatch hx⟩

/-- In any run of startups and of calls of `find_node` and `find_value`, in any order, if no answer
names a peer that is no session, other than one with the caller's endpoint, then in every state in
which all handshakes are finished and no message is in flight, the routers hold only sessions. -/
theorem placeholdersGone_of_allSteps (T : Transport) (depth : ℕ) (starters : Starters n)
    (c : Cluster n) (steps : List (NetworkStep n))
    (hnames : Runs.AllSteps (Network.step T depth starters) (NamesSessions starters)
      (Network.initial c) steps) :
    Runs.AllStates (Network.step T depth starters) (PlaceholdersGone starters) (Network.initial c)
      steps := by
  have hsound := Runs.allStates_of_allSteps (I := Sound starters) (A := NamesSessions starters)
    (fun s step hstep h => step_sound T depth h step hstep) (initial_sound starters c) hnames
  -- A session that has finished has no placeholder any more.
  intro l hl hfinished _ x p hp
  have hrouter := (hsound l hl).holdsSessions (hfinished x) (by simp)
  exact (hrouter.keys p hp).resolve_right fun hplaceholder => nomatch hplaceholder

/-- Three founders, each of which is started with the next. -/
def founders : Starters 3 where
  peers x := ⟨BitVec.ofNat 160 x, [UInt8.ofNat x]⟩
  initEndpoints x := [UInt8.ofNat (x + 1 : Fin 3)]

/-- Before the founders begin. -/
def unfounded : Cluster 3 where
  nodes _ := ⟨⟨⟨0, []⟩, .null⟩, ∅, 0⟩
  clock i := Int64.ofNat i
  reads := 0

/-- The founders create their routers, and serve. -/
def foundersServe : List (NetworkStep 3) :=
  [.create 0 100, .create 1 101, .create 2 102, .serve 0, .serve 1, .serve 2]

/-- A founder pings the next, and replaces its placeholder. -/
def handshake (x : Fin 3) : List (NetworkStep 3) :=
  [.ping x, .take 0 (x + 1), .answer 0, .goOn 0, .insert x, .evict x]

/-- A founder looks itself up at the next. -/
def selfLookup (x : Fin 3) : List (NetworkStep 3) :=
  [.find x (founders.peers (x + 1)) (.findNode (founders.peers x).key), .take 0 (x + 1), .answer 0,
    .goOn 0]

/-- The first founder looks itself up when the second one has finished its handshake. -/
theorem placeholdersGone_of_allSteps_founders :
    let s := Runs.run (Network.step .lossless 1 founders) (Network.initial unfounded)
      (foundersServe ++ handshake 0 ++ handshake 1 ++ selfLookup 0 ++ handshake 2)
    ∀ x, ∀ p ∈ (s.cluster.nodes x).router.allPeers, founders.IsSession p.key := by
  have hgone := placeholdersGone_of_allSteps .lossless 1 founders unfounded
    (foundersServe ++ handshake 0 ++ handshake 1 ++ selfLookup 0 ++ handshake 2) (by decide +kernel)
    _ (List.prefix_refl _)
  exact hgone (by decide +kernel) (List.isEmpty_iff.1 (by decide +kernel))

/-- The first founder looks itself up before the second one has finished its handshake, and keeps the
placeholder of the second. -/
theorem not_placeholdersGone :
    ¬∀ (n : ℕ) (T : Transport) (depth : ℕ) (starters : Starters n) (c : Cluster n)
      (steps : List (NetworkStep n)),
      Runs.AllStates (Network.step T depth starters) (PlaceholdersGone starters)
        (Network.initial c) steps := by
  intro h
  have hgone := h 3 .lossless 1 founders unfounded
    (foundersServe ++ handshake 0 ++ selfLookup 0 ++ handshake 1 ++ handshake 2) _
    (List.prefix_refl _) (by decide +kernel) (List.isEmpty_iff.1 (by decide +kernel)) 0
    ⟨101, [2]⟩ (by decide +kernel)
  exact absurd hgone (by decide +kernel)

end Distft
