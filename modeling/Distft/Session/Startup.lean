import Distft.Session.Cluster

/-!
# The startup of sessions

`Session::startup` of several sessions, of which each is given the endpoint of one to begin with. As
it does not know the key there, its router starts with that endpoint under a random key; only when
the session that serves the endpoint has answered a ping does its own key come in and the random one
go out. Meanwhile the session serves, and other threads of it call `find_node` and `find_value`.

The steps of the sessions and their messages interleave in any order (`Network.step`). An RPC is four
steps: it is sent, a session that serves the endpoint takes it and updates the sender, that session
answers, and the caller goes on with the answer; or it fails, at any time. Each step runs the code of
the session. The pings of `update_peer` are answered within a step.
-/

namespace Distft

/-! ## Calls and their messages -/

/-- What an RPC asks for. -/
inductive Ask where
  /-- `Ping`. -/
  | ping
  /-- `FindNode`. -/
  | findNode (searchKey : Key)
  /-- `FindValue`. -/
  | findValue (searchKey : Key)
  deriving DecidableEq, Repr

namespace Ask

/-- The method of the service. -/
def method : Ask → Method
  | .ping => .ping
  | .findNode _ => .findNode
  | .findValue _ => .findValue

/-- The request of a sender. -/
def request (sender : Peer) : (ask : Ask) → ask.method.Request
  | .ping => (⟨localToRpcPeer sender⟩ : PingRequest)
  | .findNode searchKey => (⟨localToRpcPeer sender, searchKey.toBytes⟩ : FindNodeRequest)
  | .findValue searchKey => (⟨localToRpcPeer sender, searchKey.toBytes⟩ : FindValueRequest)

/-- The key that is searched. -/
def searchKey : Ask → Option Key
  | .ping => none
  | .findNode searchKey => some searchKey
  | .findValue searchKey => some searchKey

/-- The session that a response says it comes from. -/
def receiver : (ask : Ask) → ask.method.Response → RpcPeer
  | .ping => PingResponse.receiver
  | .findNode _ => FindNodeResponse.receiver
  | .findValue _ => FindValueResponse.receiver

/-- The peers that a response names. -/
def closestPeers : (ask : Ask) → ask.method.Response → List RpcPeer
  | .ping => fun _ => []
  | .findNode _ => FindNodeResponse.closestPeers
  | .findValue _ => FindValueResponse.closestPeers

end Ask

namespace Net

variable {W : Type}

/-- What a handler does after `rpc_handler_prelims`, which gave the receiver. -/
def answer (net : Net W) (receiver : RpcPeer) : (ask : Ask) → Op W ask.method.Response
  | .ping => (pure ⟨receiver⟩ : Op W PingResponse)
  | .findNode searchKey => (do
    let searchKey ← toKey searchKey.toBytes
    let closestKeys ← net.closestPeers searchKey (UInt32.ofNat kbucketMax)
    return ⟨receiver, closestKeys.map localToRpcPeer⟩ : Op W FindNodeResponse)
  | .findValue searchKey => (do
    let searchKey ← toKey searchKey.toBytes
    lock .chunks
    match ← net.get fun s => s.chunks.lookup searchKey with
    | some chunk =>
      unlock .chunks
      return ⟨receiver, true, chunk.data, Int32.ofNat chunk.data.length, []⟩
    | none =>
      unlock .chunks
      let closestKeys ← net.closestPeers searchKey (UInt32.ofNat kbucketMax)
      return ⟨receiver, false, [], 0, closestKeys.map localToRpcPeer⟩ : Op W FindValueResponse)

/-- A handler updates the sender, and answers. -/
theorem handle_eq_answer (net : Net W) (sender : Peer) (ask : Ask) :
    net.handle ask.method (ask.request sender) =
      net.rpcHandlerPrelims (localToRpcPeer sender) >>= fun receiver => net.answer receiver ask := by
  cases ask <;> rfl

/-- The session's way to the others, where RPCs with a method are answered as given. -/
def answered (net : Net W) (m : Method) (response : Option m.Response) : Net W :=
  { net with
    rpc := fun m' endpoint request w =>
      if h : m = m' then (h ▸ response, w) else net.rpc m' endpoint request w }

/-- What a caller does whose RPC was answered, or failed. Only `ping` tells its caller of a peer. -/
def goOn (net : Net W) (peer : Peer) : (ask : Ask) → Option ask.method.Response → Op W (Option Peer)
  | .ping, response => (net.answered .ping response).ping peer
  | .findNode searchKey, response => do
    let _ ← (net.answered .findNode response).findNode peer searchKey
    return none
  | .findValue searchKey, response => do
    let _ ← (net.answered .findValue response).findValue peer searchKey
    return none

end Net

/-! ## The network -/

/-- What the sessions are started with. -/
structure Starters (n : ℕ) where
  /-- The random key of each session, and its `self_endpoint`. -/
  peers : Fin n → Peer
  /-- The `init_endpoint` of each session. -/
  initEndpoints : Fin n → Bytes

/-- How far the startup of a session is, with its `temp_key`. -/
inductive Startup where
  /-- It did not begin. -/
  | absent
  /-- The router was created. -/
  | created (tempKey : Key)
  /-- The server is running, and no ping is out. -/
  | serving (tempKey : Key)
  /-- A ping is out. -/
  | pinging (tempKey : Key)
  /-- A ping was answered by a peer. -/
  | answered (tempKey : Key) (otherPeer : Peer)
  /-- The peer was inserted. -/
  | inserted (tempKey : Key)
  /-- `temp_key` was evicted. -/
  | finished
  deriving DecidableEq, Repr

namespace Startup

/-- The server is running. -/
def serves : Startup → Bool
  | .absent => false
  | .created _ => false
  | _ => true

/-- The key that stands for the initial peer. -/
def tempKey : Startup → Option Key
  | .absent => none
  | .created tempKey => some tempKey
  | .serving tempKey => some tempKey
  | .pinging tempKey => some tempKey
  | .answered tempKey _ => some tempKey
  | .inserted tempKey => some tempKey
  | .finished => none

/-- A turn of the loop of pings, where `ping` came to a result. -/
def afterPing : Startup → Except Fault (Option Peer) → Startup
  | .pinging tempKey, .ok (some otherPeer) => .answered tempKey otherPeer
  | .pinging tempKey, .ok none => .serving tempKey
  | startup, _ => startup

/-- After a ping the peer that answered is known, or there is to be another ping, or nothing waited
for the ping. -/
theorem afterPing_cases (startup : Startup) (result : Except Fault (Option Peer)) :
    (∃ tempKey otherPeer, startup = .pinging tempKey ∧ result = .ok (some otherPeer) ∧
        startup.afterPing result = .answered tempKey otherPeer) ∨
      (∃ tempKey, startup = .pinging tempKey ∧ startup.afterPing result = .serving tempKey) ∨
      startup.afterPing result = startup := by
  unfold afterPing
  split
  · next tempKey otherPeer => exact Or.inl ⟨tempKey, otherPeer, rfl, rfl, rfl⟩
  · next tempKey => exact Or.inr (Or.inl ⟨tempKey, rfl, rfl⟩)
  · exact Or.inr (Or.inr rfl)

end Startup

/-- A message in flight, of a call by `caller` to `peer`. -/
inductive Message (n : ℕ) where
  /-- The request, with its sender. -/
  | request (caller : Fin n) (sender peer : Peer) (ask : Ask)
  /-- A session handles the request and has updated the sender; `receiver` is what it calls itself. -/
  | handled (caller : Fin n) (peer : Peer) (ask : Ask) (handler : Fin n) (receiver : RpcPeer)
  /-- The response, or `none` for a status other than OK. -/
  | response (caller : Fin n) (peer : Peer) (ask : Ask) (response : Option ask.method.Response)

/-- The call fails. -/
def Message.failed {n : ℕ} : Message n → Message n
  | .request caller _ peer ask => .response caller peer ask none
  | .handled caller peer ask _ _ => .response caller peer ask none
  | .response caller peer ask _ => .response caller peer ask none

/-- The sessions, how far they are, and the messages in flight. -/
structure Network (n : ℕ) where
  /-- The sessions. -/
  cluster : Cluster n
  /-- Their startups. -/
  startup : Fin n → Startup
  /-- The messages in flight. -/
  messages : List (Message n)

/-- A step of a session, or of the transport. -/
inductive NetworkStep (n : ℕ) where
  /-- A session begins, with a random `temp_key`. -/
  | create (x : Fin n) (tempKey : Key)
  /-- A session's server starts. -/
  | serve (x : Fin n)
  /-- A session pings its initial peer. -/
  | ping (x : Fin n)
  /-- A session inserts the peer that answered. -/
  | insert (x : Fin n)
  /-- A session evicts its `temp_key`. -/
  | evict (x : Fin n)
  /-- A session calls `find_node` or `find_value`. -/
  | find (x : Fin n) (peer : Peer) (ask : Ask)
  /-- The request at the position is taken by a session. -/
  | take (k : ℕ) (y : Fin n)
  /-- The request at the position is answered. -/
  | answer (k : ℕ)
  /-- The call at the position fails. -/
  | fail (k : ℕ)
  /-- The caller goes on with the response at the position. -/
  | goOn (k : ℕ)

namespace Network

variable {n : ℕ} (T : Transport) (depth : ℕ) (starters : Starters n)

/-- No session has begun. -/
def initial (c : Cluster n) : Network n := ⟨c, fun _ => .absent, []⟩

/-- The `Net` of a session. -/
def node (s : Network n) (x : Fin n) : Net (Cluster n) :=
  Cluster.netOf (Cluster.deliverTo (fun y => (s.startup y).serves) T depth) x

/-- The cluster after the constructor of a session's router. -/
def newRouter (c : Cluster n) (x : Fin n) (tempKey : Key) : Cluster n where
  nodes := Function.update c.nodes x
    ⟨Router.new (c.clock c.reads).toInt (starters.peers x) ⟨tempKey, starters.initEndpoints x⟩, ∅, 0⟩
  clock := c.clock
  reads := c.reads + 1

/-- One step; a step that the sessions and messages do not allow changes nothing. -/
def step (s : Network n) : NetworkStep n → Network n
  | .create x tempKey =>
    if s.startup x = .absent then
      { s with
        -- The constructor inserts the placeholder.
        cluster := newRouter starters s.cluster x tempKey
        startup := Function.update s.startup x (.created tempKey) }
    else s
  | .serve x =>
    match s.startup x with
    | .created tempKey => { s with startup := Function.update s.startup x (.serving tempKey) }
    | _ => s
  | .ping x =>
    match s.startup x with
    | .serving tempKey =>
      { s with
        startup := Function.update s.startup x (.pinging tempKey)
        -- The loop goes on only with the response, so there is one ping at a time.
        messages := s.messages ++ [.request x (s.cluster.nodes x).router.selfPeer
          ⟨tempKey, starters.initEndpoints x⟩ .ping] }
    | _ => s
  | .insert x =>
    match s.startup x with
    | .answered tempKey otherPeer =>
      { s with
        cluster :=
          ((s.node T depth x).attemptInsertPeer otherPeer.key otherPeer.endpoint s.cluster).state
        startup := Function.update s.startup x (.inserted tempKey) }
    | _ => s
  | .evict x =>
    match s.startup x with
    | .inserted tempKey =>
      { s with
        cluster := ((s.node T depth x).evictPeer tempKey s.cluster).state
        startup := Function.update s.startup x .finished }
    | _ => s
  | .find x peer ask =>
    if (s.startup x).serves ∧ ask ≠ .ping then
      { s with
        -- `ping` is called by `startup` alone here; the pings of an update are part of its step.
        messages := s.messages ++ [.request x (s.cluster.nodes x).router.selfPeer peer ask] }
    else s
  | .take k y =>
    match s.messages[k]? with
    | some (.request caller sender peer ask) =>
      if (s.startup y).serves ∧ (s.cluster.nodes y).router.selfPeer.endpoint = peer.endpoint then
        -- The first half of the handler: the sender is updated before anything is looked up.
        let r := (s.node T depth y).rpcHandlerPrelims (localToRpcPeer sender) s.cluster
        { s with
          cluster := r.state
          messages := s.messages.set k (match r.result with
            | .ok receiver => .handled caller peer ask y receiver
            | .error _ => .response caller peer ask none) }
      else s
    | _ => s
  | .answer k =>
    match s.messages[k]? with
    | some (.handled caller peer ask y receiver) =>
      -- The second half: what is named is what the router holds by now.
      let r := (s.node T depth y).answer receiver ask s.cluster
      { s with
        cluster := r.state
        messages := s.messages.set k (.response caller peer ask r.result.toOption) }
    | _ => s
  | .fail k =>
    match s.messages[k]? with
    | some message => { s with messages := s.messages.set k message.failed }
    | none => s
  | .goOn k =>
    match s.messages[k]? with
    | some (.response caller peer ask response) =>
      -- The caller updates the peers that the response names.
      let r := (s.node T depth caller).goOn peer ask response s.cluster
      { cluster := r.state
        startup := if ask = .ping then
            Function.update s.startup caller ((s.startup caller).afterPing r.result)
          else s.startup
        messages := s.messages.eraseIdx k }
    | _ => s

end Network

end Distft
