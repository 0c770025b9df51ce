import Mathlib.Data.List.AList
import Distft.General.Exec
import Distft.General.Nearest
import Distft.Router.Model
import Distft.Session.Messages

/-!
# The session

`Session` of `src/dht/session.h`, with its RPC handlers and callers (`src/dht/rpc.cpp`) and its
lookups (`src/dht/session.cpp`). The code runs in a world `W` that holds the session and everything
else; a `Net W` is the session's way to its own state, to the clock, and to the other nodes. What an
RPC does to the world, and to the session itself through requests that come in meanwhile, is up to
the `Net`.

The events of a run are the operations on mutexes, the calls that change the router's peers, and the
RPCs with what they were answered. A fault is an exception of the standard library, an access that
C++ leaves undefined, or a loop that does not end.
-/

namespace Distft

/-- `PEER_LOOKUP_ALPHA`. -/
abbrev peerLookupAlpha : ℕ := 3

/-- `MAX_LOOKUP_ITERS`. -/
abbrev maxLookupIters : ℕ := keyBits

/-- `Chunk`. -/
structure Chunk where
  /-- `original_publisher`. -/
  originalPublisher : Bool
  /-- `key`. -/
  key : Key
  /-- `data`. -/
  data : Bytes
  /-- `last_published`. -/
  lastPublished : Time
  /-- `original_publish`. -/
  originalPublish : Time
  deriving DecidableEq, Repr

/-- `Session`, and the counter of its `session_metadata`. -/
structure Session where
  /-- `router`. -/
  router : Router
  /-- `chunks`. -/
  chunks : AList fun _ : Key => Chunk
  /-- `meta->dead_peers`. -/
  deadPeers : UInt32

/-- The mutexes of a session. -/
inductive Mutex where
  /-- `router_lock`. -/
  | router
  /-- `chunks_lock`. -/
  | chunks
  /-- `meta->meta_lock`. -/
  | metadata
  deriving DecidableEq, Repr

/-- What a run shows. -/
inductive Event where
  /-- `lock()`. -/
  | lock (mutex : Mutex)
  /-- `unlock()`. -/
  | unlock (mutex : Mutex)
  /-- `router->attempt_insert_peer(key, endpoint, ..)`. -/
  | attemptInsertPeer (key : Key) (endpoint : Bytes)
  /-- `router->evict_peer(key)`. -/
  | evictPeer (key : Key)
  /-- An RPC to a peer, with the response, or `none` where the status is not OK. -/
  | rpc (m : Method) (peer : Peer) (request : m.Request) (response : Option m.Response)

/-- A session's way to its state, its clock, and the other nodes. -/
structure Net (W : Type) where
  /-- The session's state. -/
  session : W → Session
  /-- A change of the session's state. -/
  withSession : Session → W → W
  /-- A reading of `system_clock::now()`. -/
  now : W → Time × W
  /-- An RPC to an endpoint: the response, `none` for a status other than OK. -/
  rpc : (m : Method) → Bytes → m.Request → W → Option m.Response × W
  /-- How many turns a `while (true)` is given. -/
  turns : ℕ

/-- A computation of the session. -/
abbrev Op (W : Type) (α : Type) : Type := Exec Event Fault W α

namespace Net

variable {W : Type} (net : Net W)

/-- Read the session's state. -/
def get {α : Type} (f : Session → α) : Op W α := Exec.read fun w => f (net.session w)

/-- Change the session's state, and return a value. -/
def modify {α : Type} (f : Session → α × Session) : Op W α :=
  Exec.act fun w => ((f (net.session w)).1, net.withSession (f (net.session w)).2 w)

/-- Read the clock. -/
def clock : Op W Time := Exec.act net.now

/-- Lock a mutex. -/
def lock (mutex : Mutex) : Op W Unit := Exec.emit (.lock mutex)

/-- Unlock a mutex. -/
def unlock (mutex : Mutex) : Op W Unit := Exec.emit (.unlock mutex)

/-- `Session::self_key`. -/
def selfKey : Op W Key := net.get fun s => s.router.selfPeer.key

/-- `Session::self_endpoint`. -/
def selfEndpoint : Op W Bytes := net.get fun s => s.router.selfPeer.endpoint

/-- `router->attempt_insert_peer`. -/
def attemptInsertPeer (key : Key) (endpoint : Bytes) : Op W (Bool × Option Peer) := do
  Exec.emit (.attemptInsertPeer key endpoint)
  let now ← net.clock
  net.modify fun s =>
    let (inserted, lru, router) := s.router.attemptInsertPeer now key endpoint
    ((inserted, lru), { s with router })

/-- `router->evict_peer`. -/
def evictPeer (key : Key) : Op W Unit := do
  Exec.emit (.evictPeer key)
  net.modify fun s => ((), { s with router := s.router.evictPeer key })

/-- `router->closest_peers`, with the lock around it that all callers in the session have. -/
def closestPeers (searchKey : Key) (n : UInt32) : Op W (List Peer) := do
  lock .router
  let now ← net.clock
  let peers ← net.modify fun s =>
    let (peers, router) := s.router.closestPeers now searchKey n
    (peers, { s with router })
  unlock .router
  return peers

/-- A stub's call: the request goes to the peer's endpoint. -/
def call (m : Method) (peer : Peer) (request : m.Request) : Op W (Option m.Response) := do
  let response ← Exec.act fun w => net.rpc m peer.endpoint request w
  Exec.emit (.rpc m peer request response)
  return response

/-- `Key(str)`. -/
def toKey (str : Bytes) : Op W Key :=
  match Key.ofBytes str with
  | some key => pure key
  | none => Exec.fault .invalidArgument

/-- `Session::rpc_peer_to_local`. -/
def toLocal (peer : RpcPeer) : Op W Peer :=
  match rpcPeerToLocal peer with
  | some peer => pure peer
  | none => Exec.fault .invalidArgument

/-- `std::vector<char>(data, data + size)`, with the size of the message. The data is that of a
`std::string`, which has a NUL behind its last character. To read beyond that is undefined, and so
is a negative size, with which the range ends before it begins (in practice it throws
`std::length_error`). -/
def copyData (data : Bytes) (size : Int32) : Op W Bytes :=
  if 0 ≤ size.toInt ∧ size.toInt ≤ data.length + 1 then pure ((data ++ [0]).take size.toInt.toNat)
  else Exec.fault .outOfBounds

/-- What is copied is the data exactly if the size is its length. -/
theorem take_terminated_eq_iff {data : Bytes} {n : ℕ} :
    (data ++ [0]).take n = data ↔ n = data.length := by
  constructor
  · intro h
    have hlen := congrArg List.length h
    rw [List.length_take, List.length_append, List.length_singleton] at hlen
    omega
  · rintro rfl
    exact List.take_left

/-- `time_point(seconds(n))`, the clock counting nanoseconds in 64 bits. -/
def ofSeconds (seconds : Int64) : Op W Time :=
  if -2^63 ≤ seconds.toInt * 10^9 ∧ seconds.toInt * 10^9 < 2^63 then pure (seconds.toInt * 10^9)
  else Exec.fault .overflow

/-- `time_point_cast<seconds>(time).time_since_epoch().count()`. -/
def toSeconds (time : Time) : Int64 := Int64.ofInt (time.tdiv (10^9))

/-! ## Callers and `update_peer` -/

/-- `Session::rpc_caller_prelims`. -/
def rpcCallerPrelims : Op W RpcPeer := net.get fun s => localToRpcPeer s.router.selfPeer

/-- `Session::ping`: what it sets the receiver buffer to, `none` where it returns false. -/
def ping (peer : Peer) : Op W (Option Peer) := do
  let sender ← net.rpcCallerPrelims
  match ← net.call .ping peer ⟨sender⟩ with
  | none =>
    net.evictPeer peer.key
    return none
  -- There is no epilogue, so the receiver is not updated.
  | some response => return some (← toLocal response.receiver)

/-- The loop of `Session::update_peer`, with what `lru_peer` points to before a turn. -/
def updateLoop (key : Key) (endpoint : Bytes) : ℕ → Option Peer → Op W Unit
  | 0, _ => Exec.fault .diverges
  | turns + 1, lruPeer => do
    lock .router
    let (inserted, lru) ← net.attemptInsertPeer key endpoint
    unlock .router
    if inserted then return
    -- A call that does not set `lru_peer` leaves what an earlier turn set it to.
    match lru.or lruPeer with
    | none => Exec.fault .badPointer
    | some lruPeer =>
      let other ← net.ping lruPeer
      if other.map Peer.key = some lruPeer.key then return
      lock .router
      -- A ping that failed has evicted the peer already; this is for another key that answered.
      net.evictPeer lruPeer.key
      unlock .router
      lock .metadata
      net.modify fun s => ((), { s with deadPeers := s.deadPeers + 1 })
      unlock .metadata
      updateLoop key endpoint turns (some lruPeer)

/-- `Session::update_peer`. -/
def updatePeer (key : Key) (endpoint : Bytes) : Op W Unit :=
  net.updateLoop key endpoint net.turns none

/-- `Session::rpc_caller_epilogue`. -/
def rpcCallerEpilogue (receiver : RpcPeer) : Op W Unit := do
  let peer ← toLocal receiver
  net.updatePeer peer.key peer.endpoint

/-- The loop of `find_node` and `find_value` over the peers of a response: the peers other than the
session itself, which are updated and go to the buffer. -/
def learnPeers : List RpcPeer → Op W (List Peer)
  | [] => pure []
  | rpcPeer :: rest => do
    let peer ← toLocal rpcPeer
    let selfKey ← net.selfKey
    let selfEndpoint ← net.selfEndpoint
    -- This is the only check of the peers that a response names.
    if peer.key = selfKey ∨ peer.endpoint = selfEndpoint then learnPeers rest
    else
      net.updatePeer peer.key peer.endpoint
      let found ← learnPeers rest
      return peer :: found

/-- `Session::find_node`: what it adds to the buffer, `none` where it returns false. -/
def findNode (peer : Peer) (searchKey : Key) : Op W (Option (List Peer)) := do
  let sender ← net.rpcCallerPrelims
  match ← net.call .findNode peer ⟨sender, searchKey.toBytes⟩ with
  | none =>
    -- Callers evict without the lock.
    net.evictPeer peer.key
    return none
  | some response =>
    net.rpcCallerEpilogue response.receiver
    let found ← net.learnPeers response.closestPeers
    return some found

/-- `Session::find_value`: the value (`inl`) or what it adds to the buffer (`inr`), `none` where it
returns false. -/
def findValue (peer : Peer) (searchKey : Key) : Op W (Option (Bytes ⊕ List Peer)) := do
  let sender ← net.rpcCallerPrelims
  match ← net.call .findValue peer ⟨sender, searchKey.toBytes⟩ with
  | none =>
    net.evictPeer peer.key
    return none
  | some response =>
    net.rpcCallerEpilogue response.receiver
    if response.foundValue then
      let data ← copyData response.data response.size
      return some (.inl data)
    else
      let found ← net.learnPeers response.closestPeers
      return some (.inr found)

/-- `Session::store`. -/
def store (peer : Peer) (chunk : Chunk) (force : Bool) : Op W Bool := do
  let sender ← net.rpcCallerPrelims
  match ← net.call .storeInit peer ⟨sender, chunk.key.toBytes⟩ with
  | none =>
    net.evictPeer peer.key
    return false
  | some initResponse =>
    -- The receiver is not updated on this way out.
    if !initResponse.continueStore && !force then return true
    net.rpcCallerEpilogue initResponse.receiver
    let sender ← net.rpcCallerPrelims
    match ← net.call .store peer ⟨sender, chunk.key.toBytes, chunk.data,
      Int32.ofNat chunk.data.length, toSeconds chunk.originalPublish⟩ with
    | none => return false
    | some _ =>
      net.rpcCallerEpilogue initResponse.receiver
      return true

/-! ## Handlers -/

/-- `Session::rpc_handler_prelims`. -/
def rpcHandlerPrelims (sender : RpcPeer) : Op W RpcPeer := do
  let peer ← toLocal sender
  net.updatePeer peer.key peer.endpoint
  net.get fun s => localToRpcPeer s.router.selfPeer

/-- The handler `Session::FindNode`. -/
def handleFindNode (request : FindNodeRequest) : Op W FindNodeResponse := do
  let receiver ← net.rpcHandlerPrelims request.sender
  let searchKey ← toKey request.searchKey
  let closestKeys ← net.closestPeers searchKey (UInt32.ofNat kbucketMax)
  return ⟨receiver, closestKeys.map localToRpcPeer⟩

/-- The handler `Session::FindValue`. -/
def handleFindValue (request : FindValueRequest) : Op W FindValueResponse := do
  let receiver ← net.rpcHandlerPrelims request.sender
  let searchKey ← toKey request.searchKey
  lock .chunks
  match ← net.get fun s => s.chunks.lookup searchKey with
  | some chunk =>
    unlock .chunks
    return ⟨receiver, true, chunk.data, Int32.ofNat chunk.data.length, []⟩
  | none =>
    unlock .chunks
    let closestKeys ← net.closestPeers searchKey (UInt32.ofNat kbucketMax)
    return ⟨receiver, false, [], 0, closestKeys.map localToRpcPeer⟩

/-- The handler `Session::StoreInit`. -/
def handleStoreInit (request : StoreInitRequest) : Op W StoreInitResponse := do
  let receiver ← net.rpcHandlerPrelims request.sender
  let chunkKey ← toKey request.chunkKey
  lock .chunks
  let continueStore ← net.get fun s => (s.chunks.lookup chunkKey).isNone
  unlock .chunks
  return ⟨receiver, continueStore⟩

/-- The handler `Session::Store`. -/
def handleStore (request : StoreRequest) : Op W StoreResponse := do
  let receiver ← net.rpcHandlerPrelims request.sender
  let key ← toKey request.chunkKey
  let originalPublish ← ofSeconds request.originalPublish
  let data ← copyData request.data request.size
  let lastPublished ← net.clock
  lock .chunks
  -- What is there is deleted and replaced; whether it is there was asked by `StoreInit`.
  net.modify fun s => ((), { s with
    chunks := s.chunks.insert key ⟨false, key, data, lastPublished, originalPublish⟩ })
  unlock .chunks
  return ⟨receiver⟩

/-- The handler `Session::Ping`. -/
def handlePing (request : PingRequest) : Op W PingResponse := do
  let receiver ← net.rpcHandlerPrelims request.sender
  return ⟨receiver⟩

/-- The handler of a method. -/
def handle : (m : Method) → m.Request → Op W m.Response
  | .findNode => net.handleFindNode
  | .findValue => net.handleFindValue
  | .storeInit => net.handleStoreInit
  | .store => net.handleStore
  | .ping => net.handlePing

end Net

/-! ## Lookups -/

/-- What a query of `lookup_helper` comes to; a value of `δ` is what it halts the lookup with. -/
inductive Answer (δ : Type) where
  /-- The RPC failed. -/
  | failed
  /-- The counter of answers is increased, and the peers are added to the list. -/
  | answered (found : List Peer)
  /-- The query returns true. -/
  | halt (value : δ)

/-- `std::sort` by `StaticDistComparator`. -/
def sortByDist (key : Key) (peers : List Peer) : List Peer :=
  peers.insertionSort fun p q => staticDistComparator key q p = false

/-- The loop that keeps the first peer of each key. -/
def uniquePeers (peers : List Peer) : List Peer := Nearest.uniqueBy Peer.key [] peers

/-- `std::min` of distances. -/
def Dist.min (a b : Dist) : Dist := if b.lt a then b else a

namespace Net

variable {W δ : Type} (net : Net W)

/-- The inner loop of `lookup_helper` until the next answer, which `next` goes on after: the peers
that are not visited yet, the keys that were queried, and the whole list. -/
def queryPending (query : Peer → Op W (Answer δ))
    (next : List Peer → List Key → List Peer → Op W (Option δ × List Key × List Peer)) :
    List Peer → List Key → List Peer → Op W (Option δ × List Key × List Peer)
  | [], queried, closest => pure (none, queried, closest)
  | peer :: rest, queried, closest =>
    if peer.key ∈ queried then queryPending query next rest queried closest
    else do
      match ← query peer with
      -- A peer that fails counts as queried, but not among the answers.
      | .failed => queryPending query next rest (peer.key :: queried) closest
      | .answered found => next (rest ++ found) (peer.key :: queried) (closest ++ found)
      | .halt value => return (some value, queried, closest)

/-- The inner loop of `lookup_helper`, with the number of answers that it still waits for. -/
def queryRound (query : Peer → Op W (Answer δ)) :
    ℕ → List Peer → List Key → List Peer → Op W (Option δ × List Key × List Peer)
  | 0, _, queried, closest => pure (none, queried, closest)
  | count + 1, pending, queried, closest =>
    queryPending query (queryRound query count) pending queried closest

/-- The outer loop of `lookup_helper`, with the number of rounds that are left. -/
def lookupRounds (searchKey : Key) (query : Peer → Op W (Answer δ)) :
    ℕ → List Key → ℕ → Dist → List Peer → Op W (Option δ × List Peer)
  | 0, _, _, _, closest => pure (none, closest)
  | rounds + 1, queried, size, minDist, closest => do
    let (halted, queried, closest) ←
      queryRound query (min peerLookupAlpha closest.length) closest queried closest
    if halted.isSome then return (halted, closest)
    let closest := (sortByDist searchKey (uniquePeers closest)).take kbucketMax
    -- `closest_keys.at(0)` throws on an empty list.
    match closest with
    | [] => Exec.fault .outOfRange
    | first :: _ =>
      let newMinDist := Dist.between searchKey first.key
      if closest.length ≤ size && newMinDist.ge minDist then return (none, closest)
      lookupRounds searchKey query rounds queried closest.length newMinDist closest

/-- `Session::lookup_helper`: the value that it was halted with, if it was, and the list. -/
def lookupHelper (searchKey : Key) (closest : List Peer) (query : Peer → Op W (Answer δ)) :
    Op W (Option δ × List Peer) := do
  let localPeers ← net.closestPeers searchKey (UInt32.ofNat kbucketMax)
  let minDist := localPeers.foldl (fun d p => d.min (Dist.between searchKey p.key)) Dist.max
  lookupRounds searchKey query maxLookupIters [] closest.length minDist
    (sortByDist searchKey (closest ++ localPeers))

/-- `node_query_fn`. -/
def nodeQueryFn (searchKey : Key) (peer : Peer) : Op W (Answer Empty) := do
  match ← net.findNode peer searchKey with
  | none => return .failed
  | some found => return .answered found

/-- `value_query_fn`. -/
def valueQueryFn (searchKey : Key) (peer : Peer) : Op W (Answer Bytes) := do
  match ← net.findValue peer searchKey with
  | none => return .failed
  | some (.inl data) => return .halt data
  | some (.inr found) => return .answered found

/-- The last queries of `node_lookup`: the list with what they add. -/
def findFrom (searchKey : Key) : List Peer → Op W (List Peer)
  | [] => pure []
  | peer :: rest => do
    let found ← net.findNode peer searchKey
    let more ← findFrom searchKey rest
    return found.getD [] ++ more

/-- `Session::node_lookup`, on an empty buffer. -/
def nodeLookup (nodeKey : Key) : Op W (List Peer) := do
  let (_, closest) ← net.lookupHelper nodeKey [] (net.nodeQueryFn nodeKey)
  let more ← net.findFrom nodeKey closest
  return (sortByDist nodeKey (uniquePeers (closest ++ more))).take kbucketMax

/-- `Session::value_lookup`: the value, `none` where it returns false. -/
def valueLookup (chunkKey : Key) : Op W (Option Bytes) := do
  let (found, _) ← net.lookupHelper chunkKey [] (net.valueQueryFn chunkKey)
  return found

/-! ## Sets and gets -/

/-- The loop of `publish` over the peers that the chunk is stored at: the largest distance. -/
def storeAll (chunk : Chunk) (force : Bool) : Dist → List Peer → Op W Dist
  | maxDist, [] => pure maxDist
  | maxDist, peer :: rest => do
    let _ ← net.store peer chunk force
    let dist := Dist.between chunk.key peer.key
    storeAll chunk force (if maxDist.lt dist then dist else maxDist) rest

/-- `Session::publish`. -/
def publish (chunk : Chunk) (force : Bool) : Op W Unit := do
  let buffer ← net.nodeLookup chunk.key
  let maxDist ← net.storeAll chunk force ⟨0⟩ (buffer.take kbucketMax)
  let selfKey ← net.selfKey
  if buffer.length ≤ kbucketMax || maxDist.ge (Dist.between chunk.key selfKey) then
    lock .chunks
    net.modify fun s => ((), { s with chunks := s.chunks.insert chunk.key chunk })
    unlock .chunks

/-- `Session::set`. -/
def set (key : Key) (data : Bytes) (force : Bool) : Op W Unit := do
  let originalPublish ← net.clock
  let lastPublished ← net.clock
  net.publish ⟨true, key, data, lastPublished, originalPublish⟩ force

/-- `Session::get`: the value, `none` where it returns false. -/
def getValue (searchKey : Key) : Op W (Option Bytes) := do
  lock .chunks
  match ← net.get fun s => s.chunks.lookup searchKey with
  | some chunk =>
    unlock .chunks
    return some chunk.data
  | none =>
    unlock .chunks
    net.valueLookup searchKey

end Net

end Distft
