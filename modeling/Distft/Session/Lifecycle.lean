import Distft.Router.Refresh
import Distft.Session.Housekeeping

/-!
# The life of a session

What a session does from its start to its end (`src/dht/session.cpp`), and the passes of its threads
(`src/dht/rpc.cpp`): `startup` sets up the router under a temporary key, pings until it knows the
peer's own key, and looks itself up; `teardown` tries to store each chunk at the closest peers. The
threads of the session, and those of the others, run in its `Net`. An `Operation` is anything of
this, or what others ask of the session.
-/

namespace Distft

namespace Net

variable {W : Type} (net : Net W)

/-! ## Startup -/

/-- The loop `while (!this->ping(&other_peer, &other_peer))`. -/
def pingLoop : ℕ → Peer → Op W Peer
  | 0, _ => Exec.fault .diverges
  | turns + 1, otherPeer => do
    match ← net.ping otherPeer with
    | none => pingLoop turns otherPeer
    | some receiver => return receiver

/-- The last loop of a refresh: a lookup of each peer. -/
def lookupEach : List Peer → Op W Unit
  | [] => pure ()
  | peer :: rest => do
    let _ ← net.nodeLookup peer.key
    lookupEach rest

/-- A refresh: a random peer of each bucket that was not accessed for a time is looked up. -/
def refreshPeers (unaccessedTime : ℤ) (readings : Readings) : Op W Unit := do
  lock .router
  let refreshPeers ← net.modify fun s =>
    match s.router.randomPerBucketPeers unaccessedTime readings with
    | none => (none, s)
    | some (peers, router) => (some peers, { s with router })
  match refreshPeers with
  | none => Exec.fault .divisionByZero
  | some peers =>
    unlock .router
    net.lookupEach peers

/-- The loop has what its lookups have, if that composes. -/
theorem lookupEach_of_composes {net : Net W} {C : {α : Type} → Op W α → Prop} (hC : Exec.Composes C)
    (hlookup : ∀ key, C (net.nodeLookup key)) (peers : List Peer) : C (net.lookupEach peers) := by
  induction peers with
  | nil => exact hC.pure _
  | cons peer rest ih => exact hC.bind (hlookup peer.key) fun _ => ih

/-- `Session::self_lookup`. -/
def selfLookup (selfKey : Key) (readings : Readings) : Op W Unit := do
  let _ ← net.lookupHelper selfKey [] (net.nodeQueryFn selfKey)
  net.refreshPeers 0 readings

/-- The constructor of the router, which inserts the other peer. -/
def newRouter (selfPeer otherPeer : Peer) : Op W Unit := do
  Exec.emit (.attemptInsertPeer otherPeer.key otherPeer.endpoint)
  let now ← net.clock
  net.modify fun s => ((), { s with router := Router.new now selfPeer otherPeer })

/-- `Session::startup`, with its random keys. -/
def startup (selfKey tempKey : Key) (selfEndpoint initEndpoint : Bytes) (readings : Readings) :
    Op W Unit := do
  lock .router
  net.newRouter ⟨selfKey, selfEndpoint⟩ ⟨tempKey, initEndpoint⟩
  unlock .router
  -- The server and the threads of the session start here.
  let otherPeer ← net.pingLoop net.turns ⟨tempKey, initEndpoint⟩
  lock .router
  let _ ← net.attemptInsertPeer otherPeer.key otherPeer.endpoint
  net.evictPeer tempKey
  unlock .router
  net.selfLookup selfKey readings

/-! ## Teardown -/

/-- The loop of `teardown` over the closest peers. -/
def storeAtFirst (chunk : Chunk) : Bool → List Peer → Op W Bool
  | stored, [] => pure stored
  | stored, otherPeer :: rest => do
    let stored ← if stored then pure true else net.store otherPeer chunk false
    storeAtFirst chunk stored rest

/-- A turn of the loop of `teardown` over the chunks: whether the chunk was stored. -/
def reassign (chunkKey : Key) (chunk : Chunk) : Op W Bool := do
  let closestPeers ← net.closestPeers chunkKey (UInt32.ofNat peerLookupAlpha)
  net.storeAtFirst chunk false closestPeers

/-- A turn has what `closest_peers` and `store` have, if that composes. -/
theorem reassign_of_composes {net : Net W} {C : {α : Type} → Op W α → Prop} (hC : Exec.Composes C)
    {chunkKey : Key} {chunk : Chunk}
    (hclosest : C (net.closestPeers chunkKey (UInt32.ofNat peerLookupAlpha)))
    (hstore : ∀ peer, C (net.store peer chunk false)) : C (net.reassign chunkKey chunk) := by
  have hfirst : ∀ peers stored, C (net.storeAtFirst chunk stored peers) := by
    intro peers
    induction peers with
    | nil => exact fun _ => hC.pure _
    | cons peer rest ih =>
      intro stored
      unfold storeAtFirst
      dsimp only
      split_ifs
      · exact hC.bind (hC.pure _) fun _ => ih _
      · exact hC.bind (hstore peer) fun _ => ih _
  exact hC.bind hclosest fun peers => hfirst peers false

/-- The loop of `teardown` over the chunks: the keys of those that are dropped. -/
def reassignAll : List (Σ _ : Key, Chunk) → Op W (List Key)
  | [] => pure []
  | ⟨chunkKey, chunk⟩ :: rest => do
    let stored ← net.reassign chunkKey chunk
    let dropped ← reassignAll rest
    return if stored then dropped else chunkKey :: dropped

/-- `Session::teardown`, after the server and the threads have stopped: the keys of the chunks that
are dropped. The router and the chunks are deleted after it. -/
def teardown (republish : Bool) : Op W (List Key) := do
  lock .chunks
  let entries ← net.get fun s => s.chunks.entries
  let dropped ← if republish then net.reassignAll entries else pure (entries.map Sigma.fst)
  unlock .chunks
  return dropped

end Net

/-! ## Operations -/

/-- What a session does. -/
inductive Operation where
  /-- `startup`. -/
  | startup (selfKey tempKey : Key) (selfEndpoint initEndpoint : Bytes) (readings : Readings)
  /-- `teardown`. -/
  | teardown (republish : Bool)
  /-- `set`. -/
  | set (key : Key) (data : Bytes) (force : Bool)
  /-- `get`. -/
  | get (searchKey : Key)
  /-- `publish`. -/
  | publish (chunk : Chunk) (force : Bool)
  /-- `self_lookup`. -/
  | selfLookup (selfKey : Key) (readings : Readings)
  /-- `node_lookup`. -/
  | nodeLookup (nodeKey : Key)
  /-- `value_lookup`. -/
  | valueLookup (chunkKey : Key)
  /-- `update_peer`. -/
  | updatePeer (peerKey : Key) (endpoint : Bytes)
  /-- `find_node`. -/
  | findNode (peer : Peer) (searchKey : Key)
  /-- `find_value`. -/
  | findValue (peer : Peer) (searchKey : Key)
  /-- `store`. -/
  | store (peer : Peer) (chunk : Chunk) (force : Bool)
  /-- `ping`. -/
  | ping (peer : Peer)
  /-- The handler of a method. -/
  | handle (m : Method) (request : m.Request)
  /-- A turn of `republish_chunks_thread_fn`. -/
  | republishChunks
  /-- A turn of `cleanup_chunks_thread_fn`. -/
  | cleanupChunks
  /-- A turn of `refresh_peer_thread_fn`. -/
  | refreshPeers (readings : Readings)

/-- The operation is carried out. -/
def Operation.perform {W : Type} (net : Net W) : Operation → Op W Unit
  | .startup selfKey tempKey selfEndpoint initEndpoint readings =>
    net.startup selfKey tempKey selfEndpoint initEndpoint readings
  | .teardown republish => do
    let _ ← net.teardown republish
  | .set key data force => net.set key data force
  | .get searchKey => do
    let _ ← net.getValue searchKey
  | .publish chunk force => net.publish chunk force
  | .selfLookup selfKey readings => net.selfLookup selfKey readings
  | .nodeLookup nodeKey => do
    let _ ← net.nodeLookup nodeKey
  | .valueLookup chunkKey => do
    let _ ← net.valueLookup chunkKey
  | .updatePeer peerKey endpoint => net.updatePeer peerKey endpoint
  | .findNode peer searchKey => do
    let _ ← net.findNode peer searchKey
  | .findValue peer searchKey => do
    let _ ← net.findValue peer searchKey
  | .store peer chunk force => do
    let _ ← net.store peer chunk force
  | .ping peer => do
    let _ ← net.ping peer
  | .handle m request => do
    let _ ← net.handle m request
  | .republishChunks => net.republishChunks
  | .cleanupChunks => net.cleanupChunks
  | .refreshPeers readings => net.refreshPeers 3600 readings

end Distft
