import Distft.Router.Map
import Distft.Session.Cluster
import Distft.Session.Frame
import Distft.Session.Lifecycle

/-!
# Where data and peers come from

A session gets data and peers from its client, from the requests that it handles and from the
answers that it is given, and passes them on. An `Origin` says what data may be given for a key and
which peers may be named. Of it is said what it is for a session to have nothing else
(`Session.Sound`), for a request to bring nothing else (`Method.Honest`) and for a response
(`Method.Faithful`). In a world where other sessions keep to this (`Net.Authentic`), whatever they
do while an RPC waits or the clock is read, every operation keeps to it that is itself given nothing
else (`Net.Authentic.perform`, `Net.Authentic.handle`), and what it finds was given for the key that
it searches (`Net.Authentic.value`). The router keeps its invariant.
-/

namespace Distft

open Exec

/-! ## What messages and operations bring -/

namespace Method

/-- The sender of a request. -/
def sender : (m : Method) → m.Request → RpcPeer
  | .findNode => FindNodeRequest.sender
  | .findValue => FindValueRequest.sender
  | .storeInit => StoreInitRequest.sender
  | .store => StoreRequest.sender
  | .ping => PingRequest.sender

/-- The peers of a response, from its receiver on. -/
def names : (m : Method) → m.Response → List RpcPeer
  | .findNode => fun response => response.receiver :: response.closestPeers
  | .findValue => fun response => response.receiver :: response.closestPeers
  | .storeInit => fun response => [response.receiver]
  | .store => fun response => [response.receiver]
  | .ping => fun response => [response.receiver]

end Method

/-- The bytes that are copied from data with a size of the message, if they are there. -/
def copied (data : Bytes) (size : Int32) : Option Bytes :=
  if 0 ≤ size.toInt ∧ size.toInt ≤ data.length + 1 then some ((data ++ [0]).take size.toInt.toNat)
  else none

/-- What a request has the handler store, and under which key. -/
def Method.gives : (m : Method) → m.Request → Option (Key × Bytes)
  | .store, request => do
    let key ← Key.ofBytes request.chunkKey
    let data ← copied request.data request.size
    return (key, data)
  | .findNode, _ => none
  | .findValue, _ => none
  | .storeInit, _ => none
  | .ping, _ => none

/-- The value that a response to a request has, and for which key. -/
def Method.finds : (m : Method) → m.Request → m.Response → Option (Key × Bytes)
  | .findValue, request, response => do
    let key ← Key.ofBytes request.searchKey
    let data ← if response.foundValue then copied response.data response.size else none
    return (key, data)
  | .findNode, _, _ => none
  | .storeInit, _, _ => none
  | .store, _, _ => none
  | .ping, _, _ => none

namespace Operation

/-- What an operation is given to store, and under which key. -/
def gives : Operation → Option (Key × Bytes)
  | .set key data _ => some (key, data)
  | .publish chunk _ => some (chunk.key, chunk.data)
  | .store _ chunk _ => some (chunk.key, chunk.data)
  | .handle m request => m.gives request
  | _ => none

/-- The peers that an operation makes known to the session. -/
def names : Operation → List Peer
  | .startup selfKey tempKey selfEndpoint initEndpoint _ =>
    [⟨selfKey, selfEndpoint⟩, ⟨tempKey, initEndpoint⟩]
  | .updatePeer peerKey endpoint => [⟨peerKey, endpoint⟩]
  | .handle m request => (rpcPeerToLocal (m.sender request)).toList
  | _ => []

/-- The key that an operation searches a value for. -/
def searches : Operation → Option Key
  | .get searchKey => some searchKey
  | .valueLookup chunkKey => some chunkKey
  | .findValue _ searchKey => some searchKey
  | _ => none

/-- The operation, with the value that it finds. -/
def value {W : Type} (net : Net W) : Operation → Op W (Option Bytes)
  | .get searchKey => net.getValue searchKey
  | .valueLookup chunkKey => net.valueLookup chunkKey
  | .findValue peer searchKey => do
    match ← net.findValue peer searchKey with
    | some (.inl data) => return some data
    | _ => return none
  | operation => do
    operation.perform net
    return none

end Operation

/-! ## Origins -/

/-- What may come into a session. -/
structure Origin where
  /-- The data that is given for keys. -/
  given : Key → Bytes → Prop
  /-- The peers that are named. -/
  named : Peer → Prop

/-- The peers of a message that can be read are named. -/
def Origin.Names (origin : Origin) (rpcPeers : List RpcPeer) : Prop :=
  ∀ rpcPeer ∈ rpcPeers, ∀ peer, rpcPeerToLocal rpcPeer = some peer → origin.named peer

section Origin

variable (origin : Origin)

/-- A router with the invariant, of a named session, that holds named peers. -/
structure Router.Sound (r : Router) : Prop where
  /-- The invariant. -/
  invariant : r.Invariant
  /-- The router's own peer. -/
  own : origin.named r.selfPeer
  /-- The peers. -/
  peers : ∀ p ∈ r.allPeers, origin.named p

/-- A chunk that is stored under its own key, with data that was given for it. -/
structure Chunk.Genuine (chunkKey : Key) (chunk : Chunk) : Prop where
  /-- The key. -/
  key : chunk.key = chunkKey
  /-- The data. -/
  data : origin.given chunkKey chunk.data

/-- A session with a sound router and genuine chunks. -/
structure Session.Sound (s : Session) : Prop where
  /-- The router. -/
  router : s.router.Sound origin
  /-- The chunks. -/
  chunks : ∀ key chunk, s.chunks.lookup key = some chunk → chunk.Genuine origin key

/-- A request that is sent by a named peer and brings only data that was given, if a message can hold
it. -/
structure Method.Honest (m : Method) (request : m.Request) : Prop where
  /-- The sender. -/
  names : origin.Names [m.sender request]
  /-- The data. -/
  gives : Transport.lossless.carries m request = true →
    ∀ key data, m.gives request = some (key, data) → origin.given key data

/-- A response that has named peers only, and only a value that was given for the key that was
searched, if a message can hold it. -/
structure Method.Faithful (m : Method) (request : m.Request) (response : m.Response) : Prop where
  /-- The peers. -/
  names : origin.Names (m.names response)
  /-- The value. -/
  finds : Transport.lossless.returns m response = true →
    ∀ key data, m.finds request response = some (key, data) → origin.given key data

/-- An operation that is given what may be given. -/
structure Operation.Honest (operation : Operation) : Prop where
  /-- The peers. -/
  names : ∀ p ∈ operation.names, origin.named p
  /-- The data. -/
  gives : ∀ key data, operation.gives = some (key, data) → origin.given key data

/-- A world that has a sound session whenever it has `I`: no sound change of the session ends `I`, nor
a reading of the clock, nor an RPC with an honest request; and such a request is answered faithfully,
by a response that a message can hold. -/
structure Net.Authentic {W : Type} (net : Net W) (I : W → Prop) : Prop where
  /-- The session is sound. -/
  session : ∀ w, I w → (net.session w).Sound origin
  /-- It may change to another one that is. -/
  withSession : ∀ s w, s.Sound origin → I w → I (net.withSession s w)
  /-- Reading the clock keeps the condition. -/
  now : ∀ w, I w → I (net.now w).2
  /-- RPCs keep the condition. -/
  rpc : ∀ m endpoint request w, m.Honest origin request → I w → I (net.rpc m endpoint request w).2
  /-- What RPCs are answered. -/
  answer : ∀ m endpoint request w response, m.Honest origin request → I w →
    (net.rpc m endpoint request w).1 = some response →
    Transport.lossless.returns m response = true ∧ m.Faithful origin request response

end Origin

/-! ## Sound sessions -/

variable {origin : Origin}

namespace Origin.Names

/-- A peer of the session's own is read as it was sent. -/
theorem own {peer : Peer} (h : origin.named peer) : origin.Names [localToRpcPeer peer] := by
  intro rpcPeer hmem p hp
  rw [List.mem_singleton.1 hmem, rpcPeerToLocal_localToRpcPeer] at hp
  exact Option.some.inj hp ▸ h

theorem cons {rpcPeer : RpcPeer} {rest : List RpcPeer} (h : origin.Names [rpcPeer])
    (hrest : origin.Names rest) : origin.Names (rpcPeer :: rest) := by
  intro p hp
  rcases List.mem_cons.1 hp with rfl | hp
  · exact h _ (List.mem_singleton_self _)
  · exact hrest p hp

theorem map {peers : List Peer} (h : ∀ p ∈ peers, origin.named p) :
    origin.Names (peers.map localToRpcPeer) := by
  induction peers with
  | nil => exact fun _ hmem => nomatch hmem
  | cons p rest ih =>
    exact cons (Names.own (h p List.mem_cons_self)) (ih fun q hq => h q (List.mem_cons_of_mem _ hq))

theorem head {rpcPeer : RpcPeer} {rest : List RpcPeer} (h : origin.Names (rpcPeer :: rest)) :
    origin.Names [rpcPeer] :=
  fun p hp => h p (List.mem_singleton.1 hp ▸ List.mem_cons_self)

theorem tail {rpcPeer : RpcPeer} {rest : List RpcPeer} (h : origin.Names (rpcPeer :: rest)) :
    origin.Names rest :=
  fun p hp => h p (List.mem_cons_of_mem _ hp)

end Origin.Names

namespace Router.Sound

variable {r : Router}

/-- An insertion of a named peer. -/
theorem insert (h : r.Sound origin) (now : Time) {key : Key} {endpoint : Bytes}
    (hpeer : origin.named ⟨key, endpoint⟩) :
    Router.Sound origin (r.step (.insert now key endpoint)) := by
  obtain ⟨hinv, hself⟩ := step_invariant h.invariant (.insert now key endpoint)
  refine ⟨hinv, hself ▸ h.own, fun p hp => ?_⟩
  rcases Router.mem_allPeers_insert h.invariant now key endpoint p hp with rfl | hp
  · exact hpeer
  · exact h.peers p hp

/-- An eviction. -/
theorem evict (h : r.Sound origin) (key : Key) : Router.Sound origin (r.step (.evict key)) := by
  obtain ⟨hinv, hself⟩ := step_invariant h.invariant (.evict key)
  exact ⟨hinv, hself ▸ h.own, fun p hp =>
    h.peers p (Router.mem_allPeers_evict h.invariant key p hp).1⟩

/-- `closest_peers`, which returns peers of the router. -/
theorem closest (h : r.Sound origin) (now : Time) (searchKey : Key) (n : UInt32) :
    Router.Sound origin (r.step (.closest now searchKey n)) ∧
      ∀ p ∈ (r.closestPeers now searchKey n).1, origin.named p := by
  obtain ⟨hinv, hself⟩ := step_invariant h.invariant (.closest now searchKey n)
  refine ⟨⟨hinv, hself ▸ h.own, fun p hp => ?_⟩, fun p hp => ?_⟩
  · exact h.peers p ((Router.mem_allPeers_closest h.invariant now searchKey n p).1 hp)
  · rw [closestPeers_eq] at hp
    refine h.peers p ?_
    rw [h.invariant.allPeers_eq]
    exact (BinaryTree.closest_subperm h.invariant.table searchKey n).subset hp

/-- A refresh. -/
theorem refresh (h : r.Sound origin) {unaccessedTime : ℤ} {readings : Readings} {peers : List Peer}
    {router : Router}
    (hrefresh : r.randomPerBucketPeers unaccessedTime readings = some (peers, router)) :
    Router.Sound origin router := by
  obtain ⟨hinv, hself, hpeers⟩ := randomPerBucketPeers_invariant h.invariant hrefresh
  refine ⟨hinv, hself ▸ h.own, fun p hp => h.peers p ?_⟩
  rwa [h.invariant.allPeers_eq, ← hpeers, ← hinv.allPeers_eq]

/-- A new router. -/
theorem new (now : Time) {selfPeer otherPeer : Peer} (hself : origin.named selfPeer)
    (hother : origin.named otherPeer) : Router.Sound origin (Router.new now selfPeer otherPeer) := by
  have hbare : Router.Sound origin (Router.bare now selfPeer) := by
    refine ⟨bare_invariant now selfPeer, hself, fun p hp => ?_⟩
    exact absurd hp (by simp [bare, allPeers, BinaryTree.new, BinaryTree.treeAllPeers])
  exact hbare.insert now hother

end Router.Sound

namespace Session.Sound

variable {s : Session}

/-- Another sound router. -/
theorem setRouter (h : s.Sound origin) {router : Router} (hrouter : router.Sound origin) :
    Session.Sound origin { s with router } := ⟨hrouter, h.chunks⟩

/-- The counter of dead peers. -/
theorem deadPeers (h : s.Sound origin) (n : UInt32) :
    Session.Sound origin { s with deadPeers := n } := ⟨h.router, h.chunks⟩

/-- A genuine chunk more. -/
theorem insert (h : s.Sound origin) {key : Key} {chunk : Chunk} (hchunk : chunk.Genuine origin key) :
    Session.Sound origin { s with chunks := s.chunks.insert key chunk } := by
  refine ⟨h.router, fun key' chunk' hlookup => ?_⟩
  by_cases hkey : key' = key
  · subst hkey
    rw [AList.lookup_insert] at hlookup
    exact Option.some.inj hlookup ▸ hchunk
  · rw [AList.lookup_insert_ne hkey] at hlookup
    exact h.chunks key' chunk' hlookup

/-- A chunk less. -/
theorem erase (h : s.Sound origin) (key : Key) :
    Session.Sound origin { s with chunks := s.chunks.erase key } := by
  refine ⟨h.router, fun key' chunk hlookup => ?_⟩
  by_cases hkey : key' = key
  · subst hkey
    rw [AList.lookup_erase] at hlookup
    exact nomatch hlookup
  · rw [AList.lookup_erase_ne hkey] at hlookup
    exact h.chunks key' chunk hlookup

end Session.Sound

namespace Net

variable {W : Type}

/-- The computation keeps the condition on the world, and what it returns has `Q`. -/
abbrev Delivers (I : W → Prop) {α : Type} (m : Op W α) (Q : α → Prop) : Prop :=
  Exec.Yields I m (fun _ a => Q a) fun _ => True

section Delivers

variable {I : W → Prop} {α β : Type}

theorem delivers_pure {a : α} {Q : α → Prop} (h : Q a) : Delivers I (pure a : Op W α) Q :=
  yields_pure h

theorem delivers_emit (e : Event) : Delivers I (Exec.emit e : Op W Unit) fun _ => True :=
  yields_emit trivial

theorem delivers_fault (e : Fault) {Q : α → Prop} : Delivers I (Exec.fault e : Op W α) Q :=
  yields_fault trivial

theorem Delivers.bind {m : Op W α} {f : α → Op W β} {Q : α → Prop} {R : β → Prop}
    (hm : Delivers I m Q) (hf : ∀ a, Q a → Delivers I (f a) R) : Delivers I (m >>= f) R :=
  Exec.Yields.bind hm fun _ a h => hf a h

theorem Delivers.mono {m : Op W α} {Q R : α → Prop} (hm : Delivers I m Q) (h : ∀ a, Q a → R a) :
    Delivers I m R := Exec.Yields.mono hm fun _ => h

theorem delivers_get {net : Net W} (f : Session → α) : Delivers I (net.get f) fun _ => True :=
  yields_read fun _ _ => trivial

/-- What keeps a condition delivers nothing in particular. -/
theorem delivers_of_keeps {m : Op W α} (h : Keeps I (fun _ => True) m) :
    Delivers I m fun _ => True := h.yields.mono fun _ _ _ => trivial

/-- What delivers nothing in particular composes. -/
theorem composes_delivers : Exec.Composes fun {_} (m : Op W _) => Delivers I m fun _ => True where
  pure _ := delivers_pure trivial
  fault e := delivers_fault e
  bind hm hf := hm.bind fun a _ => hf a

/-- A key of a message is used, if it can be read. -/
theorem delivers_toKey_bind {str : Bytes} {f : Key → Op W α} {Q : α → Prop}
    (hf : ∀ key, Key.ofBytes str = some key → Delivers I (f key) Q) :
    Delivers I (toKey str >>= f) Q := by
  unfold toKey
  cases hkey : Key.ofBytes str with
  | none => exact (delivers_fault _ : Delivers I (Exec.fault _ : Op W α) Q)
  | some key => exact hf key hkey

/-- Data that a message can hold is copied as it is. -/
theorem copied_length {data : Bytes} (hlen : data.length < 2^31) :
    copied data (Int32.ofNat data.length) = some data := by
  have hsize : (Int32.ofNat data.length).toInt = data.length := Int32.toInt_ofNat_of_lt hlen
  rw [copied, hsize, if_pos (by omega), Int.toNat_natCast, List.take_left]

/-- What is copied of data. -/
theorem delivers_copyData (data : Bytes) (size : Int32) :
    Delivers I (copyData data size : Op W Bytes) fun bytes => copied data size = some bytes := by
  unfold copyData copied
  split_ifs
  · exact delivers_pure rfl
  · exact delivers_fault _

end Delivers

/-! ## Callers and lookups -/

namespace Authentic

variable {net : Net W} {I : W → Prop} {α : Type}

/-- What is read of a sound session. -/
theorem get (h : net.Authentic origin I) {f : Session → α} {Q : α → Prop}
    (hQ : ∀ s, s.Sound origin → Q (f s)) : Delivers I (net.get f) Q :=
  yields_read fun w hw => hQ _ (h.session w hw)

/-- The chunk under a key is genuine, if there is one. -/
theorem chunkAt (h : net.Authentic origin I) (key : Key) :
    Delivers I (net.get fun s => s.chunks.lookup key) fun found =>
      ∀ chunk, found = some chunk → chunk.Genuine origin key :=
  h.get fun _ hs => hs.chunks key

/-- A sound change of the session. -/
theorem modify (h : net.Authentic origin I) {f : Session → α × Session} {Q : α → Prop}
    (hf : ∀ s, s.Sound origin → (f s).2.Sound origin) (hQ : ∀ s, s.Sound origin → Q (f s).1) :
    Delivers I (net.modify f) Q :=
  yields_act (fun w hw => h.withSession _ w (hf _ (h.session w hw)) hw)
    fun w hw => hQ _ (h.session w hw)

/-- A chunk is taken away. -/
theorem erase (h : net.Authentic origin I) (key : Key) :
    Delivers I (net.modify fun s => ((), { s with chunks := s.chunks.erase key })) fun _ => True :=
  h.modify (fun _ hs => hs.erase key) fun _ _ => trivial

theorem clock (h : net.Authentic origin I) : Delivers I net.clock fun _ => True :=
  yields_act h.now fun _ _ => trivial

/-- A request that is no `Store` brings no data. -/
theorem honest_of_ne {m : Method} (hm : m ≠ .store) {request : m.Request} {sender : RpcPeer}
    (hsender : origin.Names [sender]) (hsends : m.sender request = sender) :
    m.Honest origin request := by
  refine ⟨hsends ▸ hsender, fun _ key data hgives => ?_⟩
  cases m with
  | store => exact absurd rfl hm
  | findNode => exact nomatch hgives
  | findValue => exact nomatch hgives
  | storeInit => exact nomatch hgives
  | ping => exact nomatch hgives

/-- Updates of named peers keep the condition. -/
theorem update (h : net.Authentic origin I) : net.UpdateStable origin.named I where
  own w hw := (h.session w hw).router.own
  insert w now peer hpeer hw :=
    h.withSession _ w ((h.session w hw).setRouter ((h.session w hw).router.insert now hpeer)) hw
  evict w key hw :=
    h.withSession _ w ((h.session w hw).setRouter ((h.session w hw).router.evict key)) hw
  deadPeers w n hw := h.withSession _ w ((h.session w hw).deadPeers n) hw
  now := h.now
  ping endpoint sender w hsender hw :=
    h.rpc .ping endpoint _ w (honest_of_ne (by decide) (Origin.Names.own hsender) rfl) hw

/-- Every request is sent as the session. -/
theorem rpcCallerPrelims (h : net.Authentic origin I) :
    Delivers I net.rpcCallerPrelims fun sender => origin.Names [sender] :=
  h.get fun _ hs => Origin.Names.own hs.router.own

/-- An honest request is answered faithfully. -/
theorem call (h : net.Authentic origin I) {m : Method} (peer : Peer) {request : m.Request}
    (hrequest : m.Honest origin request) :
    Delivers I (net.call m peer request) fun response => ∀ r, response = some r →
      Transport.lossless.returns m r = true ∧ m.Faithful origin request r := by
  have hact : Delivers I (Exec.act fun w => net.rpc m peer.endpoint request w : Op W _)
      fun response => ∀ r, response = some r →
        Transport.lossless.returns m r = true ∧ m.Faithful origin request r :=
    yields_act (fun w => h.rpc m peer.endpoint request w hrequest) fun w hw r =>
      h.answer m peer.endpoint request w r hrequest hw
  exact hact.bind fun _ hresponse => (delivers_emit _).bind fun _ _ => delivers_pure hresponse

theorem evictPeer (h : net.Authentic origin I) (key : Key) :
    Delivers I (net.evictPeer key) fun _ => True :=
  delivers_of_keeps (steady_evictPeer covers_true.ofUpdates h.update key)

theorem attemptInsertPeer (h : net.Authentic origin I) {key : Key} {endpoint : Bytes}
    (hpeer : origin.named ⟨key, endpoint⟩) :
    Delivers I (net.attemptInsertPeer key endpoint) fun _ => True :=
  delivers_of_keeps (steady_attemptInsertPeer covers_true.ofUpdates h.update hpeer)

theorem updatePeer (h : net.Authentic origin I) {key : Key} {endpoint : Bytes}
    (hpeer : origin.named ⟨key, endpoint⟩) : Delivers I (net.updatePeer key endpoint) fun _ => True :=
  delivers_of_keeps (steady_updatePeer covers_true.ofUpdates updateFaults_true h.update hpeer)

theorem rpcCallerEpilogue (h : net.Authentic origin I) {receiver : RpcPeer}
    (hreceiver : origin.Names [receiver]) :
    Delivers I (net.rpcCallerEpilogue receiver) fun _ => True :=
  delivers_of_keeps (steady_rpcCallerEpilogue covers_true.ofUpdates updateFaults_true h.update
    (hreceiver receiver (List.mem_singleton_self _)))

/-- A peer of a message is used, if it can be read. -/
theorem toLocal_bind {rpcPeer : RpcPeer} (hpeer : origin.Names [rpcPeer]) {f : Peer → Op W α}
    {Q : α → Prop} (hf : ∀ peer, origin.named peer → Delivers I (f peer) Q) :
    Delivers I (toLocal rpcPeer >>= f) Q := by
  unfold toLocal
  cases hread : rpcPeerToLocal rpcPeer with
  | none => exact (delivers_fault _ : Delivers I (Exec.fault _ : Op W α) Q)
  | some peer => exact hf peer (hpeer rpcPeer (List.mem_singleton_self _) peer hread)

/-- The handlers begin with an update of the sender. -/
theorem rpcHandlerPrelims (h : net.Authentic origin I) {sender : RpcPeer}
    (hsender : origin.Names [sender]) :
    Delivers I (net.rpcHandlerPrelims sender) fun receiver => origin.Names [receiver] :=
  toLocal_bind hsender fun _ hpeer => (h.updatePeer hpeer).bind fun _ _ =>
    h.get fun _ hs => Origin.Names.own hs.router.own

/-- The peers of a response are learned. -/
theorem learnPeers (h : net.Authentic origin I) {rpcPeers : List RpcPeer}
    (hpeers : origin.Names rpcPeers) :
    Delivers I (net.learnPeers rpcPeers) fun _ => True := by
  induction rpcPeers with
  | nil => exact delivers_pure trivial
  | cons rpcPeer rest ih =>
    refine toLocal_bind hpeers.head fun peer hpeer => (delivers_get _).bind fun selfKey _ =>
      (delivers_get _).bind fun selfEndpoint _ => ?_
    split_ifs
    · exact ih hpeers.tail
    · exact (h.updatePeer hpeer).bind fun _ _ => (ih hpeers.tail).bind fun _ _ =>
        delivers_pure trivial

/-- A peer that answers a ping is named. -/
theorem ping (h : net.Authentic origin I) (peer : Peer) :
    Delivers I (net.ping peer) fun receiver => ∀ p, receiver = some p → origin.named p := by
  unfold Net.ping
  refine h.rpcCallerPrelims.bind fun sender hsender =>
    (h.call peer (honest_of_ne (by decide) hsender rfl)).bind fun response hresponse => ?_
  cases response with
  | none => exact (h.evictPeer _).bind fun _ _ => delivers_pure (by simp)
  | some response =>
    obtain ⟨-, hfaithful⟩ := hresponse response rfl
    refine toLocal_bind hfaithful.names fun receiver hreceiver => delivers_pure fun p hp => ?_
    exact Option.some.inj hp ▸ hreceiver

/-- `closest_peers` returns named peers. -/
theorem closestPeers (h : net.Authentic origin I) (searchKey : Key) (n : UInt32) :
    Delivers I (net.closestPeers searchKey n) fun peers => ∀ p ∈ peers, origin.named p := by
  unfold Net.closestPeers
  refine (delivers_emit _).bind fun _ _ => h.clock.bind fun now _ =>
    Delivers.bind (Q := fun peers => ∀ p ∈ peers, origin.named p) ?_ fun peers hpeers =>
    (delivers_emit _).bind fun _ _ => delivers_pure hpeers
  exact h.modify (fun _ hs => hs.setRouter (hs.router.closest now searchKey n).1)
    fun _ hs => (hs.router.closest now searchKey n).2

theorem findNode (h : net.Authentic origin I) (peer : Peer) (searchKey : Key) :
    Delivers I (net.findNode peer searchKey) fun _ => True := by
  unfold Net.findNode
  refine h.rpcCallerPrelims.bind fun sender hsender =>
    (h.call peer (honest_of_ne (by decide) hsender rfl)).bind fun response hresponse => ?_
  cases response with
  | none => exact (h.evictPeer _).bind fun _ _ => delivers_pure trivial
  | some response =>
    have hnames := (hresponse response rfl).2.names
    exact (h.rpcCallerEpilogue hnames.head).bind fun _ _ => (h.learnPeers hnames.tail).bind fun _ _ =>
      delivers_pure trivial

/-- A value that is found was given for the key. -/
theorem findValue (h : net.Authentic origin I) (peer : Peer) (searchKey : Key) :
    Delivers I (net.findValue peer searchKey) fun found =>
      ∀ data, found = some (.inl data) → origin.given searchKey data := by
  unfold Net.findValue
  refine h.rpcCallerPrelims.bind fun sender hsender =>
    (h.call peer (honest_of_ne (by decide) hsender rfl)).bind fun response hresponse => ?_
  cases response with
  | none => exact (h.evictPeer _).bind fun _ _ => delivers_pure (by simp)
  | some response =>
    obtain ⟨hfits, hnames, hfinds⟩ := hresponse response rfl
    refine (h.rpcCallerEpilogue hnames.head).bind fun _ _ => ?_
    split_ifs with hfound
    · refine (delivers_copyData _ _).bind fun bytes hbytes => delivers_pure fun data hdata => ?_
      obtain rfl := Sum.inl.inj (Option.some.inj hdata)
      exact hfinds hfits searchKey bytes (by simp [Method.finds, Key.ofBytes_toBytes, hfound, hbytes])
    · exact (h.learnPeers hnames.tail).bind fun _ _ => delivers_pure (by simp)

/-- What is stored at others was given. -/
theorem store (h : net.Authentic origin I) (peer : Peer) {chunk : Chunk}
    (hchunk : origin.given chunk.key chunk.data) (force : Bool) :
    Delivers I (net.store peer chunk force) fun _ => True := by
  have hhonest : ∀ sender originalPublish, origin.Names [sender] → Method.Honest origin .store
      ⟨sender, chunk.key.toBytes, chunk.data, Int32.ofNat chunk.data.length, originalPublish⟩ := by
    refine fun sender originalPublish hsender => ⟨hsender, fun hfits key data hgives => ?_⟩
    have hlen : chunk.data.length < 2^31 := of_decide_eq_true hfits
    simp only [Method.gives, Key.ofBytes_toBytes, copied_length hlen, Option.bind_eq_bind,
      Option.bind_some, Option.pure_def, Option.some.injEq, Prod.mk.injEq] at hgives
    obtain ⟨rfl, rfl⟩ := hgives
    exact hchunk
  unfold Net.store
  refine h.rpcCallerPrelims.bind fun sender hsender =>
    (h.call peer (honest_of_ne (by decide) hsender rfl)).bind fun initResponse hinit => ?_
  cases initResponse with
  | none => exact (h.evictPeer _).bind fun _ _ => delivers_pure trivial
  | some initResponse =>
    have hreceiver := (hinit initResponse rfl).2.names
    simp only
    split_ifs
    · exact delivers_pure trivial
    · refine (h.rpcCallerEpilogue hreceiver).bind fun _ _ =>
        h.rpcCallerPrelims.bind fun sender hsender =>
          (h.call peer (hhonest _ _ hsender)).bind fun response _ => ?_
      cases response with
      | none => exact delivers_pure trivial
      | some response => exact (h.rpcCallerEpilogue hreceiver).bind fun _ _ => delivers_pure trivial

section Rounds

variable {δ : Type} {V : δ → Prop} {query : Peer → Op W (Answer δ)}

/-- A round is halted only with a value that a query halts with, if what comes after a query is. -/
theorem queryPending
    (hquery : ∀ peer, Delivers I (query peer) fun answer => ∀ value, answer = .halt value → V value)
    {next : List Peer → List Key → List Peer → Op W (Option δ × List Key × List Peer)}
    (hnext : ∀ pending queried closest, Delivers I (next pending queried closest)
      fun r => ∀ value, r.1 = some value → V value) (pending : List Peer) (queried : List Key)
    (closest : List Peer) :
    Delivers I (queryPending query next pending queried closest)
      fun r => ∀ value, r.1 = some value → V value := by
  induction pending generalizing queried closest with
  | nil => exact delivers_pure (by simp)
  | cons peer rest ih =>
    unfold Net.queryPending
    split_ifs
    · exact ih _ _
    · refine (hquery peer).bind fun answer hanswer => ?_
      cases answer with
      | failed => exact ih _ _
      | answered found => exact hnext _ _ _
      | halt value =>
        refine delivers_pure fun value' hvalue' => ?_
        exact hanswer value' (congrArg Answer.halt (Option.some.inj hvalue'))

theorem queryRound
    (hquery : ∀ peer, Delivers I (query peer) fun answer => ∀ value, answer = .halt value → V value)
    (count : ℕ) (pending : List Peer) (queried : List Key) (closest : List Peer) :
    Delivers I (queryRound query count pending queried closest)
      fun r => ∀ value, r.1 = some value → V value := by
  induction count generalizing pending queried closest with
  | zero => exact delivers_pure (by simp)
  | succ count ih => exact queryPending hquery ih pending queried closest

/-- The rounds of a lookup are halted only with a value that a query halts with. -/
theorem lookupRounds
    (hquery : ∀ peer, Delivers I (query peer) fun answer => ∀ value, answer = .halt value → V value)
    (searchKey : Key) (rounds : ℕ) (queried : List Key) (size : ℕ) (minDist : Dist)
    (closest : List Peer) :
    Delivers I (lookupRounds searchKey query rounds queried size minDist closest)
      fun r => ∀ value, r.1 = some value → V value := by
  induction rounds generalizing queried size minDist closest with
  | zero => exact delivers_pure (by simp)
  | succ rounds ih =>
    unfold Net.lookupRounds
    refine (queryRound hquery _ _ _ _).bind fun r hr => ?_
    obtain ⟨halted, queried, closest⟩ := r
    simp only at hr ⊢
    split_ifs
    · exact delivers_pure hr
    · split
      · exact delivers_fault _
      · split_ifs
        · exact delivers_pure (by simp)
        · exact ih _ _ _ _

end Rounds

theorem nodeLookup (h : net.Authentic origin I) (nodeKey : Key) :
    Delivers I (net.nodeLookup nodeKey) fun _ => True :=
  nodeLookup_of_composes composes_delivers ((h.closestPeers _ _).mono fun _ _ => trivial)
    fun peer => h.findNode peer nodeKey

/-- A value that a lookup finds was given for the key. -/
theorem valueLookup (h : net.Authentic origin I) (chunkKey : Key) :
    Delivers I (net.valueLookup chunkKey) fun found =>
      ∀ data, found = some data → origin.given chunkKey data := by
  have hquery : ∀ peer, Delivers I (net.valueQueryFn chunkKey peer)
      fun answer => ∀ data, answer = .halt data → origin.given chunkKey data := by
    intro peer
    refine (h.findValue peer chunkKey).bind fun found hfound => ?_
    rcases found with _ | data | found
    · exact delivers_pure (by simp)
    · exact delivers_pure fun data' hdata' => hfound data' (by rw [Answer.halt.inj hdata'])
    · exact delivers_pure (by simp)
  unfold Net.valueLookup Net.lookupHelper
  have hhelper := (h.closestPeers chunkKey (UInt32.ofNat kbucketMax)).bind fun localPeers _ =>
    lookupRounds hquery chunkKey maxLookupIters [] ([] : List Peer).length
      (localPeers.foldl (fun d p => d.min (Dist.between chunkKey p.key)) Dist.max)
      (sortByDist chunkKey ([] ++ localPeers))
  exact hhelper.bind fun r hr => delivers_pure hr

/-- A value that `get` finds was given for the key. -/
theorem getValue (h : net.Authentic origin I) (searchKey : Key) :
    Delivers I (net.getValue searchKey) fun found =>
      ∀ data, found = some data → origin.given searchKey data := by
  unfold Net.getValue
  refine (delivers_emit _).bind fun _ _ => (h.chunkAt searchKey).bind fun found hfound => ?_
  cases found with
  | none => exact (delivers_emit _).bind fun _ _ => h.valueLookup searchKey
  | some chunk =>
    refine (delivers_emit _).bind fun _ _ => delivers_pure fun data hdata => ?_
    obtain rfl := Option.some.inj hdata
    exact (hfound chunk rfl).data

/-! ## Sets, passes, and the ends of a session -/

/-- What is published was given. -/
theorem publish (h : net.Authentic origin I) {chunk : Chunk}
    (hchunk : origin.given chunk.key chunk.data) (force : Bool) :
    Delivers I (net.publish chunk force) fun _ => True := by
  unfold Net.publish
  refine (h.nodeLookup _).bind fun buffer _ =>
    (storeAll_of_composes composes_delivers (fun peer => h.store peer hchunk force) _ _).bind
    fun maxDist _ => (delivers_get _).bind fun selfKey _ => ?_
  split_ifs
  · exact (delivers_emit _).bind fun _ _ =>
      (h.modify (Q := fun _ => True) (fun _ hs => hs.insert ⟨rfl, hchunk⟩) fun _ _ => trivial).bind
      fun _ _ => delivers_emit _
  · exact delivers_pure trivial

theorem set (h : net.Authentic origin I) {key : Key} {data : Bytes} (hgiven : origin.given key data)
    (force : Bool) : Delivers I (net.set key data force) fun _ => True :=
  h.clock.bind fun _ _ => h.clock.bind fun _ _ => h.publish hgiven force

/-- The first loop of a pass. -/
theorem selectKeys (h : net.Authentic origin I) (test : Time → Chunk → Except Fault Bool)
    (entries : List (Σ _ : Key, Chunk)) : Delivers I (net.selectKeys test entries) fun _ => True := by
  induction entries with
  | nil => exact delivers_pure trivial
  | cons entry rest ih =>
    refine h.clock.bind fun now _ => Delivers.bind (Q := fun _ => True) ?_ fun selected _ =>
      ih.bind fun keys _ => delivers_pure trivial
    exact yields_ofExcept (fun _ _ => trivial) fun _ _ => trivial

theorem eraseKeys (h : net.Authentic origin I) (keys : List Key) :
    Delivers I (net.eraseKeys keys) fun _ => True := by
  induction keys with
  | nil => exact delivers_pure trivial
  | cons key rest ih =>
    exact (h.erase key).bind fun _ _ => ih

/-- What is republished was found in the session. -/
theorem republishKeys (h : net.Authentic origin I) (keys : List Key) :
    Delivers I (net.republishKeys keys) fun _ => True := by
  induction keys with
  | nil => exact delivers_pure trivial
  | cons key rest ih =>
    unfold Net.republishKeys
    refine (h.chunkAt key).bind fun found hfound => ?_
    cases found with
    | none => exact delivers_fault _
    | some chunk =>
      obtain ⟨hkey, hdata⟩ := hfound chunk rfl
      have hgiven : origin.given chunk.key chunk.data := by rwa [hkey]
      exact (h.erase key).bind fun _ _ => (h.publish hgiven false).bind fun _ _ => ih

/-- A pass, from its second loop. -/
theorem chunksPass (h : net.Authentic origin I) (test : Time → Chunk → Except Fault Bool)
    {work : List Key → Op W Unit} (hwork : ∀ keys, Delivers I (work keys) fun _ => True) :
    Delivers I (net.chunksPass test work) fun _ => True :=
  (delivers_emit _).bind fun _ _ => (delivers_get _).bind fun entries _ =>
    (h.selectKeys test entries).bind fun keys _ => (hwork keys).bind fun _ _ => delivers_emit _

/-- The peers of a refresh are looked up. -/
theorem refreshPeers (h : net.Authentic origin I) (unaccessedTime : ℤ) (readings : Readings) :
    Delivers I (net.refreshPeers unaccessedTime readings) fun _ => True := by
  unfold Net.refreshPeers
  refine (delivers_emit _).bind fun _ _ => Delivers.bind (Q := fun _ => True) ?_ fun found _ => ?_
  · refine h.modify (fun s hs => ?_) fun _ _ => trivial
    split
    · exact hs
    · next peers router hrandom =>
      exact hs.setRouter (hs.router.refresh hrandom)
  · cases found with
    | none => exact delivers_fault _
    | some peers =>
      exact (delivers_emit _).bind fun _ _ =>
        lookupEach_of_composes composes_delivers h.nodeLookup peers

theorem selfLookup (h : net.Authentic origin I) (selfKey : Key) (readings : Readings) :
    Delivers I (net.selfLookup selfKey readings) fun _ => True :=
  (lookupHelper_of_composes composes_delivers ((h.closestPeers _ _).mono fun _ _ => trivial) []
    fun peer => nodeQueryFn_of_composes composes_delivers (h.findNode peer selfKey)).bind fun _ _ =>
    h.refreshPeers 0 readings

theorem pingLoop (h : net.Authentic origin I) (turns : ℕ) (otherPeer : Peer) :
    Delivers I (net.pingLoop turns otherPeer) origin.named := by
  induction turns with
  | zero => exact delivers_fault _
  | succ turns ih =>
    refine (h.ping otherPeer).bind fun receiver hreceiver => ?_
    cases receiver with
    | none => exact ih
    | some receiver => exact delivers_pure (hreceiver receiver rfl)

/-- A session starts with a router of its own. -/
theorem startup (h : net.Authentic origin I) {selfKey tempKey : Key}
    {selfEndpoint initEndpoint : Bytes}
    (hself : origin.named ⟨selfKey, selfEndpoint⟩) (htemp : origin.named ⟨tempKey, initEndpoint⟩)
    (readings : Readings) :
    Delivers I (net.startup selfKey tempKey selfEndpoint initEndpoint readings) fun _ => True := by
  have hrouter : Delivers I (net.newRouter ⟨selfKey, selfEndpoint⟩ ⟨tempKey, initEndpoint⟩)
      fun _ => True :=
    (delivers_emit _).bind fun _ _ => h.clock.bind fun now _ =>
      h.modify (fun _ hs => hs.setRouter (.new now hself htemp)) fun _ _ => trivial
  exact (delivers_emit _).bind fun _ _ => hrouter.bind fun _ _ => (delivers_emit _).bind fun _ _ =>
    (h.pingLoop net.turns _).bind fun otherPeer hother => (delivers_emit _).bind fun _ _ =>
    (h.attemptInsertPeer hother).bind fun _ _ => (h.evictPeer _).bind fun _ _ =>
    (delivers_emit _).bind fun _ _ => h.selfLookup selfKey readings

/-- Chunks that were given are handed over to others. -/
theorem reassignAll (h : net.Authentic origin I) {entries : List (Σ _ : Key, Chunk)}
    (hentries : ∀ entry ∈ entries, origin.given entry.2.key entry.2.data) :
    Delivers I (net.reassignAll entries) fun _ => True := by
  induction entries with
  | nil => exact delivers_pure trivial
  | cons entry rest ih =>
    have hfirst := hentries entry List.mem_cons_self
    have hturn : Delivers I (net.reassign entry.1 entry.2) fun _ => True :=
      reassign_of_composes composes_delivers ((h.closestPeers _ _).mono fun _ _ => trivial)
        fun peer => h.store peer hfirst false
    have hrest := ih fun entry' hmem => hentries entry' (List.mem_cons_of_mem _ hmem)
    exact hturn.bind fun _ _ => hrest.bind fun _ _ => delivers_pure trivial

/-- The chunks that are stored at others at the end were in the session. -/
theorem teardown (h : net.Authentic origin I) (republish : Bool) :
    Delivers I (net.teardown republish) fun _ => True := by
  unfold Net.teardown
  refine (delivers_emit _).bind fun _ _ => (h.get (Q := fun entries : List (Σ _ : Key, Chunk) =>
    ∀ entry ∈ entries, origin.given entry.2.key entry.2.data) fun s hs entry hentry => ?_).bind
    fun entries hentries => ?_
  · obtain ⟨hkey, hdata⟩ := hs.chunks entry.1 entry.2 (AList.mem_lookup_iff.2 hentry)
    rwa [hkey]
  · have hend : ∀ dropped : List Key, Delivers I (do unlock .chunks; return dropped : Op W (List Key))
        fun _ => True := fun dropped => (delivers_emit _).bind fun _ _ => delivers_pure trivial
    dsimp only
    split_ifs
    · exact (h.reassignAll hentries).bind fun dropped _ => hend dropped
    · exact (delivers_pure (Q := fun _ => True) trivial).bind fun dropped _ => hend dropped

/-! ## Handlers and operations -/

/-- The handler of `FindNode` names peers of its router. -/
theorem handleFindNode (h : net.Authentic origin I) {request : FindNodeRequest}
    (hsender : origin.Names [request.sender]) :
    Delivers I (net.handleFindNode request)
      fun response => Method.Faithful origin .findNode request response :=
  (h.rpcHandlerPrelims hsender).bind fun _ hreceiver => delivers_toKey_bind fun searchKey _ =>
    (h.closestPeers searchKey _).bind fun _ hpeers =>
      delivers_pure ⟨hreceiver.cons (.map hpeers), fun _ _ _ hfinds => nomatch hfinds⟩

/-- The handler of `FindValue` finds a chunk of the session, or names peers of its router. -/
theorem handleFindValue (h : net.Authentic origin I) {request : FindValueRequest}
    (hsender : origin.Names [request.sender]) :
    Delivers I (net.handleFindValue request)
      fun response => Method.Faithful origin .findValue request response := by
  refine (h.rpcHandlerPrelims hsender).bind fun receiver hreceiver =>
    delivers_toKey_bind fun searchKey hkey => (delivers_emit _).bind fun _ _ =>
    (h.chunkAt searchKey).bind fun found hfound => ?_
  cases found with
  | none =>
    refine (delivers_emit _).bind fun _ _ => (h.closestPeers searchKey _).bind fun peers hpeers =>
      delivers_pure ⟨hreceiver.cons (.map hpeers), fun _ key data hfinds => ?_⟩
    simp [Method.finds] at hfinds
  | some chunk =>
    refine (delivers_emit _).bind fun _ _ =>
      delivers_pure ⟨hreceiver, fun hfits key data hfinds => ?_⟩
    have hlen : chunk.data.length < 2^31 := of_decide_eq_true hfits
    simp only [Method.finds, hkey, if_true, copied_length hlen, Option.bind_eq_bind, Option.bind_some,
      Option.pure_def, Option.some.injEq, Prod.mk.injEq] at hfinds
    obtain ⟨rfl, rfl⟩ := hfinds
    exact (hfound chunk rfl).data

/-- The handler of `Store` stores what it is given. -/
theorem handleStore (h : net.Authentic origin I) {request : StoreRequest}
    (hsender : origin.Names [request.sender])
    (hgives : ∀ key data, Method.gives .store request = some (key, data) → origin.given key data) :
    Delivers I (net.handleStore request)
      fun response => Method.Faithful origin .store request response := by
  refine (h.rpcHandlerPrelims hsender).bind fun receiver hreceiver =>
    delivers_toKey_bind fun key hkey => (delivers_of_keeps (keeps_ofSeconds _)).bind
    fun originalPublish _ => (delivers_copyData _ _).bind fun data hdata => h.clock.bind
    fun lastPublished _ => (delivers_emit _).bind fun _ _ =>
    Delivers.bind (Q := fun _ => True) ?_ fun _ _ => (delivers_emit _).bind fun _ _ =>
    delivers_pure ⟨hreceiver, fun _ _ _ hfinds => nomatch hfinds⟩
  have hgiven : origin.given key data := hgives key data (by simp [Method.gives, hkey, hdata])
  exact h.modify (fun _ hs => hs.insert ⟨rfl, hgiven⟩) fun _ _ => trivial

/-- A handler that is given nothing else keeps the session sound, and its response is faithful. -/
theorem handle (h : net.Authentic origin I) (m : Method) {request : m.Request}
    (hsender : origin.Names [m.sender request])
    (hgives : ∀ key data, m.gives request = some (key, data) → origin.given key data) :
    Delivers I (net.handle m request) fun response => m.Faithful origin request response := by
  cases m with
  | findNode => exact h.handleFindNode hsender
  | findValue => exact h.handleFindValue hsender
  | storeInit =>
    exact (h.rpcHandlerPrelims hsender).bind fun receiver hreceiver =>
      delivers_toKey_bind fun _ _ => (delivers_emit _).bind fun _ _ =>
      (delivers_get _).bind fun _ _ => (delivers_emit _).bind fun _ _ =>
      delivers_pure ⟨hreceiver, fun _ _ _ hfinds => nomatch hfinds⟩
  | store => exact h.handleStore hsender hgives
  | ping =>
    exact (h.rpcHandlerPrelims hsender).bind fun receiver hreceiver =>
      delivers_pure ⟨hreceiver, fun _ _ _ hfinds => nomatch hfinds⟩

/-- An operation that is given nothing else keeps the session sound. -/
theorem perform (h : net.Authentic origin I) {operation : Operation}
    (hhonest : operation.Honest origin) :
    Delivers I (operation.perform net) fun _ => True := by
  obtain ⟨hnames, hgives⟩ := hhonest
  cases operation with
  | startup selfKey tempKey selfEndpoint initEndpoint readings =>
    exact h.startup (hnames _ List.mem_cons_self)
      (hnames _ (List.mem_cons_of_mem _ List.mem_cons_self)) _
  | teardown republish => exact (h.teardown republish).bind fun _ _ => delivers_pure trivial
  | set key data force => exact h.set (hgives key data rfl) force
  | get searchKey => exact (h.getValue searchKey).bind fun _ _ => delivers_pure trivial
  | publish chunk force => exact h.publish (hgives _ _ rfl) force
  | selfLookup selfKey readings => exact h.selfLookup selfKey readings
  | nodeLookup nodeKey => exact (h.nodeLookup nodeKey).bind fun _ _ => delivers_pure trivial
  | valueLookup chunkKey => exact (h.valueLookup chunkKey).bind fun _ _ => delivers_pure trivial
  | updatePeer peerKey endpoint => exact h.updatePeer (hnames _ List.mem_cons_self)
  | findNode peer searchKey => exact (h.findNode peer searchKey).bind fun _ _ => delivers_pure trivial
  | findValue peer searchKey =>
    exact (h.findValue peer searchKey).bind fun _ _ => delivers_pure trivial
  | store peer chunk force =>
    exact (h.store peer (hgives _ _ rfl) force).bind fun _ _ => delivers_pure trivial
  | ping peer => exact (h.ping peer).bind fun _ _ => delivers_pure trivial
  | handle m request =>
    have hsender : origin.Names [m.sender request] := by
      intro rpcPeer hmem peer hpeer
      rw [List.mem_singleton.1 hmem] at hpeer
      exact hnames peer (Option.mem_toList.2 hpeer)
    exact (h.handle m hsender hgives).bind fun _ _ => delivers_pure trivial
  | republishChunks => exact h.chunksPass _ h.republishKeys
  | cleanupChunks => exact h.chunksPass _ h.eraseKeys
  | refreshPeers readings => exact h.refreshPeers 3600 readings

/-- What an operation finds was given for the key that it searches. -/
theorem value (h : net.Authentic origin I) {operation : Operation}
    (hhonest : operation.Honest origin) :
    Delivers I (operation.value net) fun found => ∀ key data, operation.searches = some key →
      found = some data → origin.given key data := by
  have hother : Delivers I (do operation.perform net; return none : Op W (Option Bytes)) fun found =>
      ∀ key data, operation.searches = some key → found = some data → origin.given key data :=
    (h.perform hhonest).bind fun _ _ => delivers_pure (by simp)
  cases operation with
  | get searchKey =>
    exact (h.getValue searchKey).mono fun _ hfound key data hkey =>
      Option.some.inj hkey ▸ hfound data
  | valueLookup chunkKey =>
    exact (h.valueLookup chunkKey).mono fun _ hfound key data hkey =>
      Option.some.inj hkey ▸ hfound data
  | findValue peer searchKey =>
    refine (h.findValue peer searchKey).bind fun found hfound => ?_
    rcases found with _ | data | found
    · exact delivers_pure (by simp)
    · refine delivers_pure fun key data' hkey hdata' => ?_
      rw [← Option.some.inj hkey, ← Option.some.inj hdata']
      exact hfound data rfl
    · exact delivers_pure (by simp)
  | _ => exact hother

end Authentic

end Net

end Distft
