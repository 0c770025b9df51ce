import Distft.Session.Cluster
import Distft.Session.Lookup

/-!
# Forced sets in a static cluster

In a cluster of at most `KBUCKET_MAX + 1` nodes in which every router holds all the other nodes in an
unsplit root bucket, and in which every RPC is answered, no operation changes what the routers hold:
every peer that is inserted is known, so its insertion only moves it to the front (`Static`). A lookup
begins with all the other nodes and hears of no others, so it ends with all of them; a forced `set`
then stores its value at every node, and `get` finds it at home (`getValue_setAll`).

Nothing here depends on the key, on the order that buckets are in, or on when a lookup halts.
-/

namespace Distft

open Distft.BinaryTree Exec

/-- The nodes of a static cluster. -/
structure Members (n : ℕ) where
  /-- The node's key and endpoint. -/
  peers : Fin n → Peer
  /-- The keys are distinct. -/
  key_injective : Function.Injective fun x => (peers x).key
  /-- The endpoints are distinct. -/
  endpoint_injective : Function.Injective fun x => (peers x).endpoint
  /-- There are at least two nodes. -/
  two_le : 2 ≤ n
  /-- The nodes other than one fit in a bucket. -/
  le_kbucketMax : n ≤ kbucketMax + 1

namespace Members

variable {n : ℕ} (members : Members n)

/-- The nodes other than one. -/
def others (x : Fin n) : List Peer := ((List.finRange n).filter (· ≠ x)).map members.peers

theorem mem_others {x : Fin n} {p : Peer} :
    p ∈ members.others x ↔ ∃ y, y ≠ x ∧ members.peers y = p := by
  simp [others]

/-- No two of the other nodes have the same key. -/
theorem others_nodup (x : Fin n) : ((members.others x).map Peer.key).Nodup := by
  rw [others, List.map_map]
  exact ((List.nodup_finRange n).filter _).map members.key_injective

/-- The other nodes fit in a bucket. -/
theorem others_length (x : Fin n) : (members.others x).length ≤ kbucketMax := by
  have hlt : ((List.finRange n).filter (· ≠ x)).length < (List.finRange n).length :=
    List.length_filter_lt_length_iff_exists.2 ⟨x, List.mem_finRange x, by simp⟩
  have hle := members.le_kbucketMax
  rw [others, List.length_map]
  rw [List.length_finRange] at hlt
  omega

/-- There is another node. -/
theorem others_ne_nil (x : Fin n) : members.others x ≠ [] := by
  have htwo := members.two_le
  obtain ⟨y, hy⟩ : ∃ y : Fin n, y ≠ x := by
    have : Nontrivial (Fin n) := Fin.nontrivial_iff_two_le.2 htwo
    exact exists_ne x
  exact List.ne_nil_of_mem (members.mem_others.2 ⟨y, hy, rfl⟩)

/-- Another node's key is not the node's own. -/
theorem key_ne {r : Router} {x y : Fin n} (hown : r.selfPeer = members.peers x) (hxy : y ≠ x) :
    (members.peers y).key ≠ r.selfPeer.key := by
  rw [hown]
  exact fun heq => hxy (members.key_injective heq)

/-- Nor is its endpoint. -/
theorem endpoint_ne {r : Router} {x y : Fin n} (hown : r.selfPeer = members.peers x) (hxy : y ≠ x) :
    (members.peers y).endpoint ≠ r.selfPeer.endpoint := by
  rw [hown]
  exact fun heq => hxy (members.endpoint_injective heq)

end Members

/-! ## Routers with an unsplit root bucket -/

/-- The root is a leaf that holds the peers, in some order. -/
def Unsplit (table : BinaryTree) (l : List Peer) : Prop :=
  ∃ s count access kbucket zero one,
    table = .node true s count access kbucket zero one ∧ kbucket.Perm l

/-- Two peers of the list with the same key are the same. -/
theorem eq_of_key_eq {l : List Peer} (hnodup : (l.map Peer.key).Nodup) {p q : Peer} (hp : p ∈ l)
    (hq : q ∈ l) (hkey : p.key = q.key) : p = q := List.inj_on_of_nodup_map hnodup hp hq hkey

/-- Inserting a peer that an unsplit root holds moves it to the front. -/
theorem attemptInsertPeer_unsplit {r : Router} {l : List Peer} (hr : Unsplit r.table l)
    (hnodup : (l.map Peer.key).Nodup) (now : Time) {p : Peer} (hp : p ∈ l)
    (hkey : p.key ≠ r.selfPeer.key) (hendpoint : p.endpoint ≠ r.selfPeer.endpoint) :
    ∃ table, Unsplit table l ∧
      r.attemptInsertPeer now p.key p.endpoint = (true, none, { r with table }) := by
  obtain ⟨s, count, access, kbucket, zero, one, htable, hperm⟩ := hr
  have hself : ¬(p.key = r.selfPeer.key ∨ p.endpoint = r.selfPeer.endpoint) := by
    simp [hkey, hendpoint]
  cases hfind : kbucket.findIdx? (fun q => q.key == p.key) with
  | none =>
    have hmem : p.key ∈ kbucket.map Peer.key := List.mem_map_of_mem (hperm.mem_iff.2 hp)
    exact absurd hmem (notMem_of_findIdx? hfind)
  | some j =>
    obtain ⟨q, hq, hqkey, hcons⟩ := perm_of_findIdx? hfind
    have hql : q ∈ l := hperm.mem_iff.1 (List.mem_of_getElem? hq)
    obtain rfl := eq_of_key_eq hnodup hql hp hqkey
    have hloop : insertLoop r.selfPeer.key now q.key q.endpoint keyBits r.table =
        (.node true s count now (q :: kbucket.eraseIdx j) zero one, .updated) := by
      rw [htable]
      show insertLoop r.selfPeer.key now q.key q.endpoint (159 + 1) _ = _
      simp only [insertLoop, Bool.not_true, Bool.false_eq_true, if_false, hfind,
        rotateToFront_setEndpoint q.endpoint hq]
    refine ⟨_, ⟨s, count, now, q :: kbucket.eraseIdx j, zero, one, rfl, hcons.symm.trans hperm⟩, ?_⟩
    rw [Router.attemptInsertPeer, if_neg hself, hloop]

/-- What fits in a bucket is all returned by an unsplit root. -/
theorem closestPeers_unsplit {r : Router} {l : List Peer} (hr : Unsplit r.table l)
    (hlen : l.length ≤ kbucketMax) (now : Time) (searchKey : Key) :
    ∃ table found, Unsplit table l ∧ found.Perm l ∧
      r.closestPeers now searchKey (UInt32.ofNat kbucketMax) = (found, { r with table }) := by
  obtain ⟨s, count, access, kbucket, zero, one, htable, hperm⟩ := hr
  refine ⟨.node true s count now kbucket zero one, kbucket, ⟨_, _, _, _, _, _, rfl, hperm⟩, hperm, ?_⟩
  have hmax : (UInt32.ofNat kbucketMax).toNat = kbucketMax := rfl
  rw [Router.closestPeers, htable]
  simp only [treeClosestPeers, if_true, List.nil_append, hmax]
  rw [List.take_of_length_le (hperm.length_eq.trans_le hlen)]

/-- The peers of an unsplit root. -/
theorem mem_allPeers_unsplit {r : Router} {l : List Peer} (hr : Unsplit r.table l) (p : Peer) :
    p ∈ r.allPeers ↔ p ∈ l := by
  obtain ⟨s, count, access, kbucket, zero, one, htable, hperm⟩ := hr
  rw [Router.allPeers, htable, treeAllPeers, if_pos rfl, List.nil_append, hperm.mem_iff]

section Calls

variable {n : ℕ} {c : Cluster n} {x : Fin n} {D : Event → Prop}
variable {deliver : (m : Method) → Bytes → m.Request → Cluster n → Option m.Response × Cluster n}

/-- The cluster after a call of a node's router, which read the clock. -/
def Cluster.called (c : Cluster n) (x : Fin n) (table : BinaryTree) : Cluster n where
  nodes := Function.update c.nodes x { c.nodes x with router := { (c.nodes x).router with table } }
  clock := c.clock
  reads := c.reads + 1

/-- An update is an insertion, if the router takes the peer at once. -/
theorem succeeds_updatePeer_insert {key : Key} {endpoint : Bytes} {Q : Cluster n → Unit → Prop}
    (h : ∀ now, ∃ table, (c.nodes x).router.attemptInsertPeer now key endpoint =
      (true, none, { (c.nodes x).router with table }) ∧ Q (c.called x table) ()) :
    Succeeds D ((Cluster.netOf deliver x).updatePeer key endpoint) c Q := by
  show Succeeds D ((Cluster.netOf deliver x).updateLoop _ _ (1 + 1) none) c _
  obtain ⟨table, hcall, hq⟩ := h (c.clock c.reads).toInt
  refine Succeeds.bind (succeeds_emit ?_)
  refine Succeeds.bind (Succeeds.bind (succeeds_emit (Succeeds.bind (succeeds_act (succeeds_act ?_)))))
  simp only [Cluster.netOf, hcall]
  exact Succeeds.bind (succeeds_emit (succeeds_pure hq))

/-- The peers of an unsplit root that fit in a bucket are all found. -/
theorem succeeds_closestPeers_unsplit {l : List Peer} (hl : Unsplit (c.nodes x).router.table l)
    (hlen : l.length ≤ kbucketMax) (searchKey : Key) {Q : Cluster n → List Peer → Prop}
    (h : ∀ table found, Unsplit table l → found.Perm l → Q (c.called x table) found) :
    Succeeds D ((Cluster.netOf deliver x).closestPeers searchKey (UInt32.ofNat kbucketMax)) c Q := by
  obtain ⟨table, found, hunsplit, hperm, hcall⟩ :=
    closestPeers_unsplit hl hlen (c.clock c.reads).toInt searchKey
  refine Succeeds.bind (succeeds_emit (Succeeds.bind (succeeds_act (Succeeds.bind (succeeds_act ?_)))))
  simp only [Cluster.netOf, hcall]
  exact Succeeds.bind (succeeds_emit (succeeds_pure (h table found hunsplit hperm)))

end Calls

/-! ## The invariant of the cluster -/

/-- The cluster is as the members describe it, and each node's chunks have the given data. -/
structure Static {n : ℕ} (members : Members n) (data : Fin n → Key → Option Bytes) (c : Cluster n) :
    Prop where
  /-- Each node is the member. -/
  own : ∀ x, (c.nodes x).router.selfPeer = members.peers x
  /-- Each router holds all the others in its root bucket. -/
  unsplit : ∀ x, Unsplit (c.nodes x).router.table (members.others x)
  /-- Each node's chunks. -/
  chunks : ∀ x key, ((c.nodes x).chunks.lookup key).map Chunk.data = data x key

variable {n : ℕ} {members : Members n} {data : Fin n → Key → Option Bytes} {c : Cluster n}

/-- A node's session can be changed as long as it keeps its place. -/
theorem Static.update (h : Static members data c) {x : Fin n} {s : Session}
    {chunks : Key → Option Bytes} (hown : s.router.selfPeer = members.peers x)
    (hunsplit : Unsplit s.router.table (members.others x))
    (hchunks : ∀ key, (s.chunks.lookup key).map Chunk.data = chunks key) :
    Static members (Function.update data x chunks)
      { c with nodes := Function.update c.nodes x s } := by
  refine ⟨fun y => ?_, fun y => ?_, fun y => ?_⟩
  · by_cases hy : y = x
    · subst hy
      simpa using hown
    · simpa [Function.update_of_ne hy] using h.own y
  · by_cases hy : y = x
    · subst hy
      simpa using hunsplit
    · simpa [Function.update_of_ne hy] using h.unsplit y
  · by_cases hy : y = x
    · subst hy
      simpa using hchunks
    · simpa [Function.update_of_ne hy] using h.chunks y

/-- A node's router can be changed as long as it holds the same peers. -/
theorem Static.updateRouter (h : Static members data c) {x : Fin n} {r : Router}
    (hown : r.selfPeer = members.peers x) (hunsplit : Unsplit r.table (members.others x)) :
    Static members data
      { c with nodes := Function.update c.nodes x { c.nodes x with router := r } } := by
  have hupdate := h.update (x := x) (s := { c.nodes x with router := r }) hown hunsplit (h.chunks x)
  rwa [Function.update_eq_self] at hupdate

/-- Reading the clock changes nothing. -/
theorem Static.tick (h : Static members data c) :
    Static members data { c with reads := c.reads + 1 } := ⟨h.own, h.unsplit, h.chunks⟩

/-- Nor does a call of a router that leaves it the same peers. -/
theorem Static.called (h : Static members data c) {x : Fin n} {table : BinaryTree}
    (hunsplit : Unsplit table (members.others x)) : Static members data (c.called x table) :=
  h.tick.updateRouter (h.own x) hunsplit

/-! ## Operations of a node -/

variable {T : Transport} {depth : ℕ} {x y : Fin n} {D : Event → Prop}

/-- Reading a session. -/
theorem succeeds_get
    {deliver : (m : Method) → Bytes → m.Request → Cluster n → Option m.Response × Cluster n} {α : Type}
    {f : Session → α} {Q : Cluster n → α → Prop} (hQ : Q c (f (c.nodes x))) :
    Succeeds D ((Cluster.netOf deliver x).get f) c Q :=
  succeeds_read hQ

/-- A string of a key's bits is read. -/
theorem succeeds_toKey {key : Key} {Q : Cluster n → Key → Prop} (hQ : Q c key) :
    Succeeds D (Net.toKey key.toBytes) c Q := by
  rw [Net.toKey_toBytes]
  exact succeeds_pure hQ

/-- A peer that was sent is read. -/
theorem succeeds_toLocal {p : Peer} {Q : Cluster n → Peer → Prop} (hQ : Q c p) :
    Succeeds D (Net.toLocal (localToRpcPeer p)) c Q := by
  rw [Net.toLocal_localToRpcPeer]
  exact succeeds_pure hQ

/-- Reading the clock moves it on. -/
theorem succeeds_clock (h : Static members data c) {Q : Cluster n → Time → Prop}
    (hQ : ∀ c', Static members data c' → ∀ i : Int64, Q c' i.toInt) :
    Succeeds D (Cluster.node T depth x).clock c Q :=
  succeeds_act (hQ _ h.tick (c.clock c.reads))

/-- Updating another node, which is known, changes no contents. -/
theorem succeeds_updatePeer (h : Static members data c) (hxy : y ≠ x) :
    Succeeds D ((Cluster.node T depth x).updatePeer (members.peers y).key
      (members.peers y).endpoint) c fun c' _ => Static members data c' := by
  refine succeeds_updatePeer_insert fun now => ?_
  obtain ⟨table, hunsplit, hcall⟩ := attemptInsertPeer_unsplit (h.unsplit x) (members.others_nodup x)
    now (members.mem_others.2 ⟨y, hxy, rfl⟩) (members.key_ne (h.own x) hxy)
    (members.endpoint_ne (h.own x) hxy)
  exact ⟨table, hcall, h.called hunsplit⟩

/-- The router's answer is all the other nodes. -/
theorem succeeds_closestPeers (h : Static members data c) (searchKey : Key) :
    Succeeds D ((Cluster.node T depth x).closestPeers searchKey (UInt32.ofNat kbucketMax)) c
      fun c' found => Static members data c' ∧ found.Perm (members.others x) :=
  succeeds_closestPeers_unsplit (h.unsplit x) (members.others_length x) searchKey
    fun _ _ hunsplit hperm => ⟨h.called hunsplit, hperm⟩

/-! ## Handlers -/

/-- The beginning of every handler: the sender is known. -/
theorem succeeds_rpcHandlerPrelims (h : Static members data c) (hxy : y ≠ x) :
    Succeeds D ((Cluster.node T depth x).rpcHandlerPrelims (localToRpcPeer (members.peers y))) c
      fun c' receiver => Static members data c' ∧ receiver = localToRpcPeer (members.peers x) := by
  refine Succeeds.bind (succeeds_toLocal ?_)
  refine Succeeds.bind ((succeeds_updatePeer h hxy).mono fun c' _ h' => ?_)
  exact succeeds_get ⟨h', by rw [h'.own]⟩

/-- `FindNode` answers with all the nodes other than the one that answers. -/
theorem succeeds_handleFindNode (h : Static members data c) (hxy : y ≠ x) (searchKey : Key) :
    Succeeds D ((Cluster.node T depth x).handleFindNode
        ⟨localToRpcPeer (members.peers y), searchKey.toBytes⟩) c
      fun c' response => Static members data c' ∧ ∃ found : List Peer, found.Perm (members.others x) ∧
        response = ⟨localToRpcPeer (members.peers x), found.map localToRpcPeer⟩ := by
  refine Succeeds.bind ((succeeds_rpcHandlerPrelims h hxy).mono fun c' receiver hc' => ?_)
  obtain ⟨h', rfl⟩ := hc'
  refine Succeeds.bind (succeeds_toKey (Succeeds.bind ((succeeds_closestPeers h' searchKey).mono ?_)))
  exact fun c'' found hfound => succeeds_pure ⟨hfound.1, found, hfound.2, rfl⟩

/-- What a node has for a key, it has in its map. -/
theorem Static.lookup_isNone (h : Static members data c) (x : Fin n) (key : Key) :
    ((c.nodes x).chunks.lookup key).isNone = (data x key).isNone := by
  rw [← h.chunks, Option.isNone_map]

/-- `FindValue` answers, where the node has no value, with all the nodes other than the one that
answers. -/
theorem succeeds_handleFindValue (h : Static members data c) (hxy : y ≠ x) {searchKey : Key}
    (hdata : data x searchKey = none) :
    Succeeds D ((Cluster.node T depth x).handleFindValue
        ⟨localToRpcPeer (members.peers y), searchKey.toBytes⟩) c
      fun c' response => Static members data c' ∧ ∃ found : List Peer, found.Perm (members.others x) ∧
        response = ⟨localToRpcPeer (members.peers x), false, [], 0, found.map localToRpcPeer⟩ := by
  refine Succeeds.bind ((succeeds_rpcHandlerPrelims h hxy).mono fun c' receiver hc' => ?_)
  obtain ⟨h', rfl⟩ := hc'
  have hlookup : (c'.nodes x).chunks.lookup searchKey = none := by
    rw [← Option.isNone_iff_eq_none, h'.lookup_isNone, hdata, Option.isNone_none]
  refine Succeeds.bind (succeeds_toKey (Succeeds.bind (succeeds_emit ?_)))
  refine Succeeds.bind (succeeds_get ?_)
  rw [hlookup]
  refine Succeeds.bind (succeeds_emit (Succeeds.bind ((succeeds_closestPeers h' searchKey).mono ?_)))
  exact fun c'' found hfound => succeeds_pure ⟨hfound.1, found, hfound.2, rfl⟩

/-- `StoreInit` answers whether the node has the key. -/
theorem succeeds_handleStoreInit (h : Static members data c) (hxy : y ≠ x) (chunkKey : Key) :
    Succeeds D ((Cluster.node T depth x).handleStoreInit
        ⟨localToRpcPeer (members.peers y), chunkKey.toBytes⟩) c
      fun c' response => Static members data c' ∧
        response = ⟨localToRpcPeer (members.peers x), (data x chunkKey).isNone⟩ := by
  refine Succeeds.bind ((succeeds_rpcHandlerPrelims h hxy).mono fun c' receiver hc' => ?_)
  obtain ⟨h', rfl⟩ := hc'
  refine Succeeds.bind (succeeds_toKey (Succeeds.bind (succeeds_emit ?_)))
  refine Succeeds.bind (succeeds_get (Succeeds.bind (succeeds_emit (succeeds_pure ⟨h', ?_⟩))))
  rw [h'.lookup_isNone]

/-- A time of the clock goes through the wire, cut to seconds. -/
theorem succeeds_ofSeconds {time : Int64} {Q : Cluster n → Time → Prop} (hQ : ∀ time', Q c time') :
    Succeeds D (Net.ofSeconds (Net.toSeconds time.toInt)) c Q := by
  rw [Net.ofSeconds_toSeconds time.le_toInt time.toInt_lt]
  exact succeeds_pure (hQ _)

/-- Data below the limit of a message is copied as it is. -/
theorem succeeds_copyData {bytes : Bytes} (hlen : bytes.length < 2^31) {Q : Cluster n → Bytes → Prop}
    (hQ : Q c bytes) : Succeeds D (Net.copyData bytes (Int32.ofNat bytes.length)) c Q := by
  rw [Net.copyData_length hlen]
  exact succeeds_pure hQ

/-- The data of the nodes after a store at those of the peers. -/
def stored (members : Members n) (data : Fin n → Key → Option Bytes) (peers : List Peer) (key : Key)
    (value : Bytes) : Fin n → Key → Option Bytes :=
  fun y key' => if members.peers y ∈ peers ∧ key' = key then some value else data y key'

/-- The data of the nodes after a store is offered to those of the peers: with `force` they all take
it, and otherwise those that do not have the key. -/
def offered (members : Members n) (data : Fin n → Key → Option Bytes) (force : Bool)
    (peers : List Peer) (key : Key) (value : Bytes) : Fin n → Key → Option Bytes :=
  fun y key' =>
    if members.peers y ∈ peers ∧ key' = key ∧ (force = true ∨ data y key = none) then some value
    else data y key'

@[simp]
theorem offered_nil (data : Fin n → Key → Option Bytes) (force : Bool) (key : Key) (value : Bytes) :
    offered members data force [] key value = data := by
  funext y key'
  simp [offered]

/-- A store is offered to some nodes, and then to others. -/
theorem offered_offered (data : Fin n → Key → Option Bytes) (force : Bool) (peers peers' : List Peer)
    (key : Key) (value : Bytes) :
    offered members (offered members data force peers key value) force peers' key value =
      offered members data force (peers ++ peers') key value := by
  funext y key'
  by_cases hkey : key' = key
  · subst hkey
    by_cases htakes : force = true ∨ data y key' = none
    · by_cases hy : members.peers y ∈ peers <;> by_cases hy' : members.peers y ∈ peers' <;>
        simp [offered, htakes, hy, hy']
    · simp [offered, htakes]
  · simp [offered, hkey]

/-- A node that takes the store has the value, and one that does not has what it had. -/
theorem offered_singleton (data : Fin n → Key → Option Bytes) (force : Bool) (y : Fin n) (key : Key)
    (value : Bytes) :
    offered members data force [members.peers y] key value =
      if force = true ∨ data y key = none then stored members data [members.peers y] key value
      else data := by
  have hpeer : ∀ z, members.peers z = members.peers y → z = y := fun z hz =>
    members.key_injective (congrArg Peer.key hz)
  split_ifs with htakes
  · funext z key'
    by_cases hz : members.peers z = members.peers y
    · obtain rfl := hpeer z hz
      simp [offered, stored, htakes]
    · simp [offered, stored, hz]
  · funext z key'
    by_cases hz : members.peers z = members.peers y
    · obtain rfl := hpeer z hz
      simp [offered, htakes]
    · simp [offered, hz]

/-- A chunk is put into a node's map. -/
theorem Static.insertChunk (h : Static members data c) (x : Fin n) (key : Key) (chunk : Chunk) :
    Static members (stored members data [members.peers x] key chunk.data) { c with
      nodes := Function.update c.nodes x
        { c.nodes x with chunks := (c.nodes x).chunks.insert key chunk } } := by
  have hstored : stored members data [members.peers x] key chunk.data =
      Function.update data x fun key' => if key' = key then some chunk.data else data x key' := by
    funext y key'
    unfold stored
    by_cases hy : y = x
    · subst hy
      simp
    · have hne : members.peers y ≠ members.peers x := fun heq =>
        hy (members.key_injective (congrArg Peer.key heq))
      simp [hy, hne]
  rw [hstored]
  refine h.update (h.own x) (h.unsplit x) fun key' => ?_
  by_cases hkey : key' = key
  · subst hkey
    simp
  · rw [AList.lookup_insert_ne hkey, h.chunks, if_neg hkey]

/-- `Store` puts the data into the map. -/
theorem succeeds_handleStore (h : Static members data c) (hxy : y ≠ x) (key : Key) {value : Bytes}
    (hlen : value.length < 2^31) (time : Int64) :
    Succeeds D ((Cluster.node T depth x).handleStore ⟨localToRpcPeer (members.peers y), key.toBytes,
        value, Int32.ofNat value.length, Net.toSeconds time.toInt⟩) c
      fun c' _ => Static members (stored members data [members.peers x] key value) c' := by
  refine Succeeds.bind ((succeeds_rpcHandlerPrelims h hxy).mono fun c' receiver hc' => ?_)
  obtain ⟨h', rfl⟩ := hc'
  refine Succeeds.bind (succeeds_toKey (Succeeds.bind (succeeds_ofSeconds fun published => ?_)))
  refine Succeeds.bind (succeeds_copyData hlen (Succeeds.bind (succeeds_clock h' ?_)))
  intro c'' h'' last
  refine Succeeds.bind (succeeds_emit (Succeeds.bind (succeeds_act ?_)))
  refine Succeeds.bind (succeeds_emit (succeeds_pure ?_))
  exact h''.insertChunk x key ⟨false, key, value, last.toInt, published⟩

end Distft
