import Distft.Session.Forced
import Distft.Session.RootBucket

/-!
# Nodes that serve, and nodes that do not

A cluster of which only some nodes serve: the others have crashed, or were not started. An RPC to
one of these fails, and its caller evicts it; but it may come back, as others still name it. So the
router of a live node holds members only, of which some may be gone (`Settled`), and what matters is
that no operation makes a live node forget another one (`GoesOn`).

Here are the handlers and the callers of such a cluster. The RPCs to nodes that serve are all
answered (`Event.answeredBy`).
-/

namespace Distft

open Distft.BinaryTree Exec

variable {n : ℕ}

/-- The event is no unanswered RPC to a member that serves. -/
def Event.answeredBy (members : Members n) (serves : Fin n → Bool) : Event → Bool
  | .rpc _ peer _ response =>
    response.isSome || decide (∀ y, serves y = true → (members.peers y).endpoint ≠ peer.endpoint)
  | _ => true

namespace Town

/-- The `Net` of a node in a cluster of which some nodes serve. -/
abbrev node (serves : Fin n → Bool) (T : Transport) (depth : ℕ) (x : Fin n) : Net (Cluster n) :=
  Cluster.netOf (Cluster.deliverTo serves T depth) x

variable {members : Members n} {x y z : Fin n}

/-! ## Buckets of members -/

/-- The root is a bucket of other members. -/
def RootBucket (members : Members n) (x : Fin n) (table : BinaryTree) : Prop :=
  ∃ l, Unsplit table l ∧ (l.map Peer.key).Nodup ∧ l ⊆ members.others x

/-- Other members with distinct keys fit in a bucket. -/
theorem length_le_of_subset_others {l : List Peer} (hnodup : (l.map Peer.key).Nodup)
    (hsub : l ⊆ members.others x) : l.length ≤ kbucketMax :=
  ((hnodup.of_map _).subperm hsub).length_le.trans (members.others_length x)

/-- Inserting another member adds it to the bucket. -/
theorem RootBucket.insert {r : Router} (h : RootBucket members x r.table)
    (hown : r.selfPeer = members.peers x) (hxy : y ≠ x) (now : Time) :
    ∃ table, RootBucket members x table ∧
      (∀ p, p ∈ ({ r with table } : Router).allPeers ↔ p = members.peers y ∨ p ∈ r.allPeers) ∧
      r.attemptInsertPeer now (members.peers y).key (members.peers y).endpoint =
        (true, none, { r with table }) := by
  obtain ⟨l, hl, hnodup, hsub⟩ := h
  have hkey := members.key_ne hown hxy
  have hendpoint := members.endpoint_ne hown hxy
  have hother : members.peers y ∈ members.others x := members.mem_others.2 ⟨y, hxy, rfl⟩
  by_cases hmem : members.peers y ∈ l
  · obtain ⟨table, hunsplit, hcall⟩ := attemptInsertPeer_unsplit hl hnodup now hmem hkey hendpoint
    refine ⟨table, ⟨l, hunsplit, hnodup, hsub⟩, fun p => ?_, hcall⟩
    rw [mem_allPeers_unsplit hl, mem_allPeers_unsplit hunsplit]
    exact ⟨Or.inr, Or.rec (fun heq => heq ▸ hmem) id⟩
  · have hnew : (members.peers y).key ∉ l.map Peer.key := by
      intro hkeys
      obtain ⟨q, hq, hqkey⟩ := List.mem_map.1 hkeys
      obtain rfl := eq_of_key_eq (members.others_nodup x) (hsub hq) hother hqkey
      exact hmem hq
    have hnodup' : ((members.peers y :: l).map Peer.key).Nodup := List.nodup_cons.2 ⟨hnew, hnodup⟩
    have hsub' : members.peers y :: l ⊆ members.others x := List.cons_subset.2 ⟨hother, hsub⟩
    obtain ⟨table, hunsplit, hcall⟩ := attemptInsertPeer_unsplit_new hl
      (length_le_of_subset_others hnodup' hsub') now hnew hkey hendpoint
    refine ⟨table, ⟨_, hunsplit, hnodup', hsub'⟩, fun p => ?_, hcall⟩
    rw [mem_allPeers_unsplit hl, mem_allPeers_unsplit hunsplit, List.mem_cons]

/-- Evicting another member takes it out of the bucket. -/
theorem RootBucket.evict {r : Router} (h : RootBucket members x r.table)
    (hown : r.selfPeer = members.peers x) (hzx : z ≠ x) :
    ∃ table, RootBucket members x table ∧
      (∀ p, p ∈ ({ r with table } : Router).allPeers ↔ p ∈ r.allPeers ∧ p ≠ members.peers z) ∧
      r.evictPeer (members.peers z).key = { r with table } := by
  obtain ⟨l, hl, hnodup, hsub⟩ := h
  obtain ⟨table, hunsplit, hcall⟩ := evictPeer_unsplit hl hnodup (members.key_ne hown hzx)
  refine ⟨table, ⟨_, hunsplit, ?_, fun p hp => hsub (List.mem_of_mem_filter hp)⟩, fun p => ?_, hcall⟩
  · exact hnodup.sublist (List.filter_sublist.map _)
  · rw [mem_allPeers_unsplit hl, mem_allPeers_unsplit hunsplit, List.mem_filter,
      decide_eq_true_eq]
    -- Among the members the key stands for the peer.
    refine and_congr_right fun hp => not_congr ⟨fun heq => ?_, fun heq => heq ▸ rfl⟩
    exact eq_of_key_eq (members.others_nodup x) (hsub hp) (members.mem_others.2 ⟨z, hzx, rfl⟩) heq

/-! ## The invariant -/

/-- Those who serve are members; each live one has a bucket of members, and the given data. -/
structure Settled (members : Members n) (serves live : Fin n → Bool)
    (data : Fin n → Key → Option Bytes) (c : Cluster n) : Prop where
  /-- Live nodes serve. -/
  lives : ∀ x, live x = true → serves x = true
  /-- Each node that serves is the member. -/
  own : ∀ x, serves x = true → (c.nodes x).router.selfPeer = members.peers x
  /-- The buckets. -/
  bucket : ∀ x, live x = true → RootBucket members x (c.nodes x).router.table
  /-- The data. -/
  chunks : ∀ x, live x = true → ∀ key, ((c.nodes x).chunks.lookup key).map Chunk.data = data x key

/-- The node has the peer in its router. -/
def Knows (c : Cluster n) (x : Fin n) (p : Peer) : Prop := p ∈ (c.nodes x).router.allPeers

/-- The cluster is settled after a step in which no live node forgot another one, and nobody else
changed. -/
structure GoesOn (members : Members n) (serves live : Fin n → Bool)
    (data : Fin n → Key → Option Bytes) (c c' : Cluster n) : Prop where
  /-- The cluster is settled. -/
  settled : Settled members serves live data c'
  /-- No live node is forgotten. -/
  grows : ∀ x y, live x = true → live y = true → Knows c x (members.peers y) →
    Knows c' x (members.peers y)
  /-- The others stay as they are. -/
  still : ∀ z, live z = false → c'.nodes z = c.nodes z

variable {serves live : Fin n → Bool} {data data' : Fin n → Key → Option Bytes} {c c' c'' : Cluster n}

theorem GoesOn.refl (h : Settled members serves live data c) :
    GoesOn members serves live data c c := ⟨h, fun _ _ _ _ hk => hk, fun _ _ => rfl⟩

theorem GoesOn.trans (h : GoesOn members serves live data c c')
    (h' : GoesOn members serves live data' c' c'') : GoesOn members serves live data' c c'' where
  settled := h'.settled
  grows x y hx hy hk := h'.grows x y hx hy (h.grows x y hx hy hk)
  still z hz := (h'.still z hz).trans (h.still z hz)

/-- Where nobody's session changes, nothing does. -/
theorem Settled.tick (h : Settled members serves live data c) (hnodes : c'.nodes = c.nodes) :
    GoesOn members serves live data c c' := by
  refine ⟨⟨h.lives, ?_, ?_, ?_⟩, ?_, fun z _ => by rw [hnodes]⟩
  · rw [hnodes]
    exact h.own
  · rw [hnodes]
    exact h.bucket
  · rw [hnodes]
    exact h.chunks
  · unfold Knows
    rw [hnodes]
    exact fun _ _ _ _ hk => hk

/-- A live node's session can be changed as long as it keeps its place and forgets no live node. -/
theorem Settled.update (h : Settled members serves live data c) (hx : live x = true) {s : Session}
    {chunks : Key → Option Bytes} (hown : s.router.selfPeer = members.peers x)
    (hbucket : RootBucket members x s.router.table)
    (hchunks : ∀ key, (s.chunks.lookup key).map Chunk.data = chunks key)
    (hgrows : ∀ y, live y = true → Knows c x (members.peers y) →
      members.peers y ∈ s.router.allPeers) :
    GoesOn members serves live (Function.update data x chunks) c
      { c with nodes := Function.update c.nodes x s } := by
  have hself : Function.update c.nodes x s x = s := Function.update_self ..
  have hother : ∀ y, y ≠ x → Function.update c.nodes x s y = c.nodes y := fun y hy =>
    Function.update_of_ne hy _ _
  constructor
  · refine ⟨h.lives, fun y hy => ?_, fun y hy => ?_, fun y hy => ?_⟩ <;>
      by_cases hyx : y = x
    · subst hyx
      simpa only [hself] using hown
    · simpa only [hother y hyx] using h.own y hy
    · subst hyx
      simpa only [hself] using hbucket
    · simpa only [hother y hyx] using h.bucket y hy
    · subst hyx
      simpa only [hself, Function.update_self] using hchunks
    · simpa only [hother y hyx, Function.update_of_ne hyx] using h.chunks y hy
  · intro y z hy hz hk
    by_cases hyx : y = x
    · subst hyx
      simpa only [Knows, hself] using hgrows z hz hk
    · simpa only [Knows, hother y hyx] using hk
  · intro z hz
    exact hother z fun hzx => by simp [hzx, hx] at hz

/-- A live node's router can be changed as long as it forgets no live node. -/
theorem Settled.updateRouter (h : Settled members serves live data c) (hx : live x = true) {r : Router}
    (hown : r.selfPeer = members.peers x) (hbucket : RootBucket members x r.table)
    (hgrows : ∀ y, live y = true → Knows c x (members.peers y) → members.peers y ∈ r.allPeers) :
    GoesOn members serves live data c
      { c with nodes := Function.update c.nodes x { c.nodes x with router := r } } := by
  have hupdate := h.update (s := { c.nodes x with router := r }) hx hown hbucket (h.chunks x hx) hgrows
  rwa [Function.update_eq_self] at hupdate

/-- A live node's router can be called as long as it forgets no live node. -/
theorem Settled.called (h : Settled members serves live data c) (hx : live x = true)
    {table : BinaryTree} (hbucket : RootBucket members x table)
    (hgrows : ∀ y, live y = true → Knows c x (members.peers y) →
      members.peers y ∈ ({ (c.nodes x).router with table } : Router).allPeers) :
    GoesOn members serves live data c (c.called x table) := by
  have htick : GoesOn members serves live data c { c with reads := c.reads + 1 } := h.tick rfl
  exact htick.trans (htick.settled.updateRouter hx (h.own x (h.lives x hx)) hbucket hgrows)

/-- The data of nodes that are not live does not matter. -/
theorem GoesOn.congr (h : GoesOn members serves live data c c')
    (hdata : ∀ x, live x = true → data x = data' x) : GoesOn members serves live data' c c' :=
  ⟨⟨h.settled.lives, h.settled.own, h.settled.bucket,
    fun x hx key => hdata x hx ▸ h.settled.chunks x hx key⟩, h.grows, h.still⟩

/-! ## Calls of the router -/

variable {T : Transport} {depth : ℕ} {D : Event → Prop}

/-- Reading the clock. -/
theorem succeeds_clock (h : Settled members serves live data c) {Q : Cluster n → Time → Prop}
    (hQ : ∀ c', GoesOn members serves live data c c' → c'.nodes = c.nodes → ∀ i : Int64, Q c' i.toInt) :
    Succeeds D (node serves T depth x).clock c Q :=
  succeeds_act (hQ { c with reads := c.reads + 1 } (h.tick rfl) rfl (c.clock c.reads))

/-- Updating another member: it is known then. -/
theorem succeeds_updatePeer (h : Settled members serves live data c) (hx : live x = true)
    (hxy : y ≠ x) :
    Succeeds D ((node serves T depth x).updatePeer (members.peers y).key (members.peers y).endpoint) c
      fun c' _ => GoesOn members serves live data c c' ∧ Knows c' x (members.peers y) := by
  refine succeeds_updatePeer_insert fun now => ?_
  obtain ⟨table, hbucket, hpeers, hcall⟩ :=
    (h.bucket x hx).insert (h.own x (h.lives x hx)) hxy now
  refine ⟨table, hcall, h.called hx hbucket fun z _ hk => (hpeers _).2 (Or.inr hk), ?_⟩
  simpa only [Knows, Cluster.called, Function.update_self] using (hpeers _).2 (Or.inl rfl)

/-- Evicting a member that is not live. -/
theorem succeeds_evictPeer (h : Settled members serves live data c) (hx : live x = true)
    (hz : live z = false) :
    Succeeds D ((node serves T depth x).evictPeer (members.peers z).key) c
      fun c' _ => GoesOn members serves live data c c' := by
  have hzx : z ≠ x := fun heq => by simp [heq, hx] at hz
  have hown := h.own x (h.lives x hx)
  obtain ⟨table, hbucket, hpeers, hcall⟩ := (h.bucket x hx).evict hown hzx
  refine Succeeds.bind (succeeds_emit (succeeds_act ?_))
  simp only [Cluster.netOf, hcall]
  refine h.updateRouter hx hown hbucket fun y hy hk => (hpeers _).2 ⟨hk, fun heq => ?_⟩
  obtain rfl := members.key_injective (congrArg Peer.key heq)
  simp [hy] at hz

/-- The closest peers are all that are known. -/
theorem succeeds_closestPeers (h : Settled members serves live data c) (hx : live x = true)
    (searchKey : Key) :
    Succeeds D ((node serves T depth x).closestPeers searchKey (UInt32.ofNat kbucketMax)) c
      fun c' found => GoesOn members serves live data c c' ∧ found ⊆ members.others x ∧
        ∀ p, p ∈ found ↔ Knows c x p := by
  obtain ⟨l, hl, hnodup, hsub⟩ := h.bucket x hx
  refine succeeds_closestPeers_unsplit hl (length_le_of_subset_others hnodup hsub) searchKey ?_
  intro table found hunsplit hperm
  refine ⟨h.called hx ⟨l, hunsplit, hnodup, hsub⟩ fun z _ hk => ?_,
    fun p hp => hsub (hperm.mem_iff.1 hp), fun p => ?_⟩
  · rw [Knows, mem_allPeers_unsplit hl] at hk
    exact (mem_allPeers_unsplit hunsplit _).2 hk
  · rw [Knows, mem_allPeers_unsplit hl, hperm.mem_iff]

/-! ## Handlers -/

/-- The beginning of every handler: the sender is known. -/
theorem succeeds_rpcHandlerPrelims (h : Settled members serves live data c) (hy : live y = true)
    (hxy : y ≠ x) :
    Succeeds D ((node serves T depth y).rpcHandlerPrelims (localToRpcPeer (members.peers x))) c
      fun c' receiver => GoesOn members serves live data c c' ∧ Knows c' y (members.peers x) ∧
        receiver = localToRpcPeer (members.peers y) := by
  refine Succeeds.bind (succeeds_toLocal ?_)
  refine Succeeds.bind ((succeeds_updatePeer h hy hxy.symm).mono fun c' _ h' => ?_)
  exact succeeds_get ⟨h'.1, h'.2, by rw [h'.1.settled.own y (h.lives y hy)]⟩

/-- `Ping` answers with the node itself. -/
theorem succeeds_handlePing (h : Settled members serves live data c) (hy : live y = true)
    (hxy : y ≠ x) :
    Succeeds D ((node serves T depth y).handlePing ⟨localToRpcPeer (members.peers x)⟩) c
      fun c' response => GoesOn members serves live data c c' ∧ Knows c' y (members.peers x) ∧
        response = ⟨localToRpcPeer (members.peers y)⟩ := by
  refine Succeeds.bind ((succeeds_rpcHandlerPrelims h hy hxy).mono fun c' receiver hc' => ?_)
  obtain ⟨h', hknows, rfl⟩ := hc'
  exact succeeds_pure ⟨h', hknows, rfl⟩

/-- A handler names members: other nodes, and all the live ones that the node knew before. -/
def Names (members : Members n) (live : Fin n → Bool) (c : Cluster n) (y : Fin n)
    (peers : List RpcPeer) : Prop :=
  ∃ found : List Peer, peers = found.map localToRpcPeer ∧ found ⊆ members.others y ∧
    ∀ z, live z = true → Knows c y (members.peers z) → members.peers z ∈ found

/-- `FindNode` answers with all the nodes that are known. -/
theorem succeeds_handleFindNode (h : Settled members serves live data c) (hx : live x = true)
    (hy : live y = true) (hxy : y ≠ x) (searchKey : Key) :
    Succeeds D ((node serves T depth y).handleFindNode
        ⟨localToRpcPeer (members.peers x), searchKey.toBytes⟩) c
      fun c' response => GoesOn members serves live data c c' ∧ Knows c' y (members.peers x) ∧
        response.receiver = localToRpcPeer (members.peers y) ∧
        Names members live c y response.closestPeers := by
  refine Succeeds.bind ((succeeds_rpcHandlerPrelims h hy hxy).mono fun c' receiver hc' => ?_)
  obtain ⟨h', hknows, rfl⟩ := hc'
  refine Succeeds.bind (succeeds_toKey (Succeeds.bind ?_))
  refine (succeeds_closestPeers h'.settled hy searchKey).mono fun c'' found hfound => ?_
  obtain ⟨h'', hsub, hall⟩ := hfound
  refine succeeds_pure ⟨h'.trans h'', h''.grows y x hy hx hknows, rfl, found, rfl, hsub, ?_⟩
  exact fun z hz hk => (hall _).2 (h'.grows y z hy hz hk)

/-- `FindValue` answers with the value, or with all the nodes that are known. -/
theorem succeeds_handleFindValue (h : Settled members serves live data c) (hx : live x = true)
    (hy : live y = true) (hxy : y ≠ x) (searchKey : Key) :
    Succeeds D ((node serves T depth y).handleFindValue
        ⟨localToRpcPeer (members.peers x), searchKey.toBytes⟩) c
      fun c' response => GoesOn members serves live data c c' ∧ Knows c' y (members.peers x) ∧
        response.receiver = localToRpcPeer (members.peers y) ∧
        ((∃ value, data y searchKey = some value ∧ response.foundValue = true ∧
            response.data = value ∧ response.size = Int32.ofNat value.length) ∨
          data y searchKey = none ∧ response.foundValue = false ∧
            Names members live c y response.closestPeers) := by
  refine Succeeds.bind ((succeeds_rpcHandlerPrelims h hy hxy).mono fun c' receiver hc' => ?_)
  obtain ⟨h', hknows, rfl⟩ := hc'
  refine Succeeds.bind (succeeds_toKey (Succeeds.bind (succeeds_emit (Succeeds.bind ?_))))
  refine succeeds_get ?_
  have hlookup := h'.settled.chunks y hy searchKey
  cases hchunk : (c'.nodes y).chunks.lookup searchKey with
  | some chunk =>
    rw [hchunk] at hlookup
    refine Succeeds.bind (succeeds_emit (succeeds_pure ⟨h', hknows, rfl, Or.inl ?_⟩))
    exact ⟨chunk.data, hlookup.symm, rfl, rfl, rfl⟩
  | none =>
    rw [hchunk] at hlookup
    refine Succeeds.bind (succeeds_emit (Succeeds.bind ?_))
    refine (succeeds_closestPeers h'.settled hy searchKey).mono fun c'' found hfound => ?_
    obtain ⟨h'', hsub, hall⟩ := hfound
    refine succeeds_pure ⟨h'.trans h'', h''.grows y x hy hx hknows, rfl, Or.inr ?_⟩
    exact ⟨hlookup.symm, rfl, found, rfl, hsub, fun z hz hk => (hall _).2 (h'.grows y z hy hz hk)⟩

/-- `StoreInit` answers whether the node has the key. -/
theorem succeeds_handleStoreInit (h : Settled members serves live data c) (hy : live y = true)
    (hxy : y ≠ x) (chunkKey : Key) :
    Succeeds D ((node serves T depth y).handleStoreInit
        ⟨localToRpcPeer (members.peers x), chunkKey.toBytes⟩) c
      fun c' response => GoesOn members serves live data c c' ∧
        response = ⟨localToRpcPeer (members.peers y), (data y chunkKey).isNone⟩ := by
  refine Succeeds.bind ((succeeds_rpcHandlerPrelims h hy hxy).mono fun c' receiver hc' => ?_)
  obtain ⟨h', -, rfl⟩ := hc'
  refine Succeeds.bind (succeeds_toKey (Succeeds.bind (succeeds_emit ?_)))
  refine Succeeds.bind (succeeds_get (Succeeds.bind (succeeds_emit (succeeds_pure ⟨h', ?_⟩))))
  rw [← h'.settled.chunks y hy, Option.isNone_map]

/-- A chunk is put into the map of a live node. -/
theorem Settled.insertChunk (h : Settled members serves live data c) (hx : live x = true) (key : Key)
    (chunk : Chunk) :
    GoesOn members serves live (stored members data [members.peers x] key chunk.data) c { c with
      nodes := Function.update c.nodes x
        { c.nodes x with chunks := (c.nodes x).chunks.insert key chunk } } := by
  have hstored : stored members data [members.peers x] key chunk.data =
      Function.update data x fun key' => if key' = key then some chunk.data else data x key' := by
    funext y key'
    unfold stored
    by_cases hy : y = x
    · subst hy
      simp
    · have hne : members.peers y ≠ members.peers x := fun heq =>
        hy (members.key_injective (congrArg Peer.key heq))
      simp [hy, hne]
  rw [hstored]
  refine h.update hx (h.own x (h.lives x hx)) (h.bucket x hx) (fun key' => ?_) fun _ _ hk => hk
  by_cases hkey : key' = key
  · subst hkey
    simp
  · rw [AList.lookup_insert_ne hkey, h.chunks x hx, if_neg hkey]

/-- `Store` puts the data into the map. -/
theorem succeeds_handleStore (h : Settled members serves live data c) (hy : live y = true)
    (hxy : y ≠ x) (key : Key) {value : Bytes} (hlen : value.length < 2^31) (time : Int64) :
    Succeeds D ((node serves T depth y).handleStore ⟨localToRpcPeer (members.peers x), key.toBytes,
        value, Int32.ofNat value.length, Net.toSeconds time.toInt⟩) c
      fun c' _ => GoesOn members serves live (stored members data [members.peers y] key value) c c' := by
  refine Succeeds.bind ((succeeds_rpcHandlerPrelims h hy hxy).mono fun c' receiver hc' => ?_)
  obtain ⟨h', -, rfl⟩ := hc'
  refine Succeeds.bind (succeeds_toKey (Succeeds.bind (succeeds_ofSeconds fun published => ?_)))
  refine Succeeds.bind (succeeds_copyData hlen (Succeeds.bind (succeeds_clock h'.settled ?_)))
  intro c'' h'' _ last
  refine Succeeds.bind (succeeds_emit (Succeeds.bind (succeeds_act ?_)))
  refine Succeeds.bind (succeeds_emit (succeeds_pure ?_))
  exact (h'.trans h'').trans
    (h''.settled.insertChunk hy key ⟨false, key, value, last.toInt, published⟩)

/-! ## Callers -/

/-- The endpoint of a member that serves leads to it. -/
theorem find_serving (h : Settled members serves live data c) (hy : serves y = true) :
    ((List.finRange n).find? fun z => serves z &&
      (c.nodes z).router.selfPeer.endpoint == (members.peers y).endpoint) = some y := by
  have hown : ∀ z, (serves z &&
      (c.nodes z).router.selfPeer.endpoint == (members.peers y).endpoint) = true ↔ z = y := by
    intro z
    rw [Bool.and_eq_true, beq_iff_eq]
    constructor
    · rintro ⟨hz, heq⟩
      rw [h.own z hz] at heq
      exact members.endpoint_injective heq
    · rintro rfl
      exact ⟨hy, by rw [h.own z hy]⟩
  obtain ⟨z, hz⟩ : ∃ z, ((List.finRange n).find? fun z => serves z &&
      (c.nodes z).router.selfPeer.endpoint == (members.peers y).endpoint) = some z := by
    rw [← Option.isSome_iff_exists, List.find?_isSome]
    exact ⟨y, List.mem_finRange y, (hown y).2 rfl⟩
  have hserves := List.find?_some hz
  obtain rfl := (hown z).1 hserves
  exact hz

/-- The endpoint of a member that does not serve leads nowhere. -/
theorem find_notServing (h : Settled members serves live data c) (hy : serves y = false) :
    ((List.finRange n).find? fun z => serves z &&
      (c.nodes z).router.selfPeer.endpoint == (members.peers y).endpoint) = none := by
  rw [List.find?_eq_none]
  rintro z - hz
  rw [Bool.and_eq_true, beq_iff_eq] at hz
  rw [h.own z hz.1] at hz
  obtain rfl := members.endpoint_injective hz.2
  rw [hy] at hz
  exact nomatch hz.1

/-- An RPC to a member that serves was handled there, and one to a member that does not has failed. -/
theorem succeeds_callTo (h : Settled members serves live data c) {m : Method} {request : m.Request}
    {peer : Peer} (hpeer : peer.endpoint = (members.peers y).endpoint)
    {Q : Cluster n → Option m.Response → Prop}
    (hserves : ∀ depth, serves y = true → T.carries m request = true →
      Succeeds (fun _ => True) ((node serves T depth y).handle m request) c
        fun c' response => T.returns m response = true → Q c' (some response))
    (hfails : serves y = false → Q c none) :
    Succeeds (fun e => e.answeredBy members serves = true)
      ((node serves T depth x).call m peer request) c Q := by
  intro hanswered
  refine ⟨_, rfl, ?_⟩
  show Q (Cluster.deliverTo serves T depth m peer.endpoint request c).2
    (Cluster.deliverTo serves T depth m peer.endpoint request c).1
  rw [hpeer]
  cases hy : serves y with
  | false =>
    -- Nobody serves the endpoint.
    have hnone : Cluster.deliverTo serves T depth m (members.peers y).endpoint request c =
        (none, c) := by
      cases depth with
      | zero => rfl
      | succ depth => simp only [Cluster.deliverTo, find_notServing h hy]
    rw [hnone]
    exact hfails hy
  | true =>
    have hevent := hanswered (.rpc m peer request _) (List.mem_singleton_self _)
    have hsome : (Cluster.deliverTo serves T depth m (members.peers y).endpoint request c).1.isSome =
        true := by
      simp only [Event.answeredBy, Bool.or_eq_true, decide_eq_true_eq] at hevent
      rw [← hpeer]
      exact hevent.resolve_right fun hne => hne y hy hpeer.symm
    -- An RPC that is answered has gone through every check of the delivery.
    cases depth with
    | zero => simp [Cluster.deliverTo] at hsome
    | succ depth =>
      simp only [Cluster.deliverTo, find_serving h hy] at hsome ⊢
      by_cases hcarries : T.carries m request = true
      · obtain ⟨response, hresult, hq⟩ := hserves depth hy hcarries fun _ _ => trivial
        unfold node at hresult hq
        simp only [if_pos hcarries, hresult] at hsome ⊢
        by_cases hreturns : T.returns m response = true
        · rw [if_pos hreturns]
          exact hq hreturns
        · exact absurd hsome (by simp [hreturns])
      · exact absurd hsome (by simp [hcarries])

/-- The end of every caller: the receiver is known. -/
theorem succeeds_rpcCallerEpilogue (h : Settled members serves live data c) (hx : live x = true)
    (hxy : y ≠ x) :
    Succeeds D ((node serves T depth x).rpcCallerEpilogue (localToRpcPeer (members.peers y))) c
      fun c' _ => GoesOn members serves live data c c' ∧ Knows c' x (members.peers y) :=
  Succeeds.bind (succeeds_toLocal (succeeds_updatePeer h hx hxy))

/-- Of the members that a response names, the others are known then, and are those that are learned.
-/
theorem succeeds_learnPeers (peers : List Peer) (hpeers : ∀ p ∈ peers, ∃ y, members.peers y = p)
    (h : Settled members serves live data c) (hx : live x = true) :
    Succeeds D ((node serves T depth x).learnPeers (peers.map localToRpcPeer)) c
      fun c' found => GoesOn members serves live data c c' ∧ found ⊆ members.others x ∧
        ∀ z, z ≠ x → live z = true → members.peers z ∈ peers → Knows c' x (members.peers z) := by
  induction peers generalizing c with
  | nil => exact succeeds_pure ⟨.refl h, List.nil_subset _, fun _ _ _ hz => absurd hz List.not_mem_nil⟩
  | cons p rest ih =>
    obtain ⟨y, rfl⟩ := hpeers p List.mem_cons_self
    have hrest : ∀ p ∈ rest, ∃ y, members.peers y = p := fun p hp =>
      hpeers p (List.mem_cons_of_mem _ hp)
    have hpeer : ∀ z, members.peers z = members.peers y → z = y := fun z hz =>
      members.key_injective (congrArg Peer.key hz)
    unfold Net.learnPeers
    refine Succeeds.bind (succeeds_toLocal ?_)
    refine Succeeds.bind (succeeds_get (Succeeds.bind (succeeds_get ?_)))
    by_cases hself : (members.peers y).key = (c.nodes x).router.selfPeer.key ∨
        (members.peers y).endpoint = (c.nodes x).router.selfPeer.endpoint
    · rw [if_pos hself]
      have hxy : y = x := by
        rw [h.own x (h.lives x hx)] at hself
        exact hself.elim (fun heq => members.key_injective heq)
          fun heq => members.endpoint_injective heq
      refine (ih hrest h).mono fun c' found hc' => ⟨hc'.1, hc'.2.1, fun z hzx hz hmem => ?_⟩
      rcases List.mem_cons.1 hmem with heq | hmem
      · exact absurd ((hpeer z heq).trans hxy) hzx
      · exact hc'.2.2 z hzx hz hmem
    · rw [if_neg hself]
      have hxy : y ≠ x := by
        rintro rfl
        exact hself (Or.inl (by rw [h.own y (h.lives y hx)]))
      refine Succeeds.bind ((succeeds_updatePeer h hx hxy).mono fun c' _ h' => ?_)
      refine Succeeds.bind ((ih hrest h'.1.settled).mono fun c'' found hc'' => ?_)
      obtain ⟨h'', hfound, hlearned⟩ := hc''
      refine succeeds_pure ⟨h'.1.trans h'', List.cons_subset.2 ⟨?_, hfound⟩, fun z hzx hz hmem => ?_⟩
      · exact members.mem_others.2 ⟨y, hxy, rfl⟩
      · rcases List.mem_cons.1 hmem with heq | hmem
        · obtain rfl := hpeer z heq
          exact h''.grows x z hx hz h'.2
        · exact hlearned z hzx hz hmem

/-- Two live nodes know one another, and the first knows all live nodes that the second knew. -/
def Met (members : Members n) (live : Fin n → Bool) (c c' : Cluster n) (x y : Fin n) : Prop :=
  Knows c' y (members.peers x) ∧ Knows c' x (members.peers y) ∧
    ∀ z, z ≠ x → live z = true → Knows c y (members.peers z) → Knows c' x (members.peers z)

/-- The names of a response are learned, before whatever follows in `find_node` and `find_value`. -/
theorem succeeds_meet {α : Type} (h : Settled members serves live data c) (hx : live x = true)
    (hy : live y = true) (hxy : y ≠ x) {c₀ : Cluster n} (hknows : Knows c y (members.peers x))
    {peers : List RpcPeer} (hnames : Names members live c₀ y peers) {f : List Peer → Op (Cluster n) α}
    {Q : Cluster n → α → Prop}
    (hf : ∀ c' found, GoesOn members serves live data c c' → found ⊆ members.others x →
      Met members live c₀ c' x y → Succeeds D (f found) c' Q) :
    Succeeds D ((node serves T depth x).rpcCallerEpilogue (localToRpcPeer (members.peers y)) >>=
      fun _ => (node serves T depth x).learnPeers peers >>= f) c Q := by
  obtain ⟨named, rfl, hsub, hall⟩ := hnames
  refine Succeeds.bind ((succeeds_rpcCallerEpilogue h hx hxy).mono fun c' _ h' => ?_)
  have hmembers : ∀ p ∈ named, ∃ z, members.peers z = p := fun p hp =>
    (members.mem_others.1 (hsub hp)).imp fun _ hz => hz.2
  refine Succeeds.bind ((succeeds_learnPeers named hmembers h'.1.settled hx).mono
    fun c'' found hc'' => ?_)
  obtain ⟨h'', hfound, hlearned⟩ := hc''
  have hgo := h'.1.trans h''
  exact hf c'' found hgo hfound ⟨hgo.grows y x hy hx hknows, h''.grows x y hx hy h'.2,
    fun z hzx hz hk => hlearned z hzx hz (hall z hz hk)⟩

/-! ## Callers, where the nodes that serve are the live ones -/

/-- The RPCs to live nodes are answered. -/
abbrev Answered (members : Members n) (live : Fin n → Bool) (e : Event) : Prop :=
  e.answeredBy members live = true

/-- An RPC that fails, to a node that is not live, and the eviction after it. -/
theorem succeeds_fail {α : Type} (h : Settled members live live data c) (hx : live x = true)
    (hy : live y = false) {a : α} {Q : Cluster n → α → Prop}
    (hQ : ∀ c', GoesOn members live live data c c' → Q c' a) :
    Succeeds D ((node live T depth x).evictPeer (members.peers y).key >>= fun _ => pure a) c Q :=
  Succeeds.bind ((succeeds_evictPeer h hx hy).mono fun c' _ h' => succeeds_pure (hQ c' h'))

/-- `find_node` to another member: a live one is met, and whatever is found are other members. -/
theorem succeeds_findNode (h : Settled members live live data c) (hx : live x = true) (hxy : y ≠ x)
    (searchKey : Key) :
    Succeeds (Answered members live) ((node live T depth x).findNode (members.peers y) searchKey) c
      fun c' answer => GoesOn members live live data c c' ∧
        (∀ found, answer = some found → found ⊆ members.others x) ∧
        (live y = true → Met members live c c' x y) := by
  refine Succeeds.bind (succeeds_get ?_)
  rw [h.own x hx]
  refine Succeeds.bind (succeeds_callTo h rfl (fun depth hy _ => ?_) fun hy => ?_)
  · refine (succeeds_handleFindNode h hx hy hxy searchKey).mono fun c' response hc' _ => ?_
    obtain ⟨h', hknows, hreceiver, hnames⟩ := hc'
    simp only [hreceiver]
    refine succeeds_meet h'.settled hx hy hxy hknows hnames fun c'' found h'' hfound hmet => ?_
    refine succeeds_pure ⟨h'.trans h'', fun found' heq => ?_, fun _ => hmet⟩
    exact Option.some.inj heq ▸ hfound
  · exact succeeds_fail h hx hy fun c' h' =>
      ⟨h', by simp, fun hlive => by simp [hlive] at hy⟩

/-- What `find_value` comes to at another member: it fails at one that is not live, and otherwise
finds the value of that node, or other members where the node has none. -/
def FoundValue (members : Members n) (live : Fin n → Bool) (data : Fin n → Key → Option Bytes)
    (x y : Fin n) (searchKey : Key) : Option (Bytes ⊕ List Peer) → Prop
  | none => live y = false
  | some (.inl value) => live y = true ∧ data y searchKey = some value
  | some (.inr found) => live y = true ∧ data y searchKey = none ∧ found ⊆ members.others x

/-- `find_value` to another member. -/
theorem succeeds_findValue (h : Settled members live live data c) (hx : live x = true) (hxy : y ≠ x)
    (searchKey : Key) :
    Succeeds (Answered members live) ((node live T depth x).findValue (members.peers y) searchKey) c
      fun c' answer => GoesOn members live live data c c' ∧
        FoundValue members live data x y searchKey answer := by
  refine Succeeds.bind (succeeds_get ?_)
  rw [h.own x hx]
  refine Succeeds.bind (succeeds_callTo h rfl (fun depth hy _ => ?_) fun hy => ?_)
  · refine (succeeds_handleFindValue h hx hy hxy searchKey).mono fun c' response hc' hreturns => ?_
    obtain ⟨h', hknows, hreceiver, hvalue | hnone⟩ := hc'
    · obtain ⟨value, hdata, hfound, hbytes, hsize⟩ := hvalue
      have hlen : value.length < 2^31 := hbytes ▸ T.limit_findValue response hreturns
      simp only [hreceiver, hfound, hbytes, hsize, if_true]
      refine Succeeds.bind ((succeeds_rpcCallerEpilogue h'.settled hx hxy).mono fun c'' _ h'' => ?_)
      exact Succeeds.bind (succeeds_copyData hlen (succeeds_pure ⟨h'.trans h''.1, hy, hdata⟩))
    · obtain ⟨hdata, hfound, hnames⟩ := hnone
      simp only [hreceiver, hfound, Bool.false_eq_true, if_false]
      refine succeeds_meet h'.settled hx hy hxy hknows hnames fun c'' found h'' hsub _ => ?_
      exact succeeds_pure ⟨h'.trans h'', hy, hdata, hsub⟩
  · exact succeeds_fail h hx hy fun c' h' => ⟨h', hy⟩

/-- A store is offered to another member: a live one takes it with force, or where it does not have
the key. -/
theorem succeeds_store (h : Settled members live live data c) (hx : live x = true) (hxy : y ≠ x)
    {key : Key} {value : Bytes} {original : Bool} {last : Time} (published : Int64) (force : Bool) :
    Succeeds (Answered members live) ((node live T depth x).store (members.peers y)
        ⟨original, key, value, last, published.toInt⟩ force) c
      fun c' _ => GoesOn members live live
        (offered members data force [members.peers y] key value) c c' := by
  have hsame : ∀ z, z ≠ y → offered members data force [members.peers y] key value z = data z := by
    intro z hz
    funext key'
    have hne : members.peers z ≠ members.peers y := fun heq =>
      hz (members.key_injective (congrArg Peer.key heq))
    simp [offered, hne]
  refine Succeeds.bind (succeeds_get ?_)
  rw [h.own x hx]
  refine Succeeds.bind (succeeds_callTo h rfl (fun depth hy _ => ?_) fun hy => ?_)
  · refine (succeeds_handleStoreInit h hy hxy key).mono fun c' response hc' _ => ?_
    obtain ⟨h', rfl⟩ := hc'
    rw [offered_singleton]
    show Succeeds _ (if (!(data y key).isNone && !force) = true then _ else _) c' _
    by_cases htakes : force = true ∨ data y key = none
    · rw [if_neg (by rcases htakes with rfl | hnone <;> simp [*]), if_pos htakes]
      refine Succeeds.bind ((succeeds_rpcCallerEpilogue h'.settled hx hxy).mono fun c'' _ h'' => ?_)
      refine Succeeds.bind (succeeds_get ?_)
      rw [h''.1.settled.own x hx]
      refine Succeeds.bind (succeeds_callTo h''.1.settled rfl (fun depth _ hcarries => ?_)
        fun hfails => ?_)
      · refine (succeeds_handleStore h''.1.settled hy hxy key (T.limit_store _ hcarries)
          published).mono fun c₃ _ h₃ _ => ?_
        refine Succeeds.bind ((succeeds_rpcCallerEpilogue h₃.settled hx hxy).mono fun c₄ _ h₄ => ?_)
        exact succeeds_pure (((h'.trans h''.1).trans h₃).trans h₄.1)
      · exact absurd hy (by simp [hfails])
    · obtain ⟨hforce, hhas⟩ := not_or.1 htakes
      rw [if_pos (by simp [hforce, Option.ne_none_iff_isSome.1 hhas]), if_neg htakes]
      exact succeeds_pure h'
  · refine succeeds_fail h hx hy fun c' h' => h'.congr fun z hz => (hsame z fun heq => ?_).symm
    simp [heq, hy] at hz

end Town

end Distft
