import Distft.Session.Static

/-!
# Forced sets are visible everywhere

The callers and the lookups of a node of a static cluster whose RPCs are all answered. An RPC
between two members is handled by the one that it is sent to, and names only members. So the list of
a lookup stays within the other nodes; it begins with all of them, and the cut to the nearest
`KBUCKET_MAX` takes none away. A `set` is therefore offered to every other node (`succeeds_set`); a
forced one stores at every node, and `get` finds the value at home.
-/

namespace Distft

open Exec

variable {n : ℕ} {members : Members n} {data : Fin n → Key → Option Bytes} {c : Cluster n}
variable {T : Transport} {depth : ℕ} {x y : Fin n}

/-- An event that is no unanswered RPC. -/
abbrev Answered (e : Event) : Prop := e.answered = true

/-! ## Callers -/

/-- The endpoint of a member leads to it. -/
theorem find_endpoint (h : Static members data c) (y : Fin n) :
    ((List.finRange n).find? fun z =>
      (c.nodes z).router.selfPeer.endpoint == (members.peers y).endpoint) = some y := by
  have hown : ∀ z, ((c.nodes z).router.selfPeer.endpoint == (members.peers y).endpoint) = true ↔
      z = y := by
    intro z
    rw [h.own, beq_iff_eq]
    exact members.endpoint_injective.eq_iff
  obtain ⟨z, hz⟩ : ∃ z, ((List.finRange n).find? fun z =>
      (c.nodes z).router.selfPeer.endpoint == (members.peers y).endpoint) = some z := by
    rw [← Option.isSome_iff_exists, List.find?_isSome]
    exact ⟨y, List.mem_finRange y, (hown y).2 rfl⟩
  have hserves := List.find?_some hz
  obtain rfl := (hown z).1 hserves
  exact hz

/-- An RPC that is answered arrived at the member and was handled there. -/
theorem succeeds_call (h : Static members data c) {m : Method} {request : m.Request}
    {Q : Cluster n → m.Response → Prop} {R : Cluster n → Option m.Response → Prop}
    (hhandle : ∀ depth, T.carries m request = true →
      Succeeds (fun _ => True) ((Cluster.node T depth y).handle m request) c Q)
    (hQ : ∀ c' response, Q c' response → R c' (some response)) :
    Succeeds Answered ((Cluster.node T depth x).call m (members.peers y) request) c R := by
  intro hanswered
  have hsome : (Cluster.deliver T depth m (members.peers y).endpoint request c).1.isSome = true :=
    hanswered (.rpc m _ request _) (List.mem_singleton_self _)
  refine ⟨_, rfl, ?_⟩
  show R (Cluster.deliver T depth m (members.peers y).endpoint request c).2
    (Cluster.deliver T depth m (members.peers y).endpoint request c).1
  -- An RPC that is answered has gone through every check of the delivery.
  cases depth with
  | zero => exact nomatch hsome
  | succ depth =>
    simp only [Cluster.deliver, Cluster.deliverTo, Bool.true_and, find_endpoint h] at hsome ⊢
    by_cases hcarries : T.carries m request = true
    · obtain ⟨response, hresult, hq⟩ := hhandle depth hcarries fun _ _ => trivial
      unfold Cluster.node Cluster.deliver at hresult hq
      simp only [if_pos hcarries, hresult] at hsome ⊢
      by_cases hreturns : T.returns m response = true
      · rw [if_pos hreturns]
        exact hQ _ _ hq
      · exact absurd hsome (by simp [hreturns])
    · exact absurd hsome (by simp [hcarries])

/-- The end of every caller: the receiver is known. -/
theorem succeeds_rpcCallerEpilogue (h : Static members data c) (hxy : y ≠ x) :
    Succeeds Answered
      ((Cluster.node T depth x).rpcCallerEpilogue (localToRpcPeer (members.peers y))) c
      fun c' _ => Static members data c' :=
  Succeeds.bind (succeeds_toLocal (succeeds_updatePeer h hxy))

/-- The members that a response names are known, and those that are learned are other nodes. -/
theorem succeeds_learnPeers (peers : List Peer) (hpeers : ∀ p ∈ peers, ∃ y, members.peers y = p)
    (h : Static members data c) :
    Succeeds Answered ((Cluster.node T depth x).learnPeers (peers.map localToRpcPeer)) c
      fun c' found => Static members data c' ∧ found ⊆ members.others x := by
  induction peers generalizing c with
  | nil => exact succeeds_pure ⟨h, List.nil_subset _⟩
  | cons p rest ih =>
    obtain ⟨y, rfl⟩ := hpeers p List.mem_cons_self
    have hrest : ∀ p ∈ rest, ∃ y, members.peers y = p := fun p hp =>
      hpeers p (List.mem_cons_of_mem _ hp)
    unfold Net.learnPeers
    refine Succeeds.bind (succeeds_toLocal ?_)
    refine Succeeds.bind (succeeds_get (Succeeds.bind (succeeds_get ?_)))
    by_cases hself : (members.peers y).key = (c.nodes x).router.selfPeer.key ∨
        (members.peers y).endpoint = (c.nodes x).router.selfPeer.endpoint
    · rw [if_pos hself]
      exact ih hrest h
    · rw [if_neg hself]
      have hxy : y ≠ x := by
        rintro rfl
        exact hself (Or.inl (by rw [h.own]))
      refine Succeeds.bind ((succeeds_updatePeer h hxy).mono fun c' _ h' => ?_)
      refine Succeeds.bind ((ih hrest h').mono fun c'' found hfound => ?_)
      refine succeeds_pure ⟨hfound.1, List.cons_subset.2 ⟨?_, hfound.2⟩⟩
      exact members.mem_others.2 ⟨y, hxy, rfl⟩

/-- `find_node` to another node finds other nodes. -/
theorem succeeds_findNode (h : Static members data c) (hxy : y ≠ x) (searchKey : Key) :
    Succeeds Answered ((Cluster.node T depth x).findNode (members.peers y) searchKey) c
      fun c' answer => Static members data c' ∧
        ∃ found, answer = some found ∧ found ⊆ members.others x := by
  refine Succeeds.bind (succeeds_get ?_)
  rw [h.own]
  refine Succeeds.bind (succeeds_call h (fun _ _ => succeeds_handleFindNode h hxy.symm searchKey) ?_)
  rintro c' response ⟨h', peers, hperm, rfl⟩
  refine Succeeds.bind ((succeeds_rpcCallerEpilogue h' hxy).mono fun c'' _ h'' => ?_)
  have hpeers : ∀ p ∈ peers, ∃ z, members.peers z = p := fun p hp =>
    (members.mem_others.1 (hperm.mem_iff.1 hp)).imp fun _ hz => hz.2
  refine Succeeds.bind ((succeeds_learnPeers peers hpeers h'').mono fun _ found hfound => ?_)
  exact succeeds_pure ⟨hfound.1, found, rfl, hfound.2⟩

/-- A store is offered to another node: it is taken with force, or where the node does not have the
key. -/
theorem succeeds_store (h : Static members data c) (hxy : y ≠ x) {key : Key} {value : Bytes}
    {original : Bool} {last : Time} (published : Int64) (force : Bool) :
    Succeeds Answered ((Cluster.node T depth x).store (members.peers y)
        ⟨original, key, value, last, published.toInt⟩ force) c
      fun c' _ => Static members (offered members data force [members.peers y] key value) c' := by
  refine Succeeds.bind (succeeds_get ?_)
  rw [h.own, offered_singleton]
  refine Succeeds.bind (succeeds_call h (fun _ _ => succeeds_handleStoreInit h hxy.symm key) ?_)
  rintro c' response ⟨h', rfl⟩
  show Succeeds Answered (if (!(data y key).isNone && !force) = true then _ else _) c' _
  by_cases htakes : force = true ∨ data y key = none
  · rw [if_neg (by rcases htakes with rfl | hnone <;> simp [*]), if_pos htakes]
    refine Succeeds.bind ((succeeds_rpcCallerEpilogue h' hxy).mono fun c'' _ h'' => ?_)
    refine Succeeds.bind (succeeds_get ?_)
    rw [h''.own]
    refine Succeeds.bind (succeeds_call h'' (fun _ hcarries =>
      succeeds_handleStore h'' hxy.symm key (T.limit_store _ hcarries) published) ?_)
    intro c''' _ h'''
    exact Succeeds.bind ((succeeds_rpcCallerEpilogue h''' hxy).mono fun _ _ hlast =>
      succeeds_pure hlast)
  · obtain ⟨hforce, hhas⟩ := not_or.1 htakes
    rw [if_pos (by simp [hforce, Option.ne_none_iff_isSome.1 hhas]),
      if_neg htakes]
    exact succeeds_pure h'

/-! ## Lookups -/

/-- A query of another node is answered with other nodes. -/
def AnswersOthers (members : Members n) (data : Fin n → Key → Option Bytes) (x : Fin n) {δ : Type}
    (query : Peer → Op (Cluster n) (Answer δ)) : Prop :=
  ∀ c peer, Static members data c → peer ∈ members.others x →
    Succeeds Answered (query peer) c fun c' answer => Static members data c' ∧
      ∃ found, answer = .answered found ∧ found ⊆ members.others x

/-- The list of a lookup as its round ends: it was not halted, it lost no peer, and it has other
nodes only. -/
def RoundEnd (members : Members n) (data : Fin n → Key → Option Bytes) (x : Fin n)
    (closest : List Peer) {δ : Type} (c : Cluster n) (r : Option δ × List Key × List Peer) : Prop :=
  Static members data c ∧ r.1 = none ∧ closest ⊆ r.2.2 ∧ r.2.2 ⊆ members.others x

section Lookup

variable {δ : Type} {query : Peer → Op (Cluster n) (Answer δ)}

theorem succeeds_queryPending (hquery : AnswersOthers members data x query)
    {next : List Peer → List Key → List Peer → Op (Cluster n) (Option δ × List Key × List Peer)}
    (hnext : ∀ c pending queried closest, Static members data c → pending ⊆ members.others x →
      closest ⊆ members.others x →
      Succeeds Answered (next pending queried closest) c (RoundEnd members data x closest))
    (pending : List Peer) (queried : List Key) (closest : List Peer) (h : Static members data c)
    (hpending : pending ⊆ members.others x) (hclosest : closest ⊆ members.others x) :
    Succeeds Answered (Net.queryPending query next pending queried closest) c
      (RoundEnd members data x closest) := by
  induction pending generalizing queried with
  | nil => exact succeeds_pure ⟨h, rfl, List.Subset.refl _, hclosest⟩
  | cons peer rest ih =>
    obtain ⟨hpeer, hrest⟩ := List.cons_subset.1 hpending
    unfold Net.queryPending
    by_cases hqueried : peer.key ∈ queried
    · rw [if_pos hqueried]
      exact ih queried hrest
    · rw [if_neg hqueried]
      refine Succeeds.bind ((hquery c peer h hpeer).mono ?_)
      rintro c' answer ⟨h', found, rfl, hfound⟩
      have hpending' := List.append_subset.2 ⟨hrest, hfound⟩
      have hclosest' := List.append_subset.2 ⟨hclosest, hfound⟩
      refine (hnext c' _ (peer.key :: queried) _ h' hpending' hclosest').mono fun c'' r hr => ?_
      obtain ⟨h'', hnone, hsub, hothers⟩ := hr
      exact ⟨h'', hnone, (List.append_subset.1 hsub).1, hothers⟩

theorem succeeds_queryRound (hquery : AnswersOthers members data x query) (count : ℕ) :
    ∀ (c : Cluster n) (pending : List Peer) (queried : List Key) (closest : List Peer),
      Static members data c → pending ⊆ members.others x → closest ⊆ members.others x →
      Succeeds Answered (Net.queryRound query count pending queried closest) c
        (RoundEnd members data x closest) := by
  induction count with
  | zero =>
    exact fun c pending queried closest h _ hclosest =>
      succeeds_pure ⟨h, rfl, List.Subset.refl _, hclosest⟩
  | succ count ih =>
    intro c pending queried closest h hpending hclosest
    unfold Net.queryRound
    exact succeeds_queryPending hquery ih pending queried closest h hpending hclosest

/-- Of a list with all the other nodes, and only those, the nearest `KBUCKET_MAX` are all of them. -/
theorem mem_nearest_others (searchKey : Key) {peers : List Peer} (hsub : peers ⊆ members.others x)
    (hall : members.others x ⊆ peers) (p : Peer) :
    p ∈ (sortByDist searchKey (uniquePeers peers)).take kbucketMax ↔ p ∈ members.others x := by
  have hunique : ∀ p, p ∈ uniquePeers peers ↔ p ∈ members.others x := by
    intro p
    constructor
    · exact fun hp => hsub (Nearest.uniqueBy_subset _ _ _ hp)
    · intro hp
      -- The peer that stands for the key is the only one that has it.
      have hkey : p.key ∈ (uniquePeers peers).map Peer.key :=
        Nearest.mem_uniqueBy.2 ⟨List.mem_map_of_mem (hall hp), List.not_mem_nil⟩
      obtain ⟨q, hq, hqkey⟩ := List.mem_map.1 hkey
      have hqothers := hsub (Nearest.uniqueBy_subset _ _ _ hq)
      obtain rfl := eq_of_key_eq (members.others_nodup x) hqothers hp hqkey
      exact hq
  have hlen : (sortByDist searchKey (uniquePeers peers)).length ≤ kbucketMax := by
    have hnodup : (uniquePeers peers).Nodup := (Nearest.nodup_uniqueBy Peer.key [] peers).of_map _
    have hsubset : uniquePeers peers ⊆ members.others x := fun p hp => (hunique p).1 hp
    rw [sortByDist, List.length_insertionSort]
    exact (hnodup.subperm hsubset).length_le.trans (members.others_length x)
  rw [List.take_of_length_le hlen, sortByDist, List.mem_insertionSort, hunique]

theorem succeeds_lookupRounds (hquery : AnswersOthers members data x query) (searchKey : Key)
    (rounds : ℕ) (queried : List Key) (size : ℕ) (minDist : Dist) (closest : List Peer)
    (h : Static members data c) (hclosest : ∀ p, p ∈ closest ↔ p ∈ members.others x) :
    Succeeds Answered (Net.lookupRounds searchKey query rounds queried size minDist closest) c
      fun c' r => Static members data c' ∧ r.1 = none ∧ ∀ p, p ∈ r.2 ↔ p ∈ members.others x := by
  induction rounds generalizing c queried size minDist closest with
  | zero => exact succeeds_pure ⟨h, rfl, hclosest⟩
  | succ rounds ih =>
    have hsub : closest ⊆ members.others x := fun p hp => (hclosest p).1 hp
    unfold Net.lookupRounds
    refine Succeeds.bind ((succeeds_queryRound hquery _ c closest queried closest h hsub hsub).mono ?_)
    rintro c' ⟨halted, queried', closest'⟩ ⟨h', hnone, hgrown, hothers⟩
    obtain rfl : halted = none := hnone
    have hall : members.others x ⊆ closest' := fun p hp => hgrown ((hclosest p).2 hp)
    -- The list begins with all the other nodes, and the cut to `KBUCKET_MAX` keeps them.
    have hcut := mem_nearest_others searchKey hothers hall
    simp only [Option.isSome_none, Bool.false_eq_true, if_false]
    generalize (sortByDist searchKey (uniquePeers closest')).take kbucketMax = cut at hcut
    cases cut with
    | nil =>
      obtain ⟨p, hp⟩ := List.exists_mem_of_ne_nil _ (members.others_ne_nil x)
      exact absurd ((hcut p).2 hp) List.not_mem_nil
    | cons first rest =>
      simp only []
      split
      · exact succeeds_pure ⟨h', rfl, hcut⟩
      · exact ih queried' _ _ _ h' hcut

theorem succeeds_lookupHelper (hquery : AnswersOthers members data x query) (searchKey : Key)
    (h : Static members data c) :
    Succeeds Answered ((Cluster.node T depth x).lookupHelper searchKey [] query) c
      fun c' r => Static members data c' ∧ r.1 = none ∧ ∀ p, p ∈ r.2 ↔ p ∈ members.others x := by
  refine Succeeds.bind ((succeeds_closestPeers h searchKey).mono fun c' found hfound => ?_)
  refine succeeds_lookupRounds hquery searchKey _ _ _ _ _ hfound.1 fun p => ?_
  rw [sortByDist, List.mem_insertionSort, List.nil_append, hfound.2.mem_iff]

end Lookup

/-- A peer of the other nodes is asked as a member. -/
theorem succeeds_findNode_of_mem (h : Static members data c) {peer : Peer}
    (hpeer : peer ∈ members.others x) (searchKey : Key) :
    Succeeds Answered ((Cluster.node T depth x).findNode peer searchKey) c
      fun c' answer => Static members data c' ∧
        ∃ found, answer = some found ∧ found ⊆ members.others x := by
  obtain ⟨y, hxy, rfl⟩ := members.mem_others.1 hpeer
  exact succeeds_findNode h hxy searchKey

theorem nodeQueryFn_answersOthers (searchKey : Key) :
    AnswersOthers members data x ((Cluster.node T depth x).nodeQueryFn searchKey) := by
  intro c peer h hpeer
  refine Succeeds.bind ((succeeds_findNode_of_mem h hpeer searchKey).mono ?_)
  rintro c' answer ⟨h', found, rfl, hfound⟩
  exact succeeds_pure ⟨h', found, rfl, hfound⟩

theorem succeeds_findFrom (searchKey : Key) (peers : List Peer) (hpeers : peers ⊆ members.others x)
    (h : Static members data c) :
    Succeeds Answered ((Cluster.node T depth x).findFrom searchKey peers) c
      fun c' more => Static members data c' ∧ more ⊆ members.others x := by
  induction peers generalizing c with
  | nil => exact succeeds_pure ⟨h, List.nil_subset _⟩
  | cons peer rest ih =>
    obtain ⟨hpeer, hrest⟩ := List.cons_subset.1 hpeers
    refine Succeeds.bind ((succeeds_findNode_of_mem h hpeer searchKey).mono ?_)
    rintro c' answer ⟨h', found, rfl, hfound⟩
    refine Succeeds.bind ((ih hrest h').mono fun c'' more hmore => ?_)
    exact succeeds_pure ⟨hmore.1, List.append_subset.2 ⟨hfound, hmore.2⟩⟩

/-- `node_lookup` finds all the other nodes. -/
theorem succeeds_nodeLookup (h : Static members data c) (nodeKey : Key) :
    Succeeds Answered ((Cluster.node T depth x).nodeLookup nodeKey) c
      fun c' buffer => Static members data c' ∧ buffer.length ≤ kbucketMax ∧
        ∀ p, p ∈ buffer ↔ p ∈ members.others x := by
  refine Succeeds.bind ((succeeds_lookupHelper (nodeQueryFn_answersOthers nodeKey) nodeKey h).mono ?_)
  rintro c' ⟨halted, closest⟩ ⟨h', -, hclosest⟩
  have hsub : closest ⊆ members.others x := fun p hp => (hclosest p).1 hp
  refine Succeeds.bind ((succeeds_findFrom nodeKey closest hsub h').mono fun c'' more hmore => ?_)
  have hall : members.others x ⊆ closest ++ more := fun p hp =>
    List.mem_append_left _ ((hclosest p).2 hp)
  refine succeeds_pure ⟨hmore.1, List.length_take_le _ _, ?_⟩
  exact mem_nearest_others nodeKey (List.append_subset.2 ⟨hsub, hmore.2⟩) hall

/-! ## Sets and gets -/

theorem succeeds_storeAll {key : Key} {value : Bytes} {original : Bool} {last : Time}
    (published : Int64) (force : Bool) (maxDist : Dist) (peers : List Peer)
    (hpeers : peers ⊆ members.others x) (h : Static members data c) :
    Succeeds Answered ((Cluster.node T depth x).storeAll
        ⟨original, key, value, last, published.toInt⟩ force maxDist peers) c
      fun c' _ => Static members (offered members data force peers key value) c' := by
  induction peers generalizing c data maxDist with
  | nil =>
    rw [offered_nil]
    exact succeeds_pure h
  | cons peer rest ih =>
    obtain ⟨hpeer, hrest⟩ := List.cons_subset.1 hpeers
    obtain ⟨y, hxy, rfl⟩ := members.mem_others.1 hpeer
    unfold Net.storeAll
    refine Succeeds.bind ((succeeds_store h hxy published force).mono fun c' _ h' => ?_)
    have hrest' := ih (if maxDist.lt (Dist.between key (members.peers y).key) then
      Dist.between key (members.peers y).key else maxDist) hrest h'
    rwa [offered_offered] at hrest'

/-- The data of the nodes after a set at one of them: it takes the value itself, and offers it to the
others. -/
def setAt (x : Fin n) (force : Bool) (data : Fin n → Key → Option Bytes) (key : Key)
    (value : Bytes) : Fin n → Key → Option Bytes :=
  fun y key' =>
    if key = key' ∧ (y = x ∨ force = true ∨ data y key = none) then some value else data y key'

/-- The data of the nodes after a set. -/
def setData (data : Fin n → Key → Option Bytes) (key : Key) (value : Bytes) :
    Fin n → Key → Option Bytes :=
  fun y key' => if key = key' then some value else data y key'

/-- A forced set does not depend on where it is made, nor on what is there. -/
theorem setAt_true (x : Fin n) (data : Fin n → Key → Option Bytes) (key : Key) (value : Bytes) :
    setAt x true data key value = setData data key value := by
  funext y key'
  simp [setAt, setData]

/-- `publish` offers the chunk to the nodes that the lookup finds, which are all the others, and puts
it, as they fit in a bucket, into the own map, whatever is there. -/
theorem succeeds_publish (h : Static members data c) {key : Key} {value : Bytes} {original : Bool}
    {last : Time} (published : Int64) (force : Bool) :
    Succeeds Answered ((Cluster.node T depth x).publish
        ⟨original, key, value, last, published.toInt⟩ force) c
      fun c' _ => Static members (setAt x force data key value) c' := by
  unfold Net.publish
  refine Succeeds.bind ((succeeds_nodeLookup h key).mono ?_)
  rintro c' buffer ⟨h', hlen, hbuffer⟩
  rw [List.take_of_length_le hlen]
  have hsub : buffer ⊆ members.others x := fun p hp => (hbuffer p).1 hp
  refine Succeeds.bind ((succeeds_storeAll published force _ buffer hsub h').mono ?_)
  intro c'' maxDist h''
  refine Succeeds.bind (succeeds_get ?_)
  rw [if_pos (by simp [hlen])]
  refine Succeeds.bind (succeeds_emit (Succeeds.bind (succeeds_act ?_)))
  have hhome := h''.insertChunk x key ⟨original, key, value, last, published.toInt⟩
  -- Every node is the session's own or one of the others.
  have hall : stored members (offered members data force buffer key value) [members.peers x] key
      value = setAt x force data key value := by
    funext y key'
    by_cases hy : y = x
    · subst hy
      by_cases hkey : key' = key
      · simp [stored, setAt, hkey]
      · simp [stored, offered, setAt, hkey, Ne.symm hkey]
    · have hmem : members.peers y ∈ buffer := (hbuffer _).2 (members.mem_others.2 ⟨y, hy, rfl⟩)
      have hne : members.peers y ≠ members.peers x := fun heq =>
        hy (members.key_injective (congrArg Peer.key heq))
      simp [stored, offered, setAt, hy, hmem, hne, eq_comm]
  rw [hall] at hhome
  exact succeeds_emit hhome

/-- A `set`, whatever the clock reads. -/
theorem succeeds_set (h : Static members data c) (key : Key) (value : Bytes) (force : Bool) :
    Succeeds Answered ((Cluster.node T depth x).set key value force) c
      fun c' _ => Static members (setAt x force data key value) c' := by
  refine Succeeds.bind (succeeds_clock h fun c' h' published => ?_)
  exact Succeeds.bind (succeeds_clock h' fun c'' h'' last => succeeds_publish h'' published force)

/-- The data after forced sets, one after the other. -/
def setAllData (data : Fin n → Key → Option Bytes) (ops : List (SetOp n)) :
    Fin n → Key → Option Bytes :=
  ops.foldl (fun data op => setData data op.key op.value) data

theorem succeeds_setAll (ops : List (SetOp n)) (h : Static members data c) :
    Succeeds Answered (setAll T depth ops) c
      fun c' _ => Static members (setAllData data ops) c' := by
  induction ops generalizing c data with
  | nil => exact succeeds_pure h
  | cons op ops ih =>
    refine Succeeds.bind ((succeeds_set h op.key op.value true).mono fun c' _ h' => ih ?_)
    rwa [setAt_true] at h'

/-- A key that was set has its last value, and any other key has what it had. -/
theorem setAllData_eq (data : Fin n → Key → Option Bytes) (ops : List (SetOp n)) (y : Fin n)
    (key : Key) : setAllData data ops y key = (lastValue ops key).or (data y key) := by
  induction ops using List.reverseRecOn with
  | nil => rfl
  | append_singleton ops op ih =>
    unfold setAllData lastValue at ih ⊢
    rw [List.foldl_concat, List.foldl_concat]
    unfold setData
    by_cases hkey : op.key = key
    · rw [if_pos hkey, if_pos hkey, Option.some_or]
    · rw [if_neg hkey, if_neg hkey, ← ih]
      rfl

/-- `get` finds at home what is in the map. -/
theorem succeeds_getValue {D : Event → Prop} (h : Static members data c) {key : Key} {value : Bytes}
    (hdata : data x key = some value) :
    Succeeds D ((Cluster.node T depth x).getValue key) c
      fun c' found => found = some value ∧ c' = c := by
  obtain ⟨chunk, hchunk, rfl⟩ := Option.map_eq_some_iff.1 ((h.chunks x key).trans hdata)
  unfold Net.getValue
  refine Succeeds.bind (succeeds_emit (Succeeds.bind (succeeds_get ?_)))
  rw [hchunk]
  exact Succeeds.bind (succeeds_emit (succeeds_pure ⟨rfl, rfl⟩))

/-- In a cluster of at most `KBUCKET_MAX + 1` nodes whose routers all hold all the others in an
unsplit root bucket, after any forced sets whose RPCs were all answered, `get` at any node finds the
value that was last set for a key, and every router holds the same peers as before. -/
theorem getValue_setAll (T : Transport) (depth : ℕ) (members : Members n) (c : Cluster n)
    (hown : ∀ x, (c.nodes x).router.selfPeer = members.peers x)
    (hunsplit : ∀ x, Unsplit (c.nodes x).router.table (members.others x)) (ops : List (SetOp n))
    (hanswered : ∀ e ∈ (setAll T depth ops c).events, e.answered = true) :
    let r := setAll T depth ops c
    r.result = .ok () ∧
      (∀ x key value, lastValue ops key = some value →
        ((Cluster.node T depth x).getValue key r.state).result = .ok (some value) ∧
          ((Cluster.node T depth x).getValue key r.state).state = r.state) ∧
      ∀ x p, p ∈ (r.state.nodes x).router.allPeers ↔ p ∈ (c.nodes x).router.allPeers := by
  obtain ⟨data, h⟩ : ∃ data, Static members data c := ⟨_, hown, hunsplit, fun _ _ => rfl⟩
  obtain ⟨⟨⟩, hresult, hfinal⟩ := succeeds_setAll ops h hanswered
  refine ⟨hresult, fun x key value hvalue => ?_, fun x p => ?_⟩
  · have hdata : setAllData data ops x key = some value := by
      rw [setAllData_eq, hvalue, Option.some_or]
    obtain ⟨found, hfound, rfl, hstate⟩ :=
      succeeds_getValue hfinal hdata fun _ _ => trivial
    exact ⟨hfound, hstate⟩
  · rw [mem_allPeers_unsplit (hfinal.unsplit x), mem_allPeers_unsplit (hunsplit x)]

/-- Two nodes. -/
def pairMembers : Members 2 where
  peers x := ⟨BitVec.ofNat 160 x, [UInt8.ofNat x]⟩
  key_injective := by
    unfold Function.Injective
    decide
  endpoint_injective := by
    unfold Function.Injective
    decide
  two_le := le_refl 2
  le_kbucketMax := by decide

/-- Two nodes that were started with one another. -/
def pair : Cluster 2 where
  nodes x := ⟨Router.new 0 (pairMembers.peers x) (pairMembers.peers (1 - x)), ∅, 0⟩
  clock i := Int64.ofNat i
  reads := 0

/-- The routers of the two nodes hold one another. -/
theorem pair_unsplit (x : Fin 2) : Unsplit (pair.nodes x).router.table (pairMembers.others x) := by
  revert x
  rw [Fin.forall_fin_two]
  exact ⟨⟨159, 1, 0, pairMembers.others 0, .null, .null, by decide +kernel, .refl _⟩,
    ⟨159, 1, 0, pairMembers.others 1, .null, .null, by decide +kernel, .refl _⟩⟩

/-- Each of two nodes sets the same key, and both get the second value. -/
theorem getValue_setAll_pair :
    let r := setAll .lossless 1 [⟨0, 5, [7]⟩, ⟨1, 5, [8]⟩] pair
    r.result = .ok () ∧
      ∀ x, ((Cluster.node .lossless 1 x).getValue 5 r.state).result = .ok (some [8]) := by
  have hown : ∀ x, (pair.nodes x).router.selfPeer = pairMembers.peers x := by decide +kernel
  obtain ⟨hresult, hget, -⟩ := getValue_setAll .lossless 1 pairMembers pair hown pair_unsplit
    [⟨0, 5, [7]⟩, ⟨1, 5, [8]⟩] (by decide +kernel)
  exact ⟨hresult, fun x => (hget x 5 [8] (by decide)).1⟩

end Distft
