import Distft.Session.Rounds
import Distft.Session.UpdatePeer

/-!
# Whom a value lookup asks

`node_lookup` ends with a query of every peer of its final list. `value_lookup` has no such queries:
it asks whom the rounds of `lookup_helper` ask, three answers a round, until a round brings nothing
nearer. It asks everyone of its final list as long as few peers answer, or few can be named at all
(`asksEveryone_of_few`). Where all of them answer at once with the same peers, a second round brings
nothing new (`lookupRounds_constant`), so in such a network this bound is exact
(`naming_asksEveryone_iff`).
-/

namespace Distft

open Nearest

namespace Net

variable {W δ : Type} {I : W → Prop} {F : Fault → Prop} {chunkKey : Key} {found : List Peer}

/-- Every query asks one peer and is answered with the same peers. -/
def AnswersWith (I : W → Prop) (chunkKey : Key) (found : List Peer) (query : Peer → Op W (Answer δ))
    (F : Fault → Prop) : Prop :=
  ∀ peer, Exec.Yields I (query peer)
    (fun events answer => (asks chunkKey events).length = 1 ∧ answer = .answered found) F

/-- What a part of the inner loop does that still waits for `count` answers: it asks no more peers
than that, and adds the same peers, if it asks any. -/
structure Asked (chunkKey : Key) (found : List Peer) (count : ℕ) (pending : List Peer)
    (queried : List Key) (closest : List Peer) (events : List Event)
    (r : Option δ × List Key × List Peer) : Prop where
  /-- It is not halted. -/
  goesOn : r.1 = none
  /-- There are no more queries than answers. -/
  asks_le : (asks chunkKey events).length ≤ count
  /-- The list only grows. -/
  grows : closest ⊆ r.2.2
  /-- It grows by what was answered. -/
  subset : r.2.2 ⊆ closest ++ found
  /-- A peer that is left to be asked brings the answer. -/
  answered : 0 < count → (∃ p ∈ pending, p.key ∉ queried) → found ⊆ r.2.2

variable {query : Peer → Op W (Answer δ)}

theorem queryPending_asked (hquery : AnswersWith I chunkKey found query F) {count : ℕ}
    {next : List Peer → List Key → List Peer → Op W (Option δ × List Key × List Peer)}
    (hnext : ∀ pending queried closest, Exec.Yields I (next pending queried closest)
      (Asked chunkKey found count pending queried closest) F)
    (pending : List Peer) (queried : List Key) (closest : List Peer) :
    Exec.Yields I (queryPending query next pending queried closest)
      (Asked chunkKey found (count + 1) pending queried closest) F := by
  induction pending with
  | nil =>
    refine Exec.yields_pure ⟨rfl, Nat.zero_le _, List.Subset.refl _,
      List.subset_append_left _ _, ?_⟩
    rintro - ⟨p, hp, -⟩
    exact absurd hp List.not_mem_nil
  | cons peer rest ih =>
    unfold queryPending
    by_cases hqueried : peer.key ∈ queried
    · rw [if_pos hqueried]
      refine ih.mono fun events r hr => { hr with answered := fun hcount hleft => ?_ }
      obtain ⟨p, hp, hout⟩ := hleft
      rcases List.mem_cons.1 hp with rfl | hp
      · exact absurd hqueried hout
      · exact hr.answered hcount ⟨p, hp, hout⟩
    · rw [if_neg hqueried]
      refine (hquery peer).bind fun events answer hanswer => ?_
      obtain ⟨hone, rfl⟩ := hanswer
      refine (hnext _ _ _).mono fun events' r hr => ?_
      obtain ⟨hgrown, hfound⟩ := List.append_subset.1 hr.grows
      refine ⟨hr.goesOn, ?_, hgrown, ?_, fun _ _ => hfound⟩
      · have hle := hr.asks_le
        rw [asks_append, List.length_append, hone]
        omega
      · refine List.Subset.trans hr.subset (List.append_subset.2 ⟨List.Subset.refl _, ?_⟩)
        exact List.subset_append_right _ _

theorem queryRound_asked (hquery : AnswersWith I chunkKey found query F) (count : ℕ) :
    ∀ (pending : List Peer) (queried : List Key) (closest : List Peer),
      Exec.Yields I (queryRound query count pending queried closest)
        (Asked chunkKey found count pending queried closest) F := by
  induction count with
  | zero =>
    refine fun pending queried closest => Exec.yields_pure ⟨rfl, le_refl 0, List.Subset.refl _,
      List.subset_append_left _ _, ?_⟩
    exact fun hcount => absurd hcount (lt_irrefl 0)
  | succ count ih => exact queryPending_asked hquery ih

/-- What is nearest of a set is nearest of what it was chosen from with more. -/
theorem first_le_of_isNearest {S S' : Finset Key} {first first' : Key} {rest rest' : List Key}
    (h : IsNearest (distTo chunkKey) kbucketMax S (first :: rest))
    (h' : IsNearest (distTo chunkKey) kbucketMax S' (first' :: rest')) (hsub : S' ⊆ S) :
    distTo chunkKey first ≤ distTo chunkKey first' := by
  have hmem : first' ∈ S := hsub (h'.subset _ List.mem_cons_self)
  by_cases hin : first' ∈ first :: rest
  · rcases List.mem_cons.1 hin with rfl | hin
    · exact le_refl _
    · exact ((List.pairwise_cons.1 h.sorted).1 _ hin).le
  · exact (h.closest _ hmem hin _ List.mem_cons_self).le

/-- A list with somebody in it is cut to the nearest, of whom there is somebody, too. -/
theorem cut_cons (chunkKey : Key) {peers : List Peer} (hne : peers ≠ []) :
    ∃ first rest, (sortByDist chunkKey (uniquePeers peers)).take kbucketMax = first :: rest ∧
      (first :: rest).length = min kbucketMax (keySet peers).card ∧
      IsNearest (distTo chunkKey) kbucketMax (keySet peers)
        (first.key :: rest.map Peer.key) := by
  have hcut : IsNearest (distTo chunkKey) kbucketMax (keySet peers)
      ((nearest Peer.key (distTo chunkKey) kbucketMax peers).map Peer.key) :=
    isNearest_nearest (distTo_injective chunkKey) kbucketMax peers
  have hlen := length_cut chunkKey peers
  obtain ⟨p, hp⟩ := List.exists_mem_of_ne_nil _ hne
  have hpos := Finset.card_pos.2 ⟨p.key, mem_keySet hp⟩
  rw [sortByDist_uniquePeers] at hlen ⊢
  cases hnearest : nearest Peer.key (distTo chunkKey) kbucketMax peers with
  | nil =>
    rw [hnearest, List.length_nil] at hlen
    have hmax : kbucketMax = 20 := rfl
    omega
  | cons first rest =>
    rw [hnearest] at hcut hlen
    exact ⟨first, rest, rfl, hlen, hcut⟩

/-- The keys of a list with distinct keys. -/
theorem card_keySet_of_isNearest {S : Finset Key} (peers : List Peer)
    (h : IsNearest (distTo chunkKey) kbucketMax S (peers.map Peer.key)) :
    (keySet peers).card = peers.length := by
  rw [keySet, List.toFinset_card_of_nodup h.nodup, List.length_map]

/-- A lookup that is answered with the same peers by everyone ends after two rounds: it has asked
`PEER_LOOKUP_ALPHA` peers at most after the first one, and it ends with all the peers, or with
`KBUCKET_MAX`. -/
theorem lookupRounds_constant (hquery : AnswersWith I chunkKey found query F) (rounds : ℕ)
    (minDist : Dist) {closest : List Peer} (hne : closest ≠ []) :
    Exec.Yields I (lookupRounds chunkKey query (rounds + 2) [] 0 minDist closest)
      (fun events r => r.1 = none ∧
        (asks chunkKey events).length ≤ min peerLookupAlpha closest.length + 3 ∧
        (keySet r.2).card = min kbucketMax (keySet (closest ++ found)).card) F := by
  -- The first round asks somebody, and brings all that is ever answered.
  unfold lookupRounds
  refine (queryRound_asked hquery _ _ _ _).bind fun events1 r1 hr1 => ?_
  obtain ⟨halted1, queried1, closest1⟩ := r1
  obtain rfl : halted1 = none := hr1.goesOn
  obtain ⟨p, hp⟩ := List.exists_mem_of_ne_nil _ hne
  have hall1 : found ⊆ closest1 := hr1.answered (lt_min (by decide) (List.length_pos_of_mem hp))
    ⟨p, hp, List.not_mem_nil⟩
  have hkeys1 : keySet closest1 = keySet (closest ++ found) :=
    Finset.Subset.antisymm (keySet_subset hr1.subset)
      (keySet_subset (List.append_subset.2 ⟨hr1.grows, hall1⟩))
  obtain ⟨first1, rest1, hcut1, hlen1, hnearest1⟩ :=
    cut_cons chunkKey (List.ne_nil_of_mem (hr1.grows hp) : closest1 ≠ [])
  simp only [Option.isSome_none, Bool.false_eq_true, if_false, hcut1]
  rw [if_neg (by simp)]
  -- The second round brings nothing nearer, and no more peers.
  unfold lookupRounds
  refine (queryRound_asked hquery _ _ _ _).bind fun events2 r2 hr2 => ?_
  obtain ⟨halted2, queried2, closest2⟩ := r2
  obtain rfl : halted2 = none := hr2.goesOn
  have hcard : (keySet (first1 :: rest1)).card = (first1 :: rest1).length :=
    card_keySet_of_isNearest (first1 :: rest1) hnearest1
  have hsub2 : keySet closest2 ⊆ keySet closest1 := by
    intro k hk
    have hk := keySet_subset hr2.subset hk
    rw [keySet_append, Finset.mem_union] at hk
    rcases hk with hk | hk
    · exact hnearest1.subset k (List.mem_toFinset.1 hk)
    · exact keySet_subset hall1 hk
  have hgrown : (keySet (first1 :: rest1)).card ≤ (keySet closest2).card :=
    Finset.card_le_card (keySet_subset hr2.grows)
  have hbound := Finset.card_le_card hsub2
  obtain ⟨first2, rest2, hcut2, hlen2, hnearest2⟩ :=
    cut_cons chunkKey (List.ne_nil_of_mem (hr2.grows List.mem_cons_self) : closest2 ≠ [])
  have hsame : (first2 :: rest2).length = (first1 :: rest1).length := by
    rw [hcard, hlen1] at hgrown
    omega
  have hdist : (Dist.between chunkKey first2.key).ge (Dist.between chunkKey first1.key) = true :=
    (Dist.ge_iff _ _).2 (BitVec.le_def.2 (first_le_of_isNearest hnearest1 hnearest2 hsub2))
  simp only [Option.isSome_none, Bool.false_eq_true, if_false, hcut2]
  rw [if_pos (by rw [hsame, hdist, Bool.and_true]; exact decide_eq_true le_rfl)]
  refine Exec.yields_pure ⟨rfl, ?_, ?_⟩
  · have hle1 := hr1.asks_le
    have hle2 := hr2.asks_le.trans (min_le_left peerLookupAlpha _)
    have halpha : peerLookupAlpha = 3 := rfl
    simp only [asks_append, List.length_append, asks_nil, List.length_nil]
    omega
  · rw [card_keySet_of_isNearest (first2 :: rest2) hnearest2, hsame, hlen1, hkeys1]

end Net

namespace Environment

variable {W : Type} (env : Environment W)

/-- If `value_lookup` returns false, it has sent a `FindValue` for the key to every peer of its final
list. -/
def AsksEveryone (chunkKey : Key) (w : W) : Prop :=
  (env.valueLookup chunkKey w).result = .ok none →
    ∀ closest, (env.lookupHelper chunkKey [] (env.valueQueryFn chunkKey) w).result =
        .ok (none, closest) →
      ∀ p ∈ closest, p.key ∈ asks chunkKey (env.valueLookup chunkKey w).events

/-- `value_lookup` is its `lookup_helper`. -/
theorem valueLookup_run (chunkKey : Key) (w : W) :
    (env.valueLookup chunkKey w).events =
        (env.lookupHelper chunkKey [] (env.valueQueryFn chunkKey) w).events ∧
      (env.valueLookup chunkKey w).result =
        (env.lookupHelper chunkKey [] (env.valueQueryFn chunkKey) w).result.map Prod.fst := by
  unfold Net.valueLookup
  generalize hr : env.lookupHelper chunkKey [] (env.valueQueryFn chunkKey) w = r
  obtain ⟨events, w', result⟩ := r
  cases result with
  | ok x =>
    rw [Exec.bind_run hr]
    exact ⟨List.append_nil events, rfl⟩
  | error e =>
    rw [Exec.bind_of_error (by rw [hr]), hr]
    exact ⟨rfl, rfl⟩

/-- A value lookup is the rounds that begin with the router's answer. -/
theorem asksEveryone_iff_rounds {selfPeer : Peer} {I : W → Prop} (h : env.toNet.Stable selfPeer I)
    (chunkKey : Key) {w : W} (hw : I w) :
    let first := BinaryTree.closest chunkKey (UInt32.ofNat kbucketMax) (env.session w).router.table
    ∃ w', I w' ∧ (env.AsksEveryone chunkKey w ↔
      let r := Net.lookupRounds chunkKey (env.valueQueryFn chunkKey) maxLookupIters [] 0
        (first.foldl (fun d p => d.min (Dist.between chunkKey p.key)) Dist.max)
        (sortByDist chunkKey first) w'
      ∀ closest, r.result = .ok (none, closest) → ∀ p ∈ closest, p.key ∈ asks chunkKey r.events) := by
  obtain ⟨w', hw', hhelper⟩ := Net.lookupHelper_run h env.session_now chunkKey
    (env.valueQueryFn chunkKey) hw
  simp only [Router.closestPeers_eq] at hhelper
  refine ⟨w', hw', ?_⟩
  obtain ⟨hevents, hresult⟩ := env.valueLookup_run chunkKey w
  unfold AsksEveryone
  rw [hevents, hresult, hhelper]
  have hnobody : asks chunkKey [.lock .router, .unlock .router] = [] := rfl
  simp only [asks_append, hnobody, List.nil_append]
  refine ⟨fun hall closest hclosest => hall ?_ closest hclosest, fun hall _ => hall⟩
  rw [hclosest]
  rfl

/-! ## Few peers -/

section Few

variable (selfPeer : Peer) (chunkKey : Key) (reach : List Peer) (answering : Finset Key)

/-- Who of the peers of `reach` answers a `FindValue` for the key without the value is among the
keys of `answering`, and names only peers of `reach`, or the session itself. -/
def Within : Prop :=
  ∀ p ∈ reach, ∀ (request : FindValueRequest) (w : W) (response : FindValueResponse),
    request.searchKey = chunkKey.toBytes →
    (env.rpc .findValue p.endpoint request w).1 = some response → response.foundValue = false →
      p.key ∈ answering ∧ ∀ q ∈ response.closestPeers.filterMap rpcPeerToLocal,
        q.key = selfPeer.key ∨ q.endpoint = selfPeer.endpoint ∨ q ∈ reach

variable {env selfPeer chunkKey reach answering}

/-- The queries of `value_lookup` keep to these peers then. -/
theorem Within.asksWithin (h : env.Within selfPeer chunkKey reach answering) :
    Net.AsksWithin (fun w => (env.session w).router.selfPeer = selfPeer) chunkKey reach answering
      (env.valueQueryFn chunkKey) := by
  intro peer hpeer
  have hstable := env.stable selfPeer
  have hupdate : ∀ key endpoint, Exec.Yields (fun w => (env.session w).router.selfPeer = selfPeer)
      (env.updatePeer key endpoint) (fun events _ => events.flatMap (asksIn chunkKey) = [])
      fun _ => True := fun _ _ =>
    (Net.silent_updatePeer (passesUpdates_asksIn chunkKey) hstable.update trivial).weaken
      fun _ _ => trivial
  have hevict : Exec.Yields (fun w => (env.session w).router.selfPeer = selfPeer)
      (env.evictPeer peer.key) (fun events _ => asks chunkKey events = []) fun _ => True :=
    (Net.silent_evictPeer (passesUpdates_asksIn chunkKey) hstable.update _).weaken fun _ _ => trivial
  have hepilogue : ∀ receiver, Exec.Yields (fun w => (env.session w).router.selfPeer = selfPeer)
      (env.rpcCallerEpilogue receiver) (fun events _ => asks chunkKey events = []) fun _ => True :=
    fun _ => (Net.silent_rpcCallerEpilogue (passesUpdates_asksIn chunkKey) hstable.update
      fun _ _ => trivial).weaken fun _ _ => trivial
  have hfind : Exec.Yields (fun w => (env.session w).router.selfPeer = selfPeer)
      (env.findValue peer chunkKey) (fun events found => asks chunkKey events = [peer.key] ∧
        ∀ peers, found = some (.inr peers) → peer.key ∈ answering ∧ peers ⊆ reach) fun _ => True := by
    unfold Net.findValue
    refine (Net.yields_own hstable localToRpcPeer).bind ?_
    rintro _ _ ⟨rfl, rfl⟩
    refine (Net.yields_call _ fun w hw => hstable.rpc _ _ _ w hw).bind ?_
    rintro _ response ⟨rfl, w, hrpc⟩
    have hone : asksIn chunkKey (.rpc .findValue peer ⟨localToRpcPeer selfPeer, chunkKey.toBytes⟩
        response) = [peer.key] := if_pos rfl
    cases response with
    | none =>
      exact hevict.bind fun events _ hevents => Exec.yields_pure ⟨by simp [hone, hevents], nofun⟩
    | some response =>
      refine (hepilogue _).bind fun events _ hevents => ?_
      split_ifs with hvalue
      · -- The value halts the lookup.
        refine Exec.Yields.bind (Q := fun events _ => asks chunkKey events = []) ?_
          fun events' data hevents' => Exec.yields_pure ⟨by simp [hone, hevents, hevents'], nofun⟩
        unfold Net.copyData
        split_ifs
        · exact Exec.yields_pure rfl
        · exact Exec.yields_fault trivial
      · obtain ⟨hanswering, hnames⟩ := h peer hpeer _ w response rfl hrpc (by simpa using hvalue)
        refine (Net.learnPeers_yields hstable hupdate response.closestPeers fun _ _ _ => trivial).bind
          fun events' found hfound => Exec.yields_pure ⟨?_, fun peers hpeers => ⟨hanswering, ?_⟩⟩
        · have hnobody : asks chunkKey events' = [] := hfound.1
          simp [hone, hevents, hnobody]
        · obtain rfl := Sum.inr.inj (Option.some.inj hpeers)
          intro q hq
          rw [hfound.2, List.mem_filter] at hq
          have hother := hnames q hq.1
          simp only [Bool.not_eq_true', Bool.or_eq_false_iff, decide_eq_false_iff_not] at hq
          exact (hother.resolve_left hq.2.1).resolve_left hq.2.2
  refine hfind.bind fun events found hfound => ?_
  rcases found with _ | data | peers
  · exact Exec.yields_pure ⟨by simpa using hfound.1, nofun⟩
  · exact Exec.yields_pure ⟨by simpa using hfound.1, nofun⟩
  · refine Exec.yields_pure ⟨by simpa using hfound.1, fun found heq => ?_⟩
    obtain rfl := Answer.answered.inj heq
    exact hfound.2 _ rfl

/-- Fewer peers answer than the first round and a last one wait for, or nobody is left besides
these: then a value lookup has asked everyone of its final list. -/
theorem asksEveryone_of_few {w : W}
    (h : env.Within (env.session w).router.selfPeer chunkKey reach answering)
    (hlocal : BinaryTree.closest chunkKey (UInt32.ofNat kbucketMax) (env.session w).router.table ⊆ reach)
    {base : ℕ} (hbase : base = min peerLookupAlpha
      (BinaryTree.closest chunkKey (UInt32.ofNat kbucketMax) (env.session w).router.table).length)
    (hfew : answering.card < base + 3 ∨ (keySet reach).card ≤ base + 3) :
    env.AsksEveryone chunkKey w := by
  obtain ⟨w', hw', hiff⟩ := env.asksEveryone_iff_rounds (env.stable _) chunkKey (w := w) rfl
  refine hiff.2 ?_
  generalize
    BinaryTree.closest chunkKey (UInt32.ofNat kbucketMax) (env.session w).router.table = first at *
  intro r closest hclosest p hp
  by_cases hne : first = []
  · -- A lookup that begins with nobody throws.
    subst hne
    exact nomatch hclosest
  · have hlength : (sortByDist chunkKey first).length = first.length := List.length_insertionSort _ _
    have hstage : base ≤ min peerLookupAlpha (sortByDist chunkKey first).length := by
      rw [hlength, hbase]
    have hrounds := Net.lookupRounds_asks h.asksWithin chunkKey maxLookupIters 0 [] 0
      (first.foldl (fun d p => d.min (Dist.between chunkKey p.key)) Dist.max) (sortByDist chunkKey first) ∅
      ⟨Finset.empty_subset _, Finset.empty_subset _, by simp⟩
      (fun q hq => hlocal ((List.mem_insertionSort _).1 hq))
      (fun hnil => hne (List.eq_nil_of_length_eq_zero (by rw [← hlength, hnil, List.length_nil])))
      (Nat.zero_le _) (.inl ⟨rfl, hstage, by decide⟩)
    rcases hrounds.returns w' (none, closest) hw' hclosest rfl with hall | hmany
    · exact (hall p hp).resolve_left List.not_mem_nil
    · omega

end Few

/-! ## Answers that are all alike -/

/-- An environment whose world is the session: every `FindValue` is answered by `receiver` with the
same peers, and other RPCs fail. -/
def naming (receiver : Peer) (peers : List Peer) : Environment Session :=
  { answering receiver [] with
    rpc := fun
      | .findValue, _, _, s =>
        (some ⟨localToRpcPeer receiver, false, [], 0, peers.map localToRpcPeer⟩, s)
      | _, _, _, s => (none, s)
    selfPeer_rpc := fun m endpoint request s => by cases m <;> rfl }

variable (receiver selfPeer : Peer) (peers : List Peer)

theorem naming_undisturbed : (naming receiver peers).Undisturbed where
  router _ _ _ := rfl
  answer _ _ _ _ hsome := nomatch hsome

/-- The session has the own peer, and its router is as it should be. -/
abbrev Kept (selfPeer : Peer) (s : Session) : Prop :=
  s.router.Invariant ∧ s.router.selfPeer = selfPeer

theorem naming_stable : (naming receiver peers).toNet.Stable selfPeer (Kept selfPeer) where
  own _ hs := hs.2
  step s call hs :=
    ⟨(Router.step_invariant hs.1 call).1, (Router.step_selfPeer s.router call).trans hs.2⟩
  chunks _ _ hs := hs
  deadPeers _ _ hs := hs
  now _ hs := hs
  rpc m endpoint request s hs := by cases m <;> exact hs

/-- In this environment an update returns, and asks nobody for a value. -/
theorem naming_updatePeer (chunkKey key : Key) (endpoint : Bytes) :
    Exec.Yields (Kept selfPeer) ((naming receiver peers).updatePeer key endpoint)
      (fun events _ => events.flatMap (asksIn chunkKey) = []) fun _ => False := by
  have hsilent : Net.Silent (asksIn chunkKey) (Kept selfPeer)
      ((naming receiver peers).updatePeer key endpoint) :=
    Net.silent_updatePeer (passesUpdates_asksIn chunkKey)
      (naming_stable receiver selfPeer peers).update trivial
  refine ⟨hsilent.keeps, hsilent.returns, fun s e hs he => ?_⟩
  have hok := (updatePeer_updated (naming_undisturbed receiver peers) (le_refl 2) (w := s) hs.1 key
    endpoint).1
  exact nomatch hok.symm.trans he

/-- A query is answered with the peers other than the session itself. -/
theorem naming_answersWith (chunkKey : Key) :
    Net.AnswersWith (Kept selfPeer) chunkKey
      (peers.filter fun p => !(p.key = selfPeer.key || p.endpoint = selfPeer.endpoint))
      ((naming receiver peers).valueQueryFn chunkKey) fun _ => False := by
  intro peer
  -- The update of a peer asks nobody for a value, so the query is the only ask.
  have hlearn := Net.learnPeers_yields (naming_stable receiver selfPeer peers)
    (naming_updatePeer receiver selfPeer peers chunkKey) (peers.map localToRpcPeer) fun p hp hnone => by
      obtain ⟨q, -, rfl⟩ := List.mem_map.1 hp
      rw [rpcPeerToLocal_localToRpcPeer] at hnone
      exact nomatch hnone
  have hlocal : (peers.map localToRpcPeer).filterMap rpcPeerToLocal = peers := by
    rw [List.filterMap_map]
    simp
  rw [hlocal] at hlearn
  have hcall : Exec.Yields (Kept selfPeer) ((naming receiver peers).call .findValue peer
      ⟨localToRpcPeer selfPeer, chunkKey.toBytes⟩) (fun events response =>
        asks chunkKey events = [peer.key] ∧ response =
          some ⟨localToRpcPeer receiver, false, [], 0, peers.map localToRpcPeer⟩) fun _ => False := by
    refine Exec.Yields.bind (Q := fun es r => es = [] ∧ r =
      some ⟨localToRpcPeer receiver, false, [], 0, peers.map localToRpcPeer⟩)
      (Exec.yields_act (fun _ hs => hs) fun _ _ => ⟨rfl, rfl⟩) ?_
    rintro _ _ ⟨rfl, rfl⟩
    refine Exec.Yields.bind (Q := fun es _ => asks chunkKey es = [peer.key])
      (Exec.yields_emit (by simp [asks, asksIn])) fun events _ hasks => ?_
    exact Exec.yields_pure ⟨by simpa using hasks, rfl⟩
  have hepilogue : Exec.Yields (Kept selfPeer)
      ((naming receiver peers).rpcCallerEpilogue (localToRpcPeer receiver))
      (fun events _ => asks chunkKey events = []) fun _ => False := by
    unfold Net.rpcCallerEpilogue
    rw [Net.toLocal_localToRpcPeer]
    exact naming_updatePeer receiver selfPeer peers chunkKey receiver.key receiver.endpoint
  have hfind : Exec.Yields (Kept selfPeer) ((naming receiver peers).findValue peer chunkKey)
      (fun events found => (asks chunkKey events).length = 1 ∧ found = some (.inr
        (peers.filter fun p => !(p.key = selfPeer.key || p.endpoint = selfPeer.endpoint))))
      fun _ => False := by
    unfold Net.findValue
    refine (Net.yields_own (naming_stable receiver selfPeer peers) localToRpcPeer).bind ?_
    rintro _ _ ⟨rfl, rfl⟩
    refine hcall.bind ?_
    rintro events _ ⟨hasks, rfl⟩
    refine hepilogue.bind fun events' _ hnobody => ?_
    refine hlearn.bind fun events'' found hfound => Exec.yields_pure ⟨?_, by rw [hfound.2]⟩
    have hnobody' : asks chunkKey events'' = [] := hfound.1
    simp [hasks, hnobody, hnobody']
  refine hfind.bind ?_
  rintro events _ ⟨hone, rfl⟩
  exact Exec.yields_pure ⟨by simpa using hone, rfl⟩

/-- Who may answer there, and whom they name. -/
theorem naming_within (chunkKey : Key) (first : List Peer) :
    (naming receiver peers).Within selfPeer chunkKey (first ++ peers.filter fun p =>
        !(p.key = selfPeer.key || p.endpoint = selfPeer.endpoint))
      (keySet (first ++ peers.filter fun p =>
        !(p.key = selfPeer.key || p.endpoint = selfPeer.endpoint))) := by
  intro p hp request s response _ hresponse _
  obtain rfl := Option.some.inj hresponse
  refine ⟨mem_keySet hp, fun q hq => ?_⟩
  have hlocal : (peers.map localToRpcPeer).filterMap rpcPeerToLocal = peers := by
    rw [List.filterMap_map]
    simp
  rw [hlocal] at hq
  by_cases hself : q.key = selfPeer.key ∨ q.endpoint = selfPeer.endpoint
  · exact hself.imp_right .inl
  · refine .inr (.inr (List.mem_append_right _ (List.mem_filter.2 ⟨hq, ?_⟩)))
    simpa [not_or] using hself

/-- In this network a session that knows a peer for the key asks everyone exactly if there are no
more peers than it asks in two rounds. -/
theorem naming_asksEveryone_iff {s : Session} (hinv : s.router.Invariant) (chunkKey : Key)
    (hne : BinaryTree.closest chunkKey (UInt32.ofNat kbucketMax) s.router.table ≠ []) :
    (naming receiver peers).AsksEveryone chunkKey s ↔
      let first := BinaryTree.closest chunkKey (UInt32.ofNat kbucketMax) s.router.table
      (keySet (first ++ peers.filter fun p =>
        !(p.key = s.router.selfPeer.key || p.endpoint = s.router.selfPeer.endpoint))).card ≤
          min peerLookupAlpha first.length + 3 := by
  refine ⟨fun hall => ?_, fun hfew => asksEveryone_of_few (naming_within receiver s.router.selfPeer peers
    chunkKey _) (List.subset_append_left _ _) rfl (.inr hfew)⟩
  generalize hown : s.router.selfPeer = selfPeer
  obtain ⟨s', hs', hiff⟩ := (naming receiver peers).asksEveryone_iff_rounds
    (naming_stable receiver selfPeer peers) chunkKey (w := s) ⟨hinv, hown⟩
  have hhead : sortByDist chunkKey (BinaryTree.closest chunkKey (UInt32.ofNat kbucketMax)
      s.router.table) ≠ [] := fun hnil => hne (List.eq_nil_of_length_eq_zero (by
    rw [← List.length_insertionSort (fun p q => staticDistComparator chunkKey q p = false)]
    exact congrArg List.length hnil))
  have hrounds := Net.lookupRounds_constant (naming_answersWith receiver selfPeer peers chunkKey)
    (keyBits - 2) ((BinaryTree.closest chunkKey (UInt32.ofNat kbucketMax) s.router.table).foldl
      (fun d p => d.min (Dist.between chunkKey p.key)) Dist.max) hhead
  have hreturns := fun r => hrounds.returns s' r hs'
  have hfaults := fun e => hrounds.faults s' e hs'
  generalize hrun : Net.lookupRounds chunkKey _ (keyBits - 2 + 2) _ _ _ _ s' = r at hreturns hfaults
  have hall : ∀ closest, r.result = .ok (none, closest) →
      ∀ p ∈ closest, p.key ∈ asks chunkKey r.events := by
    rw [← hrun]
    exact hiff.1 hall
  cases hr : r.result with
  | error e => exact (hfaults e hr).elim
  | ok x =>
    obtain ⟨halted, closest⟩ := x
    obtain ⟨hnone, hasks, hcard⟩ := hreturns (halted, closest) hr
    obtain rfl : halted = none := hnone
    -- The final list has all the peers, or twenty, and these few were asked.
    have hsub : keySet closest ⊆ (asks chunkKey r.events).toFinset := by
      intro k hk
      obtain ⟨p, hp, rfl⟩ := List.mem_map.1 (List.mem_toFinset.1 hk)
      exact List.mem_toFinset.2 (hall closest hr p hp)
    have hle := (Finset.card_le_card hsub).trans (List.toFinset_card_le _)
    have hkeys : keySet (sortByDist chunkKey (BinaryTree.closest chunkKey (UInt32.ofNat kbucketMax)
        s.router.table)) = keySet (BinaryTree.closest chunkKey (UInt32.ofNat kbucketMax)
          s.router.table) := Net.keySet_sortByDist _ _
    have halpha : peerLookupAlpha = 3 := rfl
    have hmax : kbucketMax = 20 := rfl
    rw [keySet_append, hkeys, ← keySet_append] at hcard
    rw [sortByDist, List.length_insertionSort] at hasks
    simp only at hcard ⊢
    omega

/-- What a value lookup of a session asks depends on what it meets. If fewer peers can answer than
the first round and a last one wait for, or nobody is left besides as many, then it has asked
everyone of its final list where it returns false. In a network where all answer alike, and the
session knows somebody, it has not otherwise. -/
theorem asksEveryone_bound (s : Session) (hr : s.router.Reachable) (chunkKey : Key) (now : Time) :
    let first := (s.router.closestPeers now chunkKey (UInt32.ofNat kbucketMax)).1
    (∀ (W : Type) (env : Environment W) (w : W) (reach : List Peer) (answering : Finset Key),
      env.session w = s → env.Within s.router.selfPeer chunkKey reach answering → first ⊆ reach →
      answering.card < min peerLookupAlpha first.length + 3 ∨
        (keySet reach).card ≤ min peerLookupAlpha first.length + 3 →
      env.AsksEveryone chunkKey w) ∧
    (first ≠ [] → ∀ receiver peers, (naming receiver peers).AsksEveryone chunkKey s ↔
      (keySet (first ++ peers.filter fun p =>
        !(p.key = s.router.selfPeer.key || p.endpoint = s.router.selfPeer.endpoint))).card ≤
          min peerLookupAlpha first.length + 3) := by
  simp only [Router.closestPeers_eq]
  refine ⟨?_, fun hne receiver peers => naming_asksEveryone_iff receiver peers hr.invariant chunkKey hne⟩
  rintro W env w reach answering rfl hwithin hlocal hfew
  exact asksEveryone_of_few hwithin hlocal rfl hfew

/-- A session that knows one peer. -/
abbrev oneKnown : Session := ⟨Router.new 0 ⟨0, [0]⟩ ⟨1, [1]⟩, ∅, 0⟩

/-- Where everyone names the same three peers, and nobody has the value, the lookup returns false
and has asked all four. -/
theorem asksEveryone_bound_three :
    ((naming ⟨1, [1]⟩ [⟨2, [2]⟩, ⟨3, [3]⟩, ⟨4, [4]⟩]).valueLookup 4 oneKnown).result = .ok none ∧
      (naming ⟨1, [1]⟩ [⟨2, [2]⟩, ⟨3, [3]⟩, ⟨4, [4]⟩]).AsksEveryone 4 oneKnown := by
  refine ⟨by decide +kernel, ?_⟩
  refine (asksEveryone_bound oneKnown ⟨0, ⟨0, [0]⟩, ⟨1, [1]⟩, [], rfl⟩ 4 0).1 Session _ oneKnown _ _ rfl
    (naming_within ⟨1, [1]⟩ oneKnown.router.selfPeer _ 4 _) (List.subset_append_left _ _) (.inr ?_)
  decide +kernel

/-- Where everyone names the same four peers, the last one of the five is not asked. -/
theorem not_asksEveryone :
    ¬∀ (env : Environment Session) (s : Session), (env.session s).router.Reachable →
      ∀ chunkKey, env.AsksEveryone chunkKey s := by
  intro h
  have hr : oneKnown.router.Reachable := ⟨0, ⟨0, [0]⟩, ⟨1, [1]⟩, [], rfl⟩
  have hfew := (naming_asksEveryone_iff ⟨1, [1]⟩ [⟨2, [2]⟩, ⟨3, [3]⟩, ⟨4, [4]⟩, ⟨5, [5]⟩] hr.invariant 4
    (by decide +kernel)).1 (h _ oneKnown hr 4)
  exact absurd hfew (by decide +kernel)

end Environment

end Distft
