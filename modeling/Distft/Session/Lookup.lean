import Distft.Session.Callers

/-!
# The iterative lookup

`lookup_helper` walks a list of peers that grows while it is walked, and after every round cuts it to
the `KBUCKET_MAX` nearest. What it ends with stands for everything that it saw
(`lookupRounds_yields`): whatever the peers answer, the nearest of all the peers that were ever in
the list are in it. `node_lookup` adds one more round of queries and cuts again, so its result is the
nearest of everything that the lookup saw (`nodeLookup_nearest`).

The test that ends the loop reads the first element of the list, which is there exactly when the
router's own answer had an element (`endsSafely_iff`).
-/

namespace Distft

open Nearest

/-- The XOR distance to a key, as a number. -/
def distTo (searchKey key : Key) : ℕ := (searchKey ^^^ key).toNat

/-- The distance tells keys apart. -/
theorem distTo_injective (searchKey : Key) : Function.Injective (distTo searchKey) :=
  toNat_xor_injective searchKey

/-- Keeping one peer of each key, sorting, and resizing cuts a list to the nearest. -/
theorem sortByDist_uniquePeers (searchKey : Key) (peers : List Peer) :
    (sortByDist searchKey (uniquePeers peers)).take kbucketMax =
      nearest Peer.key (distTo searchKey) kbucketMax peers := by
  have hrel : ∀ p q : Peer, staticDistComparator searchKey q p = false ↔
      distTo searchKey p.key ≤ distTo searchKey q.key := by
    intro p q
    rw [← Bool.not_eq_true, staticDistComparator_iff, BitVec.not_lt, BitVec.le_def]
    rfl
  unfold sortByDist uniquePeers nearest
  simp only [hrel]

/-- The keys of peers, as a set. -/
def keySet (peers : List Peer) : Finset Key := (peers.map Peer.key).toFinset

@[simp]
theorem keySet_append (peers peers' : List Peer) :
    keySet (peers ++ peers') = keySet peers ∪ keySet peers' := by
  simp [keySet]

namespace Net

variable {W δ : Type} {net : Net W} {I : W → Prop} {F : Fault → Prop}

/-- How the peers that a run adds to the list come from its events: nothing from none, and one after
the other. -/
structure Gathering (G : List Event → List Peer → Prop) : Prop where
  /-- No events add nothing. -/
  nil : G [] []
  /-- What is added later comes behind. -/
  append : ∀ {events events' found found'}, G events found → G events' found' →
    G (events ++ events') (found ++ found')

/-- The answers of a query are gathered from its events. -/
def Gathers (I : W → Prop) (G : List Event → List Peer → Prop) (query : Peer → Op W (Answer δ))
    (F : Fault → Prop) : Prop :=
  ∀ peer, Exec.Yields I (query peer) (fun events answer =>
    match answer with
    | .failed => G events []
    | .answered found => G events found
    | .halt _ => True) F

/-- What a part of the inner loop does to the list, unless it is halted: it adds what is gathered. -/
def Extends (G : List Event → List Peer → Prop) (closest : List Peer) (events : List Event)
    (r : Option δ × List Key × List Peer) : Prop :=
  r.1 = none → ∃ found, G events found ∧ r.2.2 = closest ++ found

variable {G : List Event → List Peer → Prop} {query : Peer → Op W (Answer δ)}

/-- The inner loop up to the next answer adds what is gathered, if what comes after does. -/
theorem queryPending_yields (hG : Gathering G) (hquery : Gathers I G query F)
    {next : List Peer → List Key → List Peer → Op W (Option δ × List Key × List Peer)}
    (hnext : ∀ pending queried closest,
      Exec.Yields I (next pending queried closest) (Extends G closest) F)
    (pending : List Peer) (queried : List Key) (closest : List Peer) :
    Exec.Yields I (queryPending query next pending queried closest) (Extends G closest) F := by
  induction pending generalizing queried with
  | nil => exact Exec.yields_pure fun _ => ⟨[], hG.nil, (List.append_nil _).symm⟩
  | cons peer rest ih =>
    unfold queryPending
    split_ifs
    · exact ih queried
    · refine (hquery peer).bind fun events answer hanswer => ?_
      cases answer with
      | failed =>
        refine (ih _).mono fun events' r hr hnone => ?_
        obtain ⟨found, hfound, heq⟩ := hr hnone
        exact ⟨found, hG.append hanswer hfound, heq⟩
      | answered found =>
        refine (hnext _ _ _).mono fun events' r hr hnone => ?_
        obtain ⟨found', hfound', heq⟩ := hr hnone
        exact ⟨found ++ found', hG.append hanswer hfound', by rw [heq, List.append_assoc]⟩
      | halt value => exact Exec.yields_pure fun hnone => nomatch hnone

/-- The inner loop adds what is gathered. -/
theorem queryRound_yields (hG : Gathering G) (hquery : Gathers I G query F) (count : ℕ) :
    ∀ (pending : List Peer) (queried : List Key) (closest : List Peer),
      Exec.Yields I (queryRound query count pending queried closest) (Extends G closest) F := by
  induction count with
  | zero =>
    exact fun _ _ _ => Exec.yields_pure fun _ => ⟨[], hG.nil, (List.append_nil _).symm⟩
  | succ count ih => exact queryPending_yields hG hquery ih

/-- The list that the outer loop ends with, unless it is halted, stands for the list that it began
with and all that was gathered. It stops at an access to the first element only if it began with
an empty list. -/
theorem lookupRounds_yields (hG : Gathering G) (hquery : Gathers I G query F) (searchKey : Key)
    (rounds : ℕ) : ∀ (queried : List Key) (size : ℕ) (minDist : Dist) (closest : List Peer),
      (closest = [] → F .outOfRange) →
      Exec.Yields I (lookupRounds searchKey query rounds queried size minDist closest)
        (fun events r => r.1 = none → ∃ found, G events found ∧ r.2 ⊆ closest ++ found ∧
          Suffices (distTo searchKey) kbucketMax (keySet r.2) (keySet (closest ++ found))) F := by
  induction rounds with
  | zero =>
    intro queried size minDist closest hempty
    refine Exec.yields_pure fun _ => ⟨[], hG.nil, ?_, ?_⟩
    · simp
    · rw [List.append_nil]
      exact Suffices.refl _ _ _
  | succ rounds ih =>
    intro queried size minDist closest hempty
    unfold lookupRounds
    refine (queryRound_yields hG hquery _ _ _ _).bind fun events r hr => ?_
    obtain ⟨halted, queried', closest'⟩ := r
    simp only
    cases halted with
    | some value => exact Exec.yields_pure fun hnone => nomatch hnone
    | none =>
      obtain ⟨found, hfound, heq⟩ := hr rfl
      simp only at heq
      subst heq
      have hcut : IsNearest (distTo searchKey) kbucketMax (keySet (closest ++ found))
          ((nearest Peer.key (distTo searchKey) kbucketMax (closest ++ found)).map Peer.key) :=
        isNearest_nearest (distTo_injective searchKey) kbucketMax (closest ++ found)
      have hsub := nearest_subset Peer.key (distTo searchKey) kbucketMax (closest ++ found)
      rw [sortByDist_uniquePeers]
      generalize nearest Peer.key (distTo searchKey) kbucketMax (closest ++ found) = cut at *
      cases cut with
      | nil =>
        -- Nothing is left of the list, so it was empty.
        refine Exec.yields_fault (hempty ?_)
        have hcard : (keySet (closest ++ found)).card = 0 := by
          have hmin : 0 = min kbucketMax (keySet (closest ++ found)).card := hcut.length
          have hmax : kbucketMax = 20 := rfl
          omega
        have hnil : keySet (closest ++ found) = ∅ := Finset.card_eq_zero.1 hcard
        simp only [keySet, List.toFinset_eq_empty_iff, List.map_eq_nil_iff,
          List.append_eq_nil_iff] at hnil
        exact hnil.1
      | cons first rest =>
        have hsuffices : Suffices (distTo searchKey) kbucketMax (keySet (first :: rest))
            (keySet (closest ++ found)) := hcut.suffices
        simp only [Option.isSome_none, Bool.false_eq_true, if_false]
        split_ifs
        · exact Exec.yields_pure fun _ =>
            ⟨found, by simpa using hG.append hfound hG.nil, hsub, hsuffices⟩
        · refine (ih _ _ _ (first :: rest) (fun h => nomatch h)).mono fun events' r hr hnone => ?_
          obtain ⟨found', hfound', hsub', hsuffices'⟩ := hr hnone
          refine ⟨found ++ found', hG.append hfound hfound', ?_, ?_⟩
          · intro p hp
            rw [← List.append_assoc]
            rcases List.mem_append.1 (hsub' hp) with hp | hp
            · exact List.mem_append_left _ (hsub hp)
            · exact List.mem_append_right _ hp
          · rw [keySet_append] at hsuffices'
            rw [← List.append_assoc, keySet_append]
            exact hsuffices'.trans (hsuffices.union _)

/-! ## Node lookups -/

variable {selfPeer : Peer}

/-- The queries of `node_lookup` add what is heard of. -/
theorem nodeQueryFn_gathers (h : net.Stable selfPeer I) (searchKey : Key) :
    Gathers I (fun events found => heard selfPeer events = found) (net.nodeQueryFn searchKey)
      CallerFault := by
  intro peer
  refine (findNode_yields h peer searchKey).bind fun events found hfound => ?_
  cases found with
  | none => exact Exec.yields_pure (by simpa using hfound)
  | some found => exact Exec.yields_pure (by simpa using hfound)

/-- The queries of `value_lookup` do not access the list. -/
theorem valueQueryFn_gathers (h : net.Stable selfPeer I) (searchKey : Key) :
    Gathers I (fun _ _ => True) (net.valueQueryFn searchKey) CallerFault := by
  intro peer
  refine Exec.Yields.bind (quiet_findValue h peer searchKey) fun events found _ => ?_
  rcases found with _ | data | found
  all_goals exact Exec.yields_pure trivial

/-- What is heard of is gathered. -/
theorem gathering_heard (selfPeer : Peer) :
    Gathering fun events found => heard selfPeer events = found where
  nil := rfl
  append h h' := by rw [heard_append, h, h']

/-- The last queries of `node_lookup` add what is heard of. -/
theorem findFrom_yields (h : net.Stable selfPeer I) (searchKey : Key) (peers : List Peer) :
    Exec.Yields I (net.findFrom searchKey peers)
      (fun events more => heard selfPeer events = more) CallerFault := by
  induction peers with
  | nil => exact Exec.yields_pure rfl
  | cons peer rest ih =>
    refine (findNode_yields h peer searchKey).bind fun events found hfound => ?_
    refine ih.bind fun events' more hmore => Exec.yields_pure ?_
    simp [hfound, hmore]

/-- The router's answer that a lookup begins with, and what the operation leaves. -/
theorem closestPeers_run (h : net.Stable selfPeer I)
    (hnow : ∀ w, net.session (net.now w).2 = net.session w) (searchKey : Key) (n : UInt32) {w : W}
    (hw : I w) :
    ∃ w', I w' ∧ net.closestPeers searchKey n w =
      ⟨[.lock .router, .unlock .router], w',
        .ok ((net.session w).router.closestPeers (net.now w).1 searchKey n).1⟩ := by
  refine ⟨_, h.step (net.now w).2 (.closest (net.now w).1 searchKey n) (h.now w hw), ?_⟩
  rw [← hnow w]
  rfl

/-- A lookup is its rounds, from the router's answer on. -/
theorem lookupHelper_run (h : net.Stable selfPeer I)
    (hnow : ∀ w, net.session (net.now w).2 = net.session w) (searchKey : Key)
    (query : Peer → Op W (Answer δ)) {w : W} (hw : I w) :
    ∃ w', I w' ∧
      let first := ((net.session w).router.closestPeers (net.now w).1 searchKey
        (UInt32.ofNat kbucketMax)).1
      let minDist := first.foldl (fun d p => d.min (Dist.between searchKey p.key)) Dist.max
      let r := lookupRounds searchKey query maxLookupIters [] 0 minDist
        (sortByDist searchKey first) w'
      net.lookupHelper searchKey [] query w =
        ⟨[.lock .router, .unlock .router] ++ r.events, r.state, r.result⟩ := by
  obtain ⟨w', hw', hrun⟩ := closestPeers_run h hnow searchKey (UInt32.ofNat kbucketMax) hw
  refine ⟨w', hw', ?_⟩
  unfold lookupHelper
  rw [Exec.bind_of_ok (by rw [hrun]), hrun]
  simp only [List.nil_append, List.length_nil]

/-- Sorting keeps the keys. -/
@[simp]
theorem keySet_sortByDist (searchKey : Key) (peers : List Peer) :
    keySet (sortByDist searchKey peers) = keySet peers := by
  ext k
  simp [keySet, sortByDist]

end Net

/-- A session in an environment that gives it back its own state, and never changes the session's own
key and endpoint. -/
structure Environment (W : Type) extends Net W where
  /-- The state that was set is read. -/
  session_withSession : ∀ s w, session (withSession s w) = s
  /-- Reading the clock leaves the session as it is. -/
  session_now : ∀ w, session (now w).2 = session w
  /-- RPCs leave the session's own peer as it is. -/
  selfPeer_rpc : ∀ m endpoint request w,
    (session (rpc m endpoint request w).2).router.selfPeer = (session w).router.selfPeer

namespace Environment

variable {W : Type} (env : Environment W)

/-- No operation changes the session's own peer. -/
theorem stable (selfPeer : Peer) :
    env.toNet.Stable selfPeer fun w => (env.session w).router.selfPeer = selfPeer where
  own _ hw := hw
  step w call hw := by rw [env.session_withSession, Router.step_selfPeer, hw]
  chunks w chunks hw := by rw [env.session_withSession, hw]
  deadPeers w n hw := by rw [env.session_withSession, hw]
  now w hw := by rw [env.session_now, hw]
  rpc m endpoint request w hw := by rw [env.selfPeer_rpc, hw]

/-- An environment whose world is the session: every `FindNode` is answered by `receiver` with the
same peers, and other RPCs fail. -/
def answering (receiver : Peer) (peers : List Peer) : Environment Session where
  session s := s
  withSession s _ := s
  now s := (0, s)
  rpc
    | .findNode, _, _, s => (some ⟨localToRpcPeer receiver, peers.map localToRpcPeer⟩, s)
    | _, _, _, s => (none, s)
  turns := 2
  session_withSession _ _ := rfl
  session_now _ := rfl
  selfPeer_rpc m endpoint request s := by cases m <;> rfl

/-- What the rounds of `node_lookup` end with stands for the router's answer and all that was heard
of. -/
theorem lookupHelper_suffices (w : W) (nodeKey : Key) {halted : Option Empty} {closest : List Peer}
    (hret : (env.lookupHelper nodeKey [] (env.nodeQueryFn nodeKey) w).result = .ok (halted, closest)) :
    let selfPeer := (env.session w).router.selfPeer
    let first := ((env.session w).router.closestPeers (env.now w).1 nodeKey
      (UInt32.ofNat kbucketMax)).1
    let run := env.lookupHelper nodeKey [] (env.nodeQueryFn nodeKey) w
    (env.session run.state).router.selfPeer = selfPeer ∧
      Suffices (distTo nodeKey) kbucketMax (keySet closest)
        (keySet (first ++ heard selfPeer run.events)) := by
  intro selfPeer first run
  have hstable := env.stable selfPeer
  have hquery : Net.Gathers _ _ (env.nodeQueryFn nodeKey) fun _ => True := fun peer =>
    (Net.nodeQueryFn_gathers hstable nodeKey peer).weaken fun _ _ => trivial
  obtain ⟨w1, hw1, hhelper⟩ := Net.lookupHelper_run hstable env.session_now nodeKey
    (env.nodeQueryFn nodeKey) (w := w) rfl
  simp only at hhelper
  let minDist := first.foldl (fun d p => d.min (Dist.between nodeKey p.key)) Dist.max
  have hrounds := Net.lookupRounds_yields (Net.gathering_heard selfPeer) hquery nodeKey
    maxLookupIters [] 0 minDist (sortByDist nodeKey first) fun _ => trivial
  rw [hhelper] at hret
  have hevents : heard selfPeer run.events = heard selfPeer (Net.lookupRounds nodeKey
      (env.nodeQueryFn nodeKey) maxLookupIters [] 0 minDist (sortByDist nodeKey first) w1).events := by
    rw [show run = _ from hhelper, heard_append]
    rfl
  obtain ⟨found, hfound, -, hsuffices⟩ := hrounds.returns w1 (halted, closest) hw1 hret
    (Option.eq_none_iff_forall_ne_some.2 fun e => e.elim)
  refine ⟨?_, ?_⟩
  · rw [show run = _ from hhelper]
    exact hrounds.keeps w1 hw1
  · rw [hevents, hfound, keySet_append]
    rwa [keySet_append, Net.keySet_sortByDist] at hsuffices

/-- The last queries of `node_lookup` and the cut after them. -/
theorem findFrom_cut_yields (selfPeer : Peer) (nodeKey : Key) (closest : List Peer) :
    Exec.Yields (fun w => (env.session w).router.selfPeer = selfPeer)
      (env.findFrom nodeKey closest >>= fun more =>
        pure ((sortByDist nodeKey (uniquePeers (closest ++ more))).take kbucketMax))
      (fun events b => b = nearest Peer.key (distTo nodeKey) kbucketMax
        (closest ++ heard selfPeer events)) Net.CallerFault :=
  (Net.findFrom_yields (env.stable selfPeer) nodeKey closest).bind fun events more hmore =>
    Exec.yields_pure (by rw [sortByDist_uniquePeers, List.append_nil, hmore])

/-- What `node_lookup` returns, whatever the contacted peers answer: the `KBUCKET_MAX` nearest of the
keys in the router's first answer and in the successful responses of the lookup, in strictly
increasing distance, and not the session's own key. -/
theorem nodeLookup_nearest (w : W) (hr : (env.session w).router.Reachable) (nodeKey : Key)
    (buffer : List Peer) (hret : (env.nodeLookup nodeKey w).result = .ok buffer) :
    let selfPeer := (env.session w).router.selfPeer
    let first := ((env.session w).router.closestPeers (env.now w).1 nodeKey
      (UInt32.ofNat kbucketMax)).1
    IsNearest (distTo nodeKey) kbucketMax
        (keySet (first ++ heard selfPeer (env.nodeLookup nodeKey w).events))
        (buffer.map Peer.key) ∧
      selfPeer.key ∉ buffer.map Peer.key := by
  intro selfPeer first
  have hother : ∀ events, selfPeer.key ∉ keySet (first ++ heard selfPeer events) := by
    intro events hmem
    obtain ⟨p, hp, hkey⟩ := List.mem_map.1 (List.mem_toFinset.1 hmem)
    rcases List.mem_append.1 hp with hp | hp
    · have hinv := hr.invariant
      rw [show first = _ from Router.closestPeers_eq _ _ _ _] at hp
      exact hinv.key_ne_self p ((BinaryTree.closest_subperm hinv.table _ _).subset hp) hkey
    · exact heard_ne_self selfPeer events p hp hkey
  -- Neither the router nor a response brings the own key, so the second half follows.
  suffices hnearest : IsNearest (distTo nodeKey) kbucketMax
      (keySet (first ++ heard selfPeer (env.nodeLookup nodeKey w).events))
      (buffer.map Peer.key) from
    ⟨hnearest, fun hmem => hother _ (hnearest.subset _ hmem)⟩
  unfold Net.nodeLookup at hret ⊢
  cases hres : (env.lookupHelper nodeKey [] (env.nodeQueryFn nodeKey) w).result with
  | error e =>
    rw [Exec.bind_of_error hres] at hret
    exact nomatch hret
  | ok x =>
    obtain ⟨halted, closest⟩ := x
    obtain ⟨hself, hsuffices⟩ := env.lookupHelper_suffices w nodeKey hres
    rw [Exec.bind_of_ok hres] at hret ⊢
    have hbuffer := (env.findFrom_cut_yields selfPeer nodeKey closest).returns _ buffer hself hret
    rw [heard_append, hbuffer]
    generalize heard selfPeer (Run.events (_ : Run Event Fault W (List Peer))) = more
    -- The final cut of what stands for everything is the nearest of everything.
    have hcut : IsNearest (distTo nodeKey) kbucketMax (keySet (closest ++ more))
        ((nearest Peer.key (distTo nodeKey) kbucketMax (closest ++ more)).map Peer.key) :=
      isNearest_nearest (distTo_injective nodeKey) kbucketMax (closest ++ more)
    rw [keySet_append] at hcut
    have hnearest := (hsuffices.union (keySet more)).isNearest hcut
    rwa [← keySet_append, List.append_assoc] at hnearest

/-- A lookup of the key 4 by a session that knows one peer, which answers with itself, the session,
and two more. -/
theorem nodeLookup_nearest_answering :
    let router := Router.new 0 ⟨0, [0]⟩ ⟨1, [1]⟩
    let env := answering ⟨1, [1]⟩ [⟨1, [1]⟩, ⟨7, [7]⟩, ⟨0, [0]⟩, ⟨6, [6]⟩]
    let first := (router.closestPeers 0 4 (UInt32.ofNat kbucketMax)).1
    IsNearest (distTo 4) kbucketMax
      (keySet (first ++ heard ⟨0, [0]⟩ (env.nodeLookup 4 ⟨router, ∅, 0⟩).events)) [6, 7, 1] := by
  intro router env first
  exact (nodeLookup_nearest env ⟨router, ∅, 0⟩ ⟨0, ⟨0, [0]⟩, ⟨1, [1]⟩, [], rfl⟩ 4
    [⟨6, [6]⟩, ⟨7, [7]⟩, ⟨1, [1]⟩] (by decide +kernel)).1

/-! ## The first element -/

/-- A lookup does not access the first element of an empty list, and where the router knows no peer
it returns an empty list. -/
def EndsSafely {δ : Type} (lookup : Op W (Option δ × List Peer)) (w : W) : Prop :=
  (lookup w).result ≠ .error .outOfRange ∧
    ((env.session w).router.allPeers = [] → (lookup w).result = .ok (none, []))

/-- A lookup whose queries do not fault at an access ends safely exactly when a bucket that
`closest_peers` visits has a peer. -/
theorem endsSafely_iff {δ : Type} {G : List Event → List Peer → Prop} (hG : Net.Gathering G) {w : W}
    (hr : (env.session w).router.Reachable) (searchKey : Key) {query : Peer → Op W (Answer δ)}
    (hquery : Net.Gathers (fun w' => (env.session w').router.selfPeer =
      (env.session w).router.selfPeer) G query Net.CallerFault) :
    env.EndsSafely (env.lookupHelper searchKey [] query) w ↔
      ∃ a ∈ BinaryTree.asked searchKey (UInt32.ofNat kbucketMax) (env.session w).router.table,
        a.2 ≠ [] := by
  have hinv := hr.invariant
  obtain ⟨w1, hw1, hhelper⟩ := Net.lookupHelper_run (env.stable _) env.session_now searchKey query
    (w := w) rfl
  simp only at hhelper
  rw [Router.closestPeers_eq] at hhelper
  have hresult := congrArg Run.result hhelper
  simp only at hresult
  unfold EndsSafely
  by_cases hfirst : BinaryTree.closest searchKey (UInt32.ofNat kbucketMax)
      (env.session w).router.table = []
  · -- The list that the loop begins with is empty, and its first element is accessed.
    have hempty := BinaryTree.asked_empty hinv.table (by decide) hfirst
    rw [hfirst] at hresult
    refine iff_of_false (fun hsafe => hsafe.1 (hresult.trans rfl)) ?_
    rintro ⟨a, ha, hne⟩
    exact hne (hempty a ha)
  · refine iff_of_true ⟨?_, ?_⟩ ?_
    · have hsort : sortByDist searchKey (BinaryTree.closest searchKey (UInt32.ofNat kbucketMax)
          (env.session w).router.table) ≠ [] := fun hnil => by
        have hlen := congrArg List.length hnil
        rw [sortByDist, List.length_insertionSort] at hlen
        exact hfirst (List.eq_nil_of_length_eq_zero hlen)
      rw [hresult]
      exact fun hfault => (Net.lookupRounds_yields hG hquery searchKey maxLookupIters _ _ _ _
        fun hnil => absurd hnil hsort).faults w1 _ hw1 hfault rfl
    · intro hnone
      rw [hinv.allPeers_eq] at hnone
      have hsub := (BinaryTree.closest_subperm hinv.table searchKey
        (UInt32.ofNat kbucketMax)).subset
      rw [hnone] at hsub
      exact absurd (List.eq_nil_of_subset_nil hsub) hfirst
    · obtain ⟨p, hp⟩ := List.exists_mem_of_ne_nil _ hfirst
      obtain ⟨a, ha, hp⟩ := List.mem_flatMap.1 hp
      exact ⟨a, ha, List.ne_nil_of_mem (List.mem_of_mem_take hp)⟩

/-- The lookups of nodes and of values end safely exactly when a bucket that `closest_peers` visits
for the search key has a peer. -/
theorem lookups_endSafely_iff (w : W) (hr : (env.session w).router.Reachable) (searchKey : Key) :
    let visitsPeer := ∃ a ∈ BinaryTree.asked searchKey (UInt32.ofNat kbucketMax)
      (env.session w).router.table, a.2 ≠ []
    (env.EndsSafely (env.lookupHelper searchKey [] (env.nodeQueryFn searchKey)) w ↔ visitsPeer) ∧
      (env.EndsSafely (env.lookupHelper searchKey [] (env.valueQueryFn searchKey)) w ↔
        visitsPeer) :=
  ⟨env.endsSafely_iff (Net.gathering_heard _) hr searchKey
      (Net.nodeQueryFn_gathers (env.stable _) searchKey),
    env.endsSafely_iff ⟨trivial, fun _ _ => trivial⟩ hr searchKey
      (Net.valueQueryFn_gathers (env.stable _) searchKey)⟩

/-- A session that knows one peer looks up safely. -/
theorem lookups_endSafely_answering :
    (answering ⟨1, [1]⟩ []).EndsSafely
      ((answering ⟨1, [1]⟩ []).lookupHelper 4 [] ((answering ⟨1, [1]⟩ []).nodeQueryFn 4))
      ⟨Router.new 0 ⟨0, [0]⟩ ⟨1, [1]⟩, ∅, 0⟩ :=
  (lookups_endSafely_iff (answering ⟨1, [1]⟩ []) ⟨Router.new 0 ⟨0, [0]⟩ ⟨1, [1]⟩, ∅, 0⟩
    ⟨0, ⟨0, [0]⟩, ⟨1, [1]⟩, [], rfl⟩ 4).1.2
    ⟨(20, [⟨1, [1]⟩]), by decide +kernel, by decide⟩

/-- A session whose only peer was evicted crashes in every lookup. -/
theorem not_lookups_endSafely :
    ¬∀ (env : Environment Session) (s : Session), (env.session s).router.Reachable →
      ∀ searchKey, env.EndsSafely (env.lookupHelper searchKey [] (env.nodeQueryFn searchKey)) s := by
  intro h
  have hsafe := h (answering ⟨1, [1]⟩ [])
    ⟨(Router.new 0 ⟨0, [0]⟩ ⟨1, [1]⟩).run [.evict 1], ∅, 0⟩
    ⟨0, ⟨0, [0]⟩, ⟨1, [1]⟩, [.evict 1], rfl⟩ 4
  exact hsafe.1 rfl

end Environment

end Distft
