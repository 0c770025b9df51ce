import Distft.Router.DistanceClass
import Distft.Session.Lookup

/-!
# `update_peer`

The loop of `update_peer` inserts a peer, and where the insertion is refused it pings the peer that is
reported, evicts it unless it answers with its own key, and tries again. While nobody else changes the
router it tries at most twice: the eviction frees a place in the leaf that the second attempt comes to
(`Router.attemptInsertPeer_evictPeer`). `updatePeer_updated` says how it can end, and
`updatePeer_evictsOnlyDead` what that means for the stored peers.

A failed ping evicts the peer by itself, and the loop evicts it once more, which changes nothing.
-/

namespace Distft

open Distft.BinaryTree

/-- The ping that an event is: the peer, and the key that it was answered with. -/
def pingIn : Event → Option (Peer × Option Key)
  | .rpc .ping peer _ response =>
    some (peer, (response.bind fun r => rpcPeerToLocal r.receiver).map Peer.key)
  | _ => none

/-- The pings of a run. -/
def pings (events : List Event) : List (Peer × Option Key) := events.filterMap pingIn

/-- The event is a call of `attempt_insert_peer`. -/
def Event.isAttempt : Event → Bool
  | .attemptInsertPeer _ _ => true
  | _ => false

/-- The number of calls of `attempt_insert_peer` in a run. -/
def attempts (events : List Event) : ℕ := events.countP Event.isAttempt

/-- The peers of a router that another one holds no peer for. -/
def removedPeers (before after : Router) : List Peer :=
  before.allPeers.filter fun p => !((after.allPeers.map Peer.key).contains p.key)

@[simp]
theorem pings_nil : pings [] = [] := rfl

@[simp]
theorem attempts_nil : attempts [] = 0 := rfl

@[simp]
theorem pings_append (events events' : List Event) :
    pings (events ++ events') = pings events ++ pings events' := List.filterMap_append

@[simp]
theorem pings_cons (e : Event) (events : List Event) :
    pings (e :: events) = (pingIn e).toList ++ pings events := by
  unfold pings
  rw [List.filterMap_cons]
  cases pingIn e <;> rfl

@[simp]
theorem attempts_append (events events' : List Event) :
    attempts (events ++ events') = attempts events + attempts events' := List.countP_append

@[simp]
theorem attempts_cons (e : Event) (events : List Event) :
    attempts (e :: events) = attempts events + if e.isAttempt then 1 else 0 := List.countP_cons

namespace Environment

variable {W : Type} (env : Environment W)

/-- Nobody else changes the router while the session waits for a ping, and a ping that is answered is
answered with a key. -/
structure Undisturbed : Prop where
  /-- The router is as it was after a ping. -/
  router : ∀ endpoint request w,
    (env.session (env.rpc .ping endpoint request w).2).router = (env.session w).router
  /-- An answer has a key. -/
  answer : ∀ endpoint request w response, (env.rpc .ping endpoint request w).1 = some response →
    ∃ peer, rpcPeerToLocal response.receiver = some peer

/-- What the session's `attempt_insert_peer` does. -/
theorem attemptInsertPeer_run (w : W) (key : Key) (endpoint : Bytes) :
    ∃ w', env.attemptInsertPeer key endpoint w = ⟨[.attemptInsertPeer key endpoint], w',
        .ok (((env.session w).router.attemptInsertPeer (env.now w).1 key endpoint).1,
          ((env.session w).router.attemptInsertPeer (env.now w).1 key endpoint).2.1)⟩ ∧
      (env.session w').router =
        ((env.session w).router.attemptInsertPeer (env.now w).1 key endpoint).2.2 := by
  rw [← env.session_now w]
  exact ⟨_, rfl, congrArg Session.router (env.session_withSession _ _)⟩

/-- What the session's `evict_peer` does. -/
theorem evictPeer_run (w : W) (key : Key) :
    ∃ w', env.evictPeer key w = ⟨[.evictPeer key], w', .ok ()⟩ ∧
      (env.session w').router = (env.session w).router.evictPeer key :=
  ⟨_, rfl, congrArg Session.router (env.session_withSession _ _)⟩

variable {env}

/-- What the session's `ping` does: the peer that it is answered by, and where there is no answer, the
peer is evicted. -/
theorem ping_run (h : env.Undisturbed) (w : W) (peer : Peer) :
    ∃ events w' answer, env.ping peer w = ⟨events, w', .ok answer⟩ ∧
      pings events = [(peer, answer.map Peer.key)] ∧ attempts events = 0 ∧
      (env.session w').router = if answer.isSome then (env.session w).router
        else (env.session w).router.evictPeer peer.key := by
  obtain ⟨sender, hsender⟩ : ∃ sender, env.rpcCallerPrelims w = ⟨[], w, .ok sender⟩ := ⟨_, rfl⟩
  have hcall : env.call .ping peer ⟨sender⟩ w = ⟨[.rpc .ping peer ⟨sender⟩
      (env.rpc .ping peer.endpoint ⟨sender⟩ w).1], (env.rpc .ping peer.endpoint ⟨sender⟩ w).2,
      .ok (env.rpc .ping peer.endpoint ⟨sender⟩ w).1⟩ := rfl
  have hrouter := h.router peer.endpoint ⟨sender⟩ w
  have hanswer := h.answer peer.endpoint ⟨sender⟩ w
  generalize env.rpc .ping peer.endpoint ⟨sender⟩ w = out at *
  obtain ⟨response, w1⟩ := out
  rw [Net.ping, Exec.bind_run hsender, Exec.bind_run hcall]
  cases response with
  -- The ping fails, and evicts the peer.
  | none =>
    obtain ⟨w2, hevict, hevicted⟩ := env.evictPeer_run w1 peer.key
    simp only [Exec.bind_run hevict]
    refine ⟨_, w2, none, rfl, rfl, rfl, ?_⟩
    rw [hevicted, hrouter]
    rfl
  | some response =>
    obtain ⟨receiver, hreceiver⟩ := hanswer response rfl
    have hlocal : (Net.toLocal response.receiver : Op W Peer) w1 = ⟨[], w1, .ok receiver⟩ := by
      rw [Net.toLocal, hreceiver]
      rfl
    simp only [Exec.bind_run hlocal]
    refine ⟨[.rpc .ping peer ⟨sender⟩ (some response)], w1, some receiver, rfl, ?_, rfl, hrouter⟩
    simp [pings, pingIn, hreceiver]

/-- How `update_peer` ends: the first attempt inserts; or it is refused, and the peer that is reported
answers the ping with its own key; or it does not, is evicted, and the second attempt inserts. -/
inductive Updated (key : Key) (endpoint : Bytes) (first : Bool × Option Peer × Router) (after : Router)
    (events : List Event) : Prop
  /-- The first attempt inserts. -/
  | inserted (htrue : first.1 = true) (hafter : after = first.2.2) (hpings : pings events = [])
      (hattempts : attempts events = 1)
  /-- The reported peer answers. -/
  | kept {lru : Peer} (hfalse : first.1 = false) (hlru : first.2.1 = some lru)
      (hafter : after = first.2.2) (hpings : pings events = [(lru, some lru.key)])
      (hattempts : attempts events = 1)
  /-- The reported peer is evicted. -/
  | replaced {lru : Peer} {answer : Option Key} (now : Time) (hfalse : first.1 = false)
      (hlru : first.2.1 = some lru) (hdead : answer ≠ some lru.key)
      (htrue : ((first.2.2.evictPeer lru.key).attemptInsertPeer now key endpoint).1 = true)
      (hafter : after = ((first.2.2.evictPeer lru.key).attemptInsertPeer now key endpoint).2.2)
      (hpings : pings events = [(lru, answer)]) (hattempts : attempts events = 2)

/-- A turn of the loop that inserts. -/
theorem updateLoop_inserted {w : W} {key : Key} {endpoint : Bytes}
    (htrue : ((env.session w).router.attemptInsertPeer (env.now w).1 key endpoint).1 = true)
    (turns : ℕ) (lruPeer : Option Peer) :
    ∃ w', env.updateLoop key endpoint (turns + 1) lruPeer w = ⟨[.lock .router,
        .attemptInsertPeer key endpoint, .unlock .router], w', .ok ()⟩ ∧
      (env.session w').router =
        ((env.session w).router.attemptInsertPeer (env.now w).1 key endpoint).2.2 := by
  obtain ⟨w', hrun, hrouter⟩ := env.attemptInsertPeer_run w key endpoint
  refine ⟨w', ?_, hrouter⟩
  have hlock : (Net.lock .router : Op W Unit) w = ⟨[.lock .router], w, .ok ()⟩ := rfl
  have hunlock : (Net.unlock .router : Op W Unit) w' = ⟨[.unlock .router], w', .ok ()⟩ := rfl
  rw [Net.updateLoop, Exec.bind_run hlock, Exec.bind_run hrun]
  simp only [Exec.bind_run hunlock, htrue, if_true]
  rfl

/-- `update_peer` ends in one of the ways of `Updated`. -/
theorem updatePeer_updated (h : env.Undisturbed) (hturns : 2 ≤ env.turns) {w : W}
    (hinv : (env.session w).router.Invariant) (key : Key) (endpoint : Bytes) :
    (env.updatePeer key endpoint w).result = .ok () ∧
      Updated key endpoint ((env.session w).router.attemptInsertPeer (env.now w).1 key endpoint)
        (env.session (env.updatePeer key endpoint w).state).router
        (env.updatePeer key endpoint w).events := by
  -- Two turns are enough: the loop is unfolded once for the refusal and once for the retry.
  obtain ⟨turns, hn⟩ := Nat.exists_eq_add_of_le' hturns
  rw [Net.updatePeer, hn]
  cases hfirst : ((env.session w).router.attemptInsertPeer (env.now w).1 key endpoint).1 with
  | true =>
    obtain ⟨w', hrun, hrouter⟩ := updateLoop_inserted hfirst (turns + 1) none
    rw [hrun]
    exact ⟨rfl, .inserted hfirst hrouter rfl rfl⟩
  | false =>
    obtain ⟨hself, lru, hlru, hfull⟩ := Router.attemptInsertPeer_refused hinv hfirst
    obtain ⟨w1, hattempt, hrouter1⟩ := env.attemptInsertPeer_run w key endpoint
    obtain ⟨hinv1, hown⟩ := Router.attemptInsertPeer_invariant hinv (env.now w).1 key endpoint
    obtain ⟨events, w2, answer, hping, hpings, hattempts, hrouter2⟩ := ping_run h w1 lru
    generalize (env.session w).router.attemptInsertPeer (env.now w).1 key endpoint = first at *
    have hlock : ∀ w', (Net.lock .router : Op W Unit) w' = ⟨[.lock .router], w', .ok ()⟩ :=
      fun _ => rfl
    have hunlock : ∀ w', (Net.unlock .router : Op W Unit) w' = ⟨[.unlock .router], w', .ok ()⟩ :=
      fun _ => rfl
    rw [hrouter1] at hrouter2
    rw [Net.updateLoop, Exec.bind_run (hlock w), Exec.bind_run hattempt]
    simp only [Exec.bind_run (hunlock w1), hfirst, hlru, Bool.false_eq_true, if_false,
      Option.some_or, Exec.bind_run hping]
    split_ifs with hkey
    · -- The reported peer answered with its own key, which leaves the router as it is.
      simp only [Exec.pure_run]
      refine ⟨trivial, .kept hfirst hlru ?_ ?_ ?_⟩
      · obtain ⟨q, rfl, -⟩ := Option.map_eq_some_iff.1 hkey
        simpa using hrouter2
      · simp [hpings, hkey, pingIn]
      · simp [hattempts, Event.isAttempt]
    · -- Whether or not the ping evicted it, the reported peer is gone now.
      obtain ⟨w3, hevict, hrouter3⟩ := env.evictPeer_run w2 lru.key
      have hgone : (env.session w3).router = first.2.2.evictPeer lru.key := by
        rw [hrouter3, hrouter2]
        split_ifs
        · rfl
        · exact Router.evictPeer_evictPeer hinv1 lru.key
      -- The counter of dead peers does not touch the router.
      obtain ⟨w4, hcount, hrouter4⟩ : ∃ w4, env.modify (fun s =>
          ((), { s with deadPeers := s.deadPeers + 1 })) w3 = ⟨[], w4, .ok ()⟩ ∧
          (env.session w4).router = (env.session w3).router := by
        refine ⟨_, rfl, ?_⟩
        show (env.session (env.withSession _ _)).router = _
        rw [env.session_withSession]
      have hmeta : ∀ w', (Net.lock .metadata : Op W Unit) w' = ⟨[.lock .metadata], w', .ok ()⟩ :=
        fun _ => rfl
      have hunmeta : ∀ w', (Net.unlock .metadata : Op W Unit) w' =
          ⟨[.unlock .metadata], w', .ok ()⟩ := fun _ => rfl
      -- The eviction has made room in the leaf that the retry comes to.
      have hretry := Router.attemptInsertPeer_evictPeer hinv1 (env.now w4).1
        (by rwa [hown]) hfull
      rw [← hgone, ← hrouter4] at hretry
      obtain ⟨w5, hlast, hrouter5⟩ := updateLoop_inserted hretry turns (some lru)
      rw [hrouter4, hgone] at hretry hrouter5
      simp only [Exec.bind_run (hlock w2), Exec.bind_run hevict, Exec.bind_run (hunlock w3),
        Exec.bind_run (hmeta w3), Exec.bind_run hcount, Exec.bind_run (hunmeta w4), hlast]
      refine ⟨trivial, .replaced (env.now w4).1 hfirst hlru hkey hretry hrouter5 ?_ ?_⟩
      · simp [hpings, pingIn]
      · simp [hattempts, Event.isAttempt]

/-- Where every stored key stays, no peer is removed. -/
theorem removedPeers_eq_nil {before after : Router} (hb : before.Invariant) (ha : after.Invariant)
    (hkeys : ∀ p ∈ before.table.peers, p.key ∈ after.table.peers.map Peer.key) :
    removedPeers before after = [] := by
  rw [removedPeers, List.filter_eq_nil_iff, hb.allPeers_eq, ha.allPeers_eq]
  simpa using hkeys

/-- What `update_peer` does to the stored peers, for each way that it ends. -/
theorem updatePeer_evictsOnlyDead (h : env.Undisturbed) (hturns : 2 ≤ env.turns) (w : W)
    (hr : (env.session w).router.Reachable) (key : Key) (endpoint : Bytes) :
    let r := (env.session w).router
    let first := (r.attemptInsertPeer (env.now w).1 key endpoint).2.2
    let out := env.updatePeer key endpoint w
    let after := (env.session out.state).router
    out.result = .ok () ∧ attempts out.events ≤ 2 ∧
      (((key = r.selfPeer.key ∨ endpoint = r.selfPeer.endpoint) ∧ after = r) ∨
        ⟨key, endpoint⟩ ∈ after.allPeers ∨
        after.allPeers.Perm r.allPeers ∧
          ∃ lru, FullFor key lru after.table ∧ (lru, some lru.key) ∈ pings out.events) ∧
      (removedPeers r after).length ≤ 1 ∧
      ∀ p ∈ removedPeers r after, FullFor key p first.table ∧
        ∃ answer, pings out.events = [(p, answer)] ∧ answer ≠ some p.key := by
  intro r first out after
  have hinv := hr.invariant
  obtain ⟨hresult, hupdated⟩ := updatePeer_updated h hturns hinv key endpoint
  obtain ⟨hinv1, hown⟩ := Router.attemptInsertPeer_invariant hinv (env.now w).1 key endpoint
  refine ⟨hresult, ?_⟩
  cases hupdated with
  | inserted htrue hafter hpings hattempts =>
    have hafter : after = first := hafter
    refine ⟨hattempts.trans_le one_le_two, ?_⟩
    rw [hafter]
    rcases Router.attemptInsertPeer_true hinv htrue with ⟨hself, hsame⟩ | ⟨hstored, hkeys⟩
    · have hsame : first = r := hsame
      rw [hsame, removedPeers_eq_nil hinv hinv fun p hp => List.mem_map_of_mem hp]
      exact ⟨.inl ⟨hself, rfl⟩, by simp, by simp⟩
    · rw [removedPeers_eq_nil hinv hinv1 hkeys]
      exact ⟨.inr (.inl (hinv1.allPeers_eq ▸ hstored)), by simp, by simp⟩
  | kept hfalse hlru hafter hpings hattempts =>
    have hafter : after = first := hafter
    have hperm := Router.attemptInsertPeer_false hinv hfalse
    obtain ⟨-, lru, hlru', hfull⟩ := Router.attemptInsertPeer_refused hinv hfalse
    obtain rfl := Option.some.inj (hlru.symm.trans hlru')
    refine ⟨hattempts.trans_le one_le_two, ?_⟩
    rw [hafter, removedPeers_eq_nil hinv hinv1 fun p hp =>
      List.mem_map_of_mem (hperm.mem_iff.2 hp)]
    refine ⟨.inr (.inr ⟨?_, _, hfull, ?_⟩), by simp, by simp⟩
    · rw [hinv1.allPeers_eq, hinv.allPeers_eq]
      exact hperm
    · rw [hpings]
      exact List.mem_singleton_self _
  | @replaced lru answer now hfalse hlru hdead htrue hafter hpings hattempts =>
    have hperm := Router.attemptInsertPeer_false hinv hfalse
    obtain ⟨hself, lru', hlru', hfull⟩ := Router.attemptInsertPeer_refused hinv hfalse
    obtain rfl := Option.some.inj (hlru.symm.trans hlru')
    obtain ⟨hinv2, hown2⟩ := Router.evictPeer_invariant hinv1 lru.key
    obtain ⟨hinv3, -⟩ := Router.attemptInsertPeer_invariant hinv2 now key endpoint
    rw [← hown, ← hown2] at hself
    obtain ⟨hstored, hkeys⟩ := (Router.attemptInsertPeer_true hinv2 htrue).resolve_left
      fun hsame => hself hsame.1
    rw [← hafter] at hinv3 hstored hkeys
    -- What is removed has the reported peer's key, and so is that peer.
    have hremoved : ∀ p ∈ removedPeers r after, p = lru := by
      intro p hp
      obtain ⟨hp, hgone⟩ := List.mem_filter.1 hp
      rw [hinv3.allPeers_eq, Bool.not_eq_true', ← Bool.not_eq_true, List.contains_iff_mem] at hgone
      have hfirst : p ∈ first.table.peers := hperm.mem_iff.2 (hinv.allPeers_eq ▸ hp)
      obtain ⟨s, access, kbucket, hleaf, -, -, hlast⟩ := hfull
      have hlruFirst : lru ∈ first.table.peers := by
        refine bucket_leafFor_subset hinv1.table key ?_
        rw [hleaf, bucket_leafOf]
        exact List.mem_of_getLast? hlast
      refine List.inj_on_of_nodup_map hinv1.table.keys_nodup hfirst hlruFirst ?_
      by_contra hne
      exact hgone (hkeys p (Router.mem_evictPeer_of_ne hinv1 hfirst hne))
    refine ⟨hattempts.le, .inr (.inl (hinv3.allPeers_eq ▸ hstored)), ?_, ?_⟩
    · have hnodup : (removedPeers r after).Nodup := by
        rw [removedPeers, hinv.allPeers_eq]
        exact hinv.table.keys_nodup.of_map.filter _
      have hsub : removedPeers r after ⊆ [lru] := fun p hp => by simp [hremoved p hp]
      exact (hnodup.subperm hsub).length_le
    · intro p hp
      obtain rfl := hremoved p hp
      exact ⟨hfull, answer, hpings, hdead⟩

/-- In the environment that fails all pings nobody changes the router. -/
theorem answering_undisturbed (receiver : Peer) (peers : List Peer) :
    (answering receiver peers).Undisturbed where
  router _ _ _ := rfl
  answer _ _ _ _ hsome := nomatch hsome

/-- A router whose root bucket is full. -/
def fullRouter : Router :=
  (Router.new 0 ⟨0, []⟩ ⟨BitVec.ofNat keyBits (2^159), [1]⟩).run Router.lowerClassCalls

/-- The newcomer of a full bucket takes the place of the peer that was last in it, which was pinged
and did not answer. -/
theorem updatePeer_evictsOnlyDead_answering :
    let dead : Peer := ⟨BitVec.ofNat keyBits (2^159), [1]⟩
    let newcomer : Peer := ⟨BitVec.ofNat keyBits (2^159 + 1), [1]⟩
    let out := (answering ⟨1, [1]⟩ []).updatePeer newcomer.key newcomer.endpoint ⟨fullRouter, ∅, 0⟩
    out.result = .ok () ∧ attempts out.events ≤ 2 ∧ removedPeers fullRouter out.state.router = [dead] ∧
      ∃ answer, pings out.events = [(dead, answer)] ∧ answer ≠ some dead.key := by
  intro dead newcomer out
  have hreachable : fullRouter.Reachable :=
    ⟨0, ⟨0, []⟩, ⟨BitVec.ofNat keyBits (2^159), [1]⟩, Router.lowerClassCalls, rfl⟩
  obtain ⟨hresult, hattempts, -, -, hevicted⟩ := updatePeer_evictsOnlyDead
    (answering_undisturbed ⟨1, [1]⟩ []) (le_refl 2) ⟨fullRouter, ∅, 0⟩ hreachable newcomer.key
    newcomer.endpoint
  have hremoved : removedPeers fullRouter out.state.router = [dead] := by decide +kernel
  have hmem : dead ∈ removedPeers fullRouter out.state.router := hremoved ▸ List.mem_singleton_self _
  exact ⟨hresult, hattempts, hremoved, (hevicted dead hmem).2⟩

end Environment

end Distft
