import Distft.Session.Lifecycle

/-!
# The chunks that a teardown drops

`teardown` offers each chunk to what `closest_peers` returns of the router for `PEER_LOOKUP_ALPHA`
peers, up to the first that takes it, and drops it where none does (`reassign_dropped`). So a
dropped chunk was offered to all of these, but they may be fewer than the router could name: what
counts is what the buckets that are asked can give (`dropsLate_iff`). The bucket of the chunk's key
is asked first, so as long as it has `PEER_LOOKUP_ALPHA` peers at each turn, or all that the router
knows, no chunk is dropped too early (`teardown_dropsLate`). Where it has fewer, the others may not
be asked (`not_dropsLate`).
-/

namespace Distft

open Exec

namespace Net

variable {W : Type} (net : Net W)

/-! ## Turns -/

/-- A turn of the loop of `teardown` over the chunks: the world that it begins in, and the chunk
with its key. -/
structure Turn (W : Type) where
  /-- The world. -/
  world : W
  /-- `chunk_key`. -/
  chunkKey : Key
  /-- `chunk`. -/
  chunk : Chunk

/-- The run of a turn. -/
def Turn.run (turn : Turn W) : Run Event Fault W Bool := net.reassign turn.chunkKey turn.chunk turn.world

/-- The turns that the loop comes to: a fault ends it. -/
def turnsFrom : List (Σ _ : Key, Chunk) → W → List (Turn W)
  | [], _ => []
  | ⟨chunkKey, chunk⟩ :: rest, w =>
    ⟨w, chunkKey, chunk⟩ :: match (net.reassign chunkKey chunk w).result with
      | .ok _ => turnsFrom rest (net.reassign chunkKey chunk w).state
      | .error _ => []

/-- The first of them. -/
theorem mem_turnsFrom_head (chunkKey : Key) (chunk : Chunk) (rest : List (Σ _ : Key, Chunk)) (w : W) :
    ⟨w, chunkKey, chunk⟩ ∈ net.turnsFrom (⟨chunkKey, chunk⟩ :: rest) w := List.mem_cons_self

/-- The turns of `teardown(true)`. -/
def teardownTurns (w : W) : List (Turn W) := net.turnsFrom (net.session w).chunks.entries w

/-- The peer that an event offers a chunk to. -/
def offeredIn : Event → List Key
  | .rpc .storeInit peer _ _ => [peer.key]
  | _ => []

/-- The peers that a run offers chunks to, each of which gets a `StoreInit`. -/
def offeredTo (events : List Event) : List Key := events.flatMap offeredIn

@[simp]
theorem offeredTo_nil : offeredTo [] = [] := rfl

@[simp]
theorem offeredTo_cons (e : Event) (events : List Event) :
    offeredTo (e :: events) = offeredIn e ++ offeredTo events := rfl

@[simp]
theorem offeredTo_append (events events' : List Event) :
    offeredTo (events ++ events') = offeredTo events ++ offeredTo events' := List.flatMap_append

/-- If the turn drops its chunk, it has offered it to `PEER_LOOKUP_ALPHA` distinct peers, or to as
many as the router knew. -/
def DropsLate (turn : Turn W) : Prop :=
  (turn.run net).result = .ok false →
    min peerLookupAlpha (net.session turn.world).router.allPeers.length ≤
      (offeredTo (turn.run net).events).toFinset.card

/-- `teardown(true)` drops no chunk too early. -/
def TeardownDropsLate (w : W) : Prop := ∀ turn ∈ net.teardownTurns w, net.DropsLate turn

/-- Each of the peers refuses the chunk, one after the other. -/
def AllRefuse (chunk : Chunk) : List Peer → W → Prop
  | [], _ => True
  | peer :: rest, w => (net.store peer chunk false w).result = .ok false ∧
      AllRefuse chunk rest (net.store peer chunk false w).state

/-- The peers that `closest_peers` returns at the turn all refuse the chunk. -/
def Refused (turn : Turn W) : Prop :=
  net.AllRefuse turn.chunk (BinaryTree.closest turn.chunkKey 3 (net.session turn.world).router.table)
    (net.closestPeers turn.chunkKey 3 turn.world).state

/-- The buckets that are asked at the turn can give `PEER_LOOKUP_ALPHA` peers, or as many as the
router knows. -/
def EnoughAsked (turn : Turn W) : Prop :=
  min peerLookupAlpha (net.session turn.world).router.allPeers.length ≤
    ((BinaryTree.asked turn.chunkKey 3 (net.session turn.world).router.table).map fun a =>
      min a.1.toNat a.2.length).sum

variable {net}

/-! ## The loop over the peers -/

/-- A chunk that is stored is offered to nobody else. -/
theorem storeAtFirst_stored (chunk : Chunk) (peers : List Peer) :
    net.storeAtFirst chunk true peers = pure true := by
  induction peers with
  | nil => rfl
  | cons peer rest ih => exact ih

/-- The loop over the peers comes to its end without success if all refuse. -/
theorem storeAtFirst_result_iff (chunk : Chunk) (peers : List Peer) (w : W) :
    (net.storeAtFirst chunk false peers w).result = .ok false ↔ net.AllRefuse chunk peers w := by
  induction peers generalizing w with
  | nil => exact iff_of_true rfl trivial
  | cons peer rest ih =>
    have hcons : net.storeAtFirst chunk false (peer :: rest) =
        (net.store peer chunk false >>= fun stored => net.storeAtFirst chunk stored rest) := rfl
    rw [hcons, AllRefuse]
    cases hr : (net.store peer chunk false w).result with
    | error e =>
      rw [bind_of_error hr]
      simp
    | ok stored =>
      rw [bind_of_ok hr]
      cases stored with
      | true =>
        -- It is not asked for any more, and the turn ends with success.
        simp [storeAtFirst_stored, pure_run]
      | false => simpa using ih _

/-- Updates offer nothing. -/
theorem passesUpdates_offeredIn : PassesUpdates offeredIn :=
  ⟨fun _ => rfl, fun _ => rfl, fun _ _ => rfl, fun _ => rfl, fun _ _ _ => rfl⟩

/-- `store` offers its chunk to its peer. -/
theorem store_offeredTo (peer : Peer) (chunk : Chunk) (force : Bool) :
    Yields (fun _ => True) (net.store peer chunk force)
      (fun events _ => offeredTo events = [peer.key]) fun _ => True := by
  have hsilent : ∀ receiver, Yields (fun _ => True) (net.rpcCallerEpilogue receiver)
      (fun events _ => offeredTo events = []) fun _ => True := fun _ =>
    (silent_rpcCallerEpilogue passesUpdates_offeredIn net.frame_true.update fun _ _ => trivial).weaken
      fun _ _ => trivial
  have hprelims : Yields (fun _ => True) net.rpcCallerPrelims (fun events _ => events = [])
      fun _ => True := yields_read fun _ _ => rfl
  have hevict : Yields (fun _ => True) (net.evictPeer peer.key) (fun events _ => offeredTo events = [])
      fun _ => True :=
    (silent_evictPeer passesUpdates_offeredIn net.frame_true.update _).weaken fun _ _ => trivial
  refine hprelims.bind fun _ sender hnil => (yields_call _ fun _ _ => trivial).bind
    fun _ initResponse hinit => ?_
  obtain ⟨rfl, -⟩ := hinit
  subst hnil
  cases initResponse with
  | none => exact hevict.bind fun events _ hevents => yields_pure (by simp [offeredIn, hevents])
  | some initResponse =>
    simp only
    split_ifs
    · exact yields_pure (by simp [offeredIn])
    · refine (hsilent _).bind fun events _ hevents => hprelims.bind fun _ sender' hnil =>
        (yields_call _ fun _ _ => trivial).bind fun _ response hstore => ?_
      obtain ⟨rfl, -⟩ := hstore
      subst hnil
      -- The second RPC sends the chunk that was offered by the first.
      cases response with
      | none => exact yields_pure (by simp [offeredIn, hevents])
      | some response =>
        exact (hsilent _).bind fun events' _ hevents' =>
          yields_pure (by simp [offeredIn, hevents, hevents'])

/-- Where the loop over the peers ends without success, it has offered the chunk to all. -/
theorem storeAtFirst_offeredTo (chunk : Chunk) (peers : List Peer) (stored : Bool) :
    Yields (fun _ => True) (net.storeAtFirst chunk stored peers)
      (fun events b => b = false → offeredTo events = peers.map Peer.key) fun _ => True := by
  induction peers generalizing stored with
  | nil => exact yields_pure fun _ => rfl
  | cons peer rest ih =>
    cases stored with
    | true =>
      rw [storeAtFirst_stored]
      exact yields_pure nofun
    | false =>
      refine (store_offeredTo peer chunk false).bind fun events stored hevents =>
        (ih stored).mono fun events' b hrest hb => ?_
      rw [offeredTo_append, hevents, hrest hb]
      rfl

end Net

namespace Environment

open Net

variable {W : Type} {env : Environment W}

/-! ## A turn -/

variable (env) in
/-- A turn goes through the peers that `closest_peers` returns. -/
theorem reassign_run (turn : Turn W) :
    ∃ w', (env.closestPeers turn.chunkKey 3 turn.world).state = w' ∧
      turn.run env.toNet =
        let r := env.storeAtFirst turn.chunk false
          (BinaryTree.closest turn.chunkKey 3 (env.session turn.world).router.table) w'
        ⟨[.lock .router, .unlock .router] ++ r.events, r.state, r.result⟩ := by
  obtain ⟨w', -, hrun⟩ := closestPeers_run (env.stable (env.session turn.world).router.selfPeer)
    env.session_now turn.chunkKey 3 (w := turn.world) rfl
  rw [Router.closestPeers_eq] at hrun
  exact ⟨w', by rw [hrun], bind_run hrun⟩

/-- A turn drops its chunk if the peers refuse it. -/
theorem dropped_iff (turn : Turn W) :
    (turn.run env.toNet).result = .ok false ↔ env.Refused turn := by
  obtain ⟨w', hw', hrun⟩ := reassign_run env turn
  rw [hrun, Refused, hw']
  exact storeAtFirst_result_iff _ _ _

/-- It has offered it to all of them then. -/
theorem dropped_offeredTo {turn : Turn W} (hdropped : (turn.run env.toNet).result = .ok false) :
    offeredTo (turn.run env.toNet).events =
      (BinaryTree.closest turn.chunkKey 3 (env.session turn.world).router.table).map Peer.key := by
  obtain ⟨w', -, hrun⟩ := reassign_run env turn
  rw [hrun] at hdropped ⊢
  rw [offeredTo_append]
  exact (storeAtFirst_offeredTo _ _ _).returns w' false trivial hdropped rfl

/-- A turn drops its chunk too early exactly if the peers refuse it and the buckets that were asked
cannot give enough. -/
theorem dropsLate_iff {turn : Turn W} (hr : env.RouterReachable turn.world) :
    env.DropsLate turn ↔ (env.Refused turn → env.EnoughAsked turn) := by
  have hcard : (turn.run env.toNet).result = .ok false →
      (offeredTo (turn.run env.toNet).events).toFinset.card =
        ((BinaryTree.asked turn.chunkKey 3 (env.session turn.world).router.table).map fun a =>
          min a.1.toNat a.2.length).sum := by
    intro hdropped
    -- The peers that are offered the chunk are distinct, and as many as the buckets give.
    rw [dropped_offeredTo hdropped,
      List.toFinset_card_of_nodup (BinaryTree.closest_nodup hr.invariant.table _ _), List.length_map,
      BinaryTree.length_closest]
  rw [← dropped_iff, DropsLate, EnoughAsked]
  exact forall_congr' fun hdropped => by rw [hcard hdropped]

/-! ## The teardown -/

/-- The router is reachable at all turns. -/
theorem reachable_of_mem_turnsFrom (hrpc : env.KeepsReachable) {entries : List (Σ _ : Key, Chunk)} {w : W}
    (hw : env.RouterReachable w) {turn : Turn W} (hturn : turn ∈ env.turnsFrom entries w) :
    env.RouterReachable turn.world := by
  have hframe := frame_reachable hrpc
  have hreassign : ∀ chunkKey chunk,
      Keeps env.RouterReachable (fun _ => True) (env.reassign chunkKey chunk) := fun chunkKey chunk =>
    reassign_of_composes composes_keeps (keeps_closestPeers hframe covers_true _ _) fun peer =>
      keeps_store hframe covers_true peer chunk false
  induction entries generalizing w with
  | nil => exact absurd hturn List.not_mem_nil
  | cons entry rest ih =>
    rcases List.mem_cons.1 hturn with rfl | hturn
    · exact hw
    · split at hturn
      · exact ih ((hreassign _ _).keeps w hw) hturn
      · exact absurd hturn List.not_mem_nil

/-- The loop drops the chunks of the turns whose peers refuse. -/
theorem mem_reassignAll_iff {entries : List (Σ _ : Key, Chunk)} {w : W} {dropped : List Key}
    (hret : (env.reassignAll entries w).result = .ok dropped) (key : Key) :
    key ∈ dropped ↔ ∃ turn ∈ env.turnsFrom entries w, turn.chunkKey = key ∧ env.Refused turn := by
  induction entries generalizing w dropped with
  | nil =>
    obtain rfl : [] = dropped := Except.ok.inj hret
    simp [turnsFrom]
  | cons entry rest ih =>
    obtain ⟨chunkKey, chunk⟩ := entry
    have hcons : env.reassignAll (⟨chunkKey, chunk⟩ :: rest) =
        (env.reassign chunkKey chunk >>= fun stored => env.reassignAll rest >>= fun dropped =>
          pure (if stored then dropped else chunkKey :: dropped)) := rfl
    have hfirst : (env.reassign chunkKey chunk w).result = .ok false ↔
        env.Refused ⟨w, chunkKey, chunk⟩ := dropped_iff ⟨w, chunkKey, chunk⟩
    rw [hcons] at hret
    cases hstored : (env.reassign chunkKey chunk w).result with
    | error e =>
      rw [bind_of_error hstored] at hret
      exact nomatch hret
    | ok stored =>
      rw [bind_of_ok hstored] at hret
      cases hdropped : (env.reassignAll rest (env.reassign chunkKey chunk w).state).result with
      | error e =>
        rw [bind_of_error hdropped] at hret
        exact nomatch hret
      | ok more =>
        rw [bind_of_ok hdropped] at hret
        rw [hstored] at hfirst
        rw [← Except.ok.inj hret, turnsFrom, List.exists_mem_cons_iff, ← hfirst]
        simp only [hstored]
        rw [← ih hdropped]
        cases stored with
        | true => simp
        | false => simp [eq_comm]

/-- `teardown(true)` drops the chunks of the turns whose peers refuse. -/
theorem mem_teardown_iff {w : W} {dropped : List Key}
    (hret : (env.teardown true w).result = .ok dropped) (key : Key) :
    key ∈ dropped ↔ ∃ turn ∈ env.teardownTurns w, turn.chunkKey = key ∧ env.Refused turn := by
  have hteardown : env.teardown true = (lock .chunks >>= fun _ =>
      env.get (fun s => s.chunks.entries) >>= fun entries => env.reassignAll entries >>= fun dropped =>
      unlock .chunks >>= fun _ => pure dropped) := rfl
  have hlock : (lock .chunks : Op W Unit) w = ⟨[.lock .chunks], w, .ok ()⟩ := rfl
  have hget : env.get (fun s => s.chunks.entries) w = ⟨[], w, .ok (env.session w).chunks.entries⟩ := rfl
  rw [hteardown, bind_run hlock, bind_run hget] at hret
  cases hall : (env.reassignAll (env.session w).chunks.entries w).result with
  | error e =>
    rw [bind_of_error hall] at hret
    exact nomatch hret
  | ok dropped' =>
    rw [bind_of_ok hall] at hret
    obtain rfl : dropped' = dropped := Except.ok.inj hret
    exact mem_reassignAll_iff hall key

/-- The bucket of the chunk's key is asked first, and for `PEER_LOOKUP_ALPHA` peers. -/
theorem enoughAsked_of_bucket {turn : Turn W} (hr : env.RouterReachable turn.world)
    (hbucket : min peerLookupAlpha (env.session turn.world).router.allPeers.length ≤
      ((env.session turn.world).router.table.leafFor turn.chunkKey).bucket.length) :
    env.EnoughAsked turn := by
  unfold EnoughAsked
  rw [BinaryTree.asked_eq_cons hr.invariant.table, List.map_cons, List.sum_cons]
  have hfirst : min peerLookupAlpha (env.session turn.world).router.allPeers.length ≤
      min (3 : UInt32).toNat
        ((env.session turn.world).router.table.leafFor turn.chunkKey).bucket.length :=
    le_min (min_le_left _ _) hbucket
  exact hfirst.trans (Nat.le_add_right _ _)

/-- `teardown(true)` drops no chunk too early if at each of its turns the bucket of the chunk's key
has `PEER_LOOKUP_ALPHA` peers, or all that the router knows. -/
theorem teardown_dropsLate (hrpc : env.KeepsReachable) {w : W} (hw : env.RouterReachable w)
    (hbucket : ∀ turn ∈ env.teardownTurns w,
      min peerLookupAlpha (env.session turn.world).router.allPeers.length ≤
        ((env.session turn.world).router.table.leafFor turn.chunkKey).bucket.length) :
    env.TeardownDropsLate w := by
  intro turn hturn
  have hr := reachable_of_mem_turnsFrom hrpc hw hturn
  exact (dropsLate_iff hr).2 fun _ => enoughAsked_of_bucket hr (hbucket turn hturn)

/-- Three peers in the half of the key 0, and twenty in the other. -/
def threeNearCalls : List Router.Call := Router.splitCalls ++ [.insert 0 2 [2], .insert 0 3 [3]]

/-- A session that knows these peers, and has a chunk in either half. -/
def threeNearSession : Session :=
  ⟨(Router.new 0 ⟨0, []⟩ ⟨BitVec.ofNat keyBits (2^159), [1]⟩).run threeNearCalls,
    (AList.singleton (BitVec.ofNat keyBits (2^159 + 100))
      ⟨true, BitVec.ofNat keyBits (2^159 + 100), [8], 0, 0⟩).insert 0 ⟨true, 0, [7], 0, 0⟩, 0⟩

/-- Each chunk is offered to three peers, which all fail, before it is dropped. -/
theorem teardown_dropsLate_threeNear : (deaf 0).TeardownDropsLate threeNearSession := by
  apply teardown_dropsLate
  · exact fun _ _ _ _ hw => hw
  · refine ⟨0, ⟨0, []⟩, ⟨BitVec.ofNat keyBits (2^159), [1]⟩, threeNearCalls, ?_⟩
    simp only [deaf, threeNearSession]
  · decide +kernel

/-- A session that knows twenty peers on one side of the root and one on the other. -/
def splitSession : Session :=
  ⟨(Router.new 0 ⟨0, []⟩ ⟨BitVec.ofNat keyBits (2^159), [1]⟩).run Router.splitCalls,
    AList.singleton (0 : Key) ⟨true, 0, [7], 0, 0⟩, 0⟩

/-- A chunk on the side of the one peer is offered to that one, and dropped. -/
theorem not_dropsLate :
    ¬∀ (env : Environment Session), env.KeepsReachable → ∀ s, env.RouterReachable s →
      env.TeardownDropsLate s := by
  intro hall
  have hreachable : (deaf 0).RouterReachable splitSession := by
    refine ⟨0, ⟨0, []⟩, ⟨BitVec.ofNat keyBits (2^159), [1]⟩, Router.splitCalls, ?_⟩
    simp only [deaf, splitSession]
  let turn : Turn Session := ⟨splitSession, 0, ⟨true, 0, [7], 0, 0⟩⟩
  have hturn : turn ∈ (deaf 0).teardownTurns splitSession :=
    mem_turnsFrom_head (deaf 0).toNet 0 ⟨true, 0, [7], 0, 0⟩ [] splitSession
  have hlate := hall (deaf 0) (fun _ _ _ _ hw => hw) splitSession hreachable turn hturn
  have hrefused : (deaf 0).Refused turn := (dropped_iff turn).1 (by decide +kernel)
  have henough := (dropsLate_iff hreachable).1 hlate hrefused
  revert henough
  unfold EnoughAsked
  decide +kernel

end Environment

end Distft
