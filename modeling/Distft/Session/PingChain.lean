import Mathlib.Data.Finite.Prod
import Distft.General.Chains
import Distft.Router.Refusal
import Distft.Session.Cluster

/-!
# Pings that cause pings

The handler of a `Ping` updates the sender, and where the sender is refused it pings the peer that is
reported before it answers. The handler of that ping does the same, so a `Ping` starts a chain of
nested pings (`PingCall.nested`, `handlePing_nested`), which goes on for as long as each node refuses
the one that waits for it.

A refusal can split a table, but that only makes room for others: whoever is refused along the chain
would have been refused at the start (`Cluster.Follows`). So each nested ping goes along a relation
that the tables at the start give, `Cluster.PassesOn`, and where this relation has no circles every
chain ends (`pings_end_of_acyclic`). Nothing keeps it from having one: of four nodes that are each
other's oldest contacts in a circle, each refuses the one before it (`not_pings_end`).
-/

namespace Distft

open Distft.BinaryTree

variable {n : ℕ}

namespace Cluster

/-- The node that serves an endpoint. -/
def serving (c : Cluster n) (endpoint : Bytes) : Option (Fin n) :=
  (List.finRange n).find? fun y => (c.nodes y).router.selfPeer.endpoint == endpoint

/-- The call of `attempt_insert_peer` in the first turn of a node's `update_peer`. -/
def attempt (c : Cluster n) (y : Fin n) (peer : Peer) : Bool × Option Peer × Router :=
  (c.nodes y).router.attemptInsertPeer (c.clock c.reads).toInt peer.key peer.endpoint

/-- The cluster after it. -/
def attempted (c : Cluster n) (y : Fin n) (peer : Peer) : Cluster n :=
  { c with
    nodes := Function.update c.nodes y { c.nodes y with router := (c.attempt y peer).2.2 }
    reads := c.reads + 1 }

/-- The routers after it. -/
theorem attempted_router (c : Cluster n) (y : Fin n) (peer : Peer) (z : Fin n) :
    ((c.attempted y peer).nodes z).router =
      if z = y then (c.attempt y peer).2.2 else (c.nodes z).router := by
  simp only [attempted, Function.update_apply]
  split_ifs <;> rfl

/-- No node's own peer is another one after it. -/
theorem attempted_selfPeer (c : Cluster n) (y : Fin n) (peer : Peer) (z : Fin n) :
    ((c.attempted y peer).nodes z).router.selfPeer = (c.nodes z).router.selfPeer := by
  rw [attempted_router]
  split_ifs with hz
  · subst hz
    exact Router.step_selfPeer (c.nodes z).router
      (.insert (c.clock c.reads).toInt peer.key peer.endpoint)
  · rfl

end Cluster

/-- A `Ping` as it is sent: the cluster then, the endpoint that it is sent to, and the sender that its
request names. -/
structure PingCall (n : ℕ) where
  /-- The cluster. -/
  cluster : Cluster n
  /-- The endpoint. -/
  endpoint : Bytes
  /-- The sender. -/
  sender : RpcPeer

/-- The `Ping` that the handler of a `Ping` sends while the first one waits: where the sender is
refused, to the peer that is reported. -/
def PingCall.nested (p : PingCall n) : Option (PingCall n) := do
  let y ← p.cluster.serving p.endpoint
  let sender ← rpcPeerToLocal p.sender
  if (p.cluster.attempt y sender).1 then none
  else
    let lru ← (p.cluster.attempt y sender).2.1
    return ⟨p.cluster.attempted y sender, lru.endpoint,
      localToRpcPeer (p.cluster.nodes y).router.selfPeer⟩

/-- When there is a nested ping. -/
theorem nested_eq_some_iff {p q : PingCall n} :
    p.nested = some q ↔ ∃ y sender lru, p.cluster.serving p.endpoint = some y ∧
      rpcPeerToLocal p.sender = some sender ∧ (p.cluster.attempt y sender).1 = false ∧
      (p.cluster.attempt y sender).2.1 = some lru ∧
      q = ⟨p.cluster.attempted y sender, lru.endpoint,
        localToRpcPeer (p.cluster.nodes y).router.selfPeer⟩ := by
  unfold PingCall.nested
  simp only [bind, pure, Option.bind_eq_some_iff]
  constructor
  · rintro ⟨y, hy, sender, hsender, hq⟩
    split_ifs at hq with hinserted
    obtain ⟨lru, hlru, hq⟩ := Option.bind_eq_some_iff.1 hq
    exact ⟨y, sender, lru, hy, hsender, by simpa using hinserted, hlru, (Option.some.inj hq).symm⟩
  · rintro ⟨y, sender, lru, hy, hsender, hfalse, hlru, rfl⟩
    refine ⟨y, hy, sender, hsender, ?_⟩
    rw [if_neg (by simp [hfalse]), hlru]
    rfl

/-! ## The handler -/

section Handler

variable (deliver : (m : Method) → Bytes → m.Request → Cluster n → Option m.Response × Cluster n)

/-- A node's `attempt_insert_peer`. -/
theorem attemptInsertPeer_attempt (c : Cluster n) (y : Fin n) (peer : Peer) :
    (Cluster.netOf deliver y).attemptInsertPeer peer.key peer.endpoint c =
      ⟨[.attemptInsertPeer peer.key peer.endpoint], c.attempted y peer,
        .ok ((c.attempt y peer).1, (c.attempt y peer).2.1)⟩ := rfl

/-- The first turn of `update_peer` up to its `unlock`, and what comes after. -/
theorem updatePeer_attempt (c : Cluster n) (y : Fin n) (peer : Peer) :
    ∃ rest : Op (Cluster n) Unit,
      ((Cluster.netOf deliver y).updatePeer peer.key peer.endpoint c).events =
        [.lock .router, .attemptInsertPeer peer.key peer.endpoint, .unlock .router] ++
          (rest (c.attempted y peer)).events ∧
      ((c.attempt y peer).1 = true ∨ (c.attempt y peer).2.1 = none →
        (rest (c.attempted y peer)).events = []) ∧
      ∀ lru, (c.attempt y peer).1 = false → (c.attempt y peer).2.1 = some lru →
        ((Cluster.netOf deliver y).ping lru (c.attempted y peer)).events <+:
          (rest (c.attempted y peer)).events := by
  have hlock : (Net.lock .router : Op (Cluster n) Unit) c = ⟨[.lock .router], c, .ok ()⟩ := rfl
  have hunlock : (Net.unlock .router : Op (Cluster n) Unit) (c.attempted y peer) =
      ⟨[.unlock .router], c.attempted y peer, .ok ()⟩ := rfl
  show ∃ rest : Op (Cluster n) Unit,
    ((Cluster.netOf deliver y).updateLoop peer.key peer.endpoint (1 + 1) none c).events = _ ∧ _ ∧ _
  rw [Net.updateLoop, Exec.bind_run hlock, Exec.bind_run (attemptInsertPeer_attempt deliver c y peer)]
  simp only [Exec.bind_run hunlock]
  refine ⟨_, rfl, ?_, ?_⟩
  · intro hends
    cases hinserted : (c.attempt y peer).1 with
    | true => rfl
    | false =>
      rw [hends.resolve_left (by simp [hinserted])]
      rfl
  · intro lru hfalse hlru
    rw [hfalse, hlru]
    exact Exec.events_prefix_bind _ _ _

/-- A handler of `Ping` shows what its update of the sender shows. -/
theorem handlePing_events (c : Cluster n) (y : Fin n) (sender : RpcPeer) :
    ((Cluster.netOf deliver y).handlePing ⟨sender⟩ c).events =
      match rpcPeerToLocal sender with
      | none => []
      | some peer => ((Cluster.netOf deliver y).updatePeer peer.key peer.endpoint c).events := by
  unfold Net.handlePing Net.rpcHandlerPrelims Net.toLocal
  refine (Exec.events_bind_of_silent (f := fun receiver =>
    (pure ⟨receiver⟩ : Op (Cluster n) PingResponse)) (fun _ _ => rfl) c).trans ?_
  cases rpcPeerToLocal sender with
  | none => rfl
  | some peer =>
    exact Exec.events_bind_of_silent (f := fun _ => (Cluster.netOf deliver y).get fun s =>
      localToRpcPeer s.router.selfPeer) (fun _ _ => rfl) c

/-- The handler of a `Ping` sends the nested one, in the cluster as it is then. -/
theorem handlePing_nested {p q : PingCall n} {y : Fin n}
    (hy : p.cluster.serving p.endpoint = some y) (h : p.nested = some q) :
    ∃ sender lru, rpcPeerToLocal p.sender = some sender ∧ lru.endpoint = q.endpoint ∧
      [.lock .router, .attemptInsertPeer sender.key sender.endpoint, .unlock .router,
        .rpc .ping lru ⟨q.sender⟩ (deliver .ping q.endpoint ⟨q.sender⟩ q.cluster).1] <+:
          ((Cluster.netOf deliver y).handlePing ⟨p.sender⟩ p.cluster).events := by
  obtain ⟨y', sender, lru, hy', hsender, hfalse, hlru, rfl⟩ := nested_eq_some_iff.1 h
  obtain rfl := Option.some.inj (hy.symm.trans hy')
  refine ⟨sender, lru, hsender, rfl, ?_⟩
  obtain ⟨rest, hevents, -, hping⟩ := updatePeer_attempt deliver p.cluster y sender
  have hprelims : (Cluster.netOf deliver y).rpcCallerPrelims (p.cluster.attempted y sender) =
      ⟨[], p.cluster.attempted y sender,
        .ok (localToRpcPeer ((p.cluster.attempted y sender).nodes y).router.selfPeer)⟩ := rfl
  rw [Cluster.attempted_selfPeer] at hprelims
  have hcall : ((Cluster.netOf deliver y).call .ping lru
      ⟨localToRpcPeer (p.cluster.nodes y).router.selfPeer⟩ (p.cluster.attempted y sender)).events <+:
      ((Cluster.netOf deliver y).ping lru (p.cluster.attempted y sender)).events := by
    rw [Net.ping, Exec.bind_run hprelims]
    simp only [List.nil_append]
    exact Exec.events_prefix_bind ((Cluster.netOf deliver y).call .ping lru
      ⟨localToRpcPeer (p.cluster.nodes y).router.selfPeer⟩) _ (p.cluster.attempted y sender)
  rw [handlePing_events, hsender]
  show _ <+: ((Cluster.netOf deliver y).updatePeer _ _ _).events
  rw [hevents]
  exact (List.prefix_append_right_inj [.lock .router, .attemptInsertPeer sender.key sender.endpoint,
    .unlock .router]).2 (hcall.trans (hping lru hfalse hlru))

/-- Where there is no nested ping the handler sends nothing. -/
theorem handlePing_last {p : PingCall n} {y : Fin n}
    (hy : p.cluster.serving p.endpoint = some y) (h : p.nested = none) (m : Method) (peer : Peer)
    (request : m.Request) (response : Option m.Response) :
    .rpc m peer request response ∉
      ((Cluster.netOf deliver y).handlePing ⟨p.sender⟩ p.cluster).events := by
  rw [handlePing_events]
  cases hsender : rpcPeerToLocal p.sender with
  | none => exact List.not_mem_nil
  | some sender =>
    obtain ⟨rest, hevents, hends, -⟩ := updatePeer_attempt deliver p.cluster y sender
    have hnothing : (p.cluster.attempt y sender).1 = true ∨ (p.cluster.attempt y sender).2.1 = none := by
      by_contra hrefused
      obtain ⟨hfalse, hsome⟩ := not_or.1 hrefused
      obtain ⟨lru, hlru⟩ := Option.ne_none_iff_exists'.1 hsome
      have hnested := nested_eq_some_iff.2
        ⟨y, sender, lru, hy, hsender, by simpa using hfalse, hlru, rfl⟩
      exact nomatch h.symm.trans hnested
    show _ ∉ ((Cluster.netOf deliver y).updatePeer _ _ _).events
    rw [hevents, hends hnothing]
    simp

end Handler

/-! ## When the chains end -/

namespace Cluster

/-- A node that another one pings pings a third one: it refuses the first, and the peer that it
reports is at an endpoint of the third. -/
def PassesOn (c : Cluster n) (q r : Fin n × Fin n) : Prop :=
  r.1 = q.2 ∧ ∃ lru, (c.nodes q.2).router.TurnsDown (c.nodes q.1).router.selfPeer lru ∧
    c.serving lru.endpoint = some r.2

/-- Who serves an endpoint depends on the own peers only. -/
theorem serving_congr {c c' : Cluster n}
    (h : ∀ y, (c'.nodes y).router.selfPeer = (c.nodes y).router.selfPeer) (endpoint : Bytes) :
    c'.serving endpoint = c.serving endpoint := by
  simp only [serving, h]

/-- What stays in a cluster along a chain of pings that are all refused: the routers are as they
should be and have their own peers, and who is refused was refused at the start. -/
structure Follows (c c' : Cluster n) : Prop where
  /-- The invariant of the routers. -/
  invariant : ∀ y, (c'.nodes y).router.Invariant
  /-- The own peers. -/
  selfPeer : ∀ y, (c'.nodes y).router.selfPeer = (c.nodes y).router.selfPeer
  /-- The refusals. -/
  turnsDown : ∀ y peer lru, (c'.nodes y).router.TurnsDown peer lru →
    (c.nodes y).router.TurnsDown peer lru

/-- A cluster follows itself. -/
theorem Follows.refl {c : Cluster n} (h : ∀ y, (c.nodes y).router.Invariant) : c.Follows c :=
  ⟨h, fun _ => rfl, fun _ _ _ h => h⟩

/-- A refusal keeps this, and was one at the start. -/
theorem Follows.attempted {c c' : Cluster n} (h : c.Follows c') {y : Fin n} {peer lru : Peer}
    (hfalse : (c'.attempt y peer).1 = false) (hlru : (c'.attempt y peer).2.1 = some lru) :
    c.Follows (c'.attempted y peer) ∧ (c.nodes y).router.TurnsDown peer lru := by
  obtain ⟨hdown, -, hframe⟩ := Router.attemptInsertPeer_turnsDown (h.invariant y) hfalse hlru
  obtain ⟨hinv, -⟩ := Router.attemptInsertPeer_invariant (h.invariant y)
    (c'.clock c'.reads).toInt peer.key peer.endpoint
  refine ⟨⟨fun z => ?_, fun z => ?_, fun z peer' lru' h' => ?_⟩, h.turnsDown y peer lru hdown⟩
  · rw [attempted_router]
    split_ifs
    · exact hinv
    · exact h.invariant z
  · rw [attempted_selfPeer, h.selfPeer]
  · rw [attempted_router] at h'
    split_ifs at h' with hz
    · subst hz
      exact h.turnsDown _ peer' lru' (hframe peer' lru' h')
    · exact h.turnsDown z peer' lru' h'

end Cluster

/-- A ping of the chain that started in `c`: the first node of the pair sends it, and the second one
serves it. -/
def PingCall.Between (c : Cluster n) (p : PingCall n) (q : Fin n × Fin n) : Prop :=
  c.Follows p.cluster ∧ p.sender = localToRpcPeer (c.nodes q.1).router.selfPeer ∧
    c.serving p.endpoint = some q.2

/-- A nested ping ends the chain, as nobody serves it, or is passed on by the node that serves the
outer one. -/
theorem PingCall.Between.nested {c : Cluster n} {p r : PingCall n} {q : Fin n × Fin n}
    (h : p.Between c q) (hr : p.nested = some r) :
    Chains.Ends PingCall.nested r ∨ ∃ t, c.PassesOn q t ∧ r.Between c t := by
  obtain ⟨hfollows, hsender, hserving⟩ := h
  obtain ⟨y, sender, lru, hy, hlocal, hfalse, hlru, rfl⟩ := nested_eq_some_iff.1 hr
  rw [Cluster.serving_congr hfollows.selfPeer, hserving, Option.some.injEq] at hy
  subst hy
  rw [hsender, rpcPeerToLocal_localToRpcPeer, Option.some.injEq] at hlocal
  subst hlocal
  obtain ⟨hafter, hdown⟩ := hfollows.attempted hfalse hlru
  cases hz : c.serving lru.endpoint with
  | none =>
    refine .inl (Chains.ends_of_next fun r' hr' => ?_)
    obtain ⟨z, -, -, hz', -⟩ := nested_eq_some_iff.1 hr'
    rw [Cluster.serving_congr hafter.selfPeer, hz] at hz'
    exact nomatch hz'
  | some z =>
    exact .inr ⟨(q.2, z), ⟨rfl, lru, hdown, hz⟩, hafter,
      congrArg localToRpcPeer (hfollows.selfPeer q.2), hz⟩

/-- Where no ping is passed on in a circle, every chain ends. -/
theorem pings_end_of_acyclic {c : Cluster n} (h : ∀ y, (c.nodes y).router.Invariant)
    (hacyclic : ∀ q, ¬Relation.TransGen c.PassesOn q q) (endpoint : Bytes) (sender : RpcPeer) :
    Chains.Ends PingCall.nested ⟨c, endpoint, sender⟩ := by
  -- The first sender may be anyone; the nested ping is one between nodes.
  refine Chains.ends_of_next fun r hr => ?_
  obtain ⟨y, peer, lru, -, -, hfalse, hlru, rfl⟩ := nested_eq_some_iff.1 hr
  obtain ⟨hafter, -⟩ := (Cluster.Follows.refl h).attempted hfalse hlru
  refine Chains.ends_of_next fun r' hr' => ?_
  obtain ⟨z, -, -, hz, -⟩ := nested_eq_some_iff.1 hr'
  rw [Cluster.serving_congr hafter.selfPeer] at hz
  have hbetween : PingCall.Between c ⟨c.attempted y peer, lru.endpoint,
      localToRpcPeer (c.nodes y).router.selfPeer⟩ (y, z) := ⟨hafter, rfl, hz⟩
  rcases hbetween.nested hr' with hends | ⟨t, -, ht⟩
  · exact hends
  · exact Chains.ends_of_acyclic hacyclic (fun _ _ _ hp hnext => hp.nested hnext) ht

/-- A circle of nodes of which each is pinged by one other: each refuses that one and reports the
next. -/
structure Circle (c : Cluster n) (x : ℕ → Fin n) : Prop where
  /-- Each node passes on the ping of the one before it. -/
  passesOn : ∀ i, c.PassesOn (x i, x (i + 1)) (x (i + 1), x (i + 2))
  /-- No node comes after two others. -/
  before : ∀ i j, x (i + 1) = x (j + 1) → x i = x j

/-- A ping to the circle, in a cluster where its nodes still refuse each other. -/
def PingCall.Inside (c : Cluster n) (x : ℕ → Fin n) (p : PingCall n) : Prop :=
  (∀ y, (p.cluster.nodes y).router.Invariant) ∧
    (∀ y, (p.cluster.nodes y).router.selfPeer = (c.nodes y).router.selfPeer) ∧
    (∀ i, ∃ lru, (p.cluster.nodes (x (i + 1))).router.TurnsDown (c.nodes (x i)).router.selfPeer lru ∧
      c.serving lru.endpoint = some (x (i + 2))) ∧
    ∃ i, p.sender = localToRpcPeer (c.nodes (x i)).router.selfPeer ∧
      c.serving p.endpoint = some (x (i + 1))

/-- Its nested ping is another one. -/
theorem PingCall.Inside.nested {c : Cluster n} {x : ℕ → Fin n} (hx : Circle c x) {p : PingCall n}
    (h : p.Inside c x) : ∃ r, p.nested = some r ∧ r.Inside c x := by
  obtain ⟨hinv, hself, hdown, i, hsender, hserving⟩ := h
  obtain ⟨lru, hrefuses, hlru⟩ := hdown i
  have hnext := hrefuses.attemptInsertPeer (hinv _) (p.cluster.clock p.cluster.reads).toInt
  obtain ⟨-, hagain, -⟩ := Router.attemptInsertPeer_turnsDown (hinv _) hnext.1 hnext.2
  obtain ⟨hinv', -⟩ := Router.attemptInsertPeer_invariant (hinv (x (i + 1)))
    (p.cluster.clock p.cluster.reads).toInt (c.nodes (x i)).router.selfPeer.key
    (c.nodes (x i)).router.selfPeer.endpoint
  refine ⟨_, nested_eq_some_iff.2 ⟨x (i + 1), (c.nodes (x i)).router.selfPeer, lru,
    (Cluster.serving_congr hself _).trans hserving, ?_, hnext.1, hnext.2, rfl⟩, ?_, ?_, ?_, i + 1, ?_,
    hlru⟩
  · rw [hsender, rpcPeerToLocal_localToRpcPeer]
  · intro y
    rw [Cluster.attempted_router]
    split_ifs
    · exact hinv'
    · exact hinv y
  · intro y
    rw [Cluster.attempted_selfPeer, hself]
  · intro j
    rw [Cluster.attempted_router]
    split_ifs with hj
    · -- The node refuses the same one again, and reports the same peer.
      obtain ⟨lru', hrefuses', hlru'⟩ := hdown j
      rw [hj, hx.before j i hj] at hrefuses'
      obtain rfl := Option.some.inj (hrefuses.2.2.symm.trans hrefuses'.2.2)
      rw [hx.before j i hj]
      exact ⟨lru, hagain, hlru'⟩
    · exact hdown j
  · exact congrArg localToRpcPeer (hself _)

/-- A ping to a node of a circle never comes to an end. -/
theorem Circle.not_ends {c : Cluster n} {x : ℕ → Fin n} (hx : Circle c x)
    (h : ∀ y, (c.nodes y).router.Invariant) {endpoint : Bytes}
    (hserving : c.serving endpoint = some (x 1)) :
    ¬Chains.Ends PingCall.nested ⟨c, endpoint, localToRpcPeer (c.nodes (x 0)).router.selfPeer⟩ :=
  Chains.not_ends_of_invariant (I := PingCall.Inside c x) (fun _ hp => hp.nested hx)
    ⟨h, fun _ => rfl, fun i => (hx.passesOn i).2, 0, rfl, hserving⟩

/-- Where the tables at the start let no ping be passed on in a circle, the chain of nested pings
that a `Ping` causes ends, whoever sends it to whatever endpoint. Where they let pings go round in a
circle of nodes that are each pinged by one other, there is one whose chain never ends. -/
theorem pings_end (c : Cluster n) (hr : ∀ y, (c.nodes y).router.Reachable) :
    ((∀ q, ¬Relation.TransGen c.PassesOn q q) →
      ∀ endpoint sender, Chains.Ends PingCall.nested ⟨c, endpoint, sender⟩) ∧
    ∀ x, Circle c x → ∃ endpoint sender, ¬Chains.Ends PingCall.nested ⟨c, endpoint, sender⟩ := by
  have hinv : ∀ y, (c.nodes y).router.Invariant := fun y => (hr y).invariant
  refine ⟨fun hacyclic => pings_end_of_acyclic hinv hacyclic, fun x hx => ?_⟩
  obtain ⟨lru, -, hserving⟩ := (hx.passesOn 0).2
  -- The peer that node `x 1` reports is served by `x 2`, which `x 1` then pings.
  refine ⟨lru.endpoint, localToRpcPeer (c.nodes (x 1)).router.selfPeer, ?_⟩
  have hshift : Circle c fun i => x (i + 1) :=
    ⟨fun i => hx.passesOn (i + 1), fun i j => hx.before (i + 1) (j + 1)⟩
  exact hshift.not_ends hinv hserving

/-! ## Two clusters -/

/-- Twenty-three nodes, of which the second and the fourth have the highest bit in their keys. -/
def circlePeer (x : Fin 23) : Peer :=
  ⟨BitVec.ofNat keyBits (if x = 1 ∨ x = 3 then 2^159 + x else x), [UInt8.ofNat x]⟩

/-- A router that was started with a peer and has inserted the last nineteen nodes. -/
def circleRouter (x other : Fin 23) : Router :=
  (Router.new 0 (circlePeer x) (circlePeer other)).run
    ((List.range 19).map fun i => .insert 0 (circlePeer (Fin.ofNat 23 (i + 4))).key
      (circlePeer (Fin.ofNat 23 (i + 4))).endpoint)

/-- Each of the first three nodes was started with the next one, the fourth one with `other`, and
the others with the first. -/
def circle (other : Fin 23) : Cluster 23 where
  nodes x := ⟨if x < 3 then circleRouter x (x + 1) else if x = 3 then circleRouter x other
    else Router.new 0 (circlePeer x) (circlePeer 0), ∅, 0⟩
  clock _ := 0
  reads := 0

/-- The routers are reachable. -/
theorem circle_reachable (other y : Fin 23) : ((circle other).nodes y).router.Reachable := by
  simp only [circle]
  split_ifs
  · exact ⟨0, _, _, _, rfl⟩
  · exact ⟨0, _, _, _, rfl⟩
  · exact ⟨0, _, _, [], rfl⟩

/-- A node whose bucket is full has a later node as the last peer in it, if the fourth one was
started with the fifth: that one is among those that it has inserted, and its bucket has room. -/
theorem circle_later : ∀ y, ((circle 4).nodes y).router.table =
      leafOf 159 0 ((circle 4).nodes y).router.table.bucket ∧
    (((circle 4).nodes y).router.table.bucket.length = kbucketMax →
      ∀ lru ∈ ((circle 4).nodes y).router.table.bucket.getLast?, ∀ z,
        (circle 4).serving lru.endpoint = some z → y < z) := by
  decide +kernel

/-- Each ping is passed on to a later node. -/
theorem circle_acyclic (q : Fin 23 × Fin 23) : ¬Relation.TransGen (circle 4).PassesOn q q := by
  have hstep : ∀ q r, (circle 4).PassesOn q r → q.2 < r.2 := by
    rintro q r ⟨-, lru, ⟨-, hrefuses, hlast⟩, hserving⟩
    obtain ⟨hleaf, hlater⟩ := circle_later q.2
    rw [hleaf, leafFor_leafOf] at hrefuses hlast
    exact hlater hrefuses.1 lru hlast r.2 hserving
  have hlater : ∀ r, Relation.TransGen (circle 4).PassesOn q r → q.2 < r.2 := by
    intro r h
    induction h with
    | single h => exact hstep _ _ h
    | tail _ h ih => exact ih.trans (hstep _ _ h)
  exact fun h => lt_irrefl _ (hlater q h)

/-- Three of the nodes each refuse the one before, and the fourth has room: the pings that the first
one causes end there. -/
theorem pings_end_circle :
    Chains.Ends PingCall.nested
      ⟨circle 4, (circlePeer 1).endpoint, localToRpcPeer (circlePeer 0)⟩ :=
  (pings_end (circle 4) (circle_reachable 4)).1 circle_acyclic _ _

/-- One of the first four nodes. -/
def inCircle (i : ℕ) : Fin 23 := ⟨i % 4, by omega⟩

/-- If the fourth node was started with the first, each of them refuses the one before it, and
reports the next one. -/
theorem circle_refuses : ∀ i < 4,
    let out := (circle 0).attempt (inCircle (i + 1)) ((circle 0).nodes (inCircle i)).router.selfPeer
    out.1 = false ∧
      (out.2.1.bind fun lru => (circle 0).serving lru.endpoint) = some (inCircle (i + 2)) := by
  decide +kernel

/-- So these four are a circle. -/
theorem circle_inCircle : Circle (circle 0) inCircle where
  passesOn i := by
    have hmod : ∀ k, inCircle (i + k) = inCircle (i % 4 + k) := fun k => Fin.ext (by simp [inCircle])
    have hrefuses := circle_refuses (i % 4) (Nat.mod_lt _ (by decide))
    rw [← hmod 1, ← hmod 2, show inCircle (i % 4) = inCircle i from (hmod 0).symm] at hrefuses
    obtain ⟨lru, hlru, hserving⟩ := Option.bind_eq_some_iff.1 hrefuses.2
    exact ⟨rfl, lru, (Router.attemptInsertPeer_turnsDown (circle_reachable 0 _).invariant hrefuses.1
      hlru).1, hserving⟩
  before i j h := by
    have hval := congrArg Fin.val h
    simp only [inCircle] at hval
    exact Fin.ext (by simp only [inCircle]; omega)

/-- Pings go round in the circle for ever. -/
theorem not_pings_end :
    ¬∀ n (p : PingCall n), (∀ y, (p.cluster.nodes y).router.Reachable) →
      Chains.Ends PingCall.nested p := by
  intro h
  have hserving : (circle 0).serving (circlePeer 1).endpoint = some (inCircle 1) := by decide +kernel
  exact circle_inCircle.not_ends (fun y => (circle_reachable 0 y).invariant) hserving
    (h 23 ⟨circle 0, _, _⟩ (circle_reachable 0))

end Distft
