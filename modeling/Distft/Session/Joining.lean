import Distft.Session.LiveLookups

/-!
# Joining a cluster

`startup` of a new session against a node of a cluster whose live nodes all know one another. The
session begins with the endpoint of its contact under a temporary key; a ping tells it the contact's
own key, under which it keeps it. The first query of `self_lookup` goes to the contact, which names
all the nodes that it knows, and the refresh after it looks a random one of them up, which asks each
of them once: so in the end the session knows all the live nodes, and they know it
(`succeeds_startup`).
-/

namespace Distft.Town

open Distft.BinaryTree Exec

variable {n : ℕ} {members : Members n} {serves live : Fin n → Bool}
variable {data : Fin n → Key → Option Bytes} {c c' : Cluster n} {T : Transport} {depth : ℕ}
variable {x y contact : Fin n}

/-! ## Self lookup -/

section FirstQuery

variable {δ : Type} {H : δ → Prop} {query : Peer → Op (Cluster n) (Answer δ)}

/-- The first round of a lookup asks the first of the peers. -/
theorem succeeds_queryRound_first (hquery : AsksMembers members live data x H query) (count : ℕ)
    {first : Peer} {rest closest : List Peer} (hrest : rest ⊆ members.others x)
    (hclosest : closest ⊆ members.others x) {Q : Cluster n → Prop}
    (hfirst : Succeeds (Answered members live) (query first) c fun c' answer =>
      (GoesOn members live live data c c' ∧ RightAnswer members x H answer) ∧ Q c')
    (hQ : ∀ c c', Q c → GoesOn members live live data c c' → Q c') :
    Succeeds (Answered members live)
      (Net.queryRound query (count + 1) (first :: rest) [] closest) c
      fun c' r => RoundEnd members live data x H closest c c' r.1 r.2.2 ∧ Q c' := by
  unfold Net.queryRound Net.queryPending
  rw [if_neg List.not_mem_nil]
  refine Succeeds.bind (hfirst.mono ?_)
  rintro c' answer ⟨⟨h', hright⟩, hq⟩
  have hround := succeeds_queryRound hquery count
  cases answer with
  | failed =>
    refine (succeeds_queryPending hquery hround rest _ closest h'.settled hrest hclosest).mono ?_
    exact fun c'' r hr => ⟨hr.after h' (List.Subset.refl _), hQ c' c'' hq hr.goesOn⟩
  | answered found =>
    have hpending' := List.append_subset.2 ⟨hrest, hright⟩
    have hclosest' := List.append_subset.2 ⟨hclosest, hright⟩
    refine (hround c' _ _ _ h'.settled hpending' hclosest').mono ?_
    exact fun c'' r hr => ⟨hr.after h' (List.subset_append_left _ _), hQ c' c'' hq hr.goesOn⟩
  | halt value =>
    refine succeeds_pure ⟨⟨h', fun value' heq => ?_, List.Subset.refl _, hclosest⟩, hq⟩
    exact Option.some.inj heq ▸ hright

end FirstQuery

/-- A lookup by a node that knows only its contact asks it, and so the node comes to know all that the
contact knows. -/
theorem succeeds_lookupHelper_contact (h : Settled members live live data c) (hx : live x = true)
    (hcontact : live contact = true) (hcx : contact ≠ x)
    (honly : ∀ p, Knows c x p ↔ p = members.peers contact)
    (hknows : ∀ z, z ≠ x → z ≠ contact → live z = true → Knows c contact (members.peers z))
    (searchKey : Key) :
    Succeeds (Answered members live)
      ((node live T depth x).lookupHelper searchKey [] ((node live T depth x).nodeQueryFn searchKey)) c
      fun c' _ => GoesOn members live live data c c' ∧ KnowsAll members live c' x := by
  refine Succeeds.bind ((succeeds_closestPeers h hx searchKey).mono fun c' found hc' => ?_)
  obtain ⟨h', hsub, hfound⟩ := hc'
  have hmem : ∀ q, q ∈ sortByDist searchKey ([] ++ found) ↔ q = members.peers contact := by
    intro q
    rw [sortByDist, List.mem_insertionSort, List.nil_append, hfound, honly]
  generalize sortByDist searchKey ([] ++ found) = sorted at hmem
  -- The list is the contact, and nobody else.
  cases sorted with
  | nil => exact absurd ((hmem _).2 rfl) List.not_mem_nil
  | cons first rest =>
    obtain rfl := (hmem first).1 List.mem_cons_self
    have hall : members.peers contact :: rest ⊆ members.others x := by
      intro q hq
      rw [(hmem q).1 hq]
      exact members.mem_others.2 ⟨contact, hcx, rfl⟩
    have hquery : AsksMembers members live data x (fun _ => True)
        ((node live T depth x).nodeQueryFn searchKey) := nodeQueryFn_asksMembers hx searchKey _
    have hstays : ∀ c c' : Cluster n, KnowsAll members live c x →
        GoesOn members live live data c c' → KnowsAll members live c' x :=
      fun _ _ hk hgo z hzx hz => hgo.grows x z hx hz (hk z hzx hz)
    have hfirst : Succeeds (Answered members live)
        ((node live T depth x).nodeQueryFn searchKey (members.peers contact)) c' fun c'' answer =>
        (GoesOn members live live data c' c'' ∧ RightAnswer members x (fun _ => True) answer) ∧
          KnowsAll members live c'' x := by
      refine Succeeds.bind ((succeeds_findNode h'.settled hx hcx searchKey).mono
        fun c'' answer hc'' => ?_)
      obtain ⟨h'', hsub', hmet⟩ := hc''
      have hknowsAll : KnowsAll members live c'' x := by
        intro z hzx hz
        by_cases hzc : z = contact
        · rw [hzc]
          exact (hmet hcontact).2.1
        · exact (hmet hcontact).2.2 z hzx hz (h'.grows contact z hcontact hz (hknows z hzx hzc hz))
      cases answer with
      | none => exact succeeds_pure ⟨⟨h'', trivial⟩, hknowsAll⟩
      | some found' => exact succeeds_pure ⟨⟨h'', hsub' found' rfl⟩, hknowsAll⟩
    obtain ⟨count, hcount⟩ : ∃ count, min peerLookupAlpha (members.peers contact :: rest).length =
        count + 1 := by
      refine ⟨min 2 rest.length, ?_⟩
      rw [List.length_cons, peerLookupAlpha]
      omega
    have hround := succeeds_queryRound_first hquery count (List.cons_subset.1 hall).2 hall hfirst hstays
    rw [← hcount] at hround
    show Succeeds _ (Net.lookupRounds searchKey _ (159 + 1) _ _ _ _) c' _
    refine (succeeds_lookupRounds_succ searchKey 159 _ _ _ (List.cons_ne_nil _ _) hround hstays
      fun c queried size minDist closest h hne hsub =>
        succeeds_lookupRounds hquery searchKey 159 queried size minDist closest h hne hsub).mono ?_
    exact fun c'' r hr => ⟨h'.trans hr.1.goesOn, hr.2⟩

/-- Lookups of peers, at least one, meet the live nodes that are known. -/
theorem succeeds_lookupEach (peers : List Peer) (h : Settled members live live data c)
    (hx : live x = true) (hlive : live y = true) (hp : Knows c x (members.peers y)) :
    Succeeds (Answered members live) ((node live T depth x).lookupEach peers) c
      fun c' _ => GoesOn members live live data c c' ∧ (peers ≠ [] → ∀ z, live z = true →
        Knows c x (members.peers z) → Knows c' z (members.peers x)) := by
  induction peers generalizing c with
  | nil => exact succeeds_pure ⟨.refl h, fun hne => absurd rfl hne⟩
  | cons peer rest ih =>
    refine Succeeds.bind ((succeeds_nodeLookup h hx hp peer.key).mono fun c' buffer hc' => ?_)
    obtain ⟨h', -, -, hmet⟩ := hc'
    refine (ih h'.settled (h'.grows x y hx hlive hp)).mono fun c'' _ hc'' => ?_
    refine ⟨h'.trans hc''.1, fun _ z hz hk => ?_⟩
    exact hc''.1.grows z x hz hx (hmet z hz hk).2

/-- A refresh of all buckets meets the live nodes that are known. -/
theorem succeeds_refreshPeers (h : Settled members live live data c) (hx : live x = true)
    (hlive : live y = true) (hp : Knows c x (members.peers y)) {readings : Readings}
    (hclock : readings.clock 0 ≤ readings.clock 1) :
    Succeeds (Answered members live) ((node live T depth x).refreshPeers 0 readings) c
      fun c' _ => GoesOn members live live data c c' ∧ ∀ z, live z = true →
        Knows c x (members.peers z) → Knows c' z (members.peers x) := by
  obtain ⟨l, hl, hnodup, hsub⟩ := h.bucket x hx
  have hmem := (mem_allPeers_unsplit hl _).1 hp
  obtain ⟨table, picked, hunsplit, -, hpicked, hcall⟩ :=
    randomPerBucketPeers_unsplit hl (List.ne_nil_of_mem hmem) 0 readings
  have helapsed : 0 ≤ elapsed readings 0 := by
    unfold elapsed
    exact Int.tdiv_nonneg (by simpa using hclock) (by norm_num)
  have hknows : ∀ p, p ∈ ({ (c.nodes x).router with table } : Router).allPeers ↔ Knows c x p := by
    intro p
    rw [Knows, mem_allPeers_unsplit hl, mem_allPeers_unsplit hunsplit]
  have hgo := h.updateRouter (r := { (c.nodes x).router with table }) hx (h.own x hx)
    ⟨l, hunsplit, hnodup, hsub⟩ fun z _ hk => (hknows _).2 hk
  unfold Net.refreshPeers
  refine Succeeds.bind (succeeds_emit (Succeeds.bind (succeeds_act ?_)))
  simp only [Cluster.netOf, hcall]
  refine Succeeds.bind (succeeds_emit ?_)
  refine (succeeds_lookupEach picked hgo.settled hx hlive
    (hgo.grows x y hx hlive hp)).mono fun c' _ hc' => ?_
  exact ⟨hgo.trans hc'.1, fun z hz hk => hc'.2 (hpicked helapsed) z hz (hgo.grows x z hx hz hk)⟩

/-! ## Startup -/

/-- A node that is not live can change, and begin to serve, as long as it is the member. -/
theorem Settled.change {serves' : Fin n → Bool} (h : Settled members serves live data c)
    (hserves : ∀ y, y ≠ x → serves' y = serves y) (hx : live x = false)
    (hother : ∀ y, y ≠ x → c'.nodes y = c.nodes y)
    (hown : (c'.nodes x).router.selfPeer = members.peers x) :
    Settled members serves' live data c' := by
  have hne : ∀ y, live y = true → y ≠ x := fun y hy heq => by simp [heq, hx] at hy
  refine ⟨fun y hy => ?_, fun y hy => ?_, fun y hy => ?_, fun y hy => ?_⟩
  · rw [hserves y (hne y hy), h.lives y hy]
  · by_cases hyx : y = x
    · rw [hyx, hown]
    · rw [hother y hyx, h.own y (hserves y hyx ▸ hy)]
  · rw [hother y (hne y hy)]
    exact h.bucket y hy
  · rw [hother y (hne y hy)]
    exact h.chunks y hy

/-- A node that serves, with a bucket of members and no chunks, is one of the live ones. -/
theorem Settled.join (h : Settled members (Function.update serves x true) serves data c)
    (hbucket : RootBucket members x (c.nodes x).router.table) (hchunks : (c.nodes x).chunks = ∅) :
    Settled members (Function.update serves x true) (Function.update serves x true)
      (Function.update data x fun _ => none) c := by
  have hold : ∀ y, y ≠ x → Function.update serves x true y = true → serves y = true := fun y hyx hy => by
    rwa [Function.update_of_ne hyx] at hy
  refine ⟨fun _ hy => hy, h.own, fun y hy => ?_, fun y hy => ?_⟩ <;> by_cases hyx : y = x
  · rwa [hyx]
  · exact h.bucket y (hold y hyx hy)
  · rw [hyx, hchunks]
    intro key
    simp
  · intro key
    rw [Function.update_of_ne hyx, h.chunks y (hold y hyx hy)]

/-- Only one node changed, and it kept its chunks. -/
structure OnlyAt (x : Fin n) (c c' : Cluster n) : Prop where
  /-- The others stay as they are. -/
  other : ∀ y, y ≠ x → c'.nodes y = c.nodes y
  /-- The chunks stay. -/
  chunks : (c'.nodes x).chunks = (c.nodes x).chunks

variable {deliver : (m : Method) → Bytes → m.Request → Cluster n → Option m.Response × Cluster n}
variable {D : Event → Prop}

/-- The router of a session that starts holds the peer that it is given. -/
theorem succeeds_newRouter {selfPeer otherPeer : Peer} (hkey : otherPeer.key ≠ selfPeer.key)
    (hendpoint : otherPeer.endpoint ≠ selfPeer.endpoint) :
    Succeeds D ((Cluster.netOf deliver x).newRouter selfPeer otherPeer) c fun c' _ =>
      OnlyAt x c c' ∧ (c'.nodes x).router.selfPeer = selfPeer ∧
        Unsplit (c'.nodes x).router.table [otherPeer] := by
  refine Succeeds.bind (succeeds_emit (Succeeds.bind (succeeds_act (succeeds_act ?_))))
  simp only [Cluster.netOf]
  obtain ⟨table, hunsplit, hnew⟩ := new_unsplit (c.clock c.reads).toInt hkey hendpoint
  rw [hnew, Function.update_self]
  exact ⟨⟨fun y hy => Function.update_of_ne hy _ _, by simp only [Function.update_self]⟩, rfl, hunsplit⟩

/-- The contact takes the place of the temporary key. -/
theorem succeeds_handshake {α : Type} (hown : (c.nodes x).router.selfPeer = members.peers x)
    {tempKey : Key} (htemp : ∀ y, tempKey ≠ (members.peers y).key)
    (hunsplit : Unsplit (c.nodes x).router.table [⟨tempKey, (members.peers contact).endpoint⟩])
    (hcx : contact ≠ x) {f : Op (Cluster n) α} {Q : Cluster n → α → Prop}
    (hf : ∀ c', OnlyAt x c c' → (c'.nodes x).router.selfPeer = members.peers x →
      Unsplit (c'.nodes x).router.table [members.peers contact] → Succeeds D f c' Q) :
    Succeeds D ((Cluster.netOf deliver x).attemptInsertPeer (members.peers contact).key
      (members.peers contact).endpoint >>= fun _ =>
        (Cluster.netOf deliver x).evictPeer tempKey >>= fun _ => f) c Q := by
  have hkey := members.key_ne hown hcx
  have hendpoint := members.endpoint_ne hown hcx
  have hnew : (members.peers contact).key ∉
      [(⟨tempKey, (members.peers contact).endpoint⟩ : Peer)].map Peer.key := by
    simpa using (htemp contact).symm
  obtain ⟨table, htable, hinsert⟩ := attemptInsertPeer_unsplit_new hunsplit (by simp)
    (c.clock c.reads).toInt hnew hkey hendpoint
  have hnodup : ([members.peers contact, ⟨tempKey, (members.peers contact).endpoint⟩].map
      Peer.key).Nodup := by
    simpa using (htemp contact).symm
  have htempKey : tempKey ≠ ({ (c.nodes x).router with table } : Router).selfPeer.key := by
    rw [show _ = _ from hown]
    exact htemp x
  obtain ⟨table', htable', hevict⟩ := evictPeer_unsplit htable hnodup htempKey
  have hleft : [members.peers contact, ⟨tempKey, (members.peers contact).endpoint⟩].filter
      (fun p => p.key ≠ tempKey) = [members.peers contact] := by
    simp [(htemp contact).symm]
  rw [hleft] at htable'
  refine Succeeds.bind (Succeeds.bind (succeeds_emit (Succeeds.bind (succeeds_act (succeeds_act ?_)))))
  simp only [Cluster.netOf, hinsert]
  refine Succeeds.bind (Succeeds.bind (succeeds_emit (succeeds_act ?_)))
  simp only [Function.update_self, hevict, Function.update_idem]
  refine hf _ ⟨fun y hy => Function.update_of_ne hy _ _, ?_⟩ ?_ ?_
  · simp only [Function.update_self]
  · simpa only [Function.update_self] using hown
  · simpa only [Function.update_self] using htable'

/-- The ping of `startup` tells the session its contact's own key, and the contact comes to know the
session. -/
theorem succeeds_pingLoop (h : Settled members serves live data c) (hx : serves x = true)
    (hcontact : live contact = true) (hcx : contact ≠ x) (tempKey : Key) (turns : ℕ) :
    Succeeds (fun e => e.answeredBy members serves = true)
      ((node serves T depth x).pingLoop (turns + 1) ⟨tempKey, (members.peers contact).endpoint⟩) c
      fun c' otherPeer => GoesOn members serves live data c c' ∧
        Knows c' contact (members.peers x) ∧ otherPeer = members.peers contact := by
  have hpeer : (⟨tempKey, (members.peers contact).endpoint⟩ : Peer).endpoint =
      (members.peers contact).endpoint := rfl
  unfold Net.pingLoop
  refine Succeeds.bind (Succeeds.bind (succeeds_get ?_))
  rw [h.own x hx]
  refine Succeeds.bind (succeeds_callTo h hpeer (fun depth _ _ => ?_) fun hfails => ?_)
  · refine (succeeds_handlePing h hcontact hcx).mono fun c' response hc' _ => ?_
    obtain ⟨h', hknows, rfl⟩ := hc'
    exact Succeeds.bind (succeeds_toLocal (succeeds_pure (succeeds_pure ⟨h', hknows, rfl⟩)))
  · simp [h.lives contact hcontact] at hfails

/-- `startup` in a cluster whose live nodes know one another: the session knows them all then, and
they know it. -/
theorem succeeds_startup (h : Settled members serves serves data c)
    (hall : ∀ y, serves y = true → KnowsAll members serves c y) (hx : serves x = false)
    (hchunks : (c.nodes x).chunks = ∅) (hcontact : serves contact = true) {tempKey : Key}
    (htemp : ∀ y, tempKey ≠ (members.peers y).key) {readings : Readings}
    (hclock : readings.clock 0 ≤ readings.clock 1) :
    Succeeds (Answered members (Function.update serves x true))
      ((node (Function.update serves x true) T depth x).startup (members.peers x).key tempKey
        (members.peers x).endpoint (members.peers contact).endpoint readings) c
      fun c' _ => Settled members (Function.update serves x true) (Function.update serves x true)
          (Function.update data x fun _ => none) c' ∧
        ∀ y, Function.update serves x true y = true →
          KnowsAll members (Function.update serves x true) c' y := by
  have hcx : contact ≠ x := fun heq => by simp [heq, hx] at hcontact
  have hserves : Function.update serves x true x = true := Function.update_self ..
  have hold : ∀ y, y ≠ x → Function.update serves x true y = serves y := fun y hy =>
    Function.update_of_ne hy _ _
  have htempKey : (⟨tempKey, (members.peers contact).endpoint⟩ : Peer).key ≠ (members.peers x).key :=
    htemp x
  have htempEndpoint : (⟨tempKey, (members.peers contact).endpoint⟩ : Peer).endpoint ≠
      (members.peers x).endpoint := fun heq => hcx (members.endpoint_injective heq)
  unfold Net.startup
  refine Succeeds.bind (succeeds_emit (Succeeds.bind ?_))
  refine (succeeds_newRouter htempKey htempEndpoint).mono fun c₁ _ hc₁ => ?_
  obtain ⟨honly₁, hown₁, htable₁⟩ := hc₁
  have h₁ := h.change hold hx honly₁.other hown₁
  refine Succeeds.bind (succeeds_emit (Succeeds.bind ?_))
  refine (succeeds_pingLoop h₁ hserves hcontact hcx tempKey 1).mono fun c₂ otherPeer hc₂ => ?_
  obtain ⟨h₂, hknown, rfl⟩ := hc₂
  have hx₂ := h₂.still x hx
  refine Succeeds.bind (succeeds_emit ?_)
  refine succeeds_handshake (by rw [hx₂, hown₁]) htemp (by rw [hx₂]; exact htable₁) hcx
    fun c₃ honly₃ hown₃ htable₃ => ?_
  -- Now the session has its place among the members, and knows its contact.
  have hbucket : RootBucket members x (c₃.nodes x).router.table := by
    refine ⟨_, htable₃, List.nodup_singleton _, List.cons_subset.2 ⟨?_, List.nil_subset _⟩⟩
    exact members.mem_others.2 ⟨contact, hcx, rfl⟩
  have h₃ := (h₂.settled.change (fun _ _ => rfl) hx honly₃.other hown₃).join hbucket
    (by rw [honly₃.chunks, hx₂, honly₁.chunks, hchunks])
  have honly : ∀ p, Knows c₃ x p ↔ p = members.peers contact := by
    intro p
    rw [Knows, mem_allPeers_unsplit htable₃, List.mem_singleton]
  -- The others know what they knew, and the contact knows the session.
  have hkept : ∀ y z, serves y = true → serves z = true → Knows c y (members.peers z) →
      Knows c₃ y (members.peers z) := by
    intro y z hy hz hk
    have hyx : y ≠ x := fun heq => by simp [heq, hx] at hy
    have hk₁ : Knows c₁ y (members.peers z) := by
      rwa [Knows, honly₁.other y hyx]
    rw [Knows, honly₃.other y hyx]
    exact h₂.grows y z hy hz hk₁
  have hlive : Function.update serves x true contact = true := by rw [hold contact hcx, hcontact]
  have hnames : ∀ z, z ≠ x → z ≠ contact → Function.update serves x true z = true →
      Knows c₃ contact (members.peers z) := by
    intro z hzx hzc hz
    rw [hold z hzx] at hz
    exact hkept contact z hcontact hz (hall contact hcontact z hzc hz)
  refine Succeeds.bind (succeeds_emit (Succeeds.bind ?_))
  refine (succeeds_lookupHelper_contact h₃ hserves hlive hcx honly hnames _).mono fun c₄ _ hc₄ => ?_
  obtain ⟨h₄, hall₄⟩ := hc₄
  refine (succeeds_refreshPeers h₄.settled hserves hlive (hall₄ contact hcx hlive) hclock).mono ?_
  rintro c₅ _ ⟨h₅, hmet⟩
  refine ⟨h₅.settled, fun y hy z hzy hz => ?_⟩
  by_cases hyx : y = x
  · subst hyx
    exact h₅.grows y z hserves hz (hall₄ z hzy hz)
  · by_cases hzx : z = x
    · subst hzx
      exact hmet y hy (hall₄ y hyx hy)
    · have hy' : serves y = true := by rwa [← hold y hyx]
      have hz' : serves z = true := by rwa [← hold z hzx]
      exact h₅.grows y z hy hz (h₄.grows y z hy hz (hkept y z hy' hz' (hall y hy' z hzy hz')))

end Distft.Town
