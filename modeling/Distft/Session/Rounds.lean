import Distft.Session.Lookup

/-!
# Whom the rounds of a lookup leave unasked

A round of `lookup_helper` ends in one of two ways: it has come to the end of its list, and then
everyone in the list has been asked, or it has the answers that it waits for (`queryRound_outcome`).
Where everyone has been asked, the rounds that follow bring nothing new (`lookupRounds_of_queried`).
A lookup that leaves somebody unasked went the second way in each of its rounds, of which there are
two at least, and in the last one it waited for `PEER_LOOKUP_ALPHA` answers: a list with fewer peers
than that would have grown. So there have to be enough peers that answer, and one more
(`lookupRounds_asks`).
-/

namespace Distft

open Nearest

/-- The peer that an event asks for the value of a key. -/
def asksIn (chunkKey : Key) : Event → List Key
  | .rpc .findValue peer request _ => if request.searchKey = chunkKey.toBytes then [peer.key] else []
  | _ => []

/-- The peers that a run sends a `FindValue` for a key. -/
def asks (chunkKey : Key) (events : List Event) : List Key := events.flatMap (asksIn chunkKey)

/-- Updates ask nobody for a value. -/
theorem passesUpdates_asksIn (chunkKey : Key) : Net.PassesUpdates (asksIn chunkKey) :=
  ⟨fun _ => rfl, fun _ => rfl, fun _ _ => rfl, fun _ => rfl, fun _ _ _ => rfl⟩

@[simp]
theorem asks_nil (chunkKey : Key) : asks chunkKey [] = [] := rfl

@[simp]
theorem asks_cons (chunkKey : Key) (e : Event) (events : List Event) :
    asks chunkKey (e :: events) = asksIn chunkKey e ++ asks chunkKey events := rfl

@[simp]
theorem asks_append (chunkKey : Key) (events events' : List Event) :
    asks chunkKey (events ++ events') = asks chunkKey events ++ asks chunkKey events' :=
  List.flatMap_append

/-- A peer's key is one of the list's. -/
theorem mem_keySet {peers : List Peer} {p : Peer} (h : p ∈ peers) : p.key ∈ keySet peers :=
  List.mem_toFinset.2 (List.mem_map_of_mem h)

/-- A part of a list has fewer keys. -/
theorem keySet_subset {peers peers' : List Peer} (h : peers ⊆ peers') : keySet peers ⊆ keySet peers' :=
  fun _ hk => List.mem_toFinset.2 (List.map_subset _ h (List.mem_toFinset.1 hk))

namespace Net

variable {W δ : Type} {I : W → Prop} {chunkKey : Key} {reach : List Peer} {answering : Finset Key}
  {query : Peer → Op W (Answer δ)}

/-- A query of a peer of `reach` asks that peer for the value; only the keys of `answering` answer,
and they name peers of `reach`. -/
def AsksWithin (I : W → Prop) (chunkKey : Key) (reach : List Peer) (answering : Finset Key)
    (query : Peer → Op W (Answer δ)) : Prop :=
  ∀ peer ∈ reach, Exec.Yields I (query peer) (fun events answer => asks chunkKey events = [peer.key] ∧
    ∀ found, answer = .answered found → peer.key ∈ answering ∧ found ⊆ reach) fun _ => True

/-- What a part of a round that waits for `count` answers comes to, from the keys that were queried
and the list. -/
structure Outcome (chunkKey : Key) (reach : List Peer) (answering : Finset Key) (count : ℕ)
    (queried : List Key) (closest : List Peer) (events : List Event) (queried' : List Key)
    (closest' : List Peer) : Prop where
  /-- The list only grows. -/
  grows : closest ⊆ closest'
  /-- It has peers of `reach`. -/
  within : closest' ⊆ reach
  /-- The keys that were queried stay. -/
  kept : queried ⊆ queried'
  /-- Those that are new were asked. -/
  asked : ∀ k ∈ queried', k ∈ queried ∨ k ∈ asks chunkKey events
  /-- Everyone was asked, or as many keys have answered. -/
  ends : (∀ p ∈ closest', p.key ∈ queried') ∨
    ∃ T : Finset Key, T.card = count ∧ T ⊆ answering ∧ T ⊆ keySet closest' ∧
      ∀ k ∈ T, k ∈ queried' ∧ k ∉ queried

/-- A query comes before it. -/
theorem Outcome.after {count count' : ℕ} {queried queried' : List Key}
    {closest closest₁ closest' : List Peer} {events events' : List Event} {key : Key}
    (h : Outcome chunkKey reach answering count' (key :: queried) closest₁ events' queried' closest')
    (hsub : closest ⊆ closest₁) (hasks : asks chunkKey events = [key])
    (hends : (∀ p ∈ closest', p.key ∈ queried') ∨
      ∃ T : Finset Key, T.card = count ∧ T ⊆ answering ∧ T ⊆ keySet closest' ∧
        ∀ k ∈ T, k ∈ queried' ∧ k ∉ queried) :
    Outcome chunkKey reach answering count queried closest (events ++ events') queried' closest' where
  grows := List.Subset.trans hsub h.grows
  within := h.within
  kept := List.Subset.trans (List.subset_cons_self _ _) h.kept
  asked k hk := by
    rw [asks_append, hasks, List.mem_append, List.mem_singleton]
    rcases h.asked k hk with hk | hk
    · rcases List.mem_cons.1 hk with rfl | hk
      · exact .inr (.inl rfl)
      · exact .inl hk
    · exact .inr (.inr hk)
  ends := hends

section After

variable {count : ℕ} {queried queried' : List Key} {closest closest' : List Peer}
  {events events' : List Event}

/-- A query that fails comes before it. -/
theorem Outcome.after_failed {key : Key}
    (h : Outcome chunkKey reach answering count (key :: queried) closest events' queried' closest')
    (hasks : asks chunkKey events = [key]) :
    Outcome chunkKey reach answering count queried closest (events ++ events') queried' closest' := by
  refine h.after (List.Subset.refl _) hasks (h.ends.imp_right ?_)
  rintro ⟨T, hcard, hsub, hin, hnew⟩
  exact ⟨T, hcard, hsub, hin, fun k hk =>
    ⟨(hnew k hk).1, fun hold => (hnew k hk).2 (List.mem_cons_of_mem _ hold)⟩⟩

/-- A query that is answered comes before it: that peer is one more. -/
theorem Outcome.after_answered {peer : Peer} {found : List Peer}
    (h : Outcome chunkKey reach answering count (peer.key :: queried) (closest ++ found) events'
      queried' closest')
    (hasks : asks chunkKey events = [peer.key]) (hpeer : peer ∈ closest)
    (hanswering : peer.key ∈ answering) (hqueried : peer.key ∉ queried) :
    Outcome chunkKey reach answering (count + 1) queried closest (events ++ events') queried'
      closest' := by
  refine h.after (List.subset_append_left _ _) hasks (h.ends.imp_right ?_)
  rintro ⟨T, hcard, hsub, hin, hnew⟩
  have hfresh : peer.key ∉ T := fun hk => (hnew _ hk).2 List.mem_cons_self
  refine ⟨insert peer.key T, by rw [Finset.card_insert_of_notMem hfresh, hcard],
    Finset.insert_subset hanswering hsub, Finset.insert_subset ?_ hin, fun k hk => ?_⟩
  · exact mem_keySet (h.grows (List.mem_append_left _ hpeer))
  · rcases Finset.mem_insert.1 hk with rfl | hk
    · exact ⟨h.kept List.mem_cons_self, hqueried⟩
    · exact ⟨(hnew k hk).1, fun hold => (hnew k hk).2 (List.mem_cons_of_mem _ hold)⟩

end After

/-- A round comes to the end of its list, or has the answers that it waits for. The peers that it
has visited have been queried. -/
theorem queryRound_outcome (hquery : AsksWithin I chunkKey reach answering query) (count : ℕ) :
    ∀ (pending : List Peer) (queried : List Key) (closest : List Peer),
      (∀ p ∈ closest, p ∈ pending ∨ p.key ∈ queried) → pending ⊆ closest → closest ⊆ reach →
      Exec.Yields I (queryRound query count pending queried closest)
        (fun events r => r.1 = none →
          Outcome chunkKey reach answering count queried closest events r.2.1 r.2.2) fun _ => True := by
  -- By the answers that the round still waits for, and then by the peers that are not visited yet.
  induction count with
  | zero =>
    exact fun pending queried closest _ _ hreach => Exec.yields_pure fun _ =>
      ⟨List.Subset.refl _, hreach, List.Subset.refl _, fun _ hk => .inl hk,
        .inr ⟨∅, rfl, Finset.empty_subset _, Finset.empty_subset _, by simp⟩⟩
  | succ count ih =>
    intro pending
    induction pending with
    | nil =>
      intro queried closest hvisited _ hreach
      have hall : ∀ p ∈ closest, p.key ∈ queried := fun p hp =>
        (hvisited p hp).resolve_left List.not_mem_nil
      exact Exec.yields_pure fun _ =>
        ⟨List.Subset.refl _, hreach, List.Subset.refl _, fun _ hk => .inl hk, .inl hall⟩
    | cons peer rest ihrest =>
      intro queried closest hvisited hpending hreach
      obtain ⟨hpeer, hrest⟩ := List.cons_subset.1 hpending
      unfold queryRound queryPending
      by_cases hqueried : peer.key ∈ queried
      · rw [if_pos hqueried]
        refine ihrest queried closest (fun p hp => ?_) hrest hreach
        rcases hvisited p hp with hp | hp
        · rcases List.mem_cons.1 hp with rfl | hp
          · exact .inr hqueried
          · exact .inl hp
        · exact .inr hp
      · rw [if_neg hqueried]
        have hvisited' : ∀ p ∈ closest, p ∈ rest ∨ p.key ∈ peer.key :: queried := by
          intro p hp
          rcases hvisited p hp with hp | hp
          · rcases List.mem_cons.1 hp with rfl | hp
            · exact .inr List.mem_cons_self
            · exact .inl hp
          · exact .inr (List.mem_cons_of_mem _ hp)
        refine (hquery peer (hreach hpeer)).bind fun events answer hanswer => ?_
        obtain ⟨hasks, hfound⟩ := hanswer
        cases answer with
        | failed =>
          exact (ihrest (peer.key :: queried) closest hvisited' hrest hreach).mono
            fun events' r hr hnone => (hr hnone).after_failed hasks
        | answered found =>
          obtain ⟨hanswering, hwithin⟩ := hfound found rfl
          refine (ih (rest ++ found) (peer.key :: queried) (closest ++ found) ?_ ?_ ?_).mono
            fun events' r hr hnone => (hr hnone).after_answered hasks hpeer hanswering hqueried
          · intro p hp
            rcases List.mem_append.1 hp with hp | hp
            · exact (hvisited' p hp).imp_left (List.mem_append_left _)
            · exact .inl (List.mem_append_right _ hp)
          · exact List.append_subset.2 ⟨List.Subset.trans hrest (List.subset_append_left _ _),
              List.subset_append_right _ _⟩
          · exact List.append_subset.2 ⟨hreach, hwithin⟩
        | halt value => exact Exec.yields_pure fun hnone => absurd hnone (Option.some_ne_none value)

/-- A round whose peers have all been queried does nothing. -/
theorem queryRound_of_queried (query : Peer → Op W (Answer δ)) (count : ℕ) {pending : List Peer}
    {queried : List Key} (h : ∀ p ∈ pending, p.key ∈ queried) (closest : List Peer) :
    queryRound query count pending queried closest = pure (none, queried, closest) := by
  cases count with
  | zero => rfl
  | succ count =>
    unfold queryRound
    induction pending with
    | nil => rfl
    | cons peer rest ih =>
      obtain ⟨hpeer, hrest⟩ := List.forall_mem_cons.1 h
      rw [queryPending, if_pos hpeer]
      exact ih hrest

/-- The cut list has peers of the list. -/
theorem cut_subset (searchKey : Key) (peers : List Peer) :
    (sortByDist searchKey (uniquePeers peers)).take kbucketMax ⊆ peers := by
  rw [sortByDist_uniquePeers]
  exact nearest_subset _ _ _ _

/-- It has all of the keys, or `KBUCKET_MAX`. -/
theorem length_cut (searchKey : Key) (peers : List Peer) :
    ((sortByDist searchKey (uniquePeers peers)).take kbucketMax).length =
      min kbucketMax (keySet peers).card := by
  have hcut : IsNearest (distTo searchKey) kbucketMax (keySet peers)
      ((nearest Peer.key (distTo searchKey) kbucketMax peers).map Peer.key) :=
    isNearest_nearest (distTo_injective searchKey) kbucketMax peers
  rw [sortByDist_uniquePeers, ← hcut.length, List.length_map]

/-- Where everyone in the list has been queried, the rounds bring nothing new. -/
theorem lookupRounds_of_queried (searchKey : Key) (query : Peer → Op W (Answer δ)) {queried : List Key}
    (rounds : ℕ) : ∀ (size : ℕ) (minDist : Dist) {closest : List Peer},
      (∀ p ∈ closest, p.key ∈ queried) →
      Exec.Yields I (lookupRounds searchKey query rounds queried size minDist closest)
        (fun _ r => ∀ p ∈ r.2, p.key ∈ queried) fun _ => True := by
  induction rounds with
  | zero => exact fun _ _ _ h => Exec.yields_pure h
  | succ rounds ih =>
    intro size minDist closest h
    have hcut := fun p hp => h p (cut_subset searchKey closest hp)
    unfold lookupRounds
    rw [queryRound_of_queried query _ h, Exec.pure_bind]
    simp only [Option.isSome_none, Bool.false_eq_true, if_false]
    generalize (sortByDist searchKey (uniquePeers closest)).take kbucketMax = cut at hcut ⊢
    cases cut with
    | nil => exact Exec.yields_fault trivial
    | cons first rest =>
      simp only
      split_ifs
      · exact Exec.yields_pure hcut
      · exact ih _ _ hcut

/-- Keys of `reach` that were queried and have answered. -/
structure Gained (reach : List Peer) (answering : Finset Key) (queried : List Key) (T : Finset Key) :
    Prop where
  /-- They answer. -/
  answers : T ⊆ answering
  /-- They are of `reach`. -/
  within : T ⊆ keySet reach
  /-- They were queried. -/
  asked : ∀ k ∈ T, k ∈ queried

/-- Somebody who was not queried is one more. -/
theorem Gained.card_lt {T : Finset Key} {queried : List Key} (h : Gained reach answering queried T)
    {n : ℕ} (hcard : n ≤ T.card) {p : Peer} (hp : p ∈ reach) (hout : p.key ∉ queried) :
    n ≤ answering.card ∧ n < (keySet reach).card := by
  refine ⟨hcard.trans (Finset.card_le_card h.answers), lt_of_le_of_lt hcard ?_⟩
  refine Finset.card_lt_card ((Finset.ssubset_iff_of_subset h.within).2 ⟨p.key, mem_keySet hp, ?_⟩)
  exact fun hk => hout (h.asked _ hk)

/-- Those that a later part of the lookup queries come on top. -/
theorem Gained.union {T T' : Finset Key} {queried queried' : List Key} {closest : List Peer}
    (h : Gained reach answering queried T) (h' : Gained closest answering queried' T')
    (hnew : ∀ k ∈ T', k ∉ queried) (hkept : queried ⊆ queried') (hreach : closest ⊆ reach) :
    Gained reach answering queried' (T ∪ T') ∧ (T ∪ T').card = T.card + T'.card := by
  refine ⟨⟨Finset.union_subset h.answers h'.answers,
    Finset.union_subset h.within (h'.within.trans (keySet_subset hreach)), fun k hk => ?_⟩, ?_⟩
  · exact (Finset.mem_union.1 hk).elim (fun hk => hkept (h.asked k hk)) (h'.asked k)
  · exact Finset.card_union_of_disjoint
      (Finset.disjoint_left.2 fun k hk hk' => hnew k hk' (h.asked k hk))

/-- A lookup leaves somebody of its final list unasked only where `base + 3` keys answer and there
is one more: `base` of them in the first round, of which `T` are those until now, and
`PEER_LOOKUP_ALPHA` in the last one. Each other round has had one answer at least, which is enough
for the bound on the rounds. -/
theorem lookupRounds_asks (hquery : AsksWithin I chunkKey reach answering query) (searchKey : Key)
    {base : ℕ} (rounds : ℕ) :
    ∀ (gained : ℕ) (queried : List Key) (size : ℕ) (minDist : Dist) (closest : List Peer)
      (T : Finset Key),
      Gained reach answering queried T → closest ⊆ reach → closest ≠ [] → size ≤ closest.length →
      (size = 0 ∧ base ≤ min peerLookupAlpha closest.length ∧ 4 ≤ rounds) ∨
        (base + gained ≤ T.card ∧ 3 ≤ gained + rounds) →
      Exec.Yields I (lookupRounds searchKey query rounds queried size minDist closest)
        (fun events r => r.1 = none → (∀ p ∈ r.2, p.key ∈ queried ∨ p.key ∈ asks chunkKey events) ∨
          (base + 3 ≤ answering.card ∧ base + 3 < (keySet reach).card)) fun _ => True := by
  induction rounds with
  | zero =>
    intro gained queried size minDist closest T hT hreach _ _ hstage
    refine Exec.yields_pure fun _ => or_iff_not_imp_left.2 fun hout => ?_
    simp only [asks_nil, List.not_mem_nil, or_false, not_forall] at hout
    obtain ⟨p, hp, hout⟩ := hout
    exact hT.card_lt (by omega) (hreach hp) hout
  | succ rounds ih =>
    intro gained queried size minDist closest T hT hreach hne hsize hstage
    unfold lookupRounds
    refine (queryRound_outcome hquery _ closest queried closest (fun _ => .inl) (List.Subset.refl _)
      hreach).bind fun events r hr => ?_
    obtain ⟨halted, queried', closest'⟩ := r
    simp only
    cases halted with
    | some value => exact Exec.yields_pure fun hnone => absurd hnone (Option.some_ne_none value)
    | none =>
      have hout := hr rfl
      have hcut := cut_subset searchKey closest'
      have hlength := length_cut searchKey closest'
      simp only [Option.isSome_none, Bool.false_eq_true, if_false] at hout ⊢
      generalize (sortByDist searchKey (uniquePeers closest')).take kbucketMax = cut at hcut hlength ⊢
      have hasked : ∀ p : Peer, p.key ∈ queried' → p.key ∈ queried ∨ p.key ∈ asks chunkKey events :=
        fun p => hout.asked p.key
      by_cases hall : ∀ p ∈ closest', p.key ∈ queried'
      · -- Everyone was asked, and so it stays.
        cases cut with
        | nil => exact Exec.yields_fault trivial
        | cons first rest =>
          simp only
          split_ifs
          · refine Exec.yields_pure fun _ => .inl fun p hp => ?_
            rw [List.append_nil]
            exact hasked p (hall p (hcut hp))
          · refine (lookupRounds_of_queried searchKey query rounds _ _ fun p hp =>
              hall p (hcut hp)).mono fun events' r hr _ => .inl fun p hp => ?_
            rw [asks_append, List.mem_append]
            exact (hasked p (hr p hp)).imp_right .inl
      · obtain ⟨T', hcard, hanswering, hin, hnew⟩ := hout.ends.resolve_left hall
        simp only [not_forall] at hall
        obtain ⟨p, hp, hunasked⟩ := hall
        -- The answers of this round are new ones.
        have hT' : Gained closest' answering queried' T' := ⟨hanswering, hin, fun k hk => (hnew k hk).1⟩
        obtain ⟨hboth, hunion⟩ := hT.union hT' (fun k hk => (hnew k hk).2) hout.kept hout.within
        have hpos := List.length_pos_of_ne_nil hne
        have halpha : peerLookupAlpha = 3 := rfl
        have hmax : kbucketMax = 20 := rfl
        cases cut with
        | nil => exact Exec.yields_fault trivial
        | cons first rest =>
          simp only
          split_ifs with hstop
          · refine Exec.yields_pure fun _ => .inr ?_
            simp only [Bool.and_eq_true, decide_eq_true_eq] at hstop
            -- The list has not grown, though it has the answers of this round and one more.
            have hmore := (hT'.card_lt hcard.ge hp hunasked).2
            have hthree : 3 ≤ closest.length := by
              have hshort := hstop.1
              rw [hlength] at hshort
              omega
            rw [List.length_cons] at hstop
            exact hboth.card_lt (by omega) (hout.within hp) hunasked
          · obtain ⟨gained', hgained⟩ :
                ∃ gained', base + gained' ≤ (T ∪ T').card ∧ 3 ≤ gained' + rounds := by
              rcases hstage with ⟨-, hbase, hrounds⟩ | ⟨hbase, hrounds⟩
              · exact ⟨0, by omega, by omega⟩
              · exact ⟨gained + 1, by omega, by omega⟩
            refine (ih gained' queried' _ _ (first :: rest) (T ∪ T') hboth
              (List.Subset.trans hcut hout.within) (List.cons_ne_nil _ _) le_rfl
              (.inr hgained)).mono fun events' r hr hnone => (hr hnone).imp_left fun hrest p hp => ?_
            rw [asks_append, List.mem_append]
            exact (hrest p hp).elim (fun hk => (hasked p hk).imp_right .inl) fun hk => .inr (.inr hk)

end Net

end Distft
