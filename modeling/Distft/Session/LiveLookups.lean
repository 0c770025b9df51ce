import Mathlib.Data.Fintype.Card
import Distft.Session.Acquaintance
import Distft.Session.Lifecycle

/-!
# Lookups among live nodes

The lookups, the sets and the gets of a live node in a cluster of which only some nodes serve. Peers
that do not answer stay in the list of a lookup, so the list only grows, and what it begins with is
all that the node knows; no more than `KBUCKET_MAX` members are ever in it. Where a live node knows
all the others, its `node_lookup` therefore meets them all (`succeeds_nodeLookup`), and its `set` is
offered to every one of them (`succeeds_set`).
-/

namespace Distft.Town

open Distft.BinaryTree Exec

variable {n : ℕ} {members : Members n} {live : Fin n → Bool} {data : Fin n → Key → Option Bytes}
variable {c c' : Cluster n} {T : Transport} {depth : ℕ} {x y : Fin n}

/-- Of a list of other members, the nearest `KBUCKET_MAX` are all. -/
theorem mem_nearest (searchKey : Key) {peers : List Peer} (hsub : peers ⊆ members.others x) (p : Peer) :
    p ∈ (sortByDist searchKey (uniquePeers peers)).take kbucketMax ↔ p ∈ peers := by
  have hunique : ∀ p, p ∈ uniquePeers peers ↔ p ∈ peers := by
    intro p
    constructor
    · exact fun hp => Nearest.uniqueBy_subset _ _ _ hp
    · intro hp
      -- The peer that stands for the key is the only one that has it.
      have hkey : p.key ∈ (uniquePeers peers).map Peer.key :=
        Nearest.mem_uniqueBy.2 ⟨List.mem_map_of_mem hp, List.not_mem_nil⟩
      obtain ⟨q, hq, hqkey⟩ := List.mem_map.1 hkey
      have hqothers := hsub (Nearest.uniqueBy_subset _ _ _ hq)
      obtain rfl := eq_of_key_eq (members.others_nodup x) hqothers (hsub hp) hqkey
      exact hq
  have hlen : (sortByDist searchKey (uniquePeers peers)).length ≤ kbucketMax := by
    rw [sortByDist, List.length_insertionSort]
    exact length_le_of_subset_others (Nearest.nodup_uniqueBy Peer.key [] peers)
      fun p hp => hsub ((hunique p).1 hp)
  rw [List.take_of_length_le hlen, sortByDist, List.mem_insertionSort, hunique]

/-! ## The loops -/

section Lookup

variable {δ : Type} {H : δ → Prop}

/-- What a query comes to is right: it finds other members, and halts only with a value that may be.
-/
def RightAnswer (members : Members n) (x : Fin n) (H : δ → Prop) : Answer δ → Prop
  | .failed => True
  | .answered found => found ⊆ members.others x
  | .halt value => H value

/-- Queries of other members go on, and come to right answers. -/
def AsksMembers (members : Members n) (live : Fin n → Bool) (data : Fin n → Key → Option Bytes)
    (x : Fin n) (H : δ → Prop) (query : Peer → Op (Cluster n) (Answer δ)) : Prop :=
  ∀ c peer, Settled members live live data c → peer ∈ members.others x →
    Succeeds (Answered members live) (query peer) c fun c' answer =>
      GoesOn members live live data c c' ∧ RightAnswer members x H answer

/-- The list of a lookup as a round ends: it lost no peer, and has other members only. -/
structure RoundEnd (members : Members n) (live : Fin n → Bool) (data : Fin n → Key → Option Bytes)
    (x : Fin n) (H : δ → Prop) (closest : List Peer) (c c' : Cluster n)
    (halted : Option δ) (closest' : List Peer) : Prop where
  /-- The cluster goes on. -/
  goesOn : GoesOn members live live data c c'
  /-- The lookup halts only with a value that may be. -/
  halts : ∀ value, halted = some value → H value
  /-- No peer is lost. -/
  grows : closest ⊆ closest'
  /-- There are members only. -/
  others : closest' ⊆ members.others x

variable {query : Peer → Op (Cluster n) (Answer δ)}

/-- What ends a round that begins later ends one that began before. -/
theorem RoundEnd.after {closest closest' closest'' : List Peer} {halted : Option δ} {c₀ : Cluster n}
    (h₀ : GoesOn members live live data c₀ c) (hgrows : closest ⊆ closest')
    (h : RoundEnd members live data x H closest' c c' halted closest'') :
    RoundEnd members live data x H closest c₀ c' halted closest'' :=
  ⟨h₀.trans h.goesOn, h.halts, fun _ hp => h.grows (hgrows hp), h.others⟩

theorem succeeds_queryPending (hquery : AsksMembers members live data x H query)
    {next : List Peer → List Key → List Peer → Op (Cluster n) (Option δ × List Key × List Peer)}
    (hnext : ∀ c pending queried closest, Settled members live live data c →
      pending ⊆ members.others x → closest ⊆ members.others x →
      Succeeds (Answered members live) (next pending queried closest) c fun c' r =>
        RoundEnd members live data x H closest c c' r.1 r.2.2)
    (pending : List Peer) (queried : List Key) (closest : List Peer)
    (h : Settled members live live data c) (hpending : pending ⊆ members.others x)
    (hclosest : closest ⊆ members.others x) :
    Succeeds (Answered members live) (Net.queryPending query next pending queried closest) c
      fun c' r => RoundEnd members live data x H closest c c' r.1 r.2.2 := by
  induction pending generalizing c queried with
  | nil => exact succeeds_pure ⟨.refl h, fun _ heq => (nomatch heq), List.Subset.refl _, hclosest⟩
  | cons peer rest ih =>
    obtain ⟨hpeer, hrest⟩ := List.cons_subset.1 hpending
    unfold Net.queryPending
    by_cases hqueried : peer.key ∈ queried
    · rw [if_pos hqueried]
      exact ih queried h hrest
    · rw [if_neg hqueried]
      refine Succeeds.bind ((hquery c peer h hpeer).mono fun c' answer hc' => ?_)
      obtain ⟨h', hright⟩ := hc'
      cases answer with
      | failed =>
        exact (ih _ h'.settled hrest).mono fun _ _ hr => hr.after h' (List.Subset.refl _)
      | answered found =>
        have hpending' := List.append_subset.2 ⟨hrest, hright⟩
        have hclosest' := List.append_subset.2 ⟨hclosest, hright⟩
        exact (hnext c' _ _ _ h'.settled hpending' hclosest').mono fun _ _ hr =>
          hr.after h' (List.subset_append_left _ _)
      | halt value =>
        refine succeeds_pure ⟨h', fun value' heq => ?_, List.Subset.refl _, hclosest⟩
        exact Option.some.inj heq ▸ hright

theorem succeeds_queryRound (hquery : AsksMembers members live data x H query) (count : ℕ) :
    ∀ (c : Cluster n) (pending : List Peer) (queried : List Key) (closest : List Peer),
      Settled members live live data c → pending ⊆ members.others x → closest ⊆ members.others x →
      Succeeds (Answered members live) (Net.queryRound query count pending queried closest) c
        fun c' r => RoundEnd members live data x H closest c c' r.1 r.2.2 := by
  induction count with
  | zero =>
    exact fun c pending queried closest h _ hclosest =>
      succeeds_pure ⟨.refl h, fun _ heq => (nomatch heq), List.Subset.refl _, hclosest⟩
  | succ count ih =>
    intro c pending queried closest h hpending hclosest
    unfold Net.queryRound
    exact succeeds_queryPending hquery ih pending queried closest h hpending hclosest

/-- A lookup that begins with a round of its own goes on in the cluster that the round leaves. -/
theorem succeeds_lookupRounds_succ (searchKey : Key) (rounds : ℕ) (queried : List Key) (size : ℕ)
    (minDist : Dist) {closest : List Peer} (hne : closest ≠ [])
    {Q : Cluster n → Prop}
    (hround : Succeeds (Answered members live)
      (Net.queryRound query (min peerLookupAlpha closest.length) closest queried closest) c
      fun c' r => RoundEnd members live data x H closest c c' r.1 r.2.2 ∧ Q c')
    (hQ : ∀ c c', Q c → GoesOn members live live data c c' → Q c')
    (hrest : ∀ c queried size minDist closest, Settled members live live data c → closest ≠ [] →
      closest ⊆ members.others x →
      Succeeds (Answered members live)
        (Net.lookupRounds searchKey query rounds queried size minDist closest) c
        fun c' r => RoundEnd members live data x H closest c c' r.1 r.2) :
    Succeeds (Answered members live)
      (Net.lookupRounds searchKey query (rounds + 1) queried size minDist closest) c
      fun c' r => RoundEnd members live data x H closest c c' r.1 r.2 ∧ Q c' := by
  unfold Net.lookupRounds
  refine Succeeds.bind (hround.mono ?_)
  rintro c' ⟨halted, queried', closest'⟩ ⟨hend, hq⟩
  simp only at hend ⊢
  split
  · exact succeeds_pure ⟨hend, hq⟩
  · next hgoes =>
    have hnone : halted = none := by simpa using hgoes
    -- The cut to `KBUCKET_MAX` takes nothing away.
    have hcut := mem_nearest searchKey hend.others
    generalize (sortByDist searchKey (uniquePeers closest')).take kbucketMax = cut at hcut
    have hgrows : closest ⊆ cut := fun p hp => (hcut p).2 (hend.grows hp)
    have hothers : cut ⊆ members.others x := fun p hp => hend.others ((hcut p).1 hp)
    cases cut with
    | nil => exact absurd (List.subset_nil.1 hgrows) hne
    | cons first rest =>
      simp only
      split
      · exact succeeds_pure ⟨⟨hend.goesOn, fun _ heq => (nomatch heq), hgrows, hothers⟩, hq⟩
      · refine (hrest c' queried' _ _ _ hend.goesOn.settled (List.cons_ne_nil _ _) hothers).mono ?_
        exact fun c'' r hr => ⟨hr.after hend.goesOn hgrows, hQ c' c'' hq hr.goesOn⟩

theorem succeeds_lookupRounds (hquery : AsksMembers members live data x H query) (searchKey : Key)
    (rounds : ℕ) (queried : List Key) (size : ℕ) (minDist : Dist) (closest : List Peer)
    (h : Settled members live live data c) (hne : closest ≠ []) (hsub : closest ⊆ members.others x) :
    Succeeds (Answered members live)
      (Net.lookupRounds searchKey query rounds queried size minDist closest) c
      fun c' r => RoundEnd members live data x H closest c c' r.1 r.2 := by
  induction rounds generalizing c queried size minDist closest with
  | zero => exact succeeds_pure ⟨.refl h, fun _ heq => (nomatch heq), List.Subset.refl _, hsub⟩
  | succ rounds ih =>
    have hround := (succeeds_queryRound hquery (min peerLookupAlpha closest.length) c closest queried
      closest h hsub hsub).mono (R := fun c' r =>
        RoundEnd members live data x H closest c c' r.1 r.2.2 ∧ True) fun _ _ hr => ⟨hr, trivial⟩
    refine (succeeds_lookupRounds_succ searchKey rounds queried size minDist hne hround
      (fun _ _ _ _ => trivial) ?_).mono fun _ _ hr => hr.1
    exact fun c queried size minDist closest h hne hsub => ih queried size minDist closest h hne hsub

/-- A lookup by a node that knows a peer goes on, and its list has at least what the node knew. -/
theorem succeeds_lookupHelper (hquery : AsksMembers members live data x H query) (searchKey : Key)
    (h : Settled members live live data c) (hx : live x = true) {p : Peer} (hp : Knows c x p) :
    Succeeds (Answered members live) ((node live T depth x).lookupHelper searchKey [] query) c
      fun c' r => GoesOn members live live data c c' ∧ (∀ value, r.1 = some value → H value) ∧
        r.2 ⊆ members.others x ∧ ∀ p, Knows c x p → p ∈ r.2 := by
  refine Succeeds.bind ((succeeds_closestPeers h hx searchKey).mono fun c' found hc' => ?_)
  obtain ⟨h', hsub, hfound⟩ := hc'
  have hmem : ∀ q, q ∈ sortByDist searchKey ([] ++ found) ↔ Knows c x q := by
    intro q
    rw [sortByDist, List.mem_insertionSort, List.nil_append, hfound]
  refine (succeeds_lookupRounds hquery searchKey _ _ _ _ _ h'.settled
    (List.ne_nil_of_mem ((hmem p).2 hp)) fun q hq => hsub ((hfound q).2 ((hmem q).1 hq))).mono ?_
  exact fun c'' r hr => ⟨h'.trans hr.goesOn, hr.halts, hr.others, fun q hq => hr.grows ((hmem q).2 hq)⟩

end Lookup

/-! ## Node lookups -/

/-- A query of `node_lookup` asks members. -/
theorem nodeQueryFn_asksMembers (hx : live x = true) (searchKey : Key) (H : Empty → Prop) :
    AsksMembers members live data x H ((node live T depth x).nodeQueryFn searchKey) := by
  intro c peer h hpeer
  obtain ⟨y, hxy, rfl⟩ := members.mem_others.1 hpeer
  refine Succeeds.bind ((succeeds_findNode h hx hxy searchKey).mono fun c' answer hc' => ?_)
  obtain ⟨h', hfound, -⟩ := hc'
  cases answer with
  | none => exact succeeds_pure ⟨h', trivial⟩
  | some found => exact succeeds_pure ⟨h', hfound found rfl⟩

/-- The last queries of `node_lookup` meet the live ones among the peers. -/
theorem succeeds_findFrom (searchKey : Key) (peers : List Peer) (hpeers : peers ⊆ members.others x)
    (h : Settled members live live data c) (hx : live x = true) :
    Succeeds (Answered members live) ((node live T depth x).findFrom searchKey peers) c
      fun c' more => GoesOn members live live data c c' ∧ more ⊆ members.others x ∧
        ∀ y, live y = true → members.peers y ∈ peers → Knows c' y (members.peers x) := by
  induction peers generalizing c with
  | nil => exact succeeds_pure ⟨.refl h, List.nil_subset _, fun _ _ hy => absurd hy List.not_mem_nil⟩
  | cons peer rest ih =>
    obtain ⟨hpeer, hrest⟩ := List.cons_subset.1 hpeers
    obtain ⟨y, hxy, rfl⟩ := members.mem_others.1 hpeer
    refine Succeeds.bind ((succeeds_findNode h hx hxy searchKey).mono fun c' answer hc' => ?_)
    obtain ⟨h', hfound, hmet⟩ := hc'
    refine Succeeds.bind ((ih hrest h'.settled).mono fun c'' more hc'' => ?_)
    obtain ⟨h'', hmore, hall⟩ := hc''
    refine succeeds_pure ⟨h'.trans h'', List.append_subset.2 ⟨?_, hmore⟩, fun z hz hmem => ?_⟩
    · cases answer with
      | none => exact List.nil_subset _
      | some found => exact hfound found rfl
    · rcases List.mem_cons.1 hmem with heq | hmem
      · obtain rfl := members.key_injective (congrArg Peer.key heq)
        exact h''.grows z x hz hx (hmet hz).1
      · exact hall z hz hmem

/-- `node_lookup` finds the live nodes that are known, and meets them. -/
theorem succeeds_nodeLookup (h : Settled members live live data c) (hx : live x = true) {p : Peer}
    (hp : Knows c x p) (nodeKey : Key) :
    Succeeds (Answered members live) ((node live T depth x).nodeLookup nodeKey) c
      fun c' buffer => GoesOn members live live data c c' ∧ buffer ⊆ members.others x ∧
        buffer.length ≤ kbucketMax ∧ ∀ y, live y = true → Knows c x (members.peers y) →
          members.peers y ∈ buffer ∧ Knows c' y (members.peers x) := by
  refine Succeeds.bind ((succeeds_lookupHelper (nodeQueryFn_asksMembers hx nodeKey fun _ => True)
    nodeKey h hx hp).mono ?_)
  rintro c' ⟨halted, closest⟩ ⟨h', -, hsub, hknown⟩
  refine Succeeds.bind ((succeeds_findFrom nodeKey closest hsub h'.settled hx).mono ?_)
  rintro c'' more ⟨h'', hmore, hall⟩
  have hothers : closest ++ more ⊆ members.others x := List.append_subset.2 ⟨hsub, hmore⟩
  have hcut := mem_nearest nodeKey hothers
  refine succeeds_pure ⟨h'.trans h'', fun q hq => hothers ((hcut q).1 hq), List.length_take_le _ _,
    fun y hy hk => ⟨?_, hall y hy (hknown _ hk)⟩⟩
  exact (hcut _).2 (List.mem_append_left _ (hknown _ hk))

/-! ## Sets and gets -/

theorem succeeds_storeAll {key : Key} {value : Bytes} {original : Bool} {last : Time}
    (published : Int64) (force : Bool) (maxDist : Dist) (peers : List Peer)
    (hpeers : peers ⊆ members.others x) (h : Settled members live live data c) (hx : live x = true) :
    Succeeds (Answered members live) ((node live T depth x).storeAll
        ⟨original, key, value, last, published.toInt⟩ force maxDist peers) c
      fun c' _ => GoesOn members live live (offered members data force peers key value) c c' := by
  induction peers generalizing c data maxDist with
  | nil =>
    rw [offered_nil]
    exact succeeds_pure (.refl h)
  | cons peer rest ih =>
    obtain ⟨hpeer, hrest⟩ := List.cons_subset.1 hpeers
    obtain ⟨y, hxy, rfl⟩ := members.mem_others.1 hpeer
    unfold Net.storeAll
    refine Succeeds.bind ((succeeds_store h hx hxy published force).mono fun c' _ h' => ?_)
    have hrest' := ih (if maxDist.lt (Dist.between key (members.peers y).key) then
      Dist.between key (members.peers y).key else maxDist) hrest h'.settled
    rw [offered_offered] at hrest'
    exact hrest'.mono fun _ _ h'' => h'.trans h''

/-- The node knows all the other live nodes. -/
def KnowsAll (members : Members n) (live : Fin n → Bool) (c : Cluster n) (x : Fin n) : Prop :=
  ∀ y, y ≠ x → live y = true → Knows c x (members.peers y)

/-- `publish` by a node that knows all the other live nodes: they are offered the chunk, and the
node keeps it itself. -/
theorem succeeds_publish (h : Settled members live live data c) (hx : live x = true)
    (hall : KnowsAll members live c x) {p : Peer} (hp : Knows c x p) {key : Key} {value : Bytes}
    {original : Bool} {last : Time} (published : Int64) (force : Bool) :
    Succeeds (Answered members live) ((node live T depth x).publish
        ⟨original, key, value, last, published.toInt⟩ force) c
      fun c' _ => GoesOn members live live (setAt x force data key value) c c' := by
  unfold Net.publish
  refine Succeeds.bind ((succeeds_nodeLookup h hx hp key).mono ?_)
  rintro c' buffer ⟨h', hsub, hlen, hbuffer⟩
  rw [List.take_of_length_le hlen]
  refine Succeeds.bind ((succeeds_storeAll published force _ buffer hsub h'.settled hx).mono ?_)
  intro c'' maxDist h''
  refine Succeeds.bind (succeeds_get ?_)
  rw [if_pos (by simp [hlen])]
  refine Succeeds.bind (succeeds_emit (Succeeds.bind (succeeds_act (succeeds_emit ?_))))
  have hhome := h''.settled.insertChunk hx key ⟨original, key, value, last, published.toInt⟩
  refine ((h'.trans h'').trans hhome).congr fun y hy => ?_
  -- Every live node is the session's own or one of those that were found.
  funext key'
  by_cases hyx : y = x
  · subst hyx
    by_cases hkey : key' = key
    · simp [stored, setAt, hkey]
    · simp [stored, offered, setAt, hkey, Ne.symm hkey]
  · have hmem : members.peers y ∈ buffer := (hbuffer y hy (hall y hyx hy)).1
    have hne : members.peers y ≠ members.peers x := fun heq =>
      hyx (members.key_injective (congrArg Peer.key heq))
    simp [stored, offered, setAt, hyx, hmem, hne, eq_comm]

/-- A `set` by a node that knows all the other live nodes. -/
theorem succeeds_set (h : Settled members live live data c) (hx : live x = true)
    (hall : KnowsAll members live c x) {p : Peer} (hp : Knows c x p) (key : Key) (value : Bytes)
    (force : Bool) :
    Succeeds (Answered members live) ((node live T depth x).set key value force) c
      fun c' _ => GoesOn members live live (setAt x force data key value) c c' := by
  have hknows : ∀ {c' : Cluster n}, c'.nodes = c.nodes →
      KnowsAll members live c' x ∧ Knows c' x p := by
    intro c' hnodes
    unfold KnowsAll Knows
    rw [hnodes]
    exact ⟨hall, hp⟩
  refine Succeeds.bind (succeeds_clock h fun c' h' hnodes published => ?_)
  refine Succeeds.bind (succeeds_clock h'.settled fun c'' h'' hnodes' last => ?_)
  obtain ⟨hall', hp'⟩ := hknows (hnodes'.trans hnodes)
  exact (succeeds_publish h''.settled hx hall' hp' published force).mono fun _ _ hlast =>
    (h'.trans h'').trans hlast

/-! ## Gets -/

/-- What a query of `value_lookup` comes to at another member. -/
def ValueAnswer (members : Members n) (live : Fin n → Bool) (data : Fin n → Key → Option Bytes)
    (x y : Fin n) (searchKey : Key) : Answer Bytes → Prop
  | .failed => live y = false
  | .answered found => live y = true ∧ data y searchKey = none ∧ found ⊆ members.others x
  | .halt value => live y = true ∧ data y searchKey = some value

/-- A query of `value_lookup`. -/
theorem succeeds_valueQueryFn (h : Settled members live live data c) (hx : live x = true) (hxy : y ≠ x)
    (searchKey : Key) :
    Succeeds (Answered members live) ((node live T depth x).valueQueryFn searchKey (members.peers y)) c
      fun c' answer => GoesOn members live live data c c' ∧
        ValueAnswer members live data x y searchKey answer := by
  refine Succeeds.bind ((succeeds_findValue h hx hxy searchKey).mono fun c' answer hc' => ?_)
  obtain ⟨h', hfound⟩ := hc'
  rcases answer with - | value | found
  · exact succeeds_pure ⟨h', hfound⟩
  · exact succeeds_pure ⟨h', hfound⟩
  · exact succeeds_pure ⟨h', hfound⟩

/-- A query of `value_lookup` asks members, and halts only with a value that a live node has. -/
theorem valueQueryFn_asksMembers (hx : live x = true) (searchKey : Key) :
    AsksMembers members live data x (fun value => ∃ y, live y = true ∧ data y searchKey = some value)
      ((node live T depth x).valueQueryFn searchKey) := by
  intro c peer h hpeer
  obtain ⟨y, hxy, rfl⟩ := members.mem_others.1 hpeer
  refine (succeeds_valueQueryFn h hx hxy searchKey).mono fun c' answer hc' => ⟨hc'.1, ?_⟩
  cases answer with
  | failed => trivial
  | answered found => exact hc'.2.2.2
  | halt value => exact ⟨y, hc'.2⟩

/-- The live nodes other than the one that asks, that have no value for the key and were not asked. -/
def lacking (members : Members n) (live : Fin n → Bool) (data : Fin n → Key → Option Bytes) (x : Fin n)
    (searchKey : Key) (queried : List Key) : Finset (Fin n) :=
  Finset.univ.filter fun y => y ≠ x ∧ live y = true ∧ data y searchKey = none ∧
    (members.peers y).key ∉ queried

theorem mem_lacking {searchKey : Key} {queried : List Key} :
    y ∈ lacking members live data x searchKey queried ↔ y ≠ x ∧ live y = true ∧
      data y searchKey = none ∧ (members.peers y).key ∉ queried := by
  simp [lacking]

/-- A node that is asked, and lacks the value, is one less. -/
theorem card_lacking_cons {searchKey : Key} {queried : List Key} (hxy : y ≠ x) (hy : live y = true)
    (hdata : data y searchKey = none) (hnew : (members.peers y).key ∉ queried) :
    (lacking members live data x searchKey ((members.peers y).key :: queried)).card <
      (lacking members live data x searchKey queried).card := by
  refine Finset.card_lt_card ⟨fun z hz => ?_, fun hsub => ?_⟩
  · obtain ⟨hzx, hz, hnone, hnot⟩ := mem_lacking.1 hz
    exact mem_lacking.2 ⟨hzx, hz, hnone, fun hmem => hnot (List.mem_cons_of_mem _ hmem)⟩
  · have hmem := hsub (mem_lacking.2 ⟨hxy, hy, hdata, hnew⟩)
    exact (mem_lacking.1 hmem).2.2.2 List.mem_cons_self

/-- Asking more, no more lack the value. -/
theorem card_lacking_mono (searchKey : Key) {queried queried' : List Key} (hsub : queried ⊆ queried') :
    (lacking members live data x searchKey queried').card ≤
      (lacking members live data x searchKey queried).card := by
  refine Finset.card_le_card fun z hz => ?_
  obtain ⟨hzx, hz, hnone, hnot⟩ := mem_lacking.1 hz
  exact mem_lacking.2 ⟨hzx, hz, hnone, fun hmem => hnot (hsub hmem)⟩

/-- A round that waits for more answers than there are live nodes that lack the value comes to one
that has it, if that one is in the list. -/
theorem succeeds_queryRound_finds (hx : live x = true) {searchKey : Key} {z : Fin n} {value : Bytes}
    (hz : live z = true) (hvalue : data z searchKey = some value) (count : ℕ) :
    ∀ (c : Cluster n) (pending : List Peer) (queried : List Key) (closest : List Peer),
      Settled members live live data c → pending ⊆ members.others x → members.peers z ∈ pending →
      (members.peers z).key ∉ queried →
      (lacking members live data x searchKey queried).card < count →
      Succeeds (Answered members live)
        (Net.queryRound ((node live T depth x).valueQueryFn searchKey) count pending queried closest) c
        fun _ r => r.1.isSome = true := by
  induction count with
  | zero => exact fun _ _ _ _ _ _ _ _ hcard => absurd hcard (Nat.not_lt_zero _)
  | succ count ih =>
    intro c pending queried closest h hpending hmem hnew hcard
    unfold Net.queryRound
    -- Among the peers of the list, those that were asked or are gone are passed over.
    induction pending generalizing c queried with
    | nil => exact absurd hmem List.not_mem_nil
    | cons peer rest ihrest =>
      obtain ⟨hpeer, hrest⟩ := List.cons_subset.1 hpending
      obtain ⟨y, hxy, rfl⟩ := members.mem_others.1 hpeer
      have hother : z ≠ y → members.peers z ∈ rest := by
        intro hzy
        refine (List.mem_cons.1 hmem).resolve_left fun heq => hzy ?_
        exact members.key_injective (congrArg Peer.key heq)
      have hunasked : z ≠ y → (members.peers z).key ∉ (members.peers y).key :: queried := by
        intro hzy hmem
        rcases List.mem_cons.1 hmem with heq | hmem
        · exact hzy (members.key_injective heq)
        · exact hnew hmem
      unfold Net.queryPending
      by_cases hqueried : (members.peers y).key ∈ queried
      · rw [if_pos hqueried]
        exact ihrest c queried h hrest (hother fun heq => hnew (heq ▸ hqueried)) hnew hcard
      · rw [if_neg hqueried]
        refine Succeeds.bind ((succeeds_valueQueryFn h hx hxy searchKey).mono fun c' answer hc' => ?_)
        obtain ⟨h', hanswer⟩ := hc'
        cases answer with
        | failed =>
          have hzy : z ≠ y := fun heq => by simp [← heq, hz, ValueAnswer] at hanswer
          exact ihrest c' _ h'.settled hrest (hother hzy) (hunasked hzy)
            ((card_lacking_mono searchKey (List.subset_cons_self _ _)).trans_lt hcard)
        | answered found =>
          obtain ⟨hy, hdata, hfound⟩ := hanswer
          have hzy : z ≠ y := fun heq => by simp [← heq, hvalue] at hdata
          exact ih c' _ _ _ h'.settled (List.append_subset.2 ⟨hrest, hfound⟩)
            (List.mem_append_left _ (hother hzy)) (hunasked hzy)
            (Nat.lt_of_lt_of_le (card_lacking_cons hxy hy hdata hqueried) (Nat.le_of_lt_succ hcard))
        | halt value => exact succeeds_pure rfl

/-- A `get` finds what the node has, and only what a live node has. -/
theorem succeeds_getValue (h : Settled members live live data c) (hx : live x = true) {p : Peer}
    (hp : Knows c x p) (key : Key) :
    Succeeds (Answered members live) ((node live T depth x).getValue key) c
      fun c' found => GoesOn members live live data c c' ∧
        (∀ value, data x key = some value → found = some value) ∧
        ∀ value, found = some value → ∃ y, live y = true ∧ data y key = some value := by
  have hlookup := h.chunks x hx key
  unfold Net.getValue
  refine Succeeds.bind (succeeds_emit (Succeeds.bind (succeeds_get ?_)))
  cases hchunk : (c.nodes x).chunks.lookup key with
  | some chunk =>
    rw [hchunk] at hlookup
    refine Succeeds.bind (succeeds_emit (succeeds_pure ⟨.refl h, fun value hvalue => ?_, ?_⟩))
    · exact hlookup.trans hvalue
    · exact fun value hvalue => ⟨x, hx, hlookup.symm.trans hvalue⟩
  | none =>
    rw [hchunk] at hlookup
    refine Succeeds.bind (succeeds_emit (Succeeds.bind ?_))
    refine (succeeds_lookupHelper (valueQueryFn_asksMembers hx key) key h hx hp).mono ?_
    rintro c' ⟨halted, closest⟩ ⟨h', hhalts, -, -⟩
    refine succeeds_pure ⟨h', fun value hvalue => ?_, hhalts⟩
    exact absurd (hlookup.trans hvalue) (Option.some_ne_none value).symm

/-- A `get` of a node that knows all the other live nodes finds a value that one of them has, if
fewer than `PEER_LOOKUP_ALPHA` of them have none. -/
theorem succeeds_getValue_finds (h : Settled members live live data c) (hx : live x = true)
    (hall : KnowsAll members live c x) {key : Key} {z : Fin n} (hzx : z ≠ x) (hz : live z = true)
    {value : Bytes} (hvalue : data z key = some value)
    (hcard : (lacking members live data x key []).card < peerLookupAlpha) :
    Succeeds (Answered members live) ((node live T depth x).getValue key) c
      fun _ found => found.isSome = true := by
  unfold Net.getValue
  refine Succeeds.bind (succeeds_emit (Succeeds.bind (succeeds_get ?_)))
  cases (c.nodes x).chunks.lookup key with
  | some chunk => exact Succeeds.bind (succeeds_emit (succeeds_pure rfl))
  | none =>
    refine Succeeds.bind (succeeds_emit (Succeeds.bind (Succeeds.bind ?_)))
    refine (succeeds_closestPeers h hx key).mono fun c' found hc' => ?_
    obtain ⟨h', hsub, hfound⟩ := hc'
    have hmem : ∀ q, q ∈ sortByDist key ([] ++ found) ↔ Knows c x q := by
      intro q
      rw [sortByDist, List.mem_insertionSort, List.nil_append, hfound]
    -- The node that has the value, and those that lack it, are all in the list.
    have hlen : (lacking members live data x key []).card < (sortByDist key ([] ++ found)).length := by
      have hinj : Function.Injective members.peers := fun a b hab =>
        members.key_injective (congrArg Peer.key hab)
      have hz' : z ∉ lacking members live data x key [] := fun hmem => by
        simp [mem_lacking, hvalue] at hmem
      have hcons : (insert z (lacking members live data x key [])).image members.peers ⊆
          (sortByDist key ([] ++ found)).toFinset := by
        intro p hp
        obtain ⟨y, hy, rfl⟩ := Finset.mem_image.1 hp
        rw [List.mem_toFinset, hmem]
        rcases Finset.mem_insert.1 hy with rfl | hy
        · exact hall y hzx hz
        · obtain ⟨hyx, hy, -⟩ := mem_lacking.1 hy
          exact hall y hyx hy
      have hle := (Finset.card_le_card hcons).trans (List.toFinset_card_le _)
      rwa [Finset.card_image_of_injective _ hinj, Finset.card_insert_of_notMem hz'] at hle
    refine Succeeds.bind ?_
    refine (succeeds_queryRound_finds hx hz hvalue _ c' _ [] _ h'.settled (fun q hq => ?_) ?_
      List.not_mem_nil (Nat.lt_min.2 ⟨hcard, hlen⟩)).mono ?_
    · exact hsub ((hfound q).2 ((hmem q).1 hq))
    · exact (hmem _).2 (hall z hzx hz)
    · rintro c'' ⟨halted, queried, closest⟩ hhalted
      simp only at hhalted ⊢
      rw [if_pos hhalted]
      exact succeeds_pure (succeeds_pure hhalted)

end Distft.Town
