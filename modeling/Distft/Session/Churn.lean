import Distft.Session.Joining

/-!
# Churn

Runs of a cluster of at most `KBUCKET_MAX + 1` members of which at each time some are live. Members
join through a live contact, crash, set and get, one after the other. In every state of such a run
the live nodes all know one another, and nobody else than members (`Town.Together`): a join makes
the newcomer known to all, a crash takes nobody's knowledge away, and an eviction only follows an
RPC to a node that is gone. So the value of a forced `set` is at every live node, and stays there
for as long as the node lives and the key is not set again (`Town.getValue_churn`), whoever crashes
or joins in between.
-/

namespace Distft

open Exec

variable {n : ℕ}

/-- A cluster, and which of its nodes serve. -/
structure Town (n : ℕ) where
  /-- The nodes that serve. -/
  serves : Fin n → Bool
  /-- The cluster. -/
  cluster : Cluster n

/-- What happens in a town. -/
inductive Change (n : ℕ) where
  /-- A new session starts, with a live node as its contact. -/
  | join (x contact : Fin n) (tempKey : Key) (readings : Readings)
  /-- A node crashes. -/
  | crash (x : Fin n)
  /-- `set` at a node. -/
  | set (x : Fin n) (key : Key) (value : Bytes) (force : Bool)
  /-- `get` at a node. -/
  | get (x : Fin n) (key : Key)

/-- How many nodes the change adds. -/
def Change.joins : Change n → ℕ
  | .join _ _ _ _ => 1
  | _ => 0

namespace Town

/-- A node begins with no chunks. -/
def fresh (c : Cluster n) (x : Fin n) : Cluster n :=
  { c with nodes := Function.update c.nodes x { c.nodes x with chunks := ∅ } }

/-- Who serves while a change is made, and after it. -/
def serving (town : Town n) : Change n → Fin n → Bool
  | .join x _ _ _ => Function.update town.serves x true
  | .crash x => Function.update town.serves x false
  | .set _ _ _ _ => town.serves
  | .get _ _ => town.serves

variable (members : Members n) (T : Transport) (depth : ℕ)

/-- The run of a change, with what a `get` finds. -/
def make (town : Town n) (change : Change n) : Run Event Fault (Cluster n) (Option Bytes) :=
  let net := node (town.serving change) T depth
  match change with
  | .join x contact tempKey readings =>
    ((do
      (net x).startup (members.peers x).key tempKey (members.peers x).endpoint
        (members.peers contact).endpoint readings
      return none) : Op (Cluster n) (Option Bytes)) (fresh town.cluster x)
  | .crash _ => (pure none : Op (Cluster n) (Option Bytes)) town.cluster
  | .set x key value force =>
    ((do
      (net x).set key value force
      return none) : Op (Cluster n) (Option Bytes)) town.cluster
  | .get x key => (net x).getValue key town.cluster

/-- The town after a change. -/
def after (town : Town n) (change : Change n) : Town n :=
  ⟨town.serving change, (make members T depth town change).state⟩

/-- A newcomer is not live, and joins a live node, with a temporary key that nobody has and a clock
that is not set back; who sets or gets is live, and so is somebody else. -/
def Enabled (town : Town n) : Change n → Prop
  | .join x contact tempKey readings => town.serves x = false ∧ town.serves contact = true ∧
      (∀ y, tempKey ≠ (members.peers y).key) ∧ readings.clock 0 ≤ readings.clock 1
  | .crash _ => True
  | .set x _ _ _ => town.serves x = true ∧ ∃ y, y ≠ x ∧ town.serves y = true
  | .get x _ => town.serves x = true ∧ ∃ y, y ≠ x ∧ town.serves y = true

/-- The change can be made, and all RPCs of it to nodes that serve are answered. -/
def Regular (town : Town n) (change : Change n) : Prop :=
  Enabled members town change ∧ ∀ e ∈ (make members T depth town change).events,
    e.answeredBy members (town.serving change) = true

instance (town : Town n) (change : Change n) : Decidable (Enabled members town change) := by
  cases change <;> unfold Enabled <;> infer_instance

instance (town : Town n) (change : Change n) : Decidable (Regular members T depth town change) := by
  unfold Regular
  infer_instance

/-- The data of the nodes after a change. -/
def record (data : Fin n → Key → Option Bytes) : Change n → Fin n → Key → Option Bytes
  | .join x _ _ _ => Function.update data x fun _ => none
  | .crash _ => data
  | .set x key value force => setAt x force data key value
  | .get _ _ => data

/-- The live nodes are members with the given data, and all know one another. -/
structure Together (data : Fin n → Key → Option Bytes) (town : Town n) : Prop where
  /-- The live nodes are settled. -/
  settled : Settled members town.serves town.serves data town.cluster
  /-- They all know one another. -/
  knowsAll : ∀ x, town.serves x = true → KnowsAll members town.serves town.cluster x

variable {members T depth} {data : Fin n → Key → Option Bytes} {town : Town n}

/-! ## A change -/

/-- Where no live node is forgotten, all go on to know one another. -/
theorem Together.goesOn {data' : Fin n → Key → Option Bytes} {c' : Cluster n}
    (h : Together members data town)
    (hgo : GoesOn members town.serves town.serves data' town.cluster c') :
    Together members data' ⟨town.serves, c'⟩ :=
  ⟨hgo.settled, fun x hx y hyx hy => hgo.grows x y hx hy (h.knowsAll x hx y hyx hy)⟩

/-- Who lives on after a crash was live before it. -/
theorem lived {serves : Fin n → Bool} {x y : Fin n} (hy : Function.update serves x false y = true) :
    serves y = true := by
  by_cases hyx : y = x
  · simp [hyx] at hy
  · rwa [Function.update_of_ne hyx] at hy

/-- A crash takes nothing from those who live on. -/
theorem Together.crash (h : Together members data town) (x : Fin n) :
    Together members data ⟨Function.update town.serves x false, town.cluster⟩ := by
  refine ⟨⟨fun _ hy => hy, fun y hy => ?_, fun y hy => ?_, fun y hy => ?_⟩, fun y hy z hzy hz => ?_⟩
  · exact h.settled.own y (lived hy)
  · exact h.settled.bucket y (lived hy)
  · exact h.settled.chunks y (lived hy)
  · exact h.knowsAll y (lived hy) z hzy (lived hz)

/-- A node without chunks takes no part. -/
theorem Settled.fresh {serves : Fin n → Bool} {c : Cluster n} {x : Fin n}
    (h : Settled members serves serves data c) (hx : serves x = false) :
    Settled members serves serves data (fresh c x) := by
  have hother : ∀ y, serves y = true → (Town.fresh c x).nodes y = c.nodes y := fun y hy =>
    Function.update_of_ne (fun heq => by simp [heq, hx] at hy) _ _
  refine ⟨h.lives, fun y hy => ?_, fun y hy => ?_, fun y hy => ?_⟩ <;> rw [hother y hy]
  · exact h.own y hy
  · exact h.bucket y hy
  · exact h.chunks y hy

/-- What `get` finds at a node: what it has itself, and only what a live node has; and something,
where another live node has something and fewer than `PEER_LOOKUP_ALPHA` have nothing. -/
def Finds (members : Members n) (live : Fin n → Bool) (data : Fin n → Key → Option Bytes) (x : Fin n)
    (key : Key) (found : Option Bytes) : Prop :=
  (∀ value, data x key = some value → found = some value) ∧
    (∀ value, found = some value → ∃ y, live y = true ∧ data y key = some value) ∧
    ∀ z, z ≠ x → live z = true → (data z key).isSome = true →
      (lacking members live data x key []).card < peerLookupAlpha → found.isSome = true

/-- `get` at a live node. -/
theorem Together.succeeds_getValue (h : Together members data town) {x : Fin n}
    (hx : town.serves x = true) {y : Fin n} (hyx : y ≠ x) (hy : town.serves y = true) (key : Key) :
    Succeeds (Answered members town.serves) ((node town.serves T depth x).getValue key) town.cluster
      fun c' found => GoesOn members town.serves town.serves data town.cluster c' ∧
        Finds members town.serves data x key found := by
  have hfinds : Succeeds (Answered members town.serves) ((node town.serves T depth x).getValue key)
      town.cluster _ := Town.succeeds_getValue h.settled hx (h.knowsAll x hx y hyx hy) key
  by_cases hcard : (lacking members town.serves data x key []).card < peerLookupAlpha ∧
      ∃ z, z ≠ x ∧ town.serves z = true ∧ (data z key).isSome = true
  · obtain ⟨hcard, z, hzx, hz, hdata⟩ := hcard
    obtain ⟨value, hvalue⟩ := Option.isSome_iff_exists.1 hdata
    refine (hfinds.and (succeeds_getValue_finds h.settled hx (h.knowsAll x hx) hzx hz hvalue
      hcard)).mono ?_
    exact fun c' found hc' => ⟨hc'.1.1, hc'.1.2.1, hc'.1.2.2, fun _ _ _ _ _ => hc'.2⟩
  · refine hfinds.mono fun c' found hc' => ⟨hc'.1, hc'.2.1, hc'.2.2, fun z hzx hz hdata hlt => ?_⟩
    exact absurd ⟨hlt, z, hzx, hz, hdata⟩ hcard

/-- A change that returns nothing of its own. -/
theorem returning {α : Type} {D : Event → Prop} {m : Op (Cluster n) α} {c : Cluster n}
    {Q : Cluster n → α → Prop} (h : Succeeds D m c Q) :
    Succeeds D (do let _ ← m; return none : Op (Cluster n) (Option Bytes)) c
      fun c' found => found = none ∧ ∃ a, Q c' a :=
  Succeeds.bind (h.mono fun _ a hq => succeeds_pure ⟨rfl, a, hq⟩)

/-- A regular change returns, and keeps the live nodes together. -/
theorem Together.make (h : Together members data town) {change : Change n}
    (hregular : Regular members T depth town change) :
    Together members (record data change) (after members T depth town change) ∧
      ∃ found, (Town.make members T depth town change).result = .ok found ∧
        ∀ x key, change = .get x key → Finds members town.serves data x key found := by
  obtain ⟨henabled, hanswered⟩ := hregular
  cases change with
  | join x contact tempKey readings =>
    obtain ⟨hx, hcontact, htemp, hclock⟩ := henabled
    have hfresh := h.settled.fresh hx
    have hchunks : ((fresh town.cluster x).nodes x).chunks = ∅ := by
      simp only [fresh, Function.update_self]
    have hall : ∀ y, town.serves y = true → KnowsAll members town.serves (fresh town.cluster x) y := by
      intro y hy z hzy hz
      have hyx : y ≠ x := fun heq => by simp [heq, hx] at hy
      have hother : (fresh town.cluster x).nodes y = town.cluster.nodes y :=
        Function.update_of_ne hyx _ _
      rw [Knows, hother]
      exact h.knowsAll y hy z hzy hz
    have hstart : Succeeds (Answered members (Function.update town.serves x true))
        ((node (Function.update town.serves x true) T depth x).startup (members.peers x).key tempKey
          (members.peers x).endpoint (members.peers contact).endpoint readings)
        (fresh town.cluster x) _ :=
      succeeds_startup hfresh hall hx hchunks hcontact htemp hclock
    obtain ⟨_, hfound, rfl, _, htogether⟩ := returning hstart hanswered
    exact ⟨⟨htogether.1, htogether.2⟩, none, hfound, by simp⟩
  | crash x => exact ⟨h.crash x, none, rfl, by simp⟩
  | set x key value force =>
    obtain ⟨hx, y, hyx, hy⟩ := henabled
    have hset : Succeeds (Answered members town.serves)
        ((node town.serves T depth x).set key value force) town.cluster _ :=
      succeeds_set h.settled hx (h.knowsAll x hx) (h.knowsAll x hx y hyx hy) key value force
    obtain ⟨_, hfound, rfl, _, hgo⟩ := returning hset hanswered
    exact ⟨h.goesOn hgo, none, hfound, by simp⟩
  | get x key =>
    obtain ⟨hx, y, hyx, hy⟩ := henabled
    obtain ⟨found, hfound, hgo, hfinds⟩ := h.succeeds_getValue hx hyx hy key hanswered
    refine ⟨h.goesOn hgo, found, hfound, fun x' key' heq => ?_⟩
    obtain ⟨rfl, rfl⟩ := Change.get.inj heq
    exact hfinds

/-! ## Runs of changes -/

/-- In every state of a regular run the live nodes are together, with the data that was recorded,
and the next change returns. -/
theorem Together.run (h : Together members data town) {changes : List (Change n)}
    (hregular : Runs.AllSteps (after members T depth) (Regular members T depth) town changes) :
    Together members (changes.foldl record data) (Runs.run (after members T depth) town changes) := by
  induction changes generalizing data town with
  | nil => exact h
  | cons change changes ih =>
    obtain ⟨hfirst, hrest⟩ := (Runs.allSteps_cons _ _ _ _).1 hregular
    exact ih (h.make hfirst).1 hrest

/-- In every state of a regular run the live nodes all know one another, with nobody else than
members in their routers, and have the data that was recorded; and every change of the run returns.
-/
theorem together_churn (h : Together members data town) {changes : List (Change n)}
    (hregular : Runs.AllSteps (after members T depth) (Regular members T depth) town changes) :
    ∀ l, l <+: changes →
      Together members (l.foldl record data) (Runs.run (after members T depth) town l) ∧
        ∀ change, l ++ [change] <+: changes →
          ∃ found, (Town.make members T depth (Runs.run (after members T depth) town l) change).result =
            .ok found := by
  intro l hl
  have htogether := h.run (Runs.AllSteps.of_prefix hregular hl)
  refine ⟨htogether, fun change hchange => ?_⟩
  obtain ⟨-, found, hfound, -⟩ := htogether.make (hregular l change hchange)
  exact ⟨found, hfound⟩

/-- Three members. -/
def trioMembers : Members 3 where
  peers x := ⟨BitVec.ofNat 160 x, [UInt8.ofNat x]⟩
  key_injective := by
    unfold Function.Injective
    decide
  endpoint_injective := by
    unfold Function.Injective
    decide
  two_le := by decide
  le_kbucketMax := by decide

/-- The first member. -/
def founder : Fin 3 := Fin.castAdd 2 (Fin.last 0)

/-- The member that was started with the first. -/
def partner : Fin 3 := Fin.castSucc (Fin.last 1)

/-- The member that is not there at the start. -/
def newcomer : Fin 3 := Fin.last 2

/-- Two of the three were started with one another. -/
def trio : Town 3 where
  serves x := x != newcomer
  cluster :=
    { nodes x :=
        ⟨Router.new 0 (trioMembers.peers x)
          (trioMembers.peers (if x = founder then partner else founder)), ∅, 0⟩
      clock i := Int64.ofNat i
      reads := 0 }

/-- The third joins, and the first, which set a key, crashes. -/
def trioChanges : List (Change 3) :=
  [.set founder 5 [7] true, .join newcomer partner 9 ⟨fun _ => 0, fun _ => 0⟩, .crash founder,
    .get newcomer 5]

/-- The two live ones are together. -/
theorem trio_together : Together trioMembers (fun _ _ => none) trio := by
  have hlive : ∀ P : Fin 3 → Prop, P founder → P partner → ∀ x, trio.serves x = true → P x := by
    intro P h0 h1 x hx
    match x with
    | 0 => exact h0
    | 1 => exact h1
    | 2 => exact absurd hx (by decide)
  have h0 : Unsplit (trio.cluster.nodes 0).router.table [trioMembers.peers 1] :=
    ⟨159, 1, 0, [trioMembers.peers 1], .null, .null, by decide +kernel, .refl _⟩
  have h1 : Unsplit (trio.cluster.nodes 1).router.table [trioMembers.peers 0] :=
    ⟨159, 1, 0, [trioMembers.peers 0], .null, .null, by decide +kernel, .refl _⟩
  refine ⟨⟨fun _ hx => hx, ?_, ?_, fun _ _ _ => rfl⟩, ?_⟩
  · exact hlive _ (by decide +kernel) (by decide +kernel)
  · exact hlive _ ⟨_, h0, by decide +kernel, by decide +kernel⟩
      ⟨_, h1, by decide +kernel, by decide +kernel⟩
  · refine hlive _ (fun y hne hy => ?_) fun y hne hy => ?_
    · obtain rfl : y = 1 :=
        hlive (fun y => y ≠ 0 → y = 1) (fun h => absurd rfl h) (fun _ => rfl) y hy hne
      exact (mem_allPeers_unsplit h0 _).2 (List.mem_singleton_self _)
    · obtain rfl : y = 0 :=
        hlive (fun y => y ≠ 1 → y = 0) (fun _ => rfl) (fun h => absurd rfl h) y hy hne
      exact (mem_allPeers_unsplit h1 _).2 (List.mem_singleton_self _)

theorem trioChanges_regular : Runs.AllSteps (after trioMembers .lossless 3)
    (Regular trioMembers .lossless 3) trio trioChanges := by
  decide +kernel

/-- The live ones of the three are together after a set, a join, a crash, and a get. -/
theorem together_churn_trio :
    Together trioMembers (trioChanges.foldl record fun _ _ => none)
      (Runs.run (after trioMembers .lossless 3) trio trioChanges) := by
  have hall := together_churn trio_together trioChanges_regular trioChanges (List.prefix_refl _)
  exact hall.1

/-! ## Values that stay -/

/-- The live nodes that have nothing under the key. -/
def without (live : Fin n → Bool) (data : Fin n → Key → Option Bytes) (key : Key) : Finset (Fin n) :=
  Finset.univ.filter fun y => live y = true ∧ data y key = none

theorem mem_without {live : Fin n → Bool} {key : Key} {y : Fin n} :
    y ∈ without live data key ↔ live y = true ∧ data y key = none := by
  simp [without]

/-- A live node has the value, nobody has another one, and few have none. -/
structure Kept (live : Fin n → Bool) (data : Fin n → Key → Option Bytes) (key : Key) (value : Bytes)
    (z : Fin n) (few : ℕ) : Prop where
  /-- The node is live. -/
  lives : live z = true
  /-- It has the value. -/
  has : data z key = some value
  /-- Live nodes have no other value. -/
  only : ∀ y, live y = true → ∀ value', data y key = some value' → value' = value
  /-- Few have none. -/
  few : (without live data key).card ≤ few

/-- A change keeps the value, if it does not set the key and the node does not crash: only a join
adds a node without it. -/
theorem Kept.change {key : Key} {value : Bytes} {z : Fin n} {few : ℕ}
    (h : Kept town.serves data key value z few) {change : Change n}
    (henabled : Enabled members town change)
    (hkey : ∀ x value' force, change ≠ .set x key value' force) (hz : change ≠ .crash z) :
    Kept (town.serving change) (record data change) key value z (few + change.joins) := by
  cases change with
  | join x contact tempKey readings =>
    have hother : ∀ y, y ≠ x → Function.update town.serves x true y = town.serves y ∧
        Function.update data x (fun _ => none) y = data y := fun y hy =>
      ⟨Function.update_of_ne hy _ _, Function.update_of_ne hy _ _⟩
    have hzx : z ≠ x := fun heq => by simp [← heq, h.lives, Enabled] at henabled
    refine ⟨(hother z hzx).1.trans h.lives, ?_, fun y hy value' hvalue' => ?_, ?_⟩
    · simp only [record, (hother z hzx).2, h.has]
    · by_cases hyx : y = x
      · subst hyx
        simp [record] at hvalue'
      · simp only [serving, record, hother y hyx] at hy hvalue'
        exact h.only y hy value' hvalue'
    · have hsub : without (town.serving (.join x contact tempKey readings))
          (record data (.join x contact tempKey readings)) key ⊆
          insert x (without town.serves data key) := by
        intro y hy
        by_cases hyx : y = x
        · exact hyx ▸ Finset.mem_insert_self ..
        · rw [mem_without, serving, record, (hother y hyx).1, (hother y hyx).2] at hy
          exact Finset.mem_insert_of_mem (mem_without.2 hy)
      exact (Finset.card_le_card hsub).trans ((Finset.card_insert_le _ _).trans (Nat.succ_le_succ h.few))
  | crash x =>
    have hzx : z ≠ x := fun heq => hz (heq ▸ rfl)
    refine ⟨(Function.update_of_ne hzx _ _).trans h.lives, h.has, fun y hy => h.only y (lived hy), ?_⟩
    refine (Finset.card_le_card fun y hy => ?_).trans h.few
    obtain ⟨hy, hnone⟩ := mem_without.1 hy
    exact mem_without.2 ⟨lived hy, hnone⟩
  | set x key' value' force =>
    have hne : key ≠ key' := fun heq => hkey x value' force (heq ▸ rfl)
    have hsame : ∀ y, setAt x force data key' value' y key = data y key := fun y => by
      simp [setAt, hne.symm]
    have hwithout : without town.serves (setAt x force data key' value') key =
        without town.serves data key := by
      simp only [without, hsame]
    refine ⟨h.lives, (hsame z).trans h.has, fun y hy value'' hvalue'' => ?_, ?_⟩
    · exact h.only y hy value'' ((hsame y).symm.trans hvalue'')
    · exact hwithout ▸ h.few
  | get x key' => exact h

/-- A forced `set` leaves the value at all live nodes. -/
theorem kept_set (x : Fin n) (key : Key) (value : Bytes) {z : Fin n} (hz : town.serves z = true) :
    Kept town.serves (setAt x true data key value) key value z 0 := by
  have hset : ∀ y, setAt x true data key value y key = some value := fun y => by simp [setAt]
  refine ⟨hz, hset z, fun y _ value' hvalue' => ?_, ?_⟩
  · exact (Option.some.inj ((hset y).symm.trans hvalue')).symm
  · simp [without, hset]

/-- A run that does not set the key keeps the value, as long as the node lives. -/
theorem Kept.run {key : Key} {value : Bytes} {z : Fin n} {few : ℕ}
    (h : Kept town.serves data key value z few) {changes : List (Change n)}
    (hregular : Runs.AllSteps (after members T depth) (Regular members T depth) town changes)
    (hkey : ∀ x value' force, .set x key value' force ∉ changes) (hz : .crash z ∉ changes) :
    Kept (Runs.run (after members T depth) town changes).serves (changes.foldl record data) key value z
      (few + (changes.map Change.joins).sum) := by
  induction changes generalizing data town few with
  | nil => exact h
  | cons change changes ih =>
    obtain ⟨hfirst, hrest⟩ := (Runs.allSteps_cons _ _ _ _).1 hregular
    have hnext := h.change hfirst.1
      (fun x value' force heq => hkey x value' force (heq ▸ List.mem_cons_self))
      fun heq => hz (heq ▸ List.mem_cons_self)
    have hall := ih (show Kept (after members T depth town change).serves _ _ _ _ _ from hnext) hrest
      (fun x value' force hmem => hkey x value' force (List.mem_cons_of_mem _ hmem))
      fun hmem => hz (List.mem_cons_of_mem _ hmem)
    rwa [Nat.add_assoc] at hall

/-- Where a live node has the value and at most `PEER_LOOKUP_ALPHA` live ones have none, what `get`
finds at a live node is the value; at a node that has it, in any case. -/
theorem Kept.finds {live : Fin n → Bool} {key : Key} {value : Bytes} {y z : Fin n} {few : ℕ}
    (h : Kept live data key value z few) (hy : live y = true) (hfew : y = z ∨ few ≤ peerLookupAlpha)
    {found : Option Bytes} (hfinds : Finds members live data y key found) : found = some value := by
  obtain ⟨hown, honly, hfinds⟩ := hfinds
  by_cases hnone : data y key = none
  · have hzy : z ≠ y := fun heq => by simp [← heq, h.has] at hnone
    have hle : few ≤ peerLookupAlpha := hfew.resolve_left fun heq => hzy heq.symm
    -- The node itself is one of the few.
    have hsub : insert y (lacking members live data y key []) ⊆ without live data key := by
      intro w hw
      rcases Finset.mem_insert.1 hw with rfl | hw
      · exact mem_without.2 ⟨hy, hnone⟩
      · obtain ⟨-, hlive, hdata, -⟩ := mem_lacking.1 hw
        exact mem_without.2 ⟨hlive, hdata⟩
    have hcard := (Finset.card_le_card hsub).trans (h.few.trans hle)
    rw [Finset.card_insert_of_notMem fun hmem => (mem_lacking.1 hmem).1 rfl] at hcard
    have hsome := hfinds z hzy h.lives (by rw [h.has]; rfl) hcard
    obtain ⟨value', rfl⟩ := Option.isSome_iff_exists.1 hsome
    obtain ⟨w, hw, hdata⟩ := honly value' rfl
    rw [h.only w hw value' hdata]
  · obtain ⟨value', hvalue'⟩ := Option.ne_none_iff_exists'.1 hnone
    rw [hown value' hvalue', h.only y hy value' hvalue']

/-- The value of a forced `set` outlives crashes and joins, also that of the node that set it: as
long as one node lives that was live at the `set` and the key is not set again, every live node
finds the value, after at most `PEER_LOOKUP_ALPHA` joins; and that node finds it after any number of
joins. -/
theorem getValue_churn (h : Together members data town) {before rest : List (Change n)} {x y z : Fin n}
    {key : Key} {value : Bytes}
    (hregular : Runs.AllSteps (after members T depth) (Regular members T depth) town
      (before ++ .set x key value true :: (rest ++ [.get y key])))
    (hkey : ∀ x value' force, .set x key value' force ∉ rest)
    (hz : (Runs.run (after members T depth) town before).serves z = true) (hlives : .crash z ∉ rest)
    (hjoins : y = z ∨ (rest.map Change.joins).sum ≤ peerLookupAlpha) :
    (Town.make members T depth (Runs.run (after members T depth) town
      (before ++ .set x key value true :: rest)) (.get y key)).result = .ok (some value) := by
  rw [← List.cons_append, ← List.append_assoc] at hregular
  have hget := hregular _ _ (List.prefix_refl _)
  have hrun := Runs.AllSteps.of_prefix hregular (List.prefix_append _ [Change.get y key])
  have htogether := h.run hrun
  obtain ⟨-, hset⟩ := (Runs.allSteps_append _ _ _ _).1 hrun
  obtain ⟨-, hrest⟩ := (Runs.allSteps_cons _ _ _ _).1 hset
  have hatset : Kept (after members T depth (Runs.run (after members T depth) town before)
      (.set x key value true)).serves (setAt x true (before.foldl record data) key value)
      key value z 0 :=
    kept_set x key value hz
  have hkept := hatset.run hrest hkey hlives
  obtain ⟨-, found, hfound, hfinds⟩ := htogether.make hget
  rw [Nat.zero_add] at hkept
  rw [List.foldl_append, List.foldl_cons] at hfinds
  rw [Runs.run_append, Runs.run_cons] at hfound hfinds hget ⊢
  rw [hfound, hkept.finds hget.1.1 hjoins (hfinds y key rfl)]

/-- The third of three finds what the first had set before it joined, although the first has
crashed. -/
theorem getValue_churn_trio :
    (Town.make trioMembers .lossless 3 (Runs.run (after trioMembers .lossless 3) trio
      [.set founder 5 [7] true, .join newcomer partner 9 ⟨fun _ => 0, fun _ => 0⟩, .crash founder])
        (.get newcomer 5)).result = .ok (some [7]) := by
  have hregular : Runs.AllSteps (after trioMembers .lossless 3) (Regular trioMembers .lossless 3) trio
      ([] ++ .set founder 5 [7] true ::
        ([.join newcomer partner 9 ⟨fun _ => 0, fun _ => 0⟩, .crash founder] ++ [.get newcomer 5])) :=
    trioChanges_regular
  have hlive : (Runs.run (after trioMembers .lossless 3) trio []).serves partner = true := rfl
  have hne : partner ≠ founder := by decide
  have hfound := getValue_churn trio_together hregular (by simp) hlive (by simp [hne]) (by decide)
  exact hfound

end Town

end Distft
