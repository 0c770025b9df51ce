import Distft.General.Recency
import Distft.Router.Invariant

/-!
# The least recently used peer

A kbucket is kept in the order of the last insertion or refresh: `attempt_insert_peer` moves a known
peer to the front and puts a new one there, `split` keeps the order of both halves, and `evict_peer`
takes one peer out. So the last peer of a bucket, which `attempt_insert_peer` reports when the bucket
is full, is the one that was inserted or refreshed longest ago (`lruOrder`).

The order is that of `Recency.lastUse`, over the whole history of calls from the constructor's
insertion on.
-/

namespace Distft

open Recency

namespace BinaryTree

/-- Every bucket of the tree has the property. -/
def EveryBucket (P : List Peer → Prop) : BinaryTree → Prop
  | .null => True
  | .node leaf _ _ _ kbucket zero one =>
    if leaf then P kbucket else EveryBucket P zero ∧ EveryBucket P one

section EveryBucket

variable {P Q : List Peer → Prop}

@[simp]
theorem everyBucket_leafOf {s : UInt32} {access : Time} {kbucket : List Peer} :
    EveryBucket P (leafOf s access kbucket) ↔ P kbucket := by simp [leafOf, EveryBucket]

@[simp]
theorem everyBucket_fork {b : Bool} {s count : UInt32} {access : Time} {near far : BinaryTree} :
    EveryBucket P (fork b s count access near far) ↔ EveryBucket P near ∧ EveryBucket P far := by
  cases b <;> simp [fork, EveryBucket, and_comm]

/-- What follows for every bucket of stored peers. -/
theorem EveryBucket.mono {tree : BinaryTree} (h : EveryBucket P tree)
    (hPQ : ∀ kbucket, kbucket ⊆ tree.peers → P kbucket → Q kbucket) : EveryBucket Q tree := by
  induction tree with
  | null => trivial
  | node leaf s count access kbucket zero one ihz iho =>
    simp only [EveryBucket, peers] at h hPQ ⊢
    split_ifs at h ⊢
    · exact hPQ kbucket (List.subset_append_left _ _) h
    · have hzero : zero.peers ⊆ kbucket ++ (one.peers ++ zero.peers) := fun p hp => by simp [hp]
      have hone : one.peers ⊆ kbucket ++ (one.peers ++ zero.peers) := fun p hp => by simp [hp]
      exact ⟨ihz h.1 fun kb hkb => hPQ kb (List.Subset.trans hkb hzero),
        iho h.2 fun kb hkb => hPQ kb (List.Subset.trans hkb hone)⟩

/-- The access times do not matter. -/
@[simp]
theorem everyBucket_withoutTimes {tree : BinaryTree} :
    EveryBucket P tree.withoutTimes ↔ EveryBucket P tree := by
  induction tree with
  | null => rfl
  | node leaf s count access kbucket zero one ihz iho => simp [withoutTimes, EveryBucket, ihz, iho]

/-- The leaf of a key has a bucket. -/
theorem EveryBucket.leafFor {tree : BinaryTree} (h : EveryBucket P tree) {key : Key} {s : UInt32}
    {access : Time} {kbucket : List Peer} (hleaf : tree.leafFor key = leafOf s access kbucket) :
    P kbucket := by
  induction tree with
  | null => simp [BinaryTree.leafFor, leafOf] at hleaf
  | node leaf s' count access' kb zero one ihz iho =>
    simp only [EveryBucket, BinaryTree.leafFor] at h hleaf
    split_ifs at h hleaf
    · rw [leafOf, node.injEq] at hleaf
      obtain ⟨-, -, -, -, rfl, -⟩ := hleaf
      exact h
    · exact iho h.2 hleaf
    · exact ihz h.1 hleaf

/-- The leaf at the end of a path has a bucket. -/
theorem EveryBucket.nodeAt {tree : BinaryTree} {path : List Bool} (hwf : WellFormed path tree)
    (h : EveryBucket P tree) : ∀ {q : List Bool} {s count : UInt32} {access : Time}
      {kbucket : List Peer} {zero one : BinaryTree},
      tree.nodeAt q = .node true s count access kbucket zero one → P kbucket := by
  induction hwf with
  | leaf =>
    intro q s count access kbucket zero one hat
    cases q with
    | nil =>
      simp only [nodeAt_nil, node.injEq] at hat
      obtain ⟨-, -, -, -, rfl, -⟩ := hat
      simpa [EveryBucket] using h
    | cons b q => cases b <;> cases q <;> simp [BinaryTree.nodeAt] at hat
  | joint hs hcount hzero hone ihz iho =>
    simp only [EveryBucket, Bool.false_eq_true, if_false] at h
    intro q s count access kbucket zero one hat
    cases q with
    | nil => simp at hat
    | cons b q =>
      cases b with
      | false => exact ihz h.1 (by simpa [BinaryTree.nodeAt] using hat)
      | true => exact iho h.2 (by simpa [BinaryTree.nodeAt] using hat)

end EveryBucket

/-! ## The order of the buckets -/

/-- The key that an insertion uses, if it stores the peer. -/
def used (key : Key) : Insertion → Option Key
  | .updated => some key
  | .added => some key
  | .refused _ => none
  | .exhausted => none

/-- Every bucket is in the order of last use. -/
abbrev Ordered (history : List (Option Key)) (tree : BinaryTree) : Prop :=
  EveryBucket (fun kbucket => MostRecentFirst history (kbucket.map Peer.key)) tree

variable {history : List (Option Key)} {tree : BinaryTree}

/-- A step that uses no key of the tree keeps the order. -/
theorem Ordered.append (h : Ordered history tree) {step : Option Key}
    (hstep : ∀ p ∈ tree.peers, step ≠ some p.key) : Ordered (history ++ [step]) tree := by
  refine EveryBucket.mono h fun kbucket hsub hkbucket => hkbucket.append fun key hkey => ?_
  obtain ⟨p, hp, rfl⟩ := List.mem_map.1 hkey
  exact hstep p (hsub hp)

/-- The loop of `attempt_insert_peer` keeps the order. -/
theorem insertLoop_ordered (selfKey : Key) (now : Time) (key : Key) (endpoint : Bytes) (i : ℕ)
    {path : List Bool} (hreached : Reached path tree key) (hi : keyBits ≤ i + path.length)
    (h : Ordered history tree) :
    Ordered (history ++ [used key (insertLoop selfKey now key endpoint i tree).2])
      (insertLoop selfKey now key endpoint i tree).1 := by
  refine insertLoop_induction selfKey now key endpoint
    (motive := fun _ tree r => Ordered history tree → Ordered (history ++ [used key r.2]) r.1)
    ?updated ?added ?refused ?split ?fork i hreached hi h
  case updated =>
    intro path s access kbucket j p hreached hp hpkey hperm h
    rw [Ordered, everyBucket_leafOf] at h ⊢
    have hnodup := (wellFormed_leafOf_iff.1 hreached.tree).2.2.1
    rw [(hperm.map Peer.key).nodup_iff, List.map_cons, List.nodup_cons, hpkey] at hnodup
    exact (h.sublist ((List.eraseIdx_sublist kbucket j).map Peer.key)).use hnodup.1
  case added =>
    intro path s access kbucket hreached hnew hroom h
    rw [Ordered, everyBucket_leafOf] at h ⊢
    exact h.use hnew
  case refused =>
    intro path s access kbucket hreached hnew hfull hbit h
    exact Ordered.append h fun _ _ => nofun
  case split =>
    intro path s access kbucket hreached hnew hfull hpos hbit b hb r ih h
    rw [Ordered, everyBucket_leafOf] at h
    refine ih (everyBucket_fork.2 ⟨everyBucket_leafOf.2 ?_, everyBucket_leafOf.2 ?_⟩)
    · exact h.sublist (List.filter_sublist.map Peer.key)
    · exact h.sublist (List.filter_sublist.map Peer.key)
  case fork =>
    intro path b s count access near far near' how hreached hb ih h
    obtain ⟨hnear, hfar⟩ := everyBucket_fork.1 h
    subst hb
    refine everyBucket_fork.2 ⟨ih hnear, Ordered.append hfar fun p hp heq => ?_⟩
    refine hreached.far_ne p hp ?_
    cases how <;> simp_all [used]

/-- The loop of `evict_peer` keeps the order. -/
theorem evictLoop_ordered (key : Key) (i : ℕ) {path : List Bool} (hreached : Reached path tree key)
    (hi : keyBits ≤ i + path.length) (h : Ordered history tree) :
    Ordered history (evictLoop key i tree).1 := by
  refine evictLoop_induction key
    (motive := fun _ tree r => Ordered history tree → Ordered history r.1)
    ?erased ?absent ?fork i hreached hi h
  case erased =>
    intro path s access kbucket j p hreached hp hpkey hperm h
    rw [Ordered, everyBucket_leafOf] at h ⊢
    exact h.sublist ((List.eraseIdx_sublist kbucket j).map Peer.key)
  case absent => exact fun path s access kbucket hreached habsent h => h
  case fork =>
    intro path b s count access near far near' found hreached hb ih h
    obtain ⟨hnear, hfar⟩ := everyBucket_fork.1 h
    exact everyBucket_fork.2 ⟨ih hnear, hfar⟩

end BinaryTree

namespace Router

open Distft.BinaryTree

/-- The key that a call inserts or refreshes: that of a call of `attempt_insert_peer` that returns
true, with an endpoint other than the router's own. -/
def insertedKey (r : Router) : Call → Option Key
  | .insert now key endpoint =>
    if (r.attemptInsertPeer now key endpoint).1 && !(endpoint = r.selfPeer.endpoint) then some key
    else none
  | .evict _ => none
  | .closest _ _ _ => none

/-- What the calls of a history insert or refresh, the insertion of the constructor first. -/
def history (now : Time) (selfPeer otherPeer : Peer) (calls : List Call) : List (Option Key) :=
  Runs.observed step insertedKey (bare now selfPeer)
    (.insert now otherPeer.key otherPeer.endpoint :: calls)

/-- A call keeps the order of the buckets. -/
theorem step_ordered {r : Router} (h : r.Invariant) {past : List (Option Key)}
    (hordered : Ordered past r.table) (call : Call) :
    Ordered (past ++ [r.insertedKey call]) (r.step call).table := by
  have hnone : Ordered (past ++ [none]) r.table := hordered.append fun _ _ => nofun
  cases call with
  | insert now key endpoint =>
    rw [insertedKey, step]
    by_cases hself : key = r.selfPeer.key ∨ endpoint = r.selfPeer.endpoint
    · -- Nothing is stored under the own key, and a call with the own endpoint does not count.
      rw [attemptInsertPeer, if_pos hself]
      split_ifs with hcounts
      · have hkey : key = r.selfPeer.key := hself.resolve_right (by simpa using hcounts)
        exact hordered.append fun p hp heq =>
          h.key_ne_self p hp ((Option.some.inj heq).symm.trans hkey)
      · exact hnone
    · have hloop := insertLoop_ordered r.selfPeer.key now key endpoint keyBits (h.reached key)
        le_self_add hordered
      rw [attemptInsertPeer_eq now hself]
      push Not at hself
      generalize insertLoop r.selfPeer.key now key endpoint keyBits r.table = out at hloop
      obtain ⟨table, how⟩ := out
      cases how <;> simpa [stored, used, hself.2] using hloop
  | evict key =>
    rw [insertedKey, step, evictPeer]
    split_ifs
    · exact hnone
    · exact evictLoop_ordered key keyBits (h.reached key) le_self_add hnone
  | closest now searchKey n =>
    rw [insertedKey, step]
    rw [Ordered, ← everyBucket_withoutTimes] at hnone ⊢
    rwa [(closestPeers_withoutTimes now searchKey n r).1]

/-- In every router the buckets are in the order of last use. -/
theorem run_ordered (now : Time) (selfPeer : Peer) (calls : List Call) :
    Ordered (Runs.observed step insertedKey (bare now selfPeer) calls)
      ((bare now selfPeer).run calls).table := by
  induction calls using List.reverseRecOn with
  | nil =>
    have hnil : MostRecentFirst ([] : List (Option Key)) [] := ⟨by simp, by simp⟩
    simpa [Ordered, EveryBucket, bare, BinaryTree.new, run, Runs.observed] using hnil
  | append_singleton calls call ih =>
    rw [Runs.observed_append_singleton, run, Runs.run_append]
    exact step_ordered (run_invariant (bare_invariant now selfPeer) calls).1 ih call

/-- The buckets are in the order of last use, and what is reported of a full one is the peer that was
used longest ago. -/
structure LruOrder (past : List (Option Key)) (r : Router) : Prop where
  /-- The peers of a bucket were inserted or refreshed, each later than those behind it. -/
  bucket : ∀ path s count access kbucket zero one,
    r.table.nodeAt path = .node true s count access kbucket zero one →
      MostRecentFirst past (kbucket.map Peer.key)
  /-- A call that returns false sets the out pointer to a peer of the full leaf that the key leads
  to, and every other peer of that leaf was inserted or refreshed after it. -/
  refused : ∀ now key endpoint, (r.attemptInsertPeer now key endpoint).1 = false →
    ∃ s count access kbucket zero one lru,
      (r.attemptInsertPeer now key endpoint).2.2.table.leafFor key =
        .node true s count access kbucket zero one ∧
      kbucket.length = kbucketMax ∧ key ∉ kbucket.map Peer.key ∧
      (r.attemptInsertPeer now key endpoint).2.1 = some lru ∧ lru ∈ kbucket ∧
      ∀ p ∈ kbucket, p ≠ lru → lastUse past lru.key < lastUse past p.key

/-- The order holds after every history of calls. -/
theorem lruOrder (now : Time) (selfPeer otherPeer : Peer) (calls : List Call) :
    LruOrder (history now selfPeer otherPeer calls) ((new now selfPeer otherPeer).run calls) := by
  have hordered := run_ordered now selfPeer (.insert now otherPeer.key otherPeer.endpoint :: calls)
  have hinv := (run_invariant (bare_invariant now selfPeer)
    (.insert now otherPeer.key otherPeer.endpoint :: calls)).1
  rw [run_new, history]
  generalize Runs.observed step insertedKey (bare now selfPeer) _ = past at *
  generalize (bare now selfPeer).run _ = r at *
  refine ⟨fun path s count access kbucket zero one => hordered.nodeAt hinv.table, ?_⟩
  intro now key endpoint hfalse
  obtain ⟨hself, lru, hlru, s, access, kbucket, hleaf, hfull, hnew, hlast⟩ :=
    attemptInsertPeer_refused hinv hfalse
  have hafter := (step_ordered hinv hordered (.insert now key endpoint)).leafFor hleaf
  have hnone : r.insertedKey (.insert now key endpoint) = none := by simp [insertedKey, hfalse]
  refine ⟨s, _, access, kbucket, _, _, lru, hleaf, hfull, hnew, hlru, List.mem_of_getLast? hlast, ?_⟩
  intro p hp hne
  have hkey : p.key ≠ lru.key := fun heq =>
    hne (List.inj_on_of_nodup_map hafter.nodup hp (List.mem_of_getLast? hlast) heq)
  have hlast' : (kbucket.map Peer.key).getLast? = some lru.key := by simp [hlast]
  have hlt := hafter.lt_of_getLast? hlast' (List.mem_map_of_mem hp) hkey
  have hsame : ∀ k, lastUse (past ++ [none]) k = lastUse past k := fun k =>
    lastUse_append_of_ne past (Option.some_ne_none k).symm
  rwa [hnone, hsame, hsame] at hlt

end Router

end Distft
