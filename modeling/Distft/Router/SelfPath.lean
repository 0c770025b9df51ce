import Distft.Router.Invariant

/-!
# Which buckets are split

The comment in `attempt_insert_peer` says that a full bucket is split where the prefixes match, so
that only the path of the router's own key is refined and the table stays small. While that is so
(`OnPath`), the buckets off the path each hold peers with one highest bit different from the own
key, and there are at most `KEYBITS * KBUCKET_MAX` peers (`OnPath.peers_length_le`).

The code compares the one bit at the leaf, not the prefix. `SplitsOffPath` is the call that this
makes a difference to: a new peer whose full bucket is off the path, and whose bit at that bucket is
the own key's bit. A run keeps to the path exactly when it makes no such call
(`selfPathOnly_iff`), and there are runs that do (`not_selfPathOnly`).
-/

namespace Distft

/-- The highest bit in which two keys differ. -/
structure IsHighestDifference (k1 k2 : Key) (i : ℕ) : Prop where
  /-- The keys differ in the bit. -/
  differs : k1.getLsbD i ≠ k2.getLsbD i
  /-- They agree above it. -/
  agrees : ∀ j, i < j → k1.getLsbD j = k2.getLsbD j

namespace BinaryTree

/-- The `leaf` flag is off. -/
def isJoint : BinaryTree → Bool
  | .null => false
  | .node leaf _ _ _ _ _ _ => !leaf

/-- Every joint of the tree is on the path of `selfKey`; the tree itself is at `path`. -/
inductive OnPath (selfKey : Key) : List Bool → BinaryTree → Prop
  /-- A leaf is anywhere. -/
  | leaf {path : List Bool} {s count : UInt32} {access : Time} {kbucket : List Peer}
      {zero one : BinaryTree} : OnPath selfKey path (.node true s count access kbucket zero one)
  /-- A joint is on the path. -/
  | joint {path : List Bool} {s count : UInt32} {access : Time} {kbucket : List Peer}
      {zero one : BinaryTree} (hself : keyPath selfKey path.length = path)
      (hzero : OnPath selfKey (path ++ [false]) zero) (hone : OnPath selfKey (path ++ [true]) one) :
      OnPath selfKey path (.node false s count access kbucket zero one)

/-- The insertion of `key` at this leaf splits it although the leaf is off the path of `selfKey`:
the key is new, the bucket is full, a bit is left to split on, and the key's bit is that of
`selfKey` though the prefixes differ. -/
def SplitsOffPath (selfKey key : Key) : BinaryTree → Prop
  | .null => False
  | .node _ s _ _ kbucket _ _ =>
    key ∉ kbucket.map Peer.key ∧ kbucketMax ≤ kbucket.length ∧ 0 < s ∧
      key.getLsbD s.toNat = selfKey.getLsbD s.toNat ∧
      keyPath key (keyBits - 1 - s.toNat) ≠ keyPath selfKey (keyBits - 1 - s.toNat)

/-- A joint on the path has its joints on the path when its children do. -/
theorem onPath_joint_iff {selfKey : Key} {path : List Bool} {s count : UInt32} {access : Time}
    {kbucket : List Peer} {zero one : BinaryTree} :
    OnPath selfKey path (.node false s count access kbucket zero one) ↔
      keyPath selfKey path.length = path ∧ OnPath selfKey (path ++ [false]) zero ∧
        OnPath selfKey (path ++ [true]) one := by
  constructor
  · intro h
    cases h with
    | joint hself hzero hone => exact ⟨hself, hzero, hone⟩
  · rintro ⟨hself, hzero, hone⟩
    exact .joint hself hzero hone

/-- The joints of a tree that is on the path are on the path. -/
theorem OnPath.nodeAt {selfKey : Key} {path : List Bool} {tree : BinaryTree}
    (h : OnPath selfKey path tree) (hwf : WellFormed path tree) :
    ∀ q, (tree.nodeAt q).isJoint = true → keyPath selfKey (path ++ q).length = path ++ q := by
  induction hwf with
  | leaf =>
    intro q hq
    cases q with
    | nil => simp [isJoint] at hq
    | cons b q => cases b <;> cases q <;> simp [BinaryTree.nodeAt, isJoint] at hq
  | joint hs hcount hzero hone ihz iho =>
    obtain ⟨hself, hz, ho⟩ := onPath_joint_iff.1 h
    intro q hq
    cases q with
    | nil => simpa using hself
    | cons b q =>
      cases b with
      | false => simpa using ihz hz q (by simpa [BinaryTree.nodeAt] using hq)
      | true => simpa using iho ho q (by simpa [BinaryTree.nodeAt] using hq)

/-- A tree whose joints are all on the path is on the path. -/
theorem onPath_of_nodeAt {selfKey : Key} {path : List Bool} {tree : BinaryTree}
    (hwf : WellFormed path tree)
    (h : ∀ q, (tree.nodeAt q).isJoint = true → keyPath selfKey (path ++ q).length = path ++ q) :
    OnPath selfKey path tree := by
  induction hwf with
  | leaf => exact .leaf
  | joint hs hcount hzero hone ihz iho =>
    refine .joint (by simpa using h [] (by simp [isJoint])) (ihz fun q hq => ?_)
      (iho fun q hq => ?_)
    · simpa using h (false :: q) (by simpa [BinaryTree.nodeAt] using hq)
    · simpa using h (true :: q) (by simpa [BinaryTree.nodeAt] using hq)

/-! ## The size of a table -/

/-- A well-formed tree on the path has at most `KBUCKET_MAX` peers for each bit from its own down:
one of a joint's children is off the path, and so a leaf. -/
theorem OnPath.peers_length_le {selfKey : Key} {path : List Bool} {tree : BinaryTree}
    (h : OnPath selfKey path tree) (hwf : WellFormed path tree) :
    tree.peers.length ≤ (keyBits - path.length) * kbucketMax := by
  have hleaf : ∀ {q : List Bool} {child : BinaryTree}, WellFormed q child →
      OnPath selfKey q child → keyPath selfKey q.length ≠ q → child.peers.length ≤ kbucketMax := by
    intro q child hc hp hoff
    cases hc with
    | leaf hs hcount hlen => simpa [peers] using hlen
    | joint => exact absurd (onPath_joint_iff.1 hp).1 hoff
  induction hwf with
  | @leaf path s count access kbucket hs hcount hlen =>
    have hpos : 1 ≤ keyBits - path.length := by omega
    calc (node true s count access kbucket null null).peers.length
        = kbucket.length := by simp [peers]
      _ ≤ 1 * kbucketMax := by omega
      _ ≤ (keyBits - path.length) * kbucketMax := Nat.mul_le_mul_right _ hpos
  | @joint path s count access zero one hs hcount hzero hone ihz iho =>
    obtain ⟨hself, hz, ho⟩ := onPath_joint_iff.1 h
    have hsum : (node false s count access [] zero one).peers.length =
        one.peers.length + zero.peers.length := by simp [peers]
    have hchild : ∀ b : Bool, keyPath selfKey (path ++ [b]).length = path ++ [b] ↔
        selfKey.getLsbD s.toNat = b := fun b => (keyPath_succ_iff hs).trans (by simp [hself])
    have hz' := ihz hz
    have ho' := iho ho
    simp only [List.length_append, List.length_singleton] at hz' ho'
    rw [hsum]
    have hmul : (keyBits - path.length) * kbucketMax =
        (keyBits - (path.length + 1)) * kbucketMax + kbucketMax := by
      rw [← Nat.succ_mul]
      congr 1
      omega
    rw [hmul]
    cases hb : selfKey.getLsbD s.toNat with
    | false =>
      have := hleaf hone ho (by rw [ne_eq, hchild, hb]; decide)
      omega
    | true =>
      have := hleaf hzero hz (by rw [ne_eq, hchild, hb]; decide)
      omega

/-- The peers below a node that is off the path of `selfKey` all have the same highest bit different
from it. -/
theorem exists_highestDifference {selfKey : Key} {path : List Bool} (hlen : path.length < keyBits)
    (hoff : keyPath selfKey path.length ≠ path) :
    ∃ i, ∀ key, keyPath key path.length = path → IsHighestDifference selfKey key i := by
  have hbit : ∀ (key : Key) (m : ℕ) (hm : m < path.length), keyPath key path.length = path →
      key.getLsbD (keyBits - 1 - m) = path[m] := by
    intro key m hm hkey
    have := congrArg (·[m]?) hkey
    simpa [keyPath, hm] using this
  have hex : ∃ m, ∃ hm : m < path.length, selfKey.getLsbD (keyBits - 1 - m) ≠ path[m] := by
    by_contra hall
    push Not at hall
    refine hoff (List.ext_getElem (by simp) fun m _ hm => ?_)
    simpa [keyPath] using hall m hm
  classical
  obtain ⟨hm, hne⟩ := Nat.find_spec hex
  refine ⟨keyBits - 1 - Nat.find hex, fun key hkey => ⟨?_, fun j hj => ?_⟩⟩
  · rw [hbit key _ hm hkey]
    exact hne
  · by_cases hjb : j < keyBits
    · have hlt : keyBits - 1 - j < Nat.find hex := by omega
      have hback : keyBits - 1 - (keyBits - 1 - j) = j := by omega
      have heq := Nat.find_min hex hlt
      push Not at heq
      have := heq (by omega)
      rw [← hbit key _ (by omega) hkey, hback] at this
      exact this
    · rw [BitVec.getLsbD_of_ge _ _ (by omega), BitVec.getLsbD_of_ge _ _ (by omega)]

/-! ## Walks -/

/-- A fork is on the path exactly when its position is, and both sides are. -/
theorem onPath_fork_iff {selfKey : Key} {path : List Bool} {b : Bool} {s count : UInt32}
    {access : Time} {near far : BinaryTree} :
    OnPath selfKey path (fork b s count access near far) ↔
      keyPath selfKey path.length = path ∧ OnPath selfKey (path ++ [b]) near ∧
        OnPath selfKey (path ++ [!b]) far := by
  cases b <;> simp [fork, onPath_joint_iff, and_comm]

/-- A leaf is on the path anywhere. -/
theorem onPath_leafOf {selfKey : Key} {path : List Bool} {s : UInt32} {access : Time}
    {kbucket : List Peer} : OnPath selfKey path (leafOf s access kbucket) := .leaf

/-- A leaf at the turns of the key is one that the insertion splits off the path exactly when the key
is new, the bucket is full, a bit is left, the key's bit is the own one, and the own turns lead
elsewhere. -/
theorem splitsOffPath_leafOf_iff {selfKey key : Key} {path : List Bool} {s : UInt32} {access : Time}
    {kbucket : List Peer} (h : Reached path (leafOf s access kbucket) key) :
    SplitsOffPath selfKey key (leafOf s access kbucket) ↔
      key ∉ kbucket.map Peer.key ∧ kbucketMax ≤ kbucket.length ∧ 0 < s ∧
        key.getLsbD s.toNat = selfKey.getLsbD s.toNat ∧ keyPath selfKey path.length ≠ path := by
  obtain ⟨hs, -⟩ := wellFormed_leafOf_iff.1 h.tree
  have hd : keyBits - 1 - s.toNat = path.length := by omega
  rw [leafOf, SplitsOffPath, hd, h.key, ne_comm]

/-- The insertion of a key leaves the tree on the path exactly when the tree is on it and the leaf
that the insertion comes to is not one that it splits off the path. -/
theorem onPath_insertLoop_iff (selfKey : Key) (now : Time) (key : Key) (endpoint : Bytes) (i : ℕ)
    {path : List Bool} {tree : BinaryTree} (h : Reached path tree key)
    (hi : keyBits ≤ i + path.length) :
    OnPath selfKey path (insertLoop selfKey now key endpoint i tree).1 ↔
      OnPath selfKey path tree ∧ ¬SplitsOffPath selfKey key (tree.leafFor key) := by
  refine insertLoop_induction selfKey now key endpoint
    (motive := fun path tree r => OnPath selfKey path r.1 ↔
      OnPath selfKey path tree ∧ ¬SplitsOffPath selfKey key (tree.leafFor key))
    ?updated ?added ?refused ?split ?fork i h hi
  case updated =>
    intro path s access kbucket j p h hp hpkey hperm
    rw [leafFor_leafOf, splitsOffPath_leafOf_iff h]
    have hmem : key ∈ kbucket.map Peer.key :=
      List.mem_map.2 ⟨p, List.mem_of_getElem? hp, hpkey⟩
    exact iff_of_true onPath_leafOf ⟨onPath_leafOf, fun hoff => hoff.1 hmem⟩
  case added =>
    intro path s access kbucket h hnew hroom
    rw [leafFor_leafOf, splitsOffPath_leafOf_iff h]
    exact iff_of_true onPath_leafOf ⟨onPath_leafOf, fun hoff => absurd hoff.2.1 (by omega)⟩
  case refused =>
    intro path s access kbucket h hnew hfull hbits
    rw [leafFor_leafOf, splitsOffPath_leafOf_iff h]
    refine iff_of_true onPath_leafOf ⟨onPath_leafOf, fun hoff => ?_⟩
    obtain ⟨-, -, hpos, hbit, -⟩ := hoff
    simp [hbits hbit] at hpos
  case split =>
    intro path s access kbucket h hnew hfull hpos hbit b hb r hr
    subst hb
    have hwf : WellFormed path (BinaryTree.split now (leafOf s access kbucket)) :=
      WellFormed.split now hpos h.tree
    rw [split_leafOf (key.getLsbD s.toNat)] at hwf
    have hreached : Reached path _ key := ⟨hwf, h.key⟩
    obtain ⟨hs, -⟩ := wellFormed_leafOf_iff.1 h.tree
    -- Below the path the half that the walk goes on to is on the path again.
    have hhalf : keyPath selfKey path.length = path →
        ¬SplitsOffPath selfKey key (half (key.getLsbD s.toNat) s now kbucket) := by
      intro hself hoff
      have hnear := hreached.near
      rw [half] at hnear hoff
      exact ((splitsOffPath_leafOf_iff hnear).1 hoff).2.2.2.2
        ((keyPath_succ_iff hs).2 ⟨hself, hbit.symm⟩)
    have hleaf : (half (key.getLsbD s.toNat) s now kbucket).leafFor key =
        half (key.getLsbD s.toNat) s now kbucket := leafFor_leafOf
    rw [hr, onPath_fork_iff, leafFor_fork rfl, hleaf, leafFor_leafOf, splitsOffPath_leafOf_iff h]
    constructor
    · rintro ⟨⟨hself, -⟩, -⟩
      exact ⟨onPath_leafOf, fun hoff => hoff.2.2.2.2 hself⟩
    · rintro ⟨-, hon⟩
      have hself : keyPath selfKey path.length = path := by
        by_contra hself
        exact hon ⟨hnew, hfull.ge, hpos, hbit, hself⟩
      exact ⟨⟨hself, onPath_leafOf, onPath_leafOf⟩, hhalf hself⟩
  case fork =>
    intro path b s count access near far near' how h hb hr
    rw [onPath_fork_iff, onPath_fork_iff, leafFor_fork hb]
    tauto

/-- Evictions split nothing. -/
theorem onPath_evictLoop (selfKey key : Key) (i : ℕ) {path : List Bool} {tree : BinaryTree}
    (h : Reached path tree key) (hi : keyBits ≤ i + path.length) :
    OnPath selfKey path tree → OnPath selfKey path (evictLoop key i tree).1 := by
  refine evictLoop_induction key
    (motive := fun path tree r => OnPath selfKey path tree → OnPath selfKey path r.1)
    ?erased ?absent ?fork i h hi
  case erased => exact fun _ _ _ _ _ _ _ _ _ _ _ => onPath_leafOf
  case absent => exact fun _ _ _ _ _ _ hon => hon
  case fork =>
    intro path b s count access near far near' found h hb hr hon
    obtain ⟨hself, hnear, hfar⟩ := onPath_fork_iff.1 hon
    exact onPath_fork_iff.2 ⟨hself, hr hnear, hfar⟩

/-- The access times do not matter. -/
theorem OnPath.congr {selfKey : Key} {path : List Bool} {tree tree' : BinaryTree}
    (h : OnPath selfKey path tree) (heq : tree.withoutTimes = tree'.withoutTimes) :
    OnPath selfKey path tree' := by
  induction h generalizing tree' with
  | leaf =>
    cases tree' with
    | null => simp [withoutTimes] at heq
    | node =>
      simp only [withoutTimes, node.injEq] at heq
      obtain ⟨rfl, -⟩ := heq
      exact .leaf
  | joint hself hzero hone ihz iho =>
    cases tree' with
    | null => simp [withoutTimes] at heq
    | node =>
      simp only [withoutTimes, node.injEq] at heq
      obtain ⟨rfl, -, -, -, -, hz, ho⟩ := heq
      exact .joint hself (ihz hz) (iho ho)

end BinaryTree

namespace Router

open Distft.BinaryTree

/-- The call is the insertion of a peer, with neither the router's own key nor its own endpoint, that
splits a full bucket off the path of the own key. -/
def SplitsOffPath (r : Router) : Call → Prop
  | .insert _ key endpoint =>
    key ≠ r.selfPeer.key ∧ endpoint ≠ r.selfPeer.endpoint ∧
      (r.table.leafFor key).SplitsOffPath r.selfPeer.key key
  | .evict _ => False
  | .closest _ _ _ => False

/-- Only the path of the router's own key is split. -/
structure SelfPathOnly (r : Router) : Prop where
  /-- A joint lies on the path of the own key. -/
  joint : ∀ path, (r.table.nodeAt path).isJoint = true →
    path = keyPath r.selfPeer.key path.length
  /-- A leaf off that path holds peers with the same highest bit different from the own key. -/
  leaf : ∀ path s count access kbucket zero one,
    r.table.nodeAt path = .node true s count access kbucket zero one →
      path ≠ keyPath r.selfPeer.key path.length →
        ∃ i, ∀ p ∈ kbucket, IsHighestDifference r.selfPeer.key p.key i
  /-- The router holds at most `KEYBITS * KBUCKET_MAX` peers. -/
  size : r.allPeers.length ≤ keyBits * kbucketMax

/-- Under the invariant the joints decide the rest. -/
theorem selfPathOnly_iff_onPath {r : Router} (h : r.Invariant) :
    r.SelfPathOnly ↔ OnPath r.selfPeer.key [] r.table := by
  constructor
  · intro hself
    exact onPath_of_nodeAt h.table fun q hq => by simpa using (hself.joint q hq).symm
  · intro hon
    refine ⟨fun path hj => ?_, ?_, ?_⟩
    · simpa using (hon.nodeAt h.table path hj).symm
    · intro path s count access kbucket zero one hat hoff
      have hwf : WellFormed path (r.table.nodeAt path) := by
        simpa using h.table.nodeAt (q := path) (by simp [hat])
      rw [hat] at hwf
      obtain ⟨i, hi⟩ := exists_highestDifference hwf.depth_lt (Ne.symm hoff)
      cases hwf with
      | leaf hs hcount hlen hnodup hpath => exact ⟨i, fun p hp => hi p.key (hpath p hp)⟩
    · rw [h.allPeers_eq]
      exact hon.peers_length_le h.table

/-- A call keeps the table on the path exactly when it does not split off the path. -/
theorem step_onPath_iff {r : Router} (h : r.Invariant) (hon : OnPath r.selfPeer.key [] r.table)
    (call : Call) :
    OnPath r.selfPeer.key [] (r.step call).table ↔ ¬r.SplitsOffPath call := by
  cases call with
  | insert now key endpoint =>
    have hloop := onPath_insertLoop_iff r.selfPeer.key now key endpoint keyBits (h.reached key)
      le_self_add
    simp only [step, SplitsOffPath]
    by_cases hself : key = r.selfPeer.key ∨ endpoint = r.selfPeer.endpoint
    · rw [attemptInsertPeer, if_pos hself]
      refine iff_of_true hon fun hoff => ?_
      exact hself.elim hoff.1 hoff.2.1
    · rw [attemptInsertPeer_table now hself, hloop]
      push Not at hself
      simp [hself, hon]
  | evict key =>
    refine iff_of_true ?_ fun hoff => hoff
    rw [step, evictPeer]
    split_ifs
    · exact hon
    · exact onPath_evictLoop r.selfPeer.key key keyBits (h.reached key) le_self_add hon
  | closest now searchKey n =>
    refine iff_of_true ?_ fun hoff => hoff
    exact hon.congr (closestPeers_withoutTimes now searchKey n r).1.symm

/-- From the constructor on, only the path of the own key is split in every state of a run exactly
when no call of the run splits off the path. -/
theorem selfPathOnly_iff (now : Time) (selfPeer otherPeer : Peer) (calls : List Call) :
    Runs.AllStates step SelfPathOnly (new now selfPeer otherPeer) calls ↔
      Runs.AllSteps step (fun r call => ¬r.SplitsOffPath call) (new now selfPeer otherPeer)
        calls := by
  have hbare := bare_invariant now selfPeer
  have hnew : (new now selfPeer otherPeer).Invariant :=
    (step_invariant hbare (.insert now otherPeer.key otherPeer.endpoint)).1
  have honNew : (new now selfPeer otherPeer).SelfPathOnly := by
    have hself := (step_invariant hbare (.insert now otherPeer.key otherPeer.endpoint)).2
    refine (selfPathOnly_iff_onPath hnew).2 ?_
    have hstep := step_onPath_iff hbare .leaf (.insert now otherPeer.key otherPeer.endpoint)
    rw [← hself] at hstep
    refine hstep.2 fun hoff => ?_
    simpa [bare, BinaryTree.new, leafFor, BinaryTree.SplitsOffPath] using hoff.2.2.2.1
  refine Runs.allStates_iff_allSteps (I := Invariant) (P := SelfPathOnly)
    (fun r call hr => (step_invariant hr call).1) (fun r call hr hon => ?_) hnew honNew calls
  obtain ⟨hr', hself⟩ := step_invariant hr call
  rw [selfPathOnly_iff_onPath hr', hself]
  exact step_onPath_iff hr ((selfPathOnly_iff_onPath hr).1 hon) call

/-- Calls that split off the path of the key zero: twenty peers with the two highest bits set fill
the root, a peer close to the own key splits it, and a peer with the highest bit alone splits the
bucket of the twenty. -/
def offPathCalls : List Call :=
  ((List.range 20).map fun j => .insert 0 (BitVec.ofNat keyBits (2^159 + 2^158 + j)) [1]) ++
    [.insert 0 1 [1], .insert 0 (BitVec.ofNat keyBits (2^159)) [1]]

/-- There are reachable routers in which a bucket off the path of the own key is split. -/
theorem not_selfPathOnly :
    ¬∀ (now : Time) (selfPeer otherPeer : Peer) (calls : List Call),
      ((new now selfPeer otherPeer).run calls).SelfPathOnly := by
  intro h
  have hjoint := (h 0 ⟨0, []⟩ ⟨BitVec.ofNat keyBits (2^159 + 2^158), [1]⟩ offPathCalls).joint [true]
    (by decide +kernel)
  exact absurd hjoint (by decide +kernel)

end Router

end Distft
