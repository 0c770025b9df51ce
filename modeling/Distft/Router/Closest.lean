import Mathlib.Data.List.Perm.Subperm
import Distft.Router.Invariant

/-!
# What `closest_peers` returns

`tree_closest_peers` asks the bucket of the search key for `n` peers, and at every joint on the way
whose preferred subtree counts more peers than it was asked for it asks the other subtree for the
difference. `asked` lists the buckets that this comes to with the numbers that they are asked for;
its head is the search key's own bucket, and `closestPeers_eq` says that the result takes these
numbers from these buckets.

Peers in the preferred subtree of a joint are closer to the search key than those in the other, so
only the own bucket may be asked while it has peers to give, and the other buckets only for what is
missing. The comparison with the counter is the other way round: the other subtree is asked when the
preferred one has more than enough, and never when it has too little. `closestPeers_count_iff` and
`closestPeers_nearest_iff` say exactly when the result has the right number of peers, and when it has
the closest.
-/

namespace Distft

namespace BinaryTree

/-- The buckets that `tree_closest_peers` visits, with the number of peers that it asks each for. -/
def asked (searchKey : Key) : UInt32 → BinaryTree → List (UInt32 × List Peer)
  | _, .null => []
  | n, .node leaf s _ _ kbucket zero one =>
    if leaf then [(n, kbucket)]
    else if searchKey.getLsbD s.toNat then
      asked searchKey n one ++
        if n < one.keyCount then asked searchKey (one.keyCount - n) zero else []
    else
      asked searchKey n zero ++
        if n < zero.keyCount then asked searchKey (zero.keyCount - n) one else []

/-- What is taken from the visited buckets. -/
def closest (searchKey : Key) (n : UInt32) (tree : BinaryTree) : List Peer :=
  (asked searchKey n tree).flatMap fun a => a.2.take a.1.toNat

/-- From each visited bucket as many are taken as it is asked for, or as there are. -/
theorem length_closest (searchKey : Key) (n : UInt32) (tree : BinaryTree) :
    (closest searchKey n tree).length =
      ((asked searchKey n tree).map fun a => min a.1.toNat a.2.length).sum := by
  rw [closest, List.length_flatMap]
  simp only [List.length_take]

/-- `tree_closest_peers` appends what is taken from the visited buckets. -/
theorem treeClosestPeers_eq (now : Time) (searchKey : Key) (n : UInt32) (tree : BinaryTree)
    (buffer : List Peer) :
    (tree.treeClosestPeers now searchKey n buffer).2 = buffer ++ closest searchKey n tree := by
  unfold closest
  induction tree generalizing n buffer with
  | null => simp [treeClosestPeers, asked]
  | node leaf s count access kbucket zero one ihz iho =>
    rw [treeClosestPeers, asked]
    split_ifs <;> simp [ihz, iho]

/-- A joint asks the side of the search key's bit, and where that counts more than it is asked for,
the other side for the difference. -/
theorem asked_joint (searchKey : Key) (n s count : UInt32) (access : Time) (kbucket : List Peer)
    (zero one : BinaryTree) :
    asked searchKey n (.node false s count access kbucket zero one) =
      asked searchKey n (side (searchKey.getLsbD s.toNat) zero one) ++
        if n < (side (searchKey.getLsbD s.toNat) zero one).keyCount then
          asked searchKey ((side (searchKey.getLsbD s.toNat) zero one).keyCount - n)
            (side (!searchKey.getLsbD s.toNat) zero one)
        else [] := by
  rw [asked]
  cases searchKey.getLsbD s.toNat <;> simp [side]

/-! ## The visited buckets -/

/-- The first bucket that is asked is the search key's own, for `n` peers. -/
theorem asked_eq_cons {path : List Bool} {tree : BinaryTree} (h : WellFormed path tree)
    (searchKey : Key) (n : UInt32) :
    asked searchKey n tree =
      (n, (tree.leafFor searchKey).bucket) :: (asked searchKey n tree).tail := by
  induction h using WellFormed.induction with
  | leaf path s count access kbucket hwf => simp [asked, leafFor, bucket]
  | joint path s count access zero one h hs hwf ih =>
    rw [asked_joint, leafFor_joint, ih (searchKey.getLsbD s.toNat)]
    rfl

/-- The visited buckets are different buckets of the tree. -/
theorem asked_subperm {path : List Bool} {tree : BinaryTree} (h : WellFormed path tree)
    (searchKey : Key) (n : UInt32) :
    ((asked searchKey n tree).flatMap fun a => a.2).Subperm tree.peers := by
  induction h using WellFormed.induction generalizing n with
  | leaf path s count access kbucket hwf =>
    simpa [asked, peers] using List.Subperm.refl kbucket
  | joint path s count access zero one h hs hwf ih =>
    rw [asked_joint, List.flatMap_append]
    refine List.Subperm.trans ?_ (peers_joint (searchKey.getLsbD s.toNat) s count access zero
      one).subperm
    apply (ih (searchKey.getLsbD s.toNat) n).append
    split_ifs
    · exact ih _ _
    · exact List.nil_subperm

/-- What is returned is stored, each peer at most as often. -/
theorem closest_subperm {path : List Bool} {tree : BinaryTree} (h : WellFormed path tree)
    (searchKey : Key) (n : UInt32) : (closest searchKey n tree).Subperm tree.peers := by
  have hsub : ∀ l : List (UInt32 × List Peer),
      (l.flatMap fun a => a.2.take a.1.toNat).Sublist (l.flatMap fun a => a.2) := by
    intro l
    induction l with
    | nil => simp
    | cons a l ih => simpa using (List.take_sublist _ _).append ih
  exact (hsub _).subperm.trans (asked_subperm h searchKey n)

/-- No returned key is repeated. -/
theorem closest_nodup {path : List Bool} {tree : BinaryTree} (h : WellFormed path tree)
    (searchKey : Key) (n : UInt32) : ((closest searchKey n tree).map Peer.key).Nodup := by
  obtain ⟨l, hperm, hsub⟩ := closest_subperm h searchKey n
  exact (hperm.map Peer.key).nodup_iff.1 (h.keys_nodup.sublist (hsub.map Peer.key))

/-- Where a positive number is asked for, every visited bucket is asked for a positive number. -/
theorem asked_pos {path : List Bool} {tree : BinaryTree} (h : WellFormed path tree)
    (searchKey : Key) {n : UInt32} (hn : 0 < n) : ∀ a ∈ asked searchKey n tree, 0 < a.1 := by
  induction h using WellFormed.induction generalizing n with
  | leaf path s count access kbucket hwf => simpa [asked] using hn
  | joint path s count access zero one h hs hwf ih =>
    rw [asked_joint]
    intro a ha
    rcases List.mem_append.1 ha with ha | ha
    · exact ih _ hn a ha
    · split_ifs at ha with hlt
      · refine ih _ ?_ a ha
        rw [UInt32.lt_iff_toNat_lt] at hlt ⊢
        rw [UInt32.toNat_sub_of_le _ _ (UInt32.le_iff_toNat_le.2 hlt.le)]
        simpa using hlt
      · simp at ha

/-- Where a positive number is asked for and nothing is returned, every visited bucket is empty. -/
theorem asked_empty {path : List Bool} {tree : BinaryTree} (h : WellFormed path tree)
    {searchKey : Key} {n : UInt32} (hn : 0 < n) (hnil : closest searchKey n tree = []) :
    ∀ a ∈ asked searchKey n tree, a.2 = [] := by
  intro a ha
  have hpos := UInt32.lt_iff_toNat_lt.1 (asked_pos h searchKey hn a ha)
  have htake := List.flatMap_eq_nil_iff.1 hnil a ha
  rw [List.take_eq_nil_iff] at htake
  exact htake.resolve_left (by simp at hpos; omega)

/-- What is returned comes from the own bucket first. -/
theorem closest_eq {path : List Bool} {tree : BinaryTree} (h : WellFormed path tree)
    (searchKey : Key) (n : UInt32) :
    closest searchKey n tree = (tree.leafFor searchKey).bucket.take n.toNat ++
      (asked searchKey n tree).tail.flatMap fun a => a.2.take a.1.toNat := by
  rw [closest, asked_eq_cons h searchKey n, List.flatMap_cons]
  rfl

/-- Where the other visited buckets are empty, what is returned is the front of the own bucket. -/
theorem closest_eq_take {path : List Bool} {tree : BinaryTree} (h : WellFormed path tree)
    {searchKey : Key} {n : UInt32} (htail : ∀ a ∈ (asked searchKey n tree).tail, a.2 = []) :
    closest searchKey n tree = (tree.leafFor searchKey).bucket.take n.toNat := by
  have hnil : (asked searchKey n tree).tail.flatMap (fun a => a.2.take a.1.toNat) = [] := by
    rw [List.flatMap_eq_nil_iff]
    intro a ha
    rw [htail a ha, List.take_nil]
  rw [closest_eq h, hnil, List.append_nil]

/-- The own bucket has at most `KBUCKET_MAX` peers, with distinct keys. -/
theorem bucket_leafFor {path : List Bool} {tree : BinaryTree} (h : WellFormed path tree)
    (searchKey : Key) : (tree.leafFor searchKey).bucket.length ≤ kbucketMax ∧
      ((tree.leafFor searchKey).bucket.map Peer.key).Nodup := by
  induction h using WellFormed.induction with
  | leaf path s count access kbucket hwf =>
    cases hwf with
    | leaf hs hcount hlen hnodup => simpa [leafFor, bucket] using ⟨hlen, hnodup⟩
  | joint path s count access zero one h hs hwf ih =>
    rw [leafFor_joint]
    exact ih _

/-! ## Distances -/

/-- On the side of the search key's bit the peers are strictly closer than on the other side. -/
theorem side_closer {path : List Bool} {s : UInt32} {zero one : BinaryTree}
    (hs : s.toNat + path.length + 1 = keyBits) (h : ∀ b, WellFormed (path ++ [b]) (side b zero one))
    (searchKey : Key) {p q : Peer} (hp : p ∈ (side (searchKey.getLsbD s.toNat) zero one).peers)
    (hq : q ∈ (side (!searchKey.getLsbD s.toNat) zero one).peers) :
    searchKey ^^^ p.key < searchKey ^^^ q.key := by
  have hpath : keyPath p.key path.length = keyPath q.key path.length := by
    rw [((keyPath_succ_iff hs).1 ((h _).peers_path p hp)).1,
      ((keyPath_succ_iff hs).1 ((h _).peers_path q hq)).1]
  apply XorOrder.xor_lt_xor_of_split s.toNat (by omega)
  · exact fun j hj => getLsbD_eq_of_keyPath hpath (by omega)
  · exact (h _).child_bit hs p hp
  · rw [(h _).child_bit hs q hq]
    simp

/-- The peers of the own bucket are closer than all others. -/
theorem bucket_closer {path : List Bool} {tree : BinaryTree} (h : WellFormed path tree)
    (searchKey : Key) : ∀ p ∈ (tree.leafFor searchKey).bucket, ∀ q ∈ tree.peers,
      q ∉ (tree.leafFor searchKey).bucket → searchKey ^^^ p.key < searchKey ^^^ q.key := by
  induction h using WellFormed.induction with
  | leaf path s count access kbucket hwf =>
    intro p hp q hq hnot
    exact absurd (by simpa [leafFor, bucket, peers] using hq) hnot
  | joint path s count access zero one h hs hwf ih =>
    intro p hp q hq hnot
    rw [leafFor_joint] at hp hnot
    rw [← (peers_joint (searchKey.getLsbD s.toNat) s count access zero one).mem_iff,
      List.mem_append] at hq
    rcases hq with hq | hq
    · exact ih _ p hp q hq hnot
    · exact side_closer hs hwf searchKey (bucket_leafFor_subset (hwf _) searchKey hp) hq

/-- No stored peer that is left out is strictly closer than a returned one. -/
def NoneCloser (searchKey : Key) (n : UInt32) (tree : BinaryTree) : Prop :=
  ∀ q ∈ tree.peers, q ∉ closest searchKey n tree → ∀ p ∈ closest searchKey n tree,
    ¬searchKey ^^^ q.key < searchKey ^^^ p.key

/-- Where no left-out peer is closer, only the own bucket gives peers. Any other bucket that gives a
peer is asked because a subtree of closer peers counts more than `n`; all of these must be returned,
and they all come from the own bucket, which gives at most `n`. -/
theorem NoneCloser.tail_empty {path : List Bool} {tree : BinaryTree} (h : WellFormed path tree)
    {searchKey : Key} {n : UInt32} (hnone : NoneCloser searchKey n tree) :
    ∀ a ∈ (asked searchKey n tree).tail, a.2 = [] := by
  induction h using WellFormed.induction with
  | leaf path s count access kbucket hwf => simp [asked]
  | joint path s count access zero one h hs hwf ih =>
    have hasked := asked_joint searchKey n s count access [] zero one
    have hpeers := peers_joint (searchKey.getLsbD s.toNat) s count access zero one
    have hnear := hwf (searchKey.getLsbD s.toNat)
    have hfar := hwf (!searchKey.getLsbD s.toNat)
    have hcloser := fun {p q} => @side_closer path s zero one hs hwf searchKey p q
    have ih := ih (searchKey.getLsbD s.toNat)
    generalize side (searchKey.getLsbD s.toNat) zero one = near at *
    generalize side (!searchKey.getLsbD s.toNat) zero one = far at *
    have hmem : ∀ p ∈ near.peers, p ∈ (node false s count access [] zero one).peers :=
      fun p hp => hpeers.mem_iff.1 (List.mem_append_left _ hp)
    have hclosest : closest searchKey n (.node false s count access [] zero one) =
        closest searchKey n near ++
          if n < near.keyCount then closest searchKey (near.keyCount - n) far else [] := by
      rw [closest, hasked, List.flatMap_append]
      split_ifs <;> rfl
    -- A peer of `near` that is returned is returned from `near`.
    have hfrom : ∀ p ∈ near.peers,
        p ∈ closest searchKey n (.node false s count access [] zero one) →
        p ∈ closest searchKey n near := by
      intro p hp hret
      rw [hclosest, List.mem_append] at hret
      refine hret.resolve_right fun hright => ?_
      split_ifs at hright
      · exact BitVec.lt_irrefl _ (hcloser hp ((closest_subperm hfar _ _).subset hright))
      · simp at hright
    have hnearTail : ∀ a ∈ (asked searchKey n near).tail, a.2 = [] := by
      refine ih fun q hq hout p hp => hnone q (hmem q hq) (fun h => hout (hfrom q hq h)) p ?_
      rw [hclosest]
      exact List.mem_append_left _ hp
    rw [hasked, List.tail_append_of_ne_nil (by rw [asked_eq_cons hnear]; simp)]
    intro a ha
    rcases List.mem_append.1 ha with ha | ha
    · exact hnearTail a ha
    · split_ifs at ha with hlt
      · have hle := UInt32.lt_iff_toNat_lt.1 hlt
        have hpos : 0 < near.keyCount - n := by
          rw [UInt32.lt_iff_toNat_lt, UInt32.toNat_sub_of_le _ _ (UInt32.le_iff_toNat_le.2 hle.le)]
          simpa using hle
        refine asked_empty hfar hpos ?_ a ha
        by_contra hne
        obtain ⟨p, hp⟩ := List.exists_mem_of_ne_nil _ hne
        have hpfar := (closest_subperm hfar _ _).subset hp
        -- All of `near` is returned, and so it is the front of the own bucket.
        have hall : near.peers ⊆ (near.leafFor searchKey).bucket.take n.toNat := by
          intro q hq
          rw [← closest_eq_take hnear hnearTail]
          by_contra hout
          refine hnone q (hmem q hq) (fun h => hout (hfrom q hq h)) p ?_ (hcloser hq hpfar)
          rw [hclosest, if_pos hlt]
          exact List.mem_append_right _ hp
        have hlen := (hnear.keys_nodup.of_map.subperm hall).length_le
        have hcount := hnear.keyCount_eq
        rw [List.length_take] at hlen
        have hbound : (near.leafFor searchKey).bucket.length ≤ 20 := (bucket_leafFor hnear searchKey).1
        rw [hcount, UInt32.toNat_ofNat', Nat.mod_eq_of_lt (by omega)] at hle
        omega
      · simp at ha

/-- No left-out peer is closer exactly when the search key's bucket has none behind the front that
is taken from it that is closer than one in the front, and the other visited buckets are empty. -/
theorem noneCloser_iff {path : List Bool} {tree : BinaryTree} (h : WellFormed path tree)
    (searchKey : Key) (n : UInt32) :
    NoneCloser searchKey n tree ↔
      (∀ q ∈ (tree.leafFor searchKey).bucket.drop n.toNat,
        ∀ p ∈ (tree.leafFor searchKey).bucket.take n.toNat,
          ¬searchKey ^^^ q.key < searchKey ^^^ p.key) ∧
      ∀ a ∈ (asked searchKey n tree).tail, a.2 = [] := by
  have hnodup := (bucket_leafFor h searchKey).2.of_map
  constructor
  · intro hnone
    have htail := hnone.tail_empty h
    refine ⟨fun q hq p hp => ?_, htail⟩
    rw [NoneCloser, closest_eq_take h htail] at hnone
    refine hnone q (bucket_leafFor_subset h searchKey (List.mem_of_mem_drop hq)) ?_ p hp
    rw [← List.take_append_drop n.toNat (tree.leafFor searchKey).bucket] at hnodup
    exact fun hq' => List.disjoint_of_nodup_append hnodup hq' hq
  · rintro ⟨hfront, htail⟩ q hq hout p hp
    rw [closest_eq_take h htail] at hout hp
    by_cases hbucket : q ∈ (tree.leafFor searchKey).bucket
    · rw [← List.take_append_drop n.toNat (tree.leafFor searchKey).bucket, List.mem_append] at hbucket
      exact hfront q (hbucket.resolve_left hout) p hp
    · have := bucket_closer h searchKey p (List.mem_of_mem_take hp) q hq hbucket
      exact BitVec.lt_asymm this

/-- Every number of peers is served exactly when all the stored peers are in the search key's
bucket. -/
theorem forall_length_closest_iff {path : List Bool} {tree : BinaryTree} (h : WellFormed path tree)
    (searchKey : Key) :
    (∀ n : UInt32, (closest searchKey n tree).length = min n.toNat tree.peers.length) ↔
      tree.peers ⊆ (tree.leafFor searchKey).bucket := by
  have hbound : (tree.leafFor searchKey).bucket.length ≤ 20 := (bucket_leafFor h searchKey).1
  have hsubperm := asked_subperm h searchKey
  constructor
  · intro hall
    -- No counter is above the largest number, so only the own bucket is asked for it.
    have hown : ∀ {path : List Bool} {tree : BinaryTree}, WellFormed path tree →
        (asked searchKey (UInt32.ofNat (2^32 - 1)) tree).tail = [] := by
      intro path tree h
      induction h using WellFormed.induction with
      | leaf path s count access kbucket hwf => simp [asked]
      | joint path s count access zero one h hs hwf ih =>
        have hmax : ∀ c : UInt32, ¬UInt32.ofNat (2^32 - 1) < c := by
          intro c hc
          have h1 := UInt32.lt_iff_toNat_lt.1 hc
          have h2 := c.toNat_lt
          rw [show (UInt32.ofNat (2^32 - 1)).toNat = 2^32 - 1 by decide] at h1
          omega
        rw [asked_joint, if_neg (hmax _), List.append_nil]
        exact ih _
    have hlen := hall (UInt32.ofNat (2^32 - 1))
    rw [closest_eq_take h (by rw [hown h]; simp), List.length_take,
      show (UInt32.ofNat (2^32 - 1)).toNat = 2^32 - 1 by decide] at hlen
    have hsub : (tree.leafFor searchKey).bucket.Subperm tree.peers :=
      (bucket_leafFor h searchKey).2.of_map.subperm (bucket_leafFor_subset h searchKey)
    exact (hsub.perm_of_length_le (by omega)).symm.subset
  · intro hsub n
    have hle := (h.keys_nodup.of_map.subperm hsub).length_le
    have hvisited := (hsubperm n).length_le
    rw [asked_eq_cons h searchKey n, List.flatMap_cons, List.length_append] at hvisited
    dsimp only at hvisited
    have htail : ((asked searchKey n tree).tail.flatMap fun a => a.2) = [] :=
      List.eq_nil_of_length_eq_zero (by omega)
    rw [closest_eq_take h (List.flatMap_eq_nil_iff.1 htail), List.length_take]
    omega

end BinaryTree

namespace Router

open Distft.BinaryTree

/-- `closest_peers` returns what is taken from the visited buckets. -/
theorem closestPeers_eq (r : Router) (now : Time) (searchKey : Key) (n : UInt32) :
    (r.closestPeers now searchKey n).1 = closest searchKey n r.table := by
  unfold closestPeers
  simp only
  rw [treeClosestPeers_eq, List.nil_append]

/-- A call of `closest_peers` returns the right number of peers, stored and distinct. -/
structure RightCount (r : Router) (now : Time) (searchKey : Key) (n : UInt32) : Prop where
  /-- As many as are asked for, or all that there are. -/
  length : (r.closestPeers now searchKey n).1.length = min n.toNat r.allPeers.length
  /-- They are stored. -/
  stored : ∀ p ∈ (r.closestPeers now searchKey n).1, p ∈ r.allPeers
  /-- No two have the same key. -/
  distinct : ((r.closestPeers now searchKey n).1.map Peer.key).Nodup

/-- What a call returns is stored and distinct, so the length decides. -/
theorem rightCount_iff {r : Router} (h : r.Invariant) (now : Time) (searchKey : Key) (n : UInt32) :
    r.RightCount now searchKey n ↔
      (closest searchKey n r.table).length = min n.toNat r.table.peers.length := by
  constructor
  · intro hcount
    rw [← closestPeers_eq r now, ← h.allPeers_eq]
    exact hcount.length
  · intro hlen
    refine ⟨?_, ?_, ?_⟩
    · rw [closestPeers_eq, h.allPeers_eq, hlen]
    · rw [closestPeers_eq, h.allPeers_eq]
      exact fun p hp => (closest_subperm h.table searchKey n).subset hp
    · rw [closestPeers_eq]
      exact closest_nodup h.table searchKey n

/-- `closest_peers` returns the right number of peers for every `n` exactly when all the stored peers
are in the search key's bucket. For one `n` it does exactly when the numbers that the visited buckets
are asked for, each capped by what the bucket has, add up. -/
theorem closestPeers_count_iff (start : Time) (selfPeer otherPeer : Peer) (calls : List Call)
    (now : Time) (searchKey : Key) :
    let r := (new start selfPeer otherPeer).run calls
    ((∀ n, r.RightCount now searchKey n) ↔
      ∀ p ∈ r.allPeers, p ∈ (r.table.leafFor searchKey).bucket) ∧
    ∀ n, r.RightCount now searchKey n ↔
      ((asked searchKey n r.table).map fun a => min a.1.toNat a.2.length).sum =
        min n.toNat r.allPeers.length := by
  intro r
  have h : r.Invariant := Reachable.invariant ⟨start, selfPeer, otherPeer, calls, rfl⟩
  constructor
  · rw [h.allPeers_eq]
    exact (forall_congr' fun n => rightCount_iff h now searchKey n).trans
      (forall_length_closest_iff h.table searchKey)
  · intro n
    rw [rightCount_iff h, length_closest, h.allPeers_eq]

/-- Twenty peers with the highest bit set, and one without it, which splits the root. -/
def splitCalls : List Call :=
  ((List.range 20).map fun j => .insert 0 (BitVec.ofNat keyBits (2^159 + j)) [1]) ++
    [.insert 0 1 [1]]

/-- With the twenty peers on one side of the root and one peer on the side of the search key, that
one is all that is returned of the twenty closest. -/
theorem not_rightCount :
    ¬∀ (start : Time) (selfPeer otherPeer : Peer) (calls : List Call) (now : Time)
      (searchKey : Key) (n : UInt32),
      ((new start selfPeer otherPeer).run calls).RightCount now searchKey n := by
  intro h
  have hlen := (h 0 ⟨0, []⟩ ⟨BitVec.ofNat keyBits (2^159), [1]⟩ splitCalls 0 0 20).length
  exact absurd hlen (by decide +kernel)

/-- No stored peer that a call of `closest_peers` leaves out is closer than one that it returns. -/
def ClosestReturned (r : Router) (now : Time) (searchKey : Key) (n : UInt32) : Prop :=
  ∀ q ∈ r.allPeers, q ∉ (r.closestPeers now searchKey n).1 →
    ∀ p ∈ (r.closestPeers now searchKey n).1,
      (Dist.between searchKey q.key).lt (Dist.between searchKey p.key) = false

/-- `closest_peers` returns the closest peers exactly when none behind the first `n` of the search
key's bucket is closer than one of these, and every other bucket that is visited is empty. -/
theorem closestPeers_nearest_iff (start : Time) (selfPeer otherPeer : Peer) (calls : List Call)
    (now : Time) (searchKey : Key) (n : UInt32) :
    let r := (new start selfPeer otherPeer).run calls
    r.ClosestReturned now searchKey n ↔
      (∀ q ∈ (r.table.leafFor searchKey).bucket.drop n.toNat,
        ∀ p ∈ (r.table.leafFor searchKey).bucket.take n.toNat,
          (Dist.between searchKey q.key).lt (Dist.between searchKey p.key) = false) ∧
      ∀ a ∈ (asked searchKey n r.table).tail, a.2 = [] := by
  intro r
  have h : r.Invariant := Reachable.invariant ⟨start, selfPeer, otherPeer, calls, rfl⟩
  have hdist : ∀ q p : Peer,
      (Dist.between searchKey q.key).lt (Dist.between searchKey p.key) = false ↔
        ¬searchKey ^^^ q.key < searchKey ^^^ p.key := by
    intro q p
    rw [← Bool.not_eq_true, Dist.lt_iff]
    rfl
  unfold ClosestReturned
  rw [closestPeers_eq, h.allPeers_eq]
  simp only [hdist]
  exact noneCloser_iff h.table searchKey n

/-- Of two peers in one bucket the one that was inserted last is returned, whichever is closer. -/
theorem not_closestReturned :
    ¬∀ (start : Time) (selfPeer otherPeer : Peer) (calls : List Call) (now : Time)
      (searchKey : Key) (n : UInt32),
      ((new start selfPeer otherPeer).run calls).ClosestReturned now searchKey n := by
  intro h
  have hnear := h 0 ⟨0, []⟩ ⟨1, [1]⟩ [.insert 0 2 [1]] 0 1 1 ⟨1, [1]⟩ (by decide +kernel)
    (by decide +kernel) ⟨2, [1]⟩ (by decide +kernel)
  exact absurd hnear (by decide +kernel)

end Router

end Distft
