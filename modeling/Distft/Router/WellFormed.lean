import Mathlib.Data.List.Basic
import Mathlib.Data.List.Perm.Basic
import Distft.Router.Model

/-!
# Well-formed tables

`WellFormed path tree` is the invariant of the node that the turns `path` lead to from the root: the
node splits on the next bit, its counter is the number of peers below it (as an unsigned 32-bit
number), a leaf has no children and at most `KBUCKET_MAX` peers with distinct keys, all of which lie
on `path`, and a joint has an empty kbucket and two well-formed children.

`WellFormed.split` is what `BinaryTree::split` does to it: a well-formed leaf with a bit left
becomes a well-formed joint.
-/

namespace Distft

/-- The first `d` turns of a key from the root: its bits from `KEYBITS - 1` down. -/
def keyPath (k : Key) (d : ℕ) : List Bool :=
  (List.range d).map fun i => k.getLsbD (keyBits - 1 - i)

@[simp]
theorem keyPath_length (k : Key) (d : ℕ) : (keyPath k d).length = d := by simp [keyPath]

/-- A key lies on a path and its next turn `b` exactly when it lies on the path and its bit at the
node there is `b`. -/
theorem keyPath_succ_iff {k : Key} {path : List Bool} {b : Bool} {s : UInt32}
    (hs : s.toNat + path.length + 1 = keyBits) :
    keyPath k (path ++ [b]).length = path ++ [b] ↔
      keyPath k path.length = path ∧ k.getLsbD s.toNat = b := by
  have hsucc : keyPath k (path ++ [b]).length =
      keyPath k path.length ++ [k.getLsbD (keyBits - 1 - path.length)] := by
    simp [keyPath, List.range_succ]
  have hbit : keyBits - 1 - path.length = s.toNat := by omega
  rw [hsucc, hbit]
  constructor
  · intro h
    obtain ⟨h1, h2⟩ := List.append_inj' h rfl
    exact ⟨h1, by simpa using h2⟩
  · rintro ⟨h1, h2⟩
    rw [h1, h2]

/-- Keys with the same first `d` turns agree in their `d` highest bits. -/
theorem getLsbD_eq_of_keyPath {k k' : Key} {d j : ℕ} (h : keyPath k d = keyPath k' d)
    (hj : keyBits ≤ j + d) : k.getLsbD j = k'.getLsbD j := by
  by_cases hjb : j < keyBits
  · have hlt : keyBits - 1 - j < d := by omega
    have hback : keyBits - 1 - (keyBits - 1 - j) = j := by omega
    have hget := congrArg (·[keyBits - 1 - j]?) h
    simpa only [keyPath, List.getElem?_map, List.getElem?_range hlt, Option.map_some, hback,
      Option.some.injEq] using hget
  · rw [BitVec.getLsbD_of_ge _ _ (by omega), BitVec.getLsbD_of_ge _ _ (by omega)]

namespace BinaryTree

/-- The peers stored at and below a node. -/
def peers : BinaryTree → List Peer
  | .null => []
  | .node _ _ _ _ kbucket zero one => kbucket ++ (one.peers ++ zero.peers)

/-- The node that a list of turns leads to, `null` where the tree ends before. -/
def nodeAt : BinaryTree → List Bool → BinaryTree
  | tree, [] => tree
  | .null, _ :: _ => .null
  | .node _ _ _ _ _ zero one, b :: path => if b then one.nodeAt path else zero.nodeAt path

@[simp]
theorem nodeAt_nil (tree : BinaryTree) : tree.nodeAt [] = tree := by cases tree <;> rfl

/-- The leaf that the bits of a key lead to. -/
def leafFor (key : Key) : BinaryTree → BinaryTree
  | .null => .null
  | .node leaf s count access kbucket zero one =>
    if leaf then .node leaf s count access kbucket zero one
    else if key.getLsbD s.toNat then one.leafFor key
    else zero.leafFor key

/-- A leaf with the given peers, as `split` makes it. -/
def leafOf (s : UInt32) (now : Time) (kbucket : List Peer) : BinaryTree :=
  .node true s (UInt32.ofNat kbucket.length) now kbucket .null .null

/-- The invariant of the node at `path`. -/
inductive WellFormed : List Bool → BinaryTree → Prop
  /-- A leaf. -/
  | leaf {path : List Bool} {s count : UInt32} {access : Time} {kbucket : List Peer}
      (hs : s.toNat + path.length + 1 = keyBits) (hcount : count = UInt32.ofNat kbucket.length)
      (hlen : kbucket.length ≤ kbucketMax) (hnodup : (kbucket.map Peer.key).Nodup)
      (hpath : ∀ p ∈ kbucket, keyPath p.key path.length = path) :
      WellFormed path (.node true s count access kbucket .null .null)
  /-- A joint. -/
  | joint {path : List Bool} {s count : UInt32} {access : Time} {zero one : BinaryTree}
      (hs : s.toNat + path.length + 1 = keyBits)
      (hcount : count = UInt32.ofNat (one.peers.length + zero.peers.length))
      (hzero : WellFormed (path ++ [false]) zero) (hone : WellFormed (path ++ [true]) one) :
      WellFormed path (.node false s count access [] zero one)

/-- A node's `split_bit_index` and depth add up to `KEYBITS - 1`. -/
theorem WellFormed.depth_lt {path : List Bool} {tree : BinaryTree} (h : WellFormed path tree) :
    path.length < keyBits := by
  cases h with
  | leaf hs => omega
  | joint hs => omega

/-- A node's counter is the number of peers below it. -/
theorem WellFormed.keyCount_eq {path : List Bool} {tree : BinaryTree} (h : WellFormed path tree) :
    tree.keyCount = UInt32.ofNat tree.peers.length := by
  cases h with
  | leaf hs hcount => simpa [peers, keyCount] using hcount
  | joint hs hcount => simpa [peers, keyCount] using hcount

/-- Every peer lies on the path of the nodes above it. -/
theorem WellFormed.peers_path {path : List Bool} {tree : BinaryTree} (h : WellFormed path tree) :
    ∀ p ∈ tree.peers, keyPath p.key path.length = path := by
  induction h with
  | leaf hs hcount hlen hnodup hpath => simpa [peers] using hpath
  | joint hs hcount hzero hone ihz iho =>
    intro p hp
    simp only [peers, List.nil_append, List.mem_append] at hp
    rcases hp with hp | hp
    · exact ((keyPath_succ_iff hs).1 (iho p hp)).1
    · exact ((keyPath_succ_iff hs).1 (ihz p hp)).1

/-- A peer below a joint's child has the child's bit. -/
theorem WellFormed.child_bit {path : List Bool} {b : Bool} {s : UInt32} {tree : BinaryTree}
    (hs : s.toNat + path.length + 1 = keyBits) (h : WellFormed (path ++ [b]) tree) :
    ∀ p ∈ tree.peers, p.key.getLsbD s.toNat = b :=
  fun p hp => ((keyPath_succ_iff hs).1 (h.peers_path p hp)).2

/-- No key is stored twice. -/
theorem WellFormed.keys_nodup {path : List Bool} {tree : BinaryTree} (h : WellFormed path tree) :
    (tree.peers.map Peer.key).Nodup := by
  induction h with
  | leaf hs hcount hlen hnodup hpath => simpa [peers] using hnodup
  | joint hs hcount hzero hone ihz iho =>
    simp only [peers, List.nil_append, List.map_append]
    refine iho.append ihz ?_
    intro k hk1 hk0
    obtain ⟨p, hp, rfl⟩ := List.mem_map.1 hk1
    obtain ⟨q, hq, hkey⟩ := List.mem_map.1 hk0
    have h1 := hone.child_bit hs p hp
    have h0 := hzero.child_bit hs q hq
    rw [hkey, h1] at h0
    exact Bool.noConfusion h0

/-- The node at the end of a path of turns is well-formed there. -/
theorem WellFormed.nodeAt {path : List Bool} {tree : BinaryTree} (h : WellFormed path tree) :
    ∀ {q : List Bool}, tree.nodeAt q ≠ .null → WellFormed (path ++ q) (tree.nodeAt q) := by
  induction h with
  | leaf hs hcount hlen hnodup hpath =>
    intro q hq
    cases q with
    | nil => simpa [BinaryTree.nodeAt] using WellFormed.leaf hs hcount hlen hnodup hpath
    | cons b q => cases b <;> cases q <;> simp [BinaryTree.nodeAt] at hq
  | joint hs hcount hzero hone ihz iho =>
    intro q hq
    cases q with
    | nil => simpa [BinaryTree.nodeAt] using WellFormed.joint hs hcount hzero hone
    | cons b q =>
      cases b with
      | false => simpa [BinaryTree.nodeAt] using ihz (q := q) (by simpa [BinaryTree.nodeAt] using hq)
      | true => simpa [BinaryTree.nodeAt] using iho (q := q) (by simpa [BinaryTree.nodeAt] using hq)

/-- `tree_all_peers` appends the peers of the tree. -/
theorem WellFormed.treeAllPeers_eq {path : List Bool} {tree : BinaryTree}
    (h : WellFormed path tree) (buffer : List Peer) :
    tree.treeAllPeers buffer = buffer ++ tree.peers := by
  induction h generalizing buffer with
  | leaf => simp [treeAllPeers, peers]
  | joint hs hcount hzero hone ihz iho =>
    simp [treeAllPeers, peers, ihz, iho, List.append_assoc]

/-! ## `split` -/

/-- `push_back` and `key_count++` keep a leaf of the form that `split` makes. -/
theorem pushBack_leafOf (s : UInt32) (now : Time) (kbucket : List Peer) (p : Peer) :
    (leafOf s now kbucket).pushBack p = leafOf s now (kbucket ++ [p]) := by
  simp [leafOf, pushBack, UInt32.ofNat_add]

/-- The loop of `split` partitions the bucket by the bit, in order. -/
theorem split_eq (now : Time) (leaf : Bool) (s count : UInt32) (access : Time)
    (kbucket : List Peer) (zero one : BinaryTree) :
    split now (.node leaf s count access kbucket zero one) =
      .node false s count access []
        (leafOf (s - 1) now (kbucket.filter fun p => !p.key.getLsbD s.toNat))
        (leafOf (s - 1) now (kbucket.filter fun p => p.key.getLsbD s.toNat)) := by
  have hloop : ∀ (l z o : List Peer),
      l.foldl (splitPeer s.toNat) (leafOf (s - 1) now z, leafOf (s - 1) now o) =
        (leafOf (s - 1) now (z ++ l.filter fun p => !p.key.getLsbD s.toNat),
          leafOf (s - 1) now (o ++ l.filter fun p => p.key.getLsbD s.toNat)) := by
    intro l
    induction l with
    | nil => simp
    | cons p l ih =>
      intro z o
      rw [List.foldl_cons]
      unfold splitPeer at ih ⊢
      cases hb : p.key.getLsbD s.toNat
      · simp [hb, pushBack_leafOf, ih, List.append_assoc]
      · simp [hb, pushBack_leafOf, ih, List.append_assoc]
  have h := hloop kbucket [] []
  simp only [List.nil_append] at h
  simp only [split]
  rw [show new (s - 1) now = leafOf (s - 1) now [] from rfl, h]

/-- The two halves of a split hold the bucket's peers. -/
theorem split_peers (now : Time) (leaf : Bool) (s count : UInt32) (access : Time)
    (kbucket : List Peer) (zero one : BinaryTree) :
    (split now (.node leaf s count access kbucket zero one)).peers.Perm kbucket := by
  rw [split_eq]
  simpa [peers, leafOf] using List.filter_append_perm (fun p => p.key.getLsbD s.toNat) kbucket

/-- `split` turns a well-formed leaf that has a bit left into a well-formed joint. -/
theorem WellFormed.split {path : List Bool} {s count : UInt32} {access : Time}
    {kbucket : List Peer} (now : Time) (h0 : 0 < s)
    (h : WellFormed path (.node true s count access kbucket .null .null)) :
    WellFormed path (split now (.node true s count access kbucket .null .null)) := by
  have hperm := split_peers now true s count access kbucket .null .null
  cases h with
  | leaf hs hcount hlen hnodup hpath =>
    have hs1 : (s - 1).toNat + (path.length + 1) + 1 = keyBits := by
      have h1 : (1 : UInt32) ≤ s := by
        rw [UInt32.le_iff_toNat_le]
        exact UInt32.lt_iff_toNat_lt.1 h0
      rw [UInt32.toNat_sub_of_le _ _ h1]
      have : (1 : UInt32).toNat ≤ s.toNat := UInt32.le_iff_toNat_le.1 h1
      have h2 : (1 : UInt32).toNat = 1 := rfl
      omega
    have half : ∀ b : Bool, WellFormed (path ++ [b])
        (leafOf (s - 1) now (kbucket.filter fun p => p.key.getLsbD s.toNat == b)) := by
      intro b
      refine .leaf (by simpa using hs1) rfl ((List.length_filter_le _ _).trans hlen) ?_ ?_
      · exact hnodup.sublist (List.filter_sublist.map Peer.key)
      · intro p hp
        obtain ⟨hp, hb⟩ := List.mem_filter.1 hp
        exact (keyPath_succ_iff hs).2 ⟨hpath p hp, by simpa using hb⟩
    rw [split_eq] at hperm ⊢
    refine .joint hs ?_ (by simpa using half false) (by simpa using half true)
    rw [hcount, ← hperm.length_eq]
    simp [peers]

end BinaryTree

end Distft
