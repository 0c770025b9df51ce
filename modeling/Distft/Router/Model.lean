import Mathlib.Data.List.Rotate
import Distft.General.Runs
import Distft.Utils

/-!
# The router

`Router` and its `BinaryTree`, from `src/dht/router.h` and `src/dht/router.cpp`. A tree node keeps
the fields of the C++ object: the `leaf` flag, the unsigned `split_bit_index` and `key_count`, the
access time, the kbucket, and the two subtree pointers, of which `null` is `NULL`. The `parent`
pointer is the recursion that reached the node, so the loops that climb it to adjust `key_count`
are the way back of the recursion (`stepDown`).

Insertion and eviction count down the `KEYBITS` turns of their loops, and a walk that uses them up
ends as the C++ loop does. One call reads the clock once.
-/

namespace Distft

/-- `KBUCKET_MAX`. -/
abbrev kbucketMax : ℕ := 20

/-- `Router::BinaryTree`, with `null` for a `NULL` pointer. -/
inductive BinaryTree where
  /-- A `NULL` pointer. -/
  | null
  /-- A node: its `leaf` flag, `split_bit_index`, `key_count`, `latest_access`, `kbucket`,
  `zero_tree`, and `one_tree`. -/
  | node (leaf : Bool) (splitBitIndex keyCount : UInt32) (latestAccess : Time)
      (kbucket : List Peer) (zeroTree oneTree : BinaryTree)
  deriving DecidableEq, Repr

/-- How a call of `attempt_insert_peer` ends in the table. -/
inductive Insertion where
  /-- The key was found: its endpoint is replaced and the peer moved to the front. -/
  | updated
  /-- The peer was added to a bucket with space. -/
  | added
  /-- The bucket was full: the peer that `*lru_peer_buffer` is set to. -/
  | refused (lru : Option Peer)
  /-- The loop ran out of turns. -/
  | exhausted
  deriving DecidableEq, Repr

namespace BinaryTree

/-- `BinaryTree::BinaryTree`: an empty leaf. -/
def new (splitBitIndex : UInt32) (now : Time) : BinaryTree :=
  .node true splitBitIndex 0 now [] .null .null

/-- `kbucket.push_back(peer)` and `key_count++`, on the node that `split` moves `peer` to. -/
def pushBack (peer : Peer) : BinaryTree → BinaryTree
  | .null => .null
  | .node leaf s count access kbucket zero one =>
    .node leaf s (count + 1) access (kbucket ++ [peer]) zero one

/-- A turn of the loop of `split`: the peer goes to the one of the two subtrees that its bit says. -/
def splitPeer (splitBit : ℕ) (trees : BinaryTree × BinaryTree) (peer : Peer) :
    BinaryTree × BinaryTree :=
  if peer.key.getLsbD splitBit then (trees.1, trees.2.pushBack peer)
  else (trees.1.pushBack peer, trees.2)

/-- `BinaryTree::split`: the node becomes a joint of two new leaves, and its peers move, from the
front, to the back of the leaf on the side of their bit. -/
def split (now : Time) : BinaryTree → BinaryTree
  | .null => .null
  | .node _ s count access kbucket _ _ =>
    let trees := kbucket.foldl (splitPeer s.toNat) (new (s - 1) now, new (s - 1) now)
    .node false s count access [] trees.1 trees.2

/-- One turn of a loop at a joint: `tree` becomes its child on the side of `keyBit`, and the rest of
the loop is `walk`. On the way back `adjust` is what the climb to the root does to `key_count`. -/
def stepDown {α : Type} (keyBit : Bool) (walk : BinaryTree → BinaryTree × α)
    (adjust : α → UInt32 → UInt32) : BinaryTree → BinaryTree × α
  | .null => walk .null
  | .node leaf s count access kbucket zero one =>
    if keyBit then
      let (one', r) := walk one
      (.node leaf s (adjust r count) access kbucket zero one', r)
    else
      let (zero', r) := walk zero
      (.node leaf s (adjust r count) access kbucket zero' one, r)

/-- `std::rotate` of the first `i + 1` peers, which moves peer `i` to the front. -/
def rotateToFront (kbucket : List Peer) (i : ℕ) : List Peer :=
  (kbucket.take (i + 1)).rotate i ++ kbucket.drop (i + 1)

/-- `kbucket.at(i)->endpoint = endpoint`. -/
def setEndpoint (kbucket : List Peer) (i : ℕ) (endpoint : Bytes) : List Peer :=
  kbucket.modify i fun peer => { peer with endpoint }

/-- `key_count++` up to the root, when a peer was added. -/
def countAdded : Insertion → UInt32 → UInt32
  | .added, count => count + 1
  | _, count => count

/-- The loop of `Router::attempt_insert_peer`, with the number of turns that are left. -/
def insertLoop (selfKey : Key) (now : Time) (peerKey : Key) (endpoint : Bytes) :
    ℕ → BinaryTree → BinaryTree × Insertion
  | 0, tree => (tree, .exhausted)
  | _ + 1, .null => (.null, .exhausted)
  | i + 1, .node leaf s count access kbucket zero one =>
    let keyBit := peerKey.getLsbD s.toNat
    let keyMatch := keyBit == selfKey.getLsbD s.toNat
    if !leaf then
      stepDown keyBit (insertLoop selfKey now peerKey endpoint i) countAdded
        (.node leaf s count access kbucket zero one)
    else
      match kbucket.findIdx? fun peer => peer.key == peerKey with
      | some j =>
        (.node leaf s count now (rotateToFront (setEndpoint kbucket j endpoint) j) zero one,
          .updated)
      | none =>
        if kbucket.length < kbucketMax then
          (.node leaf s (count + 1) now (⟨peerKey, endpoint⟩ :: kbucket) zero one, .added)
        -- Only the one bit is compared, not the prefix; the walk goes on in the half of the key.
        else if keyMatch && decide (0 < s) then
          stepDown keyBit (insertLoop selfKey now peerKey endpoint i) countAdded
            (split now (.node leaf s count access kbucket zero one))
        else
          (.node leaf s count access kbucket zero one, .refused kbucket.getLast?)

/-- `key_count--` up to the root, when a peer was erased. -/
def countErased : Bool → UInt32 → UInt32
  | true, count => count - 1
  | false, count => count

/-- The loop of `Router::evict_peer`, with the number of turns that are left: the new tree and
whether a peer was erased. At a leaf without the key the loop turns in place. -/
def evictLoop (evictKey : Key) : ℕ → BinaryTree → BinaryTree × Bool
  | 0, tree => (tree, false)
  | _ + 1, .null => (.null, false)
  | i + 1, .node leaf s count access kbucket zero one =>
    let keyBit := evictKey.getLsbD s.toNat
    if !leaf then
      stepDown keyBit (evictLoop evictKey i) countErased
        (.node leaf s count access kbucket zero one)
    else
      match kbucket.findIdx? fun peer => peer.key == evictKey with
      | some j => (.node leaf s (count - 1) access (kbucket.eraseIdx j) zero one, true)
      -- Nothing leaves the loop here, and the node stays the same.
      | none => evictLoop evictKey i (.node leaf s count access kbucket zero one)

/-- `tree->key_count`. -/
def keyCount : BinaryTree → UInt32
  | .null => 0
  | .node _ _ count _ _ _ _ => count

/-- `BinaryTree::tree_closest_peers`: the tree, whose visited leaves get a new access time, and the
buffer with what is appended to it. -/
def treeClosestPeers (now : Time) (searchKey : Key) :
    UInt32 → BinaryTree → List Peer → BinaryTree × List Peer
  | _, .null, buffer => (.null, buffer)
  | n, .node leaf s count access kbucket zero one, buffer =>
    if leaf then
      (.node leaf s count now kbucket zero one, buffer ++ kbucket.take n.toNat)
    else if searchKey.getLsbD s.toNat then
      let (one', buffer) := treeClosestPeers now searchKey n one buffer
      -- The other side is asked where this one has more than `n` keys, for the difference.
      if n < one.keyCount then
        let (zero', buffer) := treeClosestPeers now searchKey (one.keyCount - n) zero buffer
        (.node leaf s count access kbucket zero' one', buffer)
      else (.node leaf s count access kbucket zero one', buffer)
    else
      let (zero', buffer) := treeClosestPeers now searchKey n zero buffer
      if n < zero.keyCount then
        let (one', buffer) := treeClosestPeers now searchKey (zero.keyCount - n) one buffer
        (.node leaf s count access kbucket zero' one', buffer)
      else (.node leaf s count access kbucket zero' one, buffer)

/-- `BinaryTree::tree_all_peers`. -/
def treeAllPeers : BinaryTree → List Peer → List Peer
  | .null, buffer => buffer
  | .node leaf _ _ _ kbucket zero one, buffer =>
    if leaf then buffer ++ kbucket else zero.treeAllPeers (one.treeAllPeers buffer)

end BinaryTree

/-- `Router`. -/
structure Router where
  /-- `self_peer`. -/
  selfPeer : Peer
  /-- `table`, the root. -/
  table : BinaryTree
  deriving DecidableEq, Repr

namespace Router

/-- `Router::attempt_insert_peer`: what it returns, what it sets `*lru_peer_buffer` to, if it does,
and the router after it. -/
def attemptInsertPeer (now : Time) (peerKey : Key) (endpoint : Bytes) (r : Router) :
    Bool × Option Peer × Router :=
  if peerKey = r.selfPeer.key ∨ endpoint = r.selfPeer.endpoint then (true, none, r)
  else
    match BinaryTree.insertLoop r.selfPeer.key now peerKey endpoint keyBits r.table with
    | (table, .updated) => (true, none, { r with table })
    | (table, .added) => (true, none, { r with table })
    | (table, .refused lru) => (false, lru, { r with table })
    | (table, .exhausted) => (false, none, { r with table })

/-- `Router::Router`: an empty root leaf, and the insertion of the initial peer. -/
def new (now : Time) (selfPeer otherPeer : Peer) : Router :=
  (attemptInsertPeer now otherPeer.key otherPeer.endpoint
    ⟨selfPeer, .new (UInt32.ofNat (keyBits - 1)) now⟩).2.2

/-- `Router::evict_peer`. -/
def evictPeer (evictKey : Key) (r : Router) : Router :=
  if evictKey = r.selfPeer.key then r
  else { r with table := (BinaryTree.evictLoop evictKey keyBits r.table).1 }

/-- `Router::closest_peers`, on an empty buffer: the peers, and the router, which has new access
times. -/
def closestPeers (now : Time) (searchKey : Key) (n : UInt32) (r : Router) : List Peer × Router :=
  let (table, buffer) := r.table.treeClosestPeers now searchKey n []
  (buffer, { r with table })

/-- `Router::all_peers`, on an empty buffer. -/
def allPeers (r : Router) : List Peer := r.table.treeAllPeers []

/-- `Router::get_peer`, `none` for `NULL`. -/
def getPeer (now : Time) (searchKey : Key) (r : Router) : Option Peer × Router :=
  let (buffer, r') := r.closestPeers now searchKey 1
  match buffer with
  | [] => (none, r')
  | peer :: _ => (if peer.key = searchKey then some peer else none, r')

/-- A call of a function of `Router` that changes the table. -/
inductive Call where
  /-- `attempt_insert_peer`. -/
  | insert (now : Time) (peerKey : Key) (endpoint : Bytes)
  /-- `evict_peer`. -/
  | evict (evictKey : Key)
  /-- `closest_peers`, which changes access times. -/
  | closest (now : Time) (searchKey : Key) (n : UInt32)
  deriving DecidableEq, Repr

/-- The router after a call. -/
def step (r : Router) : Call → Router
  | .insert now peerKey endpoint => (r.attemptInsertPeer now peerKey endpoint).2.2
  | .evict evictKey => r.evictPeer evictKey
  | .closest now searchKey n => (r.closestPeers now searchKey n).2

/-- The router after a sequence of calls. -/
def run (r : Router) (calls : List Call) : Router := Runs.run step r calls

/-- A router that its constructor and a sequence of calls give. -/
def Reachable (r : Router) : Prop :=
  ∃ (now : Time) (selfPeer otherPeer : Peer) (calls : List Call),
    r = (new now selfPeer otherPeer).run calls

end Router

end Distft
