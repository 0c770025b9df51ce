import Distft.Router.WellFormed

/-!
# The walks, case by case

Every fact about insertion and eviction is an induction over the same cases. Insertion finds its peer
in the leaf, adds it to a leaf with space, is refused by a full leaf, splits a full leaf, or goes on
from a joint; eviction finds its peer in the leaf, misses it, or goes on from a joint.
`insertLoop_induction` and `evictLoop_induction` state these once, over well-formed trees: a leaf is
`leafOf`, and a joint is a `fork` into the subtree that the walk takes and the one that it leaves.
-/

namespace Distft.BinaryTree

/-- The kbucket of a node. -/
def bucket : BinaryTree → List Peer
  | .null => []
  | .node _ _ _ _ kbucket _ _ => kbucket

/-- The subtree on the side of a bit. -/
def side (b : Bool) (zero one : BinaryTree) : BinaryTree := if b then one else zero

/-- A joint, by its subtree on the side of the bit `b` and the other one. -/
def fork (b : Bool) (s count : UInt32) (access : Time) (near far : BinaryTree) : BinaryTree :=
  if b then .node false s count access [] far near else .node false s count access [] near far

/-- The half of a bucket that `split` moves to the side of the bit `b`. -/
def half (b : Bool) (s : UInt32) (now : Time) (kbucket : List Peer) : BinaryTree :=
  leafOf (s - 1) now (kbucket.filter fun p => p.key.getLsbD s.toNat == b)

section Fork

variable {b : Bool} {s count : UInt32} {access : Time} {near far : BinaryTree}

/-- What a well-formed leaf is. -/
theorem wellFormed_leafOf_iff {path : List Bool} {s : UInt32} {access : Time}
    {kbucket : List Peer} :
    WellFormed path (leafOf s access kbucket) ↔ s.toNat + path.length + 1 = keyBits ∧
      kbucket.length ≤ kbucketMax ∧ (kbucket.map Peer.key).Nodup ∧
      ∀ p ∈ kbucket, keyPath p.key path.length = path := by
  constructor
  · intro h
    unfold leafOf at h
    cases h with
    | leaf hs hcount hlen hnodup hpath => exact ⟨hs, hlen, hnodup, hpath⟩
  · rintro ⟨hs, hlen, hnodup, hpath⟩
    exact .leaf hs rfl hlen hnodup hpath

@[simp]
theorem peers_leafOf {s : UInt32} {access : Time} {kbucket : List Peer} :
    (leafOf s access kbucket).peers = kbucket := by simp [leafOf, peers]

@[simp]
theorem leafFor_leafOf {s : UInt32} {access : Time} {kbucket : List Peer} {key : Key} :
    (leafOf s access kbucket).leafFor key = leafOf s access kbucket := by simp [leafOf, leafFor]

@[simp]
theorem bucket_leafOf {s : UInt32} {access : Time} {kbucket : List Peer} :
    (leafOf s access kbucket).bucket = kbucket := rfl

/-- A fork stores the peers of both sides. -/
theorem peers_fork : (fork b s count access near far).peers.Perm (near.peers ++ far.peers) := by
  cases b
  · simpa [fork, peers] using List.perm_append_comm
  · simp [fork, peers]

/-- A fork is one on the other side too. -/
theorem fork_comm : fork b s count access near far = fork (!b) s count access far near := by
  cases b <;> rfl

/-- The leaf of a key is on the side of its bit. -/
theorem leafFor_fork {key : Key} (hb : key.getLsbD s.toNat = b) :
    (fork b s count access near far).leafFor key = near.leafFor key := by
  cases b <;> simp [fork, leafFor, hb]

/-- A fork is well-formed when both of its sides are. -/
theorem wellFormed_fork_iff {path : List Bool} :
    WellFormed path (fork b s count access near far) ↔ s.toNat + path.length + 1 = keyBits ∧
      count = UInt32.ofNat (near.peers.length + far.peers.length) ∧
      WellFormed (path ++ [b]) near ∧ WellFormed (path ++ [!b]) far := by
  constructor
  · intro h
    unfold fork at h
    cases b with
    | false =>
      cases h with
      | joint hs hcount hzero hone => exact ⟨hs, by rw [hcount, Nat.add_comm], hzero, hone⟩
    | true =>
      cases h with
      | joint hs hcount hzero hone => exact ⟨hs, hcount, hone, hzero⟩
  · rintro ⟨hs, hcount, hnear, hfar⟩
    unfold fork
    cases b with
    | false => exact .joint hs (by rw [hcount, Nat.add_comm]) hnear hfar
    | true => exact .joint hs hcount hfar hnear

/-- A walk from a fork to the side of the bit. -/
theorem stepDown_fork {α : Type} (walk : BinaryTree → BinaryTree × α)
    (adjust : α → UInt32 → UInt32) :
    stepDown b walk adjust (fork b s count access near far) =
      (fork b s (adjust (walk near).2 count) access (walk near).1 far, (walk near).2) := by
  cases b <;> simp [fork, stepDown]

/-- `split` makes a fork of the two halves of the bucket. -/
theorem split_leafOf (b : Bool) (now : Time) (s : UInt32) (access : Time) (kbucket : List Peer) :
    split now (leafOf s access kbucket) =
      fork b s (UInt32.ofNat kbucket.length) access (half b s now kbucket)
        (half (!b) s now kbucket) := by
  rw [leafOf, split_eq]
  cases b <;> simp [fork, half]

/-- The two halves hold the bucket's peers. -/
theorem peers_halves (b : Bool) (s count : UInt32) (now access : Time) (kbucket : List Peer) :
    (fork b s count access (half b s now kbucket) (half (!b) s now kbucket)).peers.Perm
      kbucket := by
  refine peers_fork.trans ?_
  have hperm := List.filter_append_perm (fun p : Peer => p.key.getLsbD s.toNat == b) kbucket
  cases b <;> simpa [half] using hperm

/-- A joint is a fork on either side. -/
theorem node_eq_fork (b : Bool) (s count : UInt32) (access : Time) (zero one : BinaryTree) :
    node false s count access [] zero one =
      fork b s count access (side b zero one) (side (!b) zero one) := by
  cases b <;> rfl

end Fork

/-- The leaf of a key below a joint is on the side of its bit. -/
theorem leafFor_joint (key : Key) (s count : UInt32) (access : Time) (kbucket : List Peer)
    (zero one : BinaryTree) :
    leafFor key (.node false s count access kbucket zero one) =
      leafFor key (side (key.getLsbD s.toNat) zero one) := by
  rw [leafFor]
  cases key.getLsbD s.toNat <;> simp [side]

/-- The peers below a joint are those of its sides, in either order. -/
theorem peers_joint (b : Bool) (s count : UInt32) (access : Time) (zero one : BinaryTree) :
    ((side b zero one).peers ++ (side (!b) zero one).peers).Perm
      (node false s count access [] zero one).peers := by
  cases b with
  | false => simpa [side, peers] using List.perm_append_comm
  | true => simp [side, peers]

/-- The induction over a well-formed tree, with both sides of a joint as one case. -/
@[elab_as_elim]
theorem WellFormed.induction
    {motive : (path : List Bool) → (tree : BinaryTree) → WellFormed path tree → Prop}
    (leaf : ∀ path s count access kbucket
      (h : WellFormed path (.node true s count access kbucket .null .null)), motive path _ h)
    (joint : ∀ path s count access zero one
      (h : WellFormed path (.node false s count access [] zero one))
      (_ : s.toNat + path.length + 1 = keyBits)
      (hside : ∀ b, WellFormed (path ++ [b]) (side b zero one)),
      (∀ b, motive _ _ (hside b)) → motive path _ h)
    {path : List Bool} {tree : BinaryTree} (h : WellFormed path tree) : motive path tree h := by
  induction h with
  | leaf hs hcount hlen hnodup hpath => exact leaf _ _ _ _ _ (.leaf hs hcount hlen hnodup hpath)
  | joint hs hcount hzero hone ihz iho =>
    refine joint _ _ _ _ _ _ (.joint hs hcount hzero hone) hs
      (Bool.forall_bool.2 ⟨hzero, hone⟩) fun b => ?_
    cases b with
    | false => exact ihz
    | true => exact iho

/-- The own bucket holds peers of the tree. -/
theorem bucket_leafFor_subset {path : List Bool} {tree : BinaryTree} (h : WellFormed path tree)
    (searchKey : Key) : (tree.leafFor searchKey).bucket ⊆ tree.peers := by
  induction h using WellFormed.induction with
  | leaf path s count access kbucket hwf => simp [leafFor, bucket, peers]
  | joint path s count access zero one hwf hs hside ih =>
    rw [leafFor_joint]
    exact fun p hp => (peers_joint _ s count access zero one).subset
      (List.mem_append_left _ (ih (searchKey.getLsbD s.toNat) hp))

/-- A well-formed tree is a leaf or a fork on the side of any key. -/
theorem WellFormed.cases_fork {path : List Bool} {tree : BinaryTree} (h : WellFormed path tree)
    (key : Key) :
    (∃ s access kbucket, tree = leafOf s access kbucket) ∨
      ∃ s count access near far, tree = fork (key.getLsbD s.toNat) s count access near far := by
  cases h with
  | leaf hs hcount =>
    subst hcount
    exact .inl ⟨_, _, _, rfl⟩
  | joint => exact .inr ⟨_, _, _, _, _, node_eq_fork _ _ _ _ _ _⟩

/-! ## Buckets -/

/-- The position that the loops find holds the only peer that they look for. -/
theorem perm_of_findIdx? {kbucket : List Peer} {key : Key} {j : ℕ}
    (h : kbucket.findIdx? (fun p => p.key == key) = some j) :
    ∃ p, kbucket[j]? = some p ∧ p.key = key ∧ kbucket.Perm (p :: kbucket.eraseIdx j) := by
  obtain ⟨hj, hkey, -⟩ := List.findIdx?_eq_some_iff_getElem.1 h
  exact ⟨kbucket[j], List.getElem?_eq_getElem hj, by simpa using hkey,
    (List.getElem_cons_eraseIdx_perm hj).symm⟩

/-- Where the loops find nothing, no peer has the key. -/
theorem notMem_of_findIdx? {kbucket : List Peer} {key : Key}
    (h : kbucket.findIdx? (fun p => p.key == key) = none) : key ∉ kbucket.map Peer.key := by
  intro hmem
  obtain ⟨p, hp, hkey⟩ := List.mem_map.1 hmem
  have := List.findIdx?_eq_none_iff.1 h p hp
  simp [hkey] at this

/-- The endpoint update and the rotation put the peer, with its new endpoint, before the others. -/
theorem rotateToFront_setEndpoint {kbucket : List Peer} {j : ℕ} {p : Peer} (endpoint : Bytes)
    (h : kbucket[j]? = some p) :
    rotateToFront (setEndpoint kbucket j endpoint) j = ⟨p.key, endpoint⟩ :: kbucket.eraseIdx j := by
  obtain ⟨hj, hp⟩ := List.getElem?_eq_some_iff.1 h
  have hset : setEndpoint kbucket j endpoint =
      kbucket.take j ++ ⟨p.key, endpoint⟩ :: kbucket.drop (j + 1) := by
    rw [setEndpoint, List.modify_eq_take_cons_drop hj, hp]
  have hlen : (kbucket.take j).length = j := List.length_take_of_le hj.le
  have htake : (kbucket.take j ++ ⟨p.key, endpoint⟩ :: kbucket.drop (j + 1)).take (j + 1) =
      kbucket.take j ++ [⟨p.key, endpoint⟩] := by
    rw [List.take_append, hlen, List.take_of_length_le (by omega)]
    simp
  have hdrop : (kbucket.take j ++ ⟨p.key, endpoint⟩ :: kbucket.drop (j + 1)).drop (j + 1) =
      kbucket.drop (j + 1) := by
    rw [List.drop_append, hlen, List.drop_of_length_le (by omega)]
    simp
  have hrot := List.rotate_append_length_eq (kbucket.take j) [⟨p.key, endpoint⟩]
  rw [hlen] at hrot
  rw [rotateToFront, hset, htake, hdrop, hrot, List.eraseIdx_eq_take_drop_succ]
  rfl

/-! ## Insertion -/

/-- A tree has the position for a walk of the key. -/
structure Reached (path : List Bool) (tree : BinaryTree) (key : Key) : Prop where
  /-- The tree is well-formed there. -/
  tree : WellFormed path tree
  /-- The key's turns lead there. -/
  key : keyPath key path.length = path

/-- The walk goes on to the near side. -/
theorem Reached.near {path : List Bool} {s count : UInt32} {access : Time} {near far : BinaryTree}
    {key : Key} (h : Reached path (fork (key.getLsbD s.toNat) s count access near far) key) :
    Reached (path ++ [key.getLsbD s.toNat]) near key := by
  obtain ⟨hs, -, hnear, -⟩ := wellFormed_fork_iff.1 h.tree
  exact ⟨hnear, (keyPath_succ_iff hs).2 ⟨h.key, rfl⟩⟩

/-- No peer of the far side has the key. -/
theorem Reached.far_ne {path : List Bool} {s count : UInt32} {access : Time}
    {near far : BinaryTree} {key : Key}
    (h : Reached path (fork (key.getLsbD s.toNat) s count access near far) key) :
    ∀ p ∈ far.peers, p.key ≠ key := by
  obtain ⟨hs, -, -, hfar⟩ := wellFormed_fork_iff.1 h.tree
  rintro p hp rfl
  exact absurd (hfar.child_bit hs p hp) (by simp)

/-- The induction over the turns of a key from a node to its leaf. -/
theorem Reached.induction {key : Key} {motive : List Bool → BinaryTree → Prop}
    (leaf : ∀ path s access kbucket, Reached path (leafOf s access kbucket) key →
      motive path (leafOf s access kbucket))
    (fork : ∀ path b s count access near far, Reached path (fork b s count access near far) key →
      key.getLsbD s.toNat = b → motive (path ++ [b]) near →
      motive path (fork b s count access near far))
    {path : List Bool} {tree : BinaryTree} (h : Reached path tree key) : motive path tree := by
  obtain ⟨hwf, hkey⟩ := h
  induction hwf using WellFormed.induction with
  | leaf path s count access kbucket hwf =>
    obtain rfl : count = UInt32.ofNat kbucket.length := by
      cases hwf with
      | leaf hs hcount => exact hcount
    exact leaf path s access kbucket ⟨hwf, hkey⟩
  | joint path s count access zero one hwf hs hside ih =>
    rw [node_eq_fork (key.getLsbD s.toNat)] at hwf ⊢
    have hreached : Reached path _ key := ⟨hwf, hkey⟩
    exact fork path _ s count access _ _ hreached rfl (ih _ hreached.near.key)

/-- The leaf of a key holds just those stored peers whose turns lead there. -/
theorem Reached.leafFor {key : Key} {path : List Bool} {tree : BinaryTree}
    (h : Reached path tree key) :
    ∃ q s access kbucket, path.length ≤ q.length ∧ tree.leafFor key = leafOf s access kbucket ∧
      Reached q (leafOf s access kbucket) key ∧
      ∀ p, p ∈ kbucket ↔ p ∈ tree.peers ∧ keyPath p.key q.length = q := by
  refine Reached.induction (motive := fun path tree =>
    ∃ q s access kbucket, path.length ≤ q.length ∧ tree.leafFor key = leafOf s access kbucket ∧
      Reached q (leafOf s access kbucket) key ∧
      ∀ p, p ∈ kbucket ↔ p ∈ tree.peers ∧ keyPath p.key q.length = q) ?leaf ?fork h
  case leaf =>
    intro path s access kbucket h
    have hpath := (wellFormed_leafOf_iff.1 h.tree).2.2.2
    refine ⟨path, s, access, kbucket, le_rfl, leafFor_leafOf, h, fun p => ?_⟩
    rw [peers_leafOf]
    exact ⟨fun hp => ⟨hp, hpath p hp⟩, And.left⟩
  case fork =>
    intro path b s count access near far h hb ih
    obtain ⟨q, s', access', kbucket, hlen, hleaf, hreached, hmem⟩ := ih
    rw [List.length_append, List.length_singleton] at hlen
    refine ⟨q, s', access', kbucket, by omega, (leafFor_fork hb).trans hleaf, hreached, fun p => ?_⟩
    rw [hmem, peers_fork.mem_iff, List.mem_append]
    refine ⟨fun hp => ⟨.inl hp.1, hp.2⟩, fun hp => ⟨hp.1.resolve_right fun hfar => ?_, hp.2⟩⟩
    -- The far side has the other bit.
    obtain ⟨hs, -, -, hwf⟩ := wellFormed_fork_iff.1 h.tree
    have hbit := getLsbD_eq_of_keyPath (j := s.toNat) (hp.2.trans hreached.key.symm) (by omega)
    rw [hwf.child_bit hs p hfar, hb] at hbit
    simp at hbit

/-- The induction over the loop of `attempt_insert_peer`, with enough turns left to reach the last
bit. -/
theorem insertLoop_induction (selfKey : Key) (now : Time) (key : Key) (endpoint : Bytes)
    {motive : List Bool → BinaryTree → BinaryTree × Insertion → Prop}
    (updated : ∀ path s access kbucket j p, Reached path (leafOf s access kbucket) key →
      kbucket[j]? = some p → p.key = key → kbucket.Perm (p :: kbucket.eraseIdx j) →
      motive path (leafOf s access kbucket)
        (leafOf s now (⟨key, endpoint⟩ :: kbucket.eraseIdx j), .updated))
    (added : ∀ path s access kbucket, Reached path (leafOf s access kbucket) key →
      key ∉ kbucket.map Peer.key → kbucket.length < kbucketMax →
      motive path (leafOf s access kbucket) (leafOf s now (⟨key, endpoint⟩ :: kbucket), .added))
    (refused : ∀ path s access kbucket, Reached path (leafOf s access kbucket) key →
      key ∉ kbucket.map Peer.key → kbucket.length = kbucketMax →
      (key.getLsbD s.toNat = selfKey.getLsbD s.toNat → s = 0) →
      motive path (leafOf s access kbucket)
        (leafOf s access kbucket, .refused kbucket.getLast?))
    (split : ∀ path s access kbucket, Reached path (leafOf s access kbucket) key →
      key ∉ kbucket.map Peer.key → kbucket.length = kbucketMax → 0 < s →
      key.getLsbD s.toNat = selfKey.getLsbD s.toNat → ∀ b, b = key.getLsbD s.toNat → ∀ r,
      motive path (fork b s (UInt32.ofNat kbucket.length) access (half b s now kbucket)
        (half (!b) s now kbucket)) r →
      motive path (leafOf s access kbucket) r)
    (fork : ∀ path b s count access near far near' how,
      Reached path (fork b s count access near far) key → key.getLsbD s.toNat = b →
      motive (path ++ [b]) near (near', how) →
      motive path (fork b s count access near far)
        (fork b s (countAdded how count) access near' far, how))
    (i : ℕ) : ∀ {path : List Bool} {tree : BinaryTree}, Reached path tree key →
      keyBits ≤ i + path.length →
      motive path tree (insertLoop selfKey now key endpoint i tree) := by
  induction i with
  | zero =>
    intro path tree h hi
    have := h.tree.depth_lt
    omega
  | succ i ih =>
    intro path tree h hi
    -- The walk from a fork, be it in the tree or made by `split`.
    have hfork : ∀ {s count access near far},
        Reached path (BinaryTree.fork (key.getLsbD s.toNat) s count access near far) key →
        motive path (BinaryTree.fork (key.getLsbD s.toNat) s count access near far)
          (stepDown (key.getLsbD s.toNat) (insertLoop selfKey now key endpoint i) countAdded
            (BinaryTree.fork (key.getLsbD s.toNat) s count access near far)) := by
      intro s count access near far hreached
      rw [stepDown_fork]
      refine fork _ _ _ _ _ _ _ _ _ hreached rfl (ih hreached.near ?_)
      rw [List.length_append, List.length_singleton]
      omega
    rcases h.tree.cases_fork key with ⟨s, access, kbucket, rfl⟩ | ⟨s, count, access, near, far, rfl⟩
    · have hleaf := h.tree
      rw [leafOf] at hleaf
      cases hleaf with
      | leaf hs hcount hlen hnodup hpath =>
        unfold leafOf
        simp only [insertLoop, Bool.not_true, Bool.false_eq_true, if_false]
        cases hfind : kbucket.findIdx? (fun p => p.key == key) with
        | some j =>
          obtain ⟨p, hp, hpkey, hperm⟩ := perm_of_findIdx? hfind
          have hmotive := updated path s access kbucket j p h hp hpkey hperm
          have hlen' : (⟨key, endpoint⟩ :: kbucket.eraseIdx j : List Peer).length =
            kbucket.length := hperm.length_eq.symm
          simp only [rotateToFront_setEndpoint endpoint hp, hpkey]
          rwa [leafOf, leafOf, hlen'] at hmotive
        | none =>
          have hnew := notMem_of_findIdx? hfind
          by_cases hroom : kbucket.length < kbucketMax
          · have hmotive := added path s access kbucket h hnew hroom
            rw [leafOf, leafOf, List.length_cons, UInt32.ofNat_add] at hmotive
            simpa [hroom] using hmotive
          · have hfull : kbucket.length = kbucketMax := by omega
            simp only [hroom, if_false]
            split_ifs with hsplit
            · rw [Bool.and_eq_true, beq_iff_eq, decide_eq_true_eq] at hsplit
              refine split path s access kbucket h hnew hfull hsplit.2 hsplit.1 _ rfl _ ?_
              have hwf : WellFormed path (BinaryTree.split now (leafOf s access kbucket)) :=
                WellFormed.split now hsplit.2 h.tree
              rw [← leafOf, split_leafOf (key.getLsbD s.toNat)]
              rw [split_leafOf (key.getLsbD s.toNat)] at hwf
              exact hfork ⟨hwf, h.key⟩
            · refine refused path s access kbucket h hnew hfull fun hbit => ?_
              rw [Bool.and_eq_true, beq_iff_eq, decide_eq_true_eq, not_and] at hsplit
              simpa [UInt32.pos_iff_ne_zero] using hsplit hbit
    · have hjoint := hfork h
      unfold BinaryTree.fork at hjoint ⊢
      cases hb : key.getLsbD s.toNat
      · simpa [insertLoop, hb] using hjoint
      · simpa [insertLoop, hb] using hjoint

/-! ## Eviction -/

/-- At a leaf without the key the loop of `evict_peer` changes nothing, however many turns are
left. -/
theorem evictLoop_absent {key : Key} {kbucket : List Peer}
    (h : kbucket.findIdx? (fun p => p.key == key) = none) (i : ℕ) (s count : UInt32)
    (access : Time) (zero one : BinaryTree) :
    evictLoop key i (.node true s count access kbucket zero one) =
      (.node true s count access kbucket zero one, false) := by
  induction i with
  | zero => rfl
  | succ i ih => simp only [evictLoop, Bool.not_true, Bool.false_eq_true, if_false, h, ih]

/-- The induction over the loop of `evict_peer`, with enough turns left to reach the last bit. -/
theorem evictLoop_induction (key : Key)
    {motive : List Bool → BinaryTree → BinaryTree × Bool → Prop}
    (erased : ∀ path s access kbucket j p, Reached path (leafOf s access kbucket) key →
      kbucket[j]? = some p → p.key = key → kbucket.Perm (p :: kbucket.eraseIdx j) →
      motive path (leafOf s access kbucket) (leafOf s access (kbucket.eraseIdx j), true))
    (absent : ∀ path s access kbucket, Reached path (leafOf s access kbucket) key →
      key ∉ kbucket.map Peer.key →
      motive path (leafOf s access kbucket) (leafOf s access kbucket, false))
    (fork : ∀ path b s count access near far near' found,
      Reached path (fork b s count access near far) key → key.getLsbD s.toNat = b →
      motive (path ++ [b]) near (near', found) →
      motive path (fork b s count access near far)
        (fork b s (countErased found count) access near' far, found))
    (i : ℕ) : ∀ {path : List Bool} {tree : BinaryTree}, Reached path tree key →
      keyBits ≤ i + path.length → motive path tree (evictLoop key i tree) := by
  induction i with
  | zero =>
    intro path tree h hi
    have := h.tree.depth_lt
    omega
  | succ i ih =>
    intro path tree h hi
    rcases h.tree.cases_fork key with ⟨s, access, kbucket, rfl⟩ | ⟨s, count, access, near, far, rfl⟩
    · cases hfind : kbucket.findIdx? (fun p => p.key == key) with
      | some j =>
        obtain ⟨p, hp, hpkey, hperm⟩ := perm_of_findIdx? hfind
        have hmotive := erased path s access kbucket j p h hp hpkey hperm
        have hcount : UInt32.ofNat kbucket.length - 1 = UInt32.ofNat (kbucket.eraseIdx j).length := by
          rw [hperm.length_eq, List.length_cons, UInt32.ofNat_add]
          simp
        unfold leafOf at hmotive ⊢
        simpa only [evictLoop, Bool.not_true, Bool.false_eq_true, if_false, hfind, hcount]
          using hmotive
      | none =>
        unfold leafOf at h ⊢
        rw [evictLoop_absent hfind]
        exact absent path s access kbucket h (notMem_of_findIdx? hfind)
    · have hnear : motive (path ++ [key.getLsbD s.toNat]) near (evictLoop key i near) := by
        refine ih h.near ?_
        rw [List.length_append, List.length_singleton]
        omega
      have hjoint := fork path _ s count access near far _ _ h rfl hnear
      unfold BinaryTree.fork at hjoint ⊢
      cases hb : key.getLsbD s.toNat <;> rw [hb] at hjoint
      · simpa [evictLoop, stepDown, hb] using hjoint
      · simpa [evictLoop, stepDown, hb] using hjoint

end Distft.BinaryTree
