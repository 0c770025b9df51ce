import Distft.Router.Walks

/-!
# The invariant of the router

A router's table is well-formed from the root, and stores neither the router's own key nor its own
endpoint (`Router.Invariant`). The constructor establishes this and every call keeps it, so it holds
of every reachable router (`Reachable.invariant`). `attemptInsertPeer_cases` and `evictPeer_spec` say
what the two mutating calls can do, and every later result about them starts from these.

`closest_peers` writes access times only. Trees that differ in access times alone have the same
`withoutTimes`, and what does not read the times does not tell them apart.

`table_invariant` states the invariant node by node. The counters are unsigned 32-bit numbers, so
they count the stored peers modulo `2^32`; `Capacity.lean` shows that a table can hold that many.
-/

namespace Distft

namespace BinaryTree

/-- The tree with all access times cleared. -/
def withoutTimes : BinaryTree → BinaryTree
  | .null => .null
  | .node leaf s count _ kbucket zero one =>
    .node leaf s count 0 kbucket zero.withoutTimes one.withoutTimes

@[simp]
theorem peers_withoutTimes (tree : BinaryTree) : tree.withoutTimes.peers = tree.peers := by
  induction tree with
  | null => rfl
  | node leaf s count access kbucket zero one ihz iho => simp [withoutTimes, peers, ihz, iho]

@[simp]
theorem withoutTimes_eq_null {tree : BinaryTree} : tree.withoutTimes = .null ↔ tree = .null := by
  cases tree <;> simp [withoutTimes]

/-- Well-formedness does not read the access times. -/
theorem WellFormed.congr {path : List Bool} {tree tree' : BinaryTree} (h : WellFormed path tree)
    (heq : tree.withoutTimes = tree'.withoutTimes) : WellFormed path tree' := by
  induction h generalizing tree' with
  | leaf hs hcount hlen hnodup hpath =>
    cases tree' with
    | null => simp [withoutTimes] at heq
    | node leaf s count access kbucket zero one =>
      simp only [withoutTimes, node.injEq] at heq
      obtain ⟨rfl, rfl, rfl, -, rfl, hz, ho⟩ := heq
      obtain rfl : zero = .null := withoutTimes_eq_null.1 hz.symm
      obtain rfl : one = .null := withoutTimes_eq_null.1 ho.symm
      exact .leaf hs hcount hlen hnodup hpath
  | @joint path s count access zero0 one0 hs hcount hzero hone ihz iho =>
    cases tree' with
    | null => simp [withoutTimes] at heq
    | node leaf s count access kbucket zero one =>
      simp only [withoutTimes, node.injEq] at heq
      obtain ⟨rfl, rfl, rfl, -, rfl, hz, ho⟩ := heq
      have hpz : zero0.peers = zero.peers := by rw [← peers_withoutTimes, hz, peers_withoutTimes]
      have hpo : one0.peers = one.peers := by rw [← peers_withoutTimes, ho, peers_withoutTimes]
      exact .joint hs (by rw [hcount, hpz, hpo]) (ihz hz) (iho ho)

/-- `tree_closest_peers` changes access times only. -/
theorem treeClosestPeers_withoutTimes (now : Time) (searchKey : Key) (n : UInt32)
    (tree : BinaryTree) (buffer : List Peer) :
    (tree.treeClosestPeers now searchKey n buffer).1.withoutTimes = tree.withoutTimes := by
  induction tree generalizing n buffer with
  | null => rfl
  | node leaf s count access kbucket zero one ihz iho =>
    rw [treeClosestPeers]
    split_ifs <;> simp [withoutTimes, ihz, iho]

end BinaryTree

namespace Router

open Distft.BinaryTree

/-- The invariant of the router. -/
structure Invariant (r : Router) : Prop where
  /-- The table is well-formed from the root. -/
  table : r.table.WellFormed []
  /-- No stored peer has the router's own key. -/
  key_ne_self : ∀ p ∈ r.table.peers, p.key ≠ r.selfPeer.key
  /-- No stored peer has the router's own endpoint. -/
  endpoint_ne_self : ∀ p ∈ r.table.peers, p.endpoint ≠ r.selfPeer.endpoint

/-- Every walk begins at the root. -/
theorem Invariant.reached {r : Router} (h : r.Invariant) (key : Key) : Reached [] r.table key :=
  ⟨h.table, rfl⟩

/-- `all_peers` enumerates the stored peers. -/
theorem Invariant.allPeers_eq {r : Router} (h : r.Invariant) : r.allPeers = r.table.peers := by
  rw [allPeers, h.table.treeAllPeers_eq, List.nil_append]

/-- The insertion stored the peer. -/
def stored : Insertion → Bool
  | .updated => true
  | .added => true
  | .refused _ => false
  | .exhausted => false

/-- The peer that the out pointer is set to. -/
def lruOf : Insertion → Option Peer
  | .updated => none
  | .added => none
  | .refused lru => lru
  | .exhausted => none

/-- For a peer other than the router itself `attempt_insert_peer` is its loop. -/
theorem attemptInsertPeer_eq {r : Router} {key : Key} {endpoint : Bytes} (now : Time)
    (hself : ¬(key = r.selfPeer.key ∨ endpoint = r.selfPeer.endpoint)) :
    r.attemptInsertPeer now key endpoint =
      (stored (insertLoop r.selfPeer.key now key endpoint keyBits r.table).2,
        lruOf (insertLoop r.selfPeer.key now key endpoint keyBits r.table).2,
        { r with table := (insertLoop r.selfPeer.key now key endpoint keyBits r.table).1 }) := by
  rw [attemptInsertPeer, if_neg hself]
  rcases insertLoop r.selfPeer.key now key endpoint keyBits r.table with ⟨table, _ | _ | _ | _⟩ <;>
    rfl

/-- However the loop of `attempt_insert_peer` ends, the router has its tree. -/
theorem attemptInsertPeer_table {r : Router} {key : Key} {endpoint : Bytes} (now : Time)
    (hself : ¬(key = r.selfPeer.key ∨ endpoint = r.selfPeer.endpoint)) :
    (r.attemptInsertPeer now key endpoint).2.2.table =
      (insertLoop r.selfPeer.key now key endpoint keyBits r.table).1 := by
  rw [attemptInsertPeer_eq now hself]

/-- A call that returns false was refused at the full leaf of its key, and sets the out pointer to the
last peer of that leaf. -/
theorem attemptInsertPeer_refused {r : Router} (h : r.Invariant) {now : Time} {key : Key}
    {endpoint : Bytes} (hfalse : (r.attemptInsertPeer now key endpoint).1 = false) :
    ¬(key = r.selfPeer.key ∨ endpoint = r.selfPeer.endpoint) ∧
      ∃ lru, (r.attemptInsertPeer now key endpoint).2.1 = some lru ∧
        FullFor key lru (r.attemptInsertPeer now key endpoint).2.2.table := by
  by_cases hself : key = r.selfPeer.key ∨ endpoint = r.selfPeer.endpoint
  · rw [attemptInsertPeer, if_pos hself] at hfalse
    exact nomatch hfalse
  refine ⟨hself, ?_⟩
  obtain ⟨-, hins⟩ := insertLoop_spec r.selfPeer.key now key endpoint keyBits (h.reached key)
    le_self_add
  have hrefused := @insertLoop_refused r.selfPeer.key now key endpoint keyBits [] r.table
    (h.reached key) le_self_add
  rw [attemptInsertPeer_eq now hself] at hfalse ⊢
  generalize insertLoop r.selfPeer.key now key endpoint keyBits r.table = out at *
  obtain ⟨table, how⟩ := out
  simp only at hins hrefused hfalse ⊢
  cases hins with
  | updated => exact nomatch hfalse
  | added => exact nomatch hfalse
  | refused => exact hrefused rfl

/-- What `attempt_insert_peer` does to a router with the invariant: nothing for the router's own key
or endpoint, and else it stores the peer and returns true, or returns false, sets the out pointer to
a stored peer, and keeps the peers. -/
theorem attemptInsertPeer_cases {r : Router} (h : r.Invariant) (now : Time) (key : Key)
    (endpoint : Bytes) :
    ((key = r.selfPeer.key ∨ endpoint = r.selfPeer.endpoint) ∧
      r.attemptInsertPeer now key endpoint = (true, none, r)) ∨
    (¬(key = r.selfPeer.key ∨ endpoint = r.selfPeer.endpoint) ∧
      ∃ table, table.WellFormed [] ∧
        ((∃ how, (how = .updated ∨ how = .added) ∧
            Inserted key endpoint r.table.peers table.peers how ∧
            r.attemptInsertPeer now key endpoint = (true, none, { r with table })) ∨
          (∃ lru, Inserted key endpoint r.table.peers table.peers (.refused (some lru)) ∧
            r.attemptInsertPeer now key endpoint = (false, some lru, { r with table })))) := by
  by_cases hself : key = r.selfPeer.key ∨ endpoint = r.selfPeer.endpoint
  · exact .inl ⟨hself, by rw [attemptInsertPeer, if_pos hself]⟩
  · refine .inr ⟨hself, ?_⟩
    obtain ⟨hwf, hins⟩ := insertLoop_spec r.selfPeer.key now key endpoint keyBits (h.reached key)
      le_self_add
    rcases hloop : insertLoop r.selfPeer.key now key endpoint keyBits r.table with ⟨table, how⟩
    rw [hloop] at hwf hins
    refine ⟨table, hwf, ?_⟩
    have hcall := attemptInsertPeer.eq_def now key endpoint r
    rw [if_neg hself, hloop] at hcall
    cases hins with
    | updated hkey hb ha => exact .inl ⟨_, .inl rfl, .updated hkey hb ha, hcall⟩
    | added hnew ha => exact .inl ⟨_, .inr rfl, .added hnew ha, hcall⟩
    | refused hnew ha hlru => exact .inr ⟨_, .refused hnew ha hlru, hcall⟩

/-- The peers after an insertion are the inserted one and peers stored before. -/
theorem mem_of_inserted {key : Key} {endpoint : Bytes} {before after : List Peer} {how : Insertion}
    (h : Inserted key endpoint before after how) :
    ∀ p ∈ after, p = ⟨key, endpoint⟩ ∨ p ∈ before := by
  intro p hp
  cases h with
  | updated hkey hb ha =>
    rcases List.mem_cons.1 (ha.mem_iff.1 hp) with rfl | hp
    · exact .inl rfl
    · exact .inr (hb.mem_iff.2 (List.mem_cons_of_mem _ hp))
  | added hnew ha => exact List.mem_cons.1 (ha.mem_iff.1 hp)
  | refused hnew ha hlru => exact .inr (ha.mem_iff.1 hp)

/-- `attempt_insert_peer` keeps the invariant and the router's own peer. -/
theorem attemptInsertPeer_invariant {r : Router} (h : r.Invariant) (now : Time) (key : Key)
    (endpoint : Bytes) :
    (r.attemptInsertPeer now key endpoint).2.2.Invariant ∧
      (r.attemptInsertPeer now key endpoint).2.2.selfPeer = r.selfPeer := by
  rcases attemptInsertPeer_cases h now key endpoint with
    ⟨-, hcall⟩ | ⟨hself, table, hwf, ⟨how, -, hins, hcall⟩ | ⟨lru, hins, hcall⟩⟩
  · rw [hcall]
    exact ⟨h, rfl⟩
  all_goals
    rw [hcall]
    refine ⟨⟨hwf, fun p hp => ?_, fun p hp => ?_⟩, rfl⟩
    · rcases mem_of_inserted hins p hp with rfl | hp
      · exact fun hk => hself (.inl hk)
      · exact h.key_ne_self p hp
    · rcases mem_of_inserted hins p hp with rfl | hp
      · exact fun he => hself (.inr he)
      · exact h.endpoint_ne_self p hp

/-- What `evict_peer` does to a router with the invariant: it removes the peer with the key, if there
is one, and keeps the others. -/
theorem evictPeer_spec {r : Router} (h : r.Invariant) (key : Key) :
    ∃ table found, r.evictPeer key = { r with table } ∧ table.WellFormed [] ∧
      Erased key r.table.peers table.peers found := by
  by_cases hself : key = r.selfPeer.key
  · refine ⟨r.table, false, by rw [evictPeer, if_pos hself], h.table, .absent ?_ (.refl _)⟩
    intro hmem
    obtain ⟨p, hp, hkey⟩ := List.mem_map.1 hmem
    exact h.key_ne_self p hp (hkey.trans hself)
  · obtain ⟨hwf, her⟩ := evictLoop_spec key keyBits (h.reached key) le_self_add
    exact ⟨_, _, by rw [evictPeer, if_neg hself], hwf, her⟩

/-- The peers after an eviction were stored before. -/
theorem mem_of_erased {key : Key} {before after : List Peer} {found : Bool}
    (h : Erased key before after found) : ∀ p ∈ after, p ∈ before := by
  intro p hp
  cases h with
  | erased hkey hb => exact hb.mem_iff.2 (List.mem_cons_of_mem _ hp)
  | absent habsent ha => exact ha.mem_iff.1 hp

/-- `evict_peer` keeps the invariant and the router's own peer. -/
theorem evictPeer_invariant {r : Router} (h : r.Invariant) (key : Key) :
    (r.evictPeer key).Invariant ∧ (r.evictPeer key).selfPeer = r.selfPeer := by
  obtain ⟨table, found, hcall, hwf, her⟩ := evictPeer_spec h key
  rw [hcall]
  exact ⟨⟨hwf, fun p hp => h.key_ne_self p (mem_of_erased her p hp),
    fun p hp => h.endpoint_ne_self p (mem_of_erased her p hp)⟩, rfl⟩

/-- `closest_peers` keeps everything but access times. -/
theorem closestPeers_withoutTimes (now : Time) (searchKey : Key) (n : UInt32) (r : Router) :
    (r.closestPeers now searchKey n).2.table.withoutTimes = r.table.withoutTimes ∧
      (r.closestPeers now searchKey n).2.selfPeer = r.selfPeer :=
  ⟨treeClosestPeers_withoutTimes now searchKey n r.table [], rfl⟩

/-- A router with the same peers and table, but for access times, has the invariant too. -/
theorem Invariant.congr {r r' : Router} (h : r.Invariant)
    (htable : r'.table.withoutTimes = r.table.withoutTimes) (hself : r'.selfPeer = r.selfPeer) :
    r'.Invariant := by
  have hpeers : r'.table.peers = r.table.peers := by
    rw [← peers_withoutTimes, htable, peers_withoutTimes]
  refine ⟨h.table.congr htable.symm, ?_, ?_⟩
  · rw [hpeers, hself]
    exact h.key_ne_self
  · rw [hpeers, hself]
    exact h.endpoint_ne_self

/-- Every call keeps the invariant and the router's own peer. -/
theorem step_invariant {r : Router} (h : r.Invariant) (call : Call) :
    (r.step call).Invariant ∧ (r.step call).selfPeer = r.selfPeer := by
  cases call with
  | insert now key endpoint => exact attemptInsertPeer_invariant h now key endpoint
  | evict key => exact evictPeer_invariant h key
  | closest now searchKey n =>
    obtain ⟨htable, hself⟩ := closestPeers_withoutTimes now searchKey n r
    exact ⟨h.congr htable hself, hself⟩

/-- No call changes the router's own peer. -/
theorem step_selfPeer (r : Router) (call : Call) : (r.step call).selfPeer = r.selfPeer := by
  cases call with
  | insert now key endpoint =>
    show (r.attemptInsertPeer now key endpoint).2.2.selfPeer = r.selfPeer
    unfold attemptInsertPeer
    split_ifs
    · rfl
    · split <;> rfl
  | evict key =>
    show (r.evictPeer key).selfPeer = r.selfPeer
    unfold evictPeer
    split_ifs <;> rfl
  | closest now searchKey n => rfl

/-- A router with an empty root leaf, as the constructor makes it before the first insertion. -/
def bare (now : Time) (selfPeer : Peer) : Router :=
  ⟨selfPeer, .new (UInt32.ofNat (keyBits - 1)) now⟩

/-- An empty root leaf has the invariant. -/
theorem bare_invariant (now : Time) (selfPeer : Peer) : (bare now selfPeer).Invariant where
  table := .leaf (by decide) rfl (by simp) (by simp) (by simp)
  key_ne_self := by simp [bare, BinaryTree.new, peers]
  endpoint_ne_self := by simp [bare, BinaryTree.new, peers]

/-- The constructor is the first insertion into an empty root leaf. -/
theorem run_new (now : Time) (selfPeer otherPeer : Peer) (calls : List Call) :
    (new now selfPeer otherPeer).run calls =
      (bare now selfPeer).run (.insert now otherPeer.key otherPeer.endpoint :: calls) := rfl

/-- A run keeps the invariant and the router's own peer. -/
theorem run_invariant {r : Router} (h : r.Invariant) (calls : List Call) :
    (r.run calls).Invariant ∧ (r.run calls).selfPeer = r.selfPeer := by
  have hstep : ∀ (r' : Router) call, r'.Invariant ∧ r'.selfPeer = r.selfPeer →
      (r'.step call).Invariant ∧ (r'.step call).selfPeer = r.selfPeer := fun r' call h' =>
    ⟨(step_invariant h'.1 call).1, (step_invariant h'.1 call).2.trans h'.2⟩
  exact Runs.run_invariant hstep ⟨h, rfl⟩ calls

/-- Every reachable router has the invariant. -/
theorem Reachable.invariant {r : Router} (h : r.Reachable) : r.Invariant := by
  obtain ⟨now, selfPeer, otherPeer, calls, rfl⟩ := h
  rw [run_new]
  exact (run_invariant (bare_invariant now selfPeer) _).1

/-- The representation invariant, node by node. A node is `tree.nodeAt path`, at the depth
`path.length`. -/
structure TableInvariant (r : Router) : Prop where
  /-- A node at depth `d` splits on bit `KEYBITS - 1 - d`, which is not below bit 0. -/
  splitBitIndex : ∀ path leaf s count access kbucket zero one,
    r.table.nodeAt path = .node leaf s count access kbucket zero one →
      path.length < keyBits ∧ s.toNat = keyBits - 1 - path.length
  /-- A joint has two children and an empty kbucket. -/
  joint : ∀ path s count access kbucket zero one,
    r.table.nodeAt path = .node false s count access kbucket zero one →
      kbucket = [] ∧ zero ≠ .null ∧ one ≠ .null
  /-- A peer is in the leaf that the bits of its own key lead to. -/
  placed : ∀ path leaf s count access kbucket zero one,
    r.table.nodeAt path = .node leaf s count access kbucket zero one →
      ∀ p ∈ kbucket, leaf = true ∧ path = keyPath p.key path.length
  /-- No key occurs twice. -/
  unique : (r.table.peers.map Peer.key).Nodup
  /-- A leaf holds at most `KBUCKET_MAX` peers. -/
  bucket : ∀ path s count access kbucket zero one,
    r.table.nodeAt path = .node true s count access kbucket zero one → kbucket.length ≤ kbucketMax
  /-- A node's `key_count` is the number of peers below it, as an unsigned 32-bit number. -/
  keyCount : ∀ path, r.table.nodeAt path ≠ .null →
    (r.table.nodeAt path).keyCount = UInt32.ofNat (r.table.nodeAt path).peers.length
  /-- No stored peer has the router's own key. -/
  key_ne_self : ∀ p ∈ r.table.peers, p.key ≠ r.selfPeer.key
  /-- No stored peer has the router's own endpoint. -/
  endpoint_ne_self : ∀ p ∈ r.table.peers, p.endpoint ≠ r.selfPeer.endpoint

/-- The invariant holds after every sequence of calls, whatever the keys and the endpoints. -/
theorem table_invariant (now : Time) (selfPeer otherPeer : Peer) (calls : List Call) :
    ((new now selfPeer otherPeer).run calls).TableInvariant := by
  have h : ((new now selfPeer otherPeer).run calls).Invariant :=
    Reachable.invariant ⟨now, selfPeer, otherPeer, calls, rfl⟩
  generalize (new now selfPeer otherPeer).run calls = r at h
  have hnode : ∀ path, r.table.nodeAt path ≠ .null → WellFormed path (r.table.nodeAt path) :=
    fun path hne => by simpa using h.table.nodeAt hne
  refine ⟨?_, ?_, ?_, h.table.keys_nodup, ?_, fun path hne => (hnode path hne).keyCount_eq,
    h.key_ne_self, h.endpoint_ne_self⟩
  · intro path leaf s count access kbucket zero one hat
    have hwf := hnode path (by simp [hat])
    rw [hat] at hwf
    cases hwf with
    | leaf hs => exact ⟨by omega, by omega⟩
    | joint hs => exact ⟨by omega, by omega⟩
  · intro path s count access kbucket zero one hat
    have hwf := hnode path (by simp [hat])
    rw [hat] at hwf
    cases hwf with
    | joint hs hcount hzero hone =>
      refine ⟨rfl, ?_, ?_⟩
      · rintro rfl
        cases hzero
      · rintro rfl
        cases hone
  · intro path leaf s count access kbucket zero one hat p hp
    have hwf := hnode path (by simp [hat])
    rw [hat] at hwf
    cases hwf with
    | leaf hs hcount hlen hnodup hpath => exact ⟨rfl, (hpath p hp).symm⟩
    | joint => simp at hp
  · intro path s count access kbucket zero one hat
    have hwf := hnode path (by simp [hat])
    rw [hat] at hwf
    cases hwf with
    | leaf hs hcount hlen => exact hlen

end Router

end Distft
