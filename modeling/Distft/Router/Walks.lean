import Distft.Router.Induction

/-!
# The insertion and eviction walks

What the loops of `attempt_insert_peer` and `evict_peer` do to a well-formed table. Both walk down
the turns of their key, change one leaf, and climb back to adjust the counters. `Inserted` and
`Erased` say what happens to the stored peers for each way that the loop can end; neither has a case
for a loop that runs out of turns, so `insertLoop_spec` and `evictLoop_spec` also say that
`KEYBITS` turns always reach the right leaf.
-/

namespace Distft.BinaryTree

/-- A walk's effect on the stored peers, before and after, that does not depend on what peers with
other keys are stored besides, and that `adjust` counts. -/
structure LocalEffect {α : Type} (key : Key) (adjust : α → UInt32 → UInt32)
    (R : List Peer → List Peer → α → Prop) : Prop where
  /-- The effect is the same among more peers with other keys, in any order. -/
  frame : ∀ {b a rest B A : List Peer} {r : α}, R b a r → (∀ p ∈ rest, p.key ≠ key) →
    B.Perm (b ++ rest) → A.Perm (a ++ rest) → R B A r
  /-- The counter follows the number of peers. -/
  count : ∀ {b a : List Peer} {r : α}, R b a r →
    adjust r (UInt32.ofNat b.length) = UInt32.ofNat a.length

/-- A walk that keeps the near side of a fork well-formed and has a local effect on it keeps the fork
well-formed and has the effect on the fork. -/
theorem LocalEffect.fork {α : Type} {key : Key} {adjust : α → UInt32 → UInt32}
    {R : List Peer → List Peer → α → Prop} (hR : LocalEffect key adjust R) {path : List Bool}
    {b : Bool} {s count : UInt32} {access : Time} {near far near' : BinaryTree} {r : α}
    (h : Reached path (fork b s count access near far) key) (hb : key.getLsbD s.toNat = b)
    (hnear' : WellFormed (path ++ [b]) near') (hr : R near.peers near'.peers r) :
    WellFormed path (BinaryTree.fork b s (adjust r count) access near' far) ∧
      R (BinaryTree.fork b s count access near far).peers
        (BinaryTree.fork b s (adjust r count) access near' far).peers r := by
  subst hb
  obtain ⟨hs, hcount, -, hfar⟩ := wellFormed_fork_iff.1 h.tree
  have hboth : R (near.peers ++ far.peers) (near'.peers ++ far.peers) r :=
    hR.frame hr h.far_ne (.refl _) (.refl _)
  have hnone : ∀ p ∈ ([] : List Peer), p.key ≠ key := by simp
  refine ⟨wellFormed_fork_iff.2 ⟨hs, ?_, hnear', hfar⟩, hR.frame hboth hnone ?_ ?_⟩
  · rw [hcount, ← List.length_append, ← List.length_append]
    exact hR.count hboth
  · simpa using peers_fork
  · simpa using peers_fork

/-! ## Insertion -/

/-- What the insertion of `key` with `endpoint` does to the stored peers, for each way that its loop
ends. -/
inductive Inserted (key : Key) (endpoint : Bytes) (before after : List Peer) : Insertion → Prop
  /-- The stored peer with the key has the new endpoint. -/
  | updated {rest : List Peer} {p : Peer} (hkey : p.key = key) (hbefore : before.Perm (p :: rest))
      (hafter : after.Perm (⟨key, endpoint⟩ :: rest)) : Inserted key endpoint before after .updated
  /-- The key was not stored, and the peer is stored besides the others. -/
  | added (hnew : key ∉ before.map Peer.key) (hafter : after.Perm (⟨key, endpoint⟩ :: before)) :
      Inserted key endpoint before after .added
  /-- The key is not stored, the peers are the same, and `lru` is one of them. -/
  | refused {lru : Peer} (hnew : key ∉ before.map Peer.key) (hafter : after.Perm before)
      (hlru : lru ∈ before) : Inserted key endpoint before after (.refused (some lru))

/-- A key that no peer has is not among the peers' keys. -/
theorem notMem_map_key {rest : List Peer} {key : Key} (h : ∀ p ∈ rest, p.key ≠ key) :
    key ∉ rest.map Peer.key := by
  intro hmem
  obtain ⟨p, hp, hkey⟩ := List.mem_map.1 hmem
  exact h p hp hkey

/-- The effect of an insertion is local. -/
theorem Inserted.localEffect (key : Key) (endpoint : Bytes) :
    LocalEffect key countAdded (Inserted key endpoint) where
  frame {b a rest B A r} h hrest hB hA := by
    have hnotMem : key ∉ b.map Peer.key → key ∉ B.map Peer.key := by
      intro hb hmem
      rw [(hB.map Peer.key).mem_iff, List.map_append, List.mem_append] at hmem
      exact hmem.elim hb (notMem_map_key hrest)
    cases h with
    | updated hkey hbefore hafter =>
      exact .updated hkey (hB.trans (hbefore.append_right rest)) (hA.trans (hafter.append_right rest))
    | added hnew hafter =>
      exact .added (hnotMem hnew) (hA.trans ((hafter.append_right rest).trans (hB.symm.cons _)))
    | refused hnew hafter hlru =>
      exact .refused (hnotMem hnew) (hA.trans ((hafter.append_right rest).trans hB.symm))
        (hB.mem_iff.2 (List.mem_append_left rest hlru))
  count {b a r} h := by
    cases h with
    | updated hkey hbefore hafter =>
      simp [countAdded, hbefore.length_eq, hafter.length_eq]
    | added hnew hafter => simp [countAdded, hafter.length_eq, UInt32.ofNat_add]
    | refused hnew hafter => simp [countAdded, hafter.length_eq]

/-- The loop of `attempt_insert_peer` on a well-formed table, with enough turns left to reach the
last bit: the table stays well-formed, and the loop ends in one of the ways of `Inserted`. -/
theorem insertLoop_spec (selfKey : Key) (now : Time) (key : Key) (endpoint : Bytes) (i : ℕ)
    {path : List Bool} {tree : BinaryTree} (h : Reached path tree key)
    (hi : keyBits ≤ i + path.length) :
    WellFormed path (insertLoop selfKey now key endpoint i tree).1 ∧
      Inserted key endpoint tree.peers (insertLoop selfKey now key endpoint i tree).1.peers
        (insertLoop selfKey now key endpoint i tree).2 := by
  have hlocal := Inserted.localEffect key endpoint
  refine insertLoop_induction selfKey now key endpoint
    (motive := fun path tree r => WellFormed path r.1 ∧ Inserted key endpoint tree.peers r.1.peers r.2)
    ?updated ?added ?refused ?split ?fork i h hi
  case updated =>
    intro path s access kbucket j p h hp hpkey hperm
    obtain ⟨hs, hlen, hnodup, hpath⟩ := wellFormed_leafOf_iff.1 h.tree
    have hkeys : (⟨key, endpoint⟩ :: kbucket.eraseIdx j : List Peer).map Peer.key =
        (p :: kbucket.eraseIdx j).map Peer.key := by simp [hpkey]
    refine ⟨wellFormed_leafOf_iff.2 ⟨hs, hperm.length_eq.symm.trans_le hlen, ?_, ?_⟩, ?_⟩
    · rw [hkeys]
      exact (hperm.map Peer.key).nodup_iff.1 hnodup
    · exact List.forall_mem_cons.2 ⟨h.key, fun q hq => hpath q (List.mem_of_mem_eraseIdx hq)⟩
    · rw [peers_leafOf, peers_leafOf]
      exact .updated hpkey hperm (.refl _)
  case added =>
    intro path s access kbucket h hnew hroom
    obtain ⟨hs, hlen, hnodup, hpath⟩ := wellFormed_leafOf_iff.1 h.tree
    refine ⟨wellFormed_leafOf_iff.2 ⟨hs, hroom, ?_, ?_⟩, ?_⟩
    · exact List.nodup_cons.2 ⟨hnew, hnodup⟩
    · exact List.forall_mem_cons.2 ⟨h.key, hpath⟩
    · rw [peers_leafOf, peers_leafOf]
      exact .added hnew (.refl _)
  case refused =>
    intro path s access kbucket h hnew hfull _
    have hne : kbucket ≠ [] := List.ne_nil_of_length_pos (by rw [hfull]; decide)
    rw [List.getLast?_eq_some_getLast hne, peers_leafOf]
    exact ⟨h.tree, .refused hnew (.refl _) (List.getLast_mem hne)⟩
  case split =>
    intro path s access kbucket h hnew hfull hpos hbit b hb r hr
    have hnone : ∀ p ∈ ([] : List Peer), p.key ≠ key := by simp
    rw [peers_leafOf]
    refine ⟨hr.1, hlocal.frame hr.2 hnone ?_ (by simp)⟩
    simpa using (peers_halves b s _ now access kbucket).symm
  case fork =>
    intro path b s count access near far near' how h hb hr
    exact hlocal.fork h hb hr.1 hr.2

/-- The leaf of the key is full of peers with other keys, and `lru` is the last of them. -/
def FullFor (key : Key) (lru : Peer) (tree : BinaryTree) : Prop :=
  ∃ s access kbucket, tree.leafFor key = leafOf s access kbucket ∧ kbucket.length = kbucketMax ∧
    key ∉ kbucket.map Peer.key ∧ kbucket.getLast? = some lru

/-- A refused insertion leaves the leaf of its key full, and reports the last peer of that leaf. -/
theorem insertLoop_refused (selfKey : Key) (now : Time) (key : Key) (endpoint : Bytes) (i : ℕ)
    {path : List Bool} {tree : BinaryTree} (h : Reached path tree key)
    (hi : keyBits ≤ i + path.length) {lru : Option Peer}
    (hrefused : (insertLoop selfKey now key endpoint i tree).2 = .refused lru) :
    ∃ p, lru = some p ∧ FullFor key p (insertLoop selfKey now key endpoint i tree).1 := by
  refine insertLoop_induction selfKey now key endpoint
    (motive := fun _ _ r => r.2 = .refused lru → ∃ p, lru = some p ∧ FullFor key p r.1)
    ?updated ?added ?refused ?split ?fork i h hi hrefused
  case updated => exact fun _ _ _ _ _ _ _ _ _ _ hr => nomatch hr
  case added => exact fun _ _ _ _ _ _ _ hr => nomatch hr
  case refused =>
    rintro path s access kbucket - hnew hfull - hr
    have hne : kbucket ≠ [] := List.ne_nil_of_length_pos (by rw [hfull]; decide)
    have hlast := List.getLast?_eq_some_getLast hne
    exact ⟨_, (Insertion.refused.inj hr).symm.trans hlast, s, access, kbucket, leafFor_leafOf, hfull,
      hnew, hlast⟩
  case split => exact fun _ _ _ _ _ _ _ _ _ _ _ _ ih => ih
  case fork =>
    intro path b s count access near far near' how _ hb ih hr
    obtain ⟨p, hp, hfull⟩ := ih hr
    refine ⟨p, hp, ?_⟩
    rwa [FullFor, leafFor_fork hb]

/-! ## Eviction -/

/-- What the eviction of `key` does to the stored peers, for each result of its loop. -/
inductive Erased (key : Key) (before after : List Peer) : Bool → Prop
  /-- The stored peer with the key is gone. -/
  | erased {p : Peer} (hkey : p.key = key) (hbefore : before.Perm (p :: after)) :
      Erased key before after true
  /-- The key was not stored, and the peers are the same. -/
  | absent (habsent : key ∉ before.map Peer.key) (hafter : after.Perm before) :
      Erased key before after false

/-- The effect of an eviction is local. -/
theorem Erased.localEffect (key : Key) : LocalEffect key countErased (Erased key) where
  frame {b a rest B A r} h hrest hB hA := by
    cases h with
    | erased hkey hbefore =>
      exact .erased hkey (hB.trans ((hbefore.append_right rest).trans (hA.symm.cons _)))
    | absent habsent hafter =>
      refine .absent ?_ (hA.trans ((hafter.append_right rest).trans hB.symm))
      intro hmem
      rw [(hB.map Peer.key).mem_iff, List.map_append, List.mem_append] at hmem
      exact hmem.elim habsent (notMem_map_key hrest)
  count {b a r} h := by
    cases h with
    | erased hkey hbefore => simp [countErased, hbefore.length_eq, UInt32.ofNat_add]
    | absent habsent hafter => simp [countErased, hafter.length_eq]

/-- The loop of `evict_peer` on a well-formed table, with enough turns left to reach the last bit:
the table stays well-formed, and the loop ends in one of the ways of `Erased`. -/
theorem evictLoop_spec (key : Key) (i : ℕ) {path : List Bool} {tree : BinaryTree}
    (h : Reached path tree key) (hi : keyBits ≤ i + path.length) :
    WellFormed path (evictLoop key i tree).1 ∧
      Erased key tree.peers (evictLoop key i tree).1.peers (evictLoop key i tree).2 := by
  refine evictLoop_induction key
    (motive := fun path tree r => WellFormed path r.1 ∧ Erased key tree.peers r.1.peers r.2)
    ?erased ?absent ?fork i h hi
  case erased =>
    intro path s access kbucket j p h hp hpkey hperm
    obtain ⟨hs, hlen, hnodup, hpath⟩ := wellFormed_leafOf_iff.1 h.tree
    have hsub := List.eraseIdx_sublist kbucket j
    rw [peers_leafOf, peers_leafOf]
    refine ⟨wellFormed_leafOf_iff.2 ⟨hs, hsub.length_le.trans hlen, ?_, ?_⟩, .erased hpkey hperm⟩
    · exact hnodup.sublist (hsub.map Peer.key)
    · exact fun q hq => hpath q (List.mem_of_mem_eraseIdx hq)
  case absent =>
    intro path s access kbucket h habsent
    rw [peers_leafOf]
    exact ⟨h.tree, .absent habsent (.refl _)⟩
  case fork =>
    intro path b s count access near far near' found h hb hr
    exact (Erased.localEffect key).fork h hb hr.1 hr.2

end Distft.BinaryTree
