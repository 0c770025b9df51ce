import Distft.Router.Refresh
import Distft.Session.Static

/-!
# Routers whose root is a bucket

As long as the members of a cluster fit in a bucket, the root of a router is never split. What the
calls of the router do to such a root is said here by its peers: an insertion adds the peer, an
eviction takes the peer with the key away, and a refresh picks one of them.
-/

namespace Distft

open Distft.BinaryTree

/-! ## The calls of the router -/

/-- Inserting a new peer into an unsplit root with space puts it in front. -/
theorem attemptInsertPeer_unsplit_new {r : Router} {l : List Peer} (hr : Unsplit r.table l)
    (hlen : l.length < kbucketMax) (now : Time) {p : Peer} (hnew : p.key ∉ l.map Peer.key)
    (hkey : p.key ≠ r.selfPeer.key) (hendpoint : p.endpoint ≠ r.selfPeer.endpoint) :
    ∃ table, Unsplit table (p :: l) ∧
      r.attemptInsertPeer now p.key p.endpoint = (true, none, { r with table }) := by
  obtain ⟨s, count, access, kbucket, zero, one, htable, hperm⟩ := hr
  have hself : ¬(p.key = r.selfPeer.key ∨ p.endpoint = r.selfPeer.endpoint) := by
    simp [hkey, hendpoint]
  cases hfind : kbucket.findIdx? (fun q => q.key == p.key) with
  | some j =>
    obtain ⟨q, hq, hqkey, -⟩ := perm_of_findIdx? hfind
    exact absurd (List.mem_map.2 ⟨q, hperm.mem_iff.1 (List.mem_of_getElem? hq), hqkey⟩) hnew
  | none =>
    have hroom : kbucket.length < kbucketMax := hperm.length_eq.trans_lt hlen
    have hloop : insertLoop r.selfPeer.key now p.key p.endpoint keyBits r.table =
        (.node true s (count + 1) now (p :: kbucket) zero one, .added) := by
      rw [htable]
      show insertLoop r.selfPeer.key now p.key p.endpoint (159 + 1) _ = _
      simp only [insertLoop, Bool.not_true, Bool.false_eq_true, if_false, hfind, hroom, if_true]
    refine ⟨_, ⟨s, count + 1, now, p :: kbucket, zero, one, rfl, hperm.cons p⟩, ?_⟩
    rw [Router.attemptInsertPeer, if_neg hself, hloop]

/-- An eviction takes the peers with the key out of an unsplit root. -/
theorem evictPeer_unsplit {r : Router} {l : List Peer} (hr : Unsplit r.table l)
    (hnodup : (l.map Peer.key).Nodup) {key : Key} (hkey : key ≠ r.selfPeer.key) :
    ∃ table, Unsplit table (l.filter fun p => p.key ≠ key) ∧
      r.evictPeer key = { r with table } := by
  obtain ⟨s, count, access, kbucket, zero, one, htable, hperm⟩ := hr
  rw [Router.evictPeer, if_neg hkey, htable]
  cases hfind : kbucket.findIdx? (fun q => q.key == key) with
  | none =>
    have hkeep : l.filter (fun p => p.key ≠ key) = l := by
      rw [List.filter_eq_self]
      intro p hp
      refine decide_eq_true fun heq => notMem_of_findIdx? hfind ?_
      exact List.mem_map.2 ⟨p, hperm.mem_iff.2 hp, heq⟩
    rw [evictLoop_absent hfind, hkeep]
    exact ⟨_, ⟨_, _, _, _, _, _, rfl, hperm⟩, rfl⟩
  | some j =>
    obtain ⟨q, hq, rfl, hcons⟩ := perm_of_findIdx? hfind
    have hloop : evictLoop q.key keyBits (.node true s count access kbucket zero one) =
        (.node true s (count - 1) access (kbucket.eraseIdx j) zero one, true) := by
      show evictLoop q.key (159 + 1) _ = _
      simp only [evictLoop, Bool.not_true, Bool.false_eq_true, if_false, hfind]
    rw [hloop]
    refine ⟨_, ⟨_, _, _, _, _, _, rfl, ?_⟩, rfl⟩
    -- What is left has other keys, as the one that is erased is the only one with its key.
    have hother : ∀ p ∈ kbucket.eraseIdx j, p.key ≠ q.key := by
      have hkeys : ((q :: kbucket.eraseIdx j).map Peer.key).Nodup :=
        ((hcons.symm.trans hperm).map Peer.key).nodup_iff.2 hnodup
      intro p hp heq
      exact (List.nodup_cons.1 hkeys).1 (heq ▸ List.mem_map_of_mem hp)
    have hfilter := ((hcons.symm.trans hperm).filter fun p => p.key ≠ q.key)
    rw [List.filter_cons_of_neg (by simp), List.filter_eq_self.2 fun p hp =>
      decide_eq_true (hother p hp)] at hfilter
    exact hfilter

/-- A new router holds the peer that it is given. -/
theorem new_unsplit (now : Time) {selfPeer otherPeer : Peer} (hkey : otherPeer.key ≠ selfPeer.key)
    (hendpoint : otherPeer.endpoint ≠ selfPeer.endpoint) :
    ∃ table, Unsplit table [otherPeer] ∧ Router.new now selfPeer otherPeer = ⟨selfPeer, table⟩ := by
  have hempty : Unsplit (Router.mk selfPeer (.new (UInt32.ofNat (keyBits - 1)) now)).table [] :=
    ⟨_, _, _, _, _, _, rfl, .refl _⟩
  obtain ⟨table, hunsplit, hcall⟩ := attemptInsertPeer_unsplit_new hempty (by decide) now
    (p := otherPeer) List.not_mem_nil hkey hendpoint
  exact ⟨table, hunsplit, by rw [Router.new, hcall]⟩

/-- A refresh of an unsplit root that is not empty picks one of its peers, or none. -/
theorem randomPerBucketPeers_unsplit {r : Router} {l : List Peer} (hr : Unsplit r.table l)
    (hne : l ≠ []) (unaccessedTime : ℤ) (readings : Readings) :
    ∃ table picked, Unsplit table l ∧ picked ⊆ l ∧
      (unaccessedTime ≤ elapsed readings 0 → picked ≠ []) ∧
      r.randomPerBucketPeers unaccessedTime readings = some (picked, { r with table }) := by
  obtain ⟨s, count, access, kbucket, zero, one, htable, hperm⟩ := hr
  have hpos : 0 < kbucket.length := by
    rw [hperm.length_eq]
    exact List.length_pos_iff.2 hne
  unfold Router.randomPerBucketPeers
  rw [htable, randomPerBucketPeersHelper_leaf]
  split_ifs with htime
  · refine ⟨_, _, ⟨_, _, _, _, _, _, rfl, hperm⟩, ?_, fun _ => List.cons_ne_nil _ _, rfl⟩
    exact List.cons_subset.2 ⟨hperm.mem_iff.1 (List.get_mem _ _), List.nil_subset _⟩
  · exact ⟨_, _, ⟨_, _, _, _, _, _, rfl, hperm⟩, List.nil_subset _, fun h => absurd h htime, rfl⟩

end Distft
