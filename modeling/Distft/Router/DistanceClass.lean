import Mathlib.Data.List.Perm.Subperm
import Distft.Router.Refusal
import Distft.Router.SelfPath

/-!
# Who is refused

The distance class of a key is the highest bit in which it differs from the router's own key. The
comment of the header has a leaf hold the keys of one class, so that a newcomer would be refused only
by `KBUCKET_MAX` peers of its own class.

A full leaf on the path of the own key is split only while the newcomer's bit is that of the own key,
so the leaf that the newcomer ends in holds its own class and all lower ones. The newcomer is refused
without `KBUCKET_MAX` peers of its class exactly when that leaf is full of peers of its class
and lower ones, with at least one of a lower one (`refusedByOwnClass_iff`).
-/

namespace Distft

/-- The highest bit in which two keys differ, 0 for equal keys. -/
def differingBit (k1 k2 : Key) : ℕ := (k1 ^^^ k2).toNat.log2

/-- Different keys differ in the bit, and agree above it. -/
theorem isHighestDifference_differingBit {k1 k2 : Key} (h : k1 ≠ k2) :
    IsHighestDifference k1 k2 (differingBit k1 k2) := by
  have hne : (k1 ^^^ k2).toNat ≠ 0 := by
    intro hzero
    exact h (BitVec.xor_eq_zero_iff.1 (BitVec.eq_of_toNat_eq hzero))
  have hbit : ∀ j, (k1 ^^^ k2).toNat.testBit j = (k1.getLsbD j ^^ k2.getLsbD j) := fun j => by
    rw [BitVec.testBit_toNat, BitVec.getLsbD_xor]
  constructor
  · have htop := Nat.testBit_log2 hne
    rw [hbit] at htop
    simpa [differingBit] using htop
  · intro j hj
    have hbelow : (k1 ^^^ k2).toNat.testBit j = false :=
      Nat.testBit_lt_two_pow (Nat.lt_log2_self.trans_le (Nat.pow_le_pow_right (by omega) hj))
    rw [hbit] at hbelow
    simpa using hbelow

/-- There is only one such bit. -/
theorem IsHighestDifference.eq {k1 k2 : Key} {i j : ℕ} (hi : IsHighestDifference k1 k2 i)
    (hj : IsHighestDifference k1 k2 j) : i = j := by
  rcases Nat.lt_trichotomy i j with hlt | heq | hlt
  · exact absurd (hi.agrees j hlt) hj.differs
  · exact heq
  · exact absurd (hj.agrees i hlt) hi.differs

/-- The difference is the same the other way round. -/
theorem IsHighestDifference.symm {k1 k2 : Key} {i : ℕ} (h : IsHighestDifference k1 k2 i) :
    IsHighestDifference k2 k1 i := ⟨h.differs.symm, fun j hj => (h.agrees j hj).symm⟩

/-- The highest difference is the differing bit. -/
theorem IsHighestDifference.differingBit_eq {k1 k2 : Key} {i : ℕ}
    (h : IsHighestDifference k1 k2 i) : differingBit k1 k2 = i := by
  have hne : k1 ≠ k2 := by
    rintro rfl
    exact h.differs rfl
  exact (isHighestDifference_differingBit hne).eq h

/-- It is below a bit from which on the keys agree. -/
theorem IsHighestDifference.lt {k1 k2 : Key} {i n : ℕ} (hi : IsHighestDifference k1 k2 i)
    (h : ∀ j, n ≤ j → k1.getLsbD j = k2.getLsbD j) : i < n := by
  by_contra hle
  exact hi.differs (h i (by omega))

namespace BinaryTree

/-- On the path of the own key a bucket stays together exactly when no peer of it has a higher class
than the newcomer. -/
theorem together_iff {selfKey key : Key} {path : List Bool} {s : UInt32} {access : Time}
    {kbucket : List Peer} (h : Reached path (leafOf s access kbucket) key)
    (hon : keyPath selfKey path.length = path) (hkey : key ≠ selfKey)
    (hother : ∀ p ∈ kbucket, p.key ≠ selfKey) :
    Together selfKey key s.toNat kbucket ↔
      ∀ p ∈ kbucket, differingBit p.key selfKey ≤ differingBit key selfKey := by
  obtain ⟨hs, -, -, hpath⟩ := wellFormed_leafOf_iff.1 h.tree
  have habove : ∀ k : Key, keyPath k path.length = path →
      ∀ j, s.toNat + 1 ≤ j → k.getLsbD j = selfKey.getLsbD j := fun k hk j hj =>
    getLsbD_eq_of_keyPath (hk.trans hon.symm) (by omega)
  have hc := isHighestDifference_differingBit hkey
  have hcs := hc.lt (habove key h.key)
  refine forall₂_congr fun p hp => ?_
  have hd := isHighestDifference_differingBit (hother p hp)
  have hds := hd.lt (habove p.key (hpath p hp))
  constructor
  · intro htogether
    by_contra hlt
    have hsame := htogether (differingBit p.key selfKey) (by omega) (by omega)
      fun j' h1 h2 => hc.agrees j' (by omega)
    exact hd.differs (hsame.trans (hc.agrees _ (by omega)))
  · intro hle j hj hjs hagree
    have hcj : differingBit key selfKey < j := by
      by_contra hge
      exact hc.differs (hagree _ (by omega) (by omega))
    rw [hd.agrees j (by omega), hc.agrees j hcj]

end BinaryTree

namespace Router

open Distft.BinaryTree

/-- The stored peers of the distance class of a key. -/
def sameClass (key : Key) (r : Router) : List Peer :=
  r.allPeers.filter fun p => differingBit p.key r.selfPeer.key = differingBit key r.selfPeer.key

/-- An insertion that returns false finds `KBUCKET_MAX` peers of the newcomer's class. -/
def RefusedByOwnClass (now : Time) (key : Key) (endpoint : Bytes) (r : Router) : Prop :=
  (r.attemptInsertPeer now key endpoint).1 = false → kbucketMax ≤ (r.sameClass key).length

/-- The newcomer's bucket is full of other peers of its class and lower ones, at least one of which
is of a lower one. -/
structure CrowdedOut (key : Key) (endpoint : Bytes) (r : Router) : Prop where
  /-- The newcomer is not the router itself. -/
  key_ne_self : key ≠ r.selfPeer.key
  /-- Nor does it have its endpoint. -/
  endpoint_ne_self : endpoint ≠ r.selfPeer.endpoint
  /-- The bucket is full. -/
  full : kbucketMax ≤ (r.table.leafFor key).bucket.length
  /-- The newcomer is not in it. -/
  new : key ∉ (r.table.leafFor key).bucket.map Peer.key
  /-- No peer of the bucket is of a higher class. -/
  no_higher : ∀ p ∈ (r.table.leafFor key).bucket,
    differingBit p.key r.selfPeer.key ≤ differingBit key r.selfPeer.key
  /-- One is of a lower class. -/
  lower : ∃ p ∈ (r.table.leafFor key).bucket,
    differingBit p.key r.selfPeer.key < differingBit key r.selfPeer.key

/-- The stored peers of the class of a key whose leaf is on the path of the own key are all in that
leaf. -/
theorem sameClass_subset {r : Router} (h : r.Invariant) {key : Key} (hkey : key ≠ r.selfPeer.key)
    {path : List Bool} {kbucket : List Peer} (hreached : keyPath key path.length = path)
    (hlen : path.length < keyBits) (hon : keyPath r.selfPeer.key path.length = path)
    (hmem : ∀ p, p ∈ kbucket ↔ p ∈ r.table.peers ∧ keyPath p.key path.length = path) :
    r.sameClass key ⊆ kbucket := by
  intro p hp
  obtain ⟨hp, hclass⟩ := List.mem_filter.1 hp
  rw [decide_eq_true_eq] at hclass
  rw [h.allPeers_eq] at hp
  refine (hmem p).2 ⟨hp, ?_⟩
  -- Both agree with the own key above their class, and the path is above it.
  have hc := isHighestDifference_differingBit hkey
  have hp := isHighestDifference_differingBit (h.key_ne_self p hp)
  rw [hclass] at hp
  have hbelow : differingBit key r.selfPeer.key < keyBits - path.length :=
    hc.lt fun j hj => getLsbD_eq_of_keyPath (hreached.trans hon.symm) (by omega)
  calc keyPath p.key path.length
      = keyPath r.selfPeer.key path.length := List.map_congr_left fun i hi => hp.agrees _ (by
        have := List.mem_range.1 hi
        omega)
    _ = path := hon

/-- A full bucket of peers of the newcomer's class makes the class full. -/
theorem le_length_sameClass {r : Router} {key : Key} {kbucket : List Peer}
    (hnodup : (kbucket.map Peer.key).Nodup) (hstored : kbucket ⊆ r.allPeers)
    (hfull : kbucket.length = kbucketMax)
    (hclass : ∀ p ∈ kbucket, differingBit p.key r.selfPeer.key = differingBit key r.selfPeer.key) :
    kbucketMax ≤ (r.sameClass key).length := by
  rw [← hfull]
  refine (hnodup.of_map.subperm fun p hp => ?_).length_le
  exact List.mem_filter.2 ⟨hstored hp, by simpa using hclass p hp⟩

/-- A bucket that has all peers of the class and one of another has more peers than the class. -/
theorem length_sameClass_lt {r : Router} (h : r.Invariant) {key : Key} {kbucket : List Peer}
    (hsub : r.sameClass key ⊆ kbucket) {p : Peer} (hp : p ∈ kbucket)
    (hother : differingBit p.key r.selfPeer.key ≠ differingBit key r.selfPeer.key) :
    (r.sameClass key).length < kbucket.length := by
  have hnodup : (r.sameClass key).Nodup := by
    rw [sameClass, h.allPeers_eq]
    exact h.table.keys_nodup.of_map.filter _
  have hclass : r.sameClass key ⊆ kbucket.filter fun p =>
      differingBit p.key r.selfPeer.key = differingBit key r.selfPeer.key := fun q hq =>
    List.mem_filter.2 ⟨hsub hq, (List.mem_filter.1 hq).2⟩
  calc (r.sameClass key).length
      ≤ (kbucket.filter fun p =>
          differingBit p.key r.selfPeer.key = differingBit key r.selfPeer.key).length :=
        (hnodup.subperm hclass).length_le
    _ < kbucket.length :=
        List.length_filter_lt_length_iff_exists.2 ⟨p, hp, by simpa using hother⟩

/-- A newcomer is refused without a full class of its own exactly when it is crowded out. -/
theorem Invariant.refused_iff_crowdedOut {r : Router} (h : r.Invariant) (now : Time) (key : Key)
    (endpoint : Bytes) : r.RefusedByOwnClass now key endpoint ↔ ¬r.CrowdedOut key endpoint := by
  -- The router itself is never refused, and never crowded out.
  by_cases hself : key = r.selfPeer.key ∨ endpoint = r.selfPeer.endpoint
  · refine iff_of_true (fun hfalse => ?_) fun hcrowded => ?_
    · rw [attemptInsertPeer, if_pos hself] at hfalse
      exact Bool.noConfusion hfalse
    · exact hself.elim hcrowded.key_ne_self hcrowded.endpoint_ne_self
  have hne := not_or.1 hself
  obtain ⟨path, s, access, kbucket, -, hleaf, hreached, hmem⟩ := (h.reached key).leafFor
  obtain ⟨hs, hlen, hnodup, hpath⟩ := wellFormed_leafOf_iff.1 hreached.tree
  have hrefused := attemptInsertPeer_eq_false_iff h now hself
  rw [hleaf, refuses_leafOf] at hrefused
  have hstored : kbucket ⊆ r.allPeers := fun p hp => by
    rw [h.allPeers_eq]
    exact ((hmem p).1 hp).1
  by_cases hon : keyPath r.selfPeer.key path.length = path
  · -- On the path of the own key the bucket holds all of the newcomer's class.
    have htogether := together_iff hreached hon hne.1 fun p hp =>
      h.key_ne_self p ((hmem p).1 hp).1
    rw [htogether] at hrefused
    constructor
    · -- The peer of the lower class takes the place of one of the newcomer's.
      rintro hown ⟨-, -, hfull, hnew, hhigher, p, hp, hlower⟩
      rw [hleaf, bucket_leafOf] at hfull hnew hhigher hp
      have hfull' : kbucket.length = kbucketMax := Nat.le_antisymm hlen hfull
      have hcount := hown (hrefused.2 ⟨hfull', hnew, hhigher⟩)
      have hlt := length_sameClass_lt h
        (sameClass_subset h hne.1 hreached.key hreached.tree.depth_lt hon hmem) hp hlower.ne
      omega
    · intro hcrowded hfalse
      obtain ⟨hfull, hnew, hhigher⟩ := hrefused.1 hfalse
      refine le_length_sameClass hnodup hstored hfull fun p hp =>
        (hhigher p hp).antisymm (Nat.le_of_not_lt fun hlower => ?_)
      refine hcrowded ⟨hne.1, hne.2, ?_, ?_, ?_, p, ?_, hlower⟩
      all_goals rw [hleaf, bucket_leafOf]
      · exact hfull.ge
      · exact hnew
      · exact hhigher
      · exact hp
  · -- Off the path of the own key every peer of the bucket is of the newcomer's class.
    obtain ⟨i, hi⟩ := exists_highestDifference hreached.tree.depth_lt hon
    have hclass : ∀ k, keyPath k path.length = path → differingBit k r.selfPeer.key = i :=
      fun k hk => (hi k hk).symm.differingBit_eq
    constructor
    · rintro - ⟨-, -, -, -, -, p, hp, hlower⟩
      rw [hleaf, bucket_leafOf] at hp
      rw [hclass p.key (hpath p hp), hclass key hreached.key] at hlower
      exact lt_irrefl i hlower
    · intro _ hfalse
      exact le_length_sameClass hnodup hstored (hrefused.1 hfalse).1 fun p hp => by
        rw [hclass p.key (hpath p hp), hclass key hreached.key]

/-- For every router that its constructor and a sequence of calls give, and every peer, an insertion
is refused by `KBUCKET_MAX` peers of the newcomer's class exactly when it is not crowded out. -/
theorem refusedByOwnClass_iff (start : Time) (selfPeer otherPeer : Peer) (calls : List Call)
    (now : Time) (key : Key) (endpoint : Bytes) :
    ((new start selfPeer otherPeer).run calls).RefusedByOwnClass now key endpoint ↔
      ¬((new start selfPeer otherPeer).run calls).CrowdedOut key endpoint :=
  (Reachable.invariant ⟨start, selfPeer, otherPeer, calls, rfl⟩).refused_iff_crowdedOut now key
    endpoint

/-- Nineteen peers of the class 158. -/
def lowerClassCalls : List Call :=
  (List.range 19).map fun j => .insert 0 (BitVec.ofNat keyBits (2^158 + j)) [1]

/-- A newcomer of the class 159 is refused although the router holds one peer of the class. -/
theorem not_refusedByOwnClass :
    ¬∀ (start : Time) (selfPeer otherPeer : Peer) (calls : List Call) (now : Time) (key : Key)
      (endpoint : Bytes), key ≠ selfPeer.key → endpoint ≠ selfPeer.endpoint →
      ((new start selfPeer otherPeer).run calls).RefusedByOwnClass now key endpoint := by
  intro h
  have hfull := h 0 ⟨0, []⟩ ⟨BitVec.ofNat keyBits (2^159), [1]⟩ lowerClassCalls 0
    (BitVec.ofNat keyBits (2^159 + 1)) [1] (by decide +kernel) (by decide) (by decide +kernel)
  exact absurd hfull (by decide +kernel)

end Router

end Distft
