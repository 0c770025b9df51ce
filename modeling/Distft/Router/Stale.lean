import Mathlib.Data.List.Flatten
import Distft.Router.Closest
import Distft.Router.Refresh

/-!
# Which buckets a refresh picks from

`random_per_bucket_peers` is meant for the buckets whose last access is as old as the time that is
asked for. The helper overwrites `latest_access` with the clock before it subtracts it from the clock,
so the access times that the calls of the router recorded do not count: it picks from the buckets at
which its own two readings are that far apart (`Picks`, `randomPerBucketPeersHelper_picks`). On the
stale buckets it is right only where that happens to be the same (`refreshesStale_iff`), so with a
time of an hour it refreshes nothing.

A refresh changes access times only, so the invariant of the router holds between refreshes, too
(`InUse.invariant`).
-/

namespace Distft

namespace BinaryTree

/-- The access times and the buckets of the leaves, in the order of the walk. -/
def leaves : BinaryTree → List (Time × List Peer)
  | .null => []
  | .node leaf _ _ access kbucket zero one =>
    if leaf then [(access, kbucket)] else zero.leaves ++ one.leaves

/-- The leaf's last access is `unaccessedTime` seconds old or older by the reading of the clock that
the access time is subtracted from, the second one at leaf `i`. -/
def IsStale (unaccessedTime : ℤ) (readings : Readings) (i : ℕ) (access : Time) : Prop :=
  access + unaccessedTime * 10^9 ≤ readings.clock (2 * i + 1)

/-- The buckets are those of the leaves. -/
theorem buckets_eq (tree : BinaryTree) : tree.buckets = tree.leaves.map Prod.snd := by
  induction tree with
  | null => rfl
  | node leaf s count access kbucket zero one ihz iho => cases leaf <;> simp [buckets, leaves, ihz, iho]

/-- The buckets of a well-formed tree hold its peers. -/
theorem WellFormed.flatten_buckets {path : List Bool} {tree : BinaryTree} (h : WellFormed path tree) :
    tree.buckets.flatten.Perm tree.peers := by
  induction h with
  | leaf hs hcount hlen hnodup hpath => simp [buckets, peers]
  | joint hs hcount hzero hone ihz iho =>
    simpa [buckets, peers] using (ihz.append iho).trans List.perm_append_comm

/-- No peer is in two buckets. -/
theorem WellFormed.buckets_disjoint {path : List Bool} {tree : BinaryTree}
    (h : WellFormed path tree) : tree.buckets.Pairwise List.Disjoint :=
  (List.nodup_flatten.1 (h.flatten_buckets.nodup_iff.2 h.keys_nodup.of_map)).2

/-- What a walk over buckets from leaf `i` on appends: one member of each bucket at which its two
readings of the clock are as far apart as the time that is asked for. -/
inductive Picks (unaccessedTime : ℤ) (readings : Readings) : ℕ → List (List Peer) → List Peer → Prop
  /-- No bucket is left. -/
  | nil {i : ℕ} : Picks unaccessedTime readings i [] []
  /-- The readings are too close. -/
  | skip {i : ℕ} {bucket : List Peer} {rest : List (List Peer)} {out : List Peer}
      (htime : elapsed readings i < unaccessedTime) (h : Picks unaccessedTime readings (i + 1) rest out) :
      Picks unaccessedTime readings i (bucket :: rest) out
  /-- A member of the bucket is taken. -/
  | pick {i : ℕ} {peer : Peer} {bucket : List Peer} {rest : List (List Peer)} {out : List Peer}
      (htime : unaccessedTime ≤ elapsed readings i) (hmem : peer ∈ bucket)
      (h : Picks unaccessedTime readings (i + 1) rest out) :
      Picks unaccessedTime readings i (bucket :: rest) (peer :: out)

section Picks

variable {unaccessedTime : ℤ} {readings : Readings} {i : ℕ} {buckets : List (List Peer)}
  {out : List Peer}

/-- A walk goes on where an earlier one ended. -/
theorem Picks.append {buckets' : List (List Peer)} {out' : List Peer}
    (h : Picks unaccessedTime readings i buckets out)
    (h' : Picks unaccessedTime readings (i + buckets.length) buckets' out') :
    Picks unaccessedTime readings i (buckets ++ buckets') (out ++ out') := by
  induction h with
  | nil => exact h'
  | skip htime h ih => exact .skip htime (ih (by simpa [Nat.add_right_comm, Nat.add_assoc] using h'))
  | pick htime hmem h ih =>
    exact .pick htime hmem (ih (by simpa [Nat.add_right_comm, Nat.add_assoc] using h'))

/-- The leaves are counted from where the readings are. -/
theorem Picks.of_drop {n rands : ℕ}
    (h : Picks unaccessedTime (readings.drop (2 * n) rands) i buckets out) :
    Picks unaccessedTime readings (n + i) buckets out := by
  induction h with
  | nil => exact .nil
  | skip htime h ih => exact .skip (elapsed_drop readings n rands _ ▸ htime) ih
  | pick htime hmem h ih => exact .pick (elapsed_drop readings n rands _ ▸ htime) hmem ih

/-- What is picked is in one of the buckets. -/
theorem Picks.subset (h : Picks unaccessedTime readings i buckets out) : out ⊆ buckets.flatten := by
  induction h with
  | nil => simp
  | skip htime h ih => exact fun p hp => List.mem_append_right _ (ih hp)
  | pick htime hmem h ih =>
    intro p hp
    rcases List.mem_cons.1 hp with rfl | hp
    · exact List.mem_append_left _ hmem
    · exact List.mem_append_right _ (ih hp)

/-- Nothing is picked from a bucket that the others have no peer of, but at its own turn. -/
theorem Picks.not_mem (h : Picks unaccessedTime readings i buckets out) {bucket : List Peer}
    (hdisjoint : ∀ other ∈ buckets, bucket.Disjoint other) : ∀ p ∈ out, p ∉ bucket := by
  intro p hp hmem
  obtain ⟨other, hother, hpo⟩ := List.mem_flatten.1 (h.subset hp)
  exact hdisjoint other hother hmem hpo

/-- From disjoint buckets one member is picked where the readings are far enough apart, and none where
they are not. -/
theorem Picks.count (h : Picks unaccessedTime readings i buckets out)
    (hdisjoint : buckets.Pairwise List.Disjoint) {j : ℕ} {bucket : List Peer}
    (hj : buckets[j]? = some bucket) :
    (unaccessedTime ≤ elapsed readings (i + j) → out.countP (fun p => decide (p ∈ bucket)) = 1) ∧
      (elapsed readings (i + j) < unaccessedTime → ∀ p ∈ out, p ∉ bucket) := by
  induction h generalizing j with
  | nil => exact nomatch hj
  | @skip i head rest out htime h ih =>
    obtain ⟨hhead, hrest⟩ := List.pairwise_cons.1 hdisjoint
    cases j with
    | zero =>
      obtain rfl : head = bucket := by simpa using hj
      exact ⟨fun hle => absurd hle (not_le.2 htime), fun _ => h.not_mem hhead⟩
    | succ j =>
      have hi : i + 1 + j = i + (j + 1) := by omega
      exact hi ▸ ih hrest (by simpa using hj)
  | @pick i peer head rest out htime hmem h ih =>
    obtain ⟨hhead, hrest⟩ := List.pairwise_cons.1 hdisjoint
    cases j with
    | zero =>
      obtain rfl : head = bucket := by simpa using hj
      refine ⟨fun _ => ?_, fun hlt => absurd htime (not_le.2 hlt)⟩
      have hnone : out.countP (fun p => decide (p ∈ head)) = 0 := by
        simpa using h.not_mem hhead
      rw [List.countP_cons_of_pos (by simpa using hmem), hnone]
    | succ j =>
      have hi : i + 1 + j = i + (j + 1) := by omega
      have hj : rest[j]? = some bucket := by simpa using hj
      have hpeer : peer ∉ bucket := hhead bucket (List.mem_of_getElem? hj) hmem
      obtain ⟨hone, hnone⟩ := ih hrest hj
      rw [hi] at hone hnone
      refine ⟨fun hle => ?_, fun hlt p hp => ?_⟩
      · rw [List.countP_cons_of_neg (by simpa using hpeer), hone hle]
      · rcases List.mem_cons.1 hp with rfl | hp
        · exact hpeer
        · exact hnone hlt p hp

end Picks

variable {unaccessedTime : ℤ} {tree : BinaryTree} {buffer : List Peer} {readings : Readings}

/-- A walk that returns appends what it picks, and changes access times only. -/
theorem randomPerBucketPeersHelper_picks {out : BinaryTree × List Peer × Readings}
    (h : randomPerBucketPeersHelper unaccessedTime tree buffer readings = some out) :
    out.1.withoutTimes = tree.withoutTimes ∧
      ∃ picked, out.2.1 = buffer ++ picked ∧
        Picks unaccessedTime readings 0 tree.buckets picked := by
  induction tree generalizing buffer readings out with
  | null =>
    obtain rfl := Option.some.inj h
    exact ⟨rfl, [], (List.append_nil _).symm, .nil⟩
  | node leaf s count access kbucket zero one ihz iho =>
    cases leaf with
    | true =>
      rw [randomPerBucketPeersHelper_leaf] at h
      split_ifs at h with htime hne
      · obtain rfl := Option.some.inj h
        exact ⟨rfl, _, rfl, .pick htime (List.get_mem _ _) .nil⟩
      · obtain rfl := Option.some.inj h
        exact ⟨rfl, [], (List.append_nil _).symm, .skip (not_le.1 htime) .nil⟩
    | false =>
      obtain ⟨outz, hz, h⟩ := Option.bind_eq_some_iff.1 h
      obtain ⟨outo, ho, h⟩ := Option.bind_eq_some_iff.1 h
      obtain rfl := Option.some.inj h
      obtain ⟨htimesz, pickedz, hbufferz, hpicksz⟩ := ihz hz
      obtain ⟨htimeso, pickedo, hbuffero, hpickso⟩ := iho ho
      refine ⟨by simp [withoutTimes, htimesz, htimeso], pickedz ++ pickedo, ?_, ?_⟩
      · rw [hbuffero, hbufferz, List.append_assoc]
      · obtain ⟨rands, hread⟩ := randomPerBucketPeersHelper_readings hz
        rw [hread] at hpickso
        have hpickso := hpickso.of_drop
        rw [Nat.add_zero] at hpickso
        exact hpicksz.append (by rwa [Nat.zero_add])

end BinaryTree

namespace Router

open Distft.BinaryTree

/-- A refresh that returns appends what it picks, and changes access times only. -/
theorem randomPerBucketPeers_picks {unaccessedTime : ℤ} {readings : Readings} {r r' : Router}
    {buffer : List Peer} (h : r.randomPerBucketPeers unaccessedTime readings = some (buffer, r')) :
    r'.table.withoutTimes = r.table.withoutTimes ∧ r'.selfPeer = r.selfPeer ∧
      Picks unaccessedTime readings 0 r.table.buckets buffer := by
  obtain ⟨out, hout, h⟩ := Option.bind_eq_some_iff.1 h
  obtain ⟨rfl, rfl⟩ := Prod.mk.inj (Option.some.inj h)
  obtain ⟨htimes, picked, hbuffer, hpicks⟩ := randomPerBucketPeersHelper_picks hout
  exact ⟨htimes, rfl, by rwa [hbuffer, List.nil_append]⟩

/-- A router that its constructor, the calls of the session, and refreshes give. -/
inductive InUse : Router → Prop
  /-- The constructor. -/
  | new (now : Time) (selfPeer otherPeer : Peer) : InUse (Router.new now selfPeer otherPeer)
  /-- A call. -/
  | step {r : Router} (h : InUse r) (call : Call) : InUse (r.step call)
  /-- A refresh that returns. -/
  | refresh {r r' : Router} {unaccessedTime : ℤ} {readings : Readings} {buffer : List Peer}
      (h : InUse r) (hcall : r.randomPerBucketPeers unaccessedTime readings = some (buffer, r')) :
      InUse r'

/-- Refreshes keep the invariant, too. -/
theorem InUse.invariant {r : Router} (h : r.InUse) : r.Invariant := by
  induction h with
  | new now selfPeer otherPeer => exact Reachable.invariant ⟨now, selfPeer, otherPeer, [], rfl⟩
  | step h call ih => exact (step_invariant ih call).1
  | refresh h hcall ih =>
    obtain ⟨htimes, hself, -⟩ := randomPerBucketPeers_picks hcall
    exact ih.congr htimes hself

/-- The refresh returns, and appends one member of each non-empty bucket that is stale, and no peer of
any other bucket. -/
def RefreshesStale (unaccessedTime : ℤ) (readings : Readings) (r : Router) : Prop :=
  ∃ buffer r', r.randomPerBucketPeers unaccessedTime readings = some (buffer, r') ∧
    (∀ p ∈ buffer, ∃ bucket ∈ r.table.buckets, p ∈ bucket) ∧
    ∀ i access bucket, r.table.leaves[i]? = some (access, bucket) →
      (bucket ≠ [] ∧ IsStale unaccessedTime readings i access →
        buffer.countP (fun p => decide (p ∈ bucket)) = 1) ∧
      (¬(bucket ≠ [] ∧ IsStale unaccessedTime readings i access) → ∀ p ∈ buffer, p ∉ bucket)

/-- A time since an earlier moment than the access is less than what is asked for, if the time since
the access is. -/
theorem tdiv_lt_of_fresh {access first second unaccessedTime : ℤ} (hfirst : access ≤ first)
    (hsecond : access ≤ second) (h : second < access + unaccessedTime * 10^9) :
    (second - first).tdiv (10^9) < unaccessedTime := by
  norm_num at h ⊢
  have hpos : 0 < unaccessedTime := by omega
  calc (second - first).tdiv 1000000000
      ≤ (unaccessedTime * 1000000000 - 1).tdiv 1000000000 :=
        Int.tdiv_le_tdiv (by decide) (by omega)
    _ = (unaccessedTime * 1000000000 - 1) / 1000000000 :=
        Int.tdiv_eq_ediv_of_nonneg (by omega)
    _ < unaccessedTime := by omega

/-- A bucket that is not stale is skipped, as the access time that it had is not after the one that
replaces it. -/
theorem elapsed_lt_of_not_isStale {unaccessedTime : ℤ} {readings : Readings} {i : ℕ} {access : Time}
    (hpast : ∀ j, access ≤ readings.clock j) (h : ¬IsStale unaccessedTime readings i access) :
    elapsed readings i < unaccessedTime :=
  tdiv_lt_of_fresh (hpast _) (hpast _) (not_le.1 h)

/-- A refresh picks from exactly the stale buckets if and only if at each of them that has a peer the
clock moves, between the two readings that are made there, by as many whole seconds as are asked for,
and at no empty one. -/
theorem refreshesStale_iff {r : Router} (hr : r.InUse) (unaccessedTime : ℤ) (readings : Readings)
    (hpast : ∀ leaf ∈ r.table.leaves, ∀ i, leaf.1 ≤ readings.clock i) :
    r.RefreshesStale unaccessedTime readings ↔
      ∀ i access bucket, r.table.leaves[i]? = some (access, bucket) →
        (bucket ≠ [] ∧ IsStale unaccessedTime readings i access →
          unaccessedTime ≤ elapsed readings i) ∧
        (bucket = [] → elapsed readings i < unaccessedTime) := by
  have hdisjoint := hr.invariant.table.buckets_disjoint
  have hbucket : ∀ {i : ℕ} {access : Time} {bucket : List Peer},
      r.table.leaves[i]? = some (access, bucket) → r.table.buckets[i]? = some bucket := by
    intro i access bucket hi
    rw [buckets_eq, List.getElem?_map, hi]
    rfl
  have hsome := @randomPerBucketPeersHelper_isSome_iff unaccessedTime r.table [] readings
  constructor
  · rintro ⟨buffer, r', hcall, -, hselect⟩ i access bucket hi
    obtain ⟨-, -, hpicks⟩ := randomPerBucketPeers_picks hcall
    obtain ⟨hone, hnone⟩ := hselect i access bucket hi
    have hcount := hpicks.count hdisjoint (hbucket hi)
    rw [Nat.zero_add] at hcount
    constructor
    · intro hstale
      by_contra hlt
      have hzero : buffer.countP (fun p => decide (p ∈ bucket)) = 0 := by
        simpa using hcount.2 (not_le.1 hlt)
      rw [hone hstale] at hzero
      exact Nat.one_ne_zero hzero
    · rintro rfl
      obtain ⟨out, hout, -⟩ := Option.bind_eq_some_iff.1 hcall
      exact hsome.1 (by rw [hout]; rfl) i (hbucket hi)
  · intro h
    have hempty : ∀ i, r.table.buckets[i]? = some [] → elapsed readings i < unaccessedTime := by
      intro i hi
      rw [buckets_eq, List.getElem?_map, Option.map_eq_some_iff] at hi
      obtain ⟨⟨access, bucket⟩, hi, rfl⟩ := hi
      exact (h i access [] hi).2 rfl
    obtain ⟨⟨table, buffer, rest⟩, hout⟩ := Option.isSome_iff_exists.1 (hsome.2 hempty)
    have hcall : r.randomPerBucketPeers unaccessedTime readings = some (buffer, { r with table }) := by
      rw [randomPerBucketPeers, hout]
      rfl
    obtain ⟨-, -, hpicks⟩ := randomPerBucketPeers_picks hcall
    refine ⟨buffer, _, hcall, fun p hp => List.mem_flatten.1 (hpicks.subset hp), ?_⟩
    intro i access bucket hi
    have hcount := hpicks.count hdisjoint (hbucket hi)
    rw [Nat.zero_add] at hcount
    refine ⟨fun hstale => hcount.1 ((h i access bucket hi).1 hstale), fun hnot => hcount.2 ?_⟩
    by_cases hne : bucket = []
    · exact (h i access bucket hi).2 hne
    · exact elapsed_lt_of_not_isStale (hpast _ (List.mem_of_getElem? hi)) fun hstale =>
        hnot ⟨hne, hstale⟩

/-- Calls keep a router in use. -/
theorem InUse.run {r : Router} (h : r.InUse) (calls : List Call) : (r.run calls).InUse := by
  induction calls generalizing r with
  | nil => exact h
  | cons call calls ih => exact ih (h.step call)

/-- Where the clock moves by a second with every reading, both buckets of a router that has split
its root are stale after a second, and a peer of each is picked. -/
theorem refreshesStale_split :
    ((new 0 ⟨0, []⟩ ⟨BitVec.ofNat keyBits (2^159), [1]⟩).run splitCalls).RefreshesStale 1
      ⟨fun i => i * 10^9, fun _ => 0⟩ := by
  have hleaves : ∀ leaf ∈ ((new 0 ⟨0, []⟩ ⟨BitVec.ofNat keyBits (2^159), [1]⟩).run
      splitCalls).table.leaves, leaf.1 = 0 ∧ leaf.2 ≠ [] := by decide +kernel
  refine (refreshesStale_iff (InUse.run (.new 0 _ _) splitCalls) 1 _ ?_).2 ?_
  · intro leaf hleaf i
    rw [(hleaves leaf hleaf).1]
    show (0 : ℤ) ≤ i * 10^9
    omega
  · intro i access bucket hi
    have hsecond : elapsed ⟨fun i => i * 10^9, fun _ => 0⟩ i = 1 := by
      unfold elapsed
      push_cast
      rw [← sub_mul, add_sub_cancel_left, one_mul]
      rfl
    refine ⟨fun _ => hsecond.ge, fun hempty => ?_⟩
    exact absurd hempty (hleaves _ (List.mem_of_getElem? hi)).2

/-- The one leaf of a new router. -/
theorem leaves_new : (new 0 ⟨0, []⟩ ⟨1, [1]⟩).table.leaves = [(0, [⟨1, [1]⟩])] := by decide +kernel

/-- A router that was not accessed for an hour has a stale bucket, and the refresh does not pick its
peer. -/
theorem not_refreshesStale :
    ¬∀ (r : Router), r.InUse → ∀ (unaccessedTime : ℤ) (readings : Readings),
      (∀ leaf ∈ r.table.leaves, ∀ i, leaf.1 ≤ readings.clock i) →
      r.RefreshesStale unaccessedTime readings := by
  intro h
  obtain ⟨buffer, r', hcall, -, hselect⟩ := h (new 0 ⟨0, []⟩ ⟨1, [1]⟩) (.new 0 _ _) 3600
    ⟨fun _ => 3600 * 10^9, fun _ => 0⟩ (by rw [leaves_new]; simp)
  have hone := (hselect 0 0 [⟨1, [1]⟩] (by rw [leaves_new]; rfl)).1
    ⟨List.cons_ne_nil _ _, by simp [IsStale]⟩
  have hempty : (((new 0 ⟨0, []⟩ ⟨1, [1]⟩).randomPerBucketPeers 3600
      ⟨fun _ => 3600 * 10^9, fun _ => 0⟩).map Prod.fst) = some [] := by decide +kernel
  rw [hcall] at hempty
  obtain rfl : buffer = [] := Option.some.inj hempty
  exact Nat.zero_ne_one hone

end Router

end Distft
