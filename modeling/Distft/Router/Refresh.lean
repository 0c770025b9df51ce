import Distft.Router.Invariant

/-!
# Refreshing the buckets

`random_per_bucket_peers` picks a random peer of every bucket that was not accessed for a time. The
helper sets the access time of a leaf to the clock before it reads it, so what it compares is the time
between two readings of the clock, and it takes `rand()` modulo the size of the bucket without asking
whether the bucket is empty. The comparison keeps it from an empty bucket only as long as the two
readings are closer than the time that is asked for: with a time of zero, as in `self_lookup`, the
first empty bucket is a division by zero (`randomPerBucketPeers_isSome_iff`).

Empty buckets are ordinary: `split` leaves one on each side that no peer of the bucket is on.
-/

namespace Distft

/-- What a call reads besides the table: the readings of the clock and the results of `rand` that are
to come. -/
structure Readings where
  /-- The readings of the clock. -/
  clock : ℕ → Time
  /-- The results of `rand`. -/
  rand : ℕ → ℕ

/-- The readings that are left after some of each. -/
def Readings.drop (clocks rands : ℕ) (readings : Readings) : Readings :=
  ⟨fun i => readings.clock (clocks + i), fun i => readings.rand (rands + i)⟩

namespace BinaryTree

/-- `BinaryTree::random_per_bucket_peers_helper`, on a time in seconds: the tree, the buffer, and the
readings that are left. `none` is `rand()` modulo zero. -/
def randomPerBucketPeersHelper (unaccessedTime : ℤ) :
    BinaryTree → List Peer → Readings → Option (BinaryTree × List Peer × Readings)
  | .null, buffer, readings => some (.null, buffer, readings)
  | .node leaf s count access kbucket zero one, buffer, readings =>
    if leaf then
      let access := readings.clock 0
      let timeSinceAccess := (readings.clock 1 - access).tdiv (10^9)
      if unaccessedTime ≤ timeSinceAccess then
        if h : 0 < kbucket.length then
          let peer := kbucket.get ⟨readings.rand 0 % kbucket.length, Nat.mod_lt _ h⟩
          some (.node leaf s count access kbucket zero one, buffer ++ [peer], readings.drop 2 1)
        else none
      else some (.node leaf s count access kbucket zero one, buffer, readings.drop 2 0)
    else do
      let (zero, buffer, readings) ← randomPerBucketPeersHelper unaccessedTime zero buffer readings
      let (one, buffer, readings) ← randomPerBucketPeersHelper unaccessedTime one buffer readings
      return (.node leaf s count access kbucket zero one, buffer, readings)

/-- The buckets in the order of the walk. -/
def buckets : BinaryTree → List (List Peer)
  | .null => []
  | .node leaf _ _ _ kbucket zero one => if leaf then [kbucket] else zero.buckets ++ one.buckets

/-- The time between the two readings of the clock at a bucket, in whole seconds. -/
def elapsed (readings : Readings) (i : ℕ) : ℤ :=
  (readings.clock (2 * i + 1) - readings.clock (2 * i)).tdiv (10^9)

/-- The readings are counted from where they are. -/
theorem elapsed_drop (readings : Readings) (n rands i : ℕ) :
    elapsed (readings.drop (2 * n) rands) i = elapsed readings (n + i) := by
  simp only [elapsed, Readings.drop, Nat.mul_add, Nat.add_assoc]

variable {unaccessedTime : ℤ} {tree : BinaryTree} {buffer : List Peer} {readings : Readings}

/-- At a leaf the time between the two readings decides whether a random number is taken. -/
theorem randomPerBucketPeersHelper_leaf (s count : UInt32) (access : Time) (kbucket : List Peer)
    (zero one : BinaryTree) :
    randomPerBucketPeersHelper unaccessedTime (.node true s count access kbucket zero one) buffer
        readings =
      if unaccessedTime ≤ elapsed readings 0 then
        if h : 0 < kbucket.length then
          some (.node true s count (readings.clock 0) kbucket zero one, buffer ++
            [kbucket.get ⟨readings.rand 0 % kbucket.length, Nat.mod_lt _ h⟩], readings.drop 2 1)
        else none
      else some (.node true s count (readings.clock 0) kbucket zero one, buffer,
        readings.drop 2 0) := rfl

/-- The walk reads the clock twice at each bucket. -/
theorem randomPerBucketPeersHelper_readings {out : BinaryTree × List Peer × Readings}
    (h : randomPerBucketPeersHelper unaccessedTime tree buffer readings = some out) :
    ∃ rands, out.2.2 = readings.drop (2 * tree.buckets.length) rands := by
  induction tree generalizing buffer readings out with
  | null =>
    obtain rfl := Option.some.inj h
    exact ⟨0, by simp [buckets, Readings.drop]⟩
  | node leaf s count access kbucket zero one ihz iho =>
    cases leaf with
    | true =>
      rw [randomPerBucketPeersHelper_leaf] at h
      split_ifs at h
      · obtain rfl := Option.some.inj h
        exact ⟨1, rfl⟩
      · obtain rfl := Option.some.inj h
        exact ⟨0, rfl⟩
    | false =>
      obtain ⟨outz, hz, h⟩ := Option.bind_eq_some_iff.1 h
      obtain ⟨outo, ho, h⟩ := Option.bind_eq_some_iff.1 h
      obtain rfl := Option.some.inj h
      obtain ⟨randz, hreadz⟩ := ihz hz
      obtain ⟨rando, hreado⟩ := iho ho
      refine ⟨randz + rando, ?_⟩
      rw [hreado, hreadz]
      simp [Readings.drop, buckets, Nat.mul_add, Nat.add_assoc]

/-- The walk changes access times only. -/
theorem randomPerBucketPeersHelper_withoutTimes {out : BinaryTree × List Peer × Readings}
    (h : randomPerBucketPeersHelper unaccessedTime tree buffer readings = some out) :
    out.1.withoutTimes = tree.withoutTimes := by
  induction tree generalizing buffer readings out with
  | null =>
    obtain rfl := Option.some.inj h
    rfl
  | node leaf s count access kbucket zero one ihz iho =>
    cases leaf with
    | true =>
      rw [randomPerBucketPeersHelper_leaf] at h
      split_ifs at h
      · obtain rfl := Option.some.inj h
        rfl
      · obtain rfl := Option.some.inj h
        rfl
    | false =>
      obtain ⟨outz, hz, h⟩ := Option.bind_eq_some_iff.1 h
      obtain ⟨outo, ho, h⟩ := Option.bind_eq_some_iff.1 h
      obtain rfl := Option.some.inj h
      simp only [withoutTimes, ihz hz, iho ho]

/-- The walk divides by zero exactly when at some empty bucket the clock has moved by the time that is
asked for between its two readings. -/
theorem randomPerBucketPeersHelper_isSome_iff :
    (randomPerBucketPeersHelper unaccessedTime tree buffer readings).isSome ↔
      ∀ i, tree.buckets[i]? = some [] → elapsed readings i < unaccessedTime := by
  induction tree generalizing buffer readings with
  | null => simp [randomPerBucketPeersHelper, buckets]
  | node leaf s count access kbucket zero one ihz iho =>
    cases leaf with
    | true =>
      have hfirst : (∀ i, [kbucket][i]? = some [] → elapsed readings i < unaccessedTime) ↔
          (kbucket = [] → elapsed readings 0 < unaccessedTime) := by
        constructor
        · exact fun h hempty => h 0 (by simp [hempty])
        · intro h i hi
          obtain ⟨rfl, hempty⟩ : i = 0 ∧ kbucket = [] := by cases i <;> simp_all
          exact h hempty
      rw [randomPerBucketPeersHelper_leaf, buckets, if_pos rfl, hfirst]
      split_ifs with htime hne
      · simpa using fun hempty => absurd hempty (List.ne_nil_of_length_pos hne)
      · simpa [List.eq_nil_of_length_eq_zero (Nat.eq_zero_of_not_pos hne)] using htime
      · simpa using fun _ => not_le.1 htime
    | false =>
      -- The buckets of the second subtree come after those of the first one.
      have happend : (∀ i, (zero.buckets ++ one.buckets)[i]? = some [] →
            elapsed readings i < unaccessedTime) ↔
          (∀ i, zero.buckets[i]? = some [] → elapsed readings i < unaccessedTime) ∧
          ∀ i, one.buckets[i]? = some [] →
            elapsed readings (zero.buckets.length + i) < unaccessedTime := by
        constructor
        · intro h
          refine ⟨fun i hi => h i (List.getElem?_append_left (List.getElem?_eq_some_iff.1 hi).1 ▸ hi),
            fun i hi => h _ ?_⟩
          rw [List.getElem?_append_right (Nat.le_add_right _ _), Nat.add_sub_cancel_left, hi]
        · rintro ⟨hzero, hone⟩ i hi
          rcases Nat.lt_or_ge i zero.buckets.length with hlt | hge
          · exact hzero i (List.getElem?_append_left hlt ▸ hi)
          · obtain ⟨j, rfl⟩ := Nat.exists_eq_add_of_le hge
            rw [List.getElem?_append_right hge, Nat.add_sub_cancel_left] at hi
            exact hone j hi
      rw [buckets, if_neg Bool.false_ne_true, happend, ← @ihz buffer]
      show (Option.bind (randomPerBucketPeersHelper unaccessedTime zero buffer readings) _).isSome ↔ _
      cases hz : randomPerBucketPeersHelper unaccessedTime zero buffer readings with
      | none => simp
      | some outz =>
        obtain ⟨rands, hread⟩ := randomPerBucketPeersHelper_readings hz
        have hone := @iho outz.2.1 outz.2.2
        rw [hread] at hone
        simp only [elapsed_drop] at hone
        rw [← hone, ← hread, Option.bind_some]
        show (Option.bind (randomPerBucketPeersHelper unaccessedTime one outz.2.1 outz.2.2) _).isSome ↔
          _
        cases randomPerBucketPeersHelper unaccessedTime one outz.2.1 outz.2.2 <;> simp

end BinaryTree

namespace Router

open Distft.BinaryTree

/-- `Router::random_per_bucket_peers`, on an empty buffer: the buffer and the router, `none` where it
takes `rand()` modulo zero. -/
def randomPerBucketPeers (unaccessedTime : ℤ) (readings : Readings) (r : Router) :
    Option (List Peer × Router) := do
  let (table, buffer, _) ← r.table.randomPerBucketPeersHelper unaccessedTime [] readings
  return (buffer, { r with table })

/-- A refresh changes access times only. -/
theorem randomPerBucketPeers_invariant {unaccessedTime : ℤ} {readings : Readings} {r : Router}
    {out : List Peer × Router} (hr : r.Invariant)
    (h : r.randomPerBucketPeers unaccessedTime readings = some out) :
    out.2.Invariant ∧ out.2.selfPeer = r.selfPeer ∧ out.2.table.peers = r.table.peers := by
  obtain ⟨⟨table, buffer, rest⟩, htable, h⟩ := Option.bind_eq_some_iff.1 h
  obtain rfl := Option.some.inj h
  have hsame : table.withoutTimes = r.table.withoutTimes := randomPerBucketPeersHelper_withoutTimes htable
  refine ⟨hr.congr hsame rfl, rfl, ?_⟩
  show table.peers = r.table.peers
  rw [← peers_withoutTimes, hsame, peers_withoutTimes]

/-- The refresh of a router divides by zero exactly when at some empty bucket the clock moves, between
the two readings that are made there, by as many whole seconds as are asked for. -/
theorem randomPerBucketPeers_isSome_iff (unaccessedTime : ℤ) (readings : Readings) (r : Router) :
    (r.randomPerBucketPeers unaccessedTime readings).isSome ↔
      ∀ i, r.table.buckets[i]? = some [] → elapsed readings i < unaccessedTime := by
  rw [← @randomPerBucketPeersHelper_isSome_iff unaccessedTime r.table [] readings,
    randomPerBucketPeers]
  cases randomPerBucketPeersHelper unaccessedTime r.table [] readings <;> rfl

/-- Insertions that split an empty leaf off: the twenty-first peer is on the side of the others for
many bits. -/
def emptyLeafCalls : List Call :=
  (List.range 20).map fun j => .insert 0 (BitVec.ofNat keyBits (j + 2)) [1]

/-- A router that was only inserted into divides by zero in the refresh of all buckets, with a clock
that goes on. -/
theorem not_randomPerBucketPeers_isSome :
    ¬∀ (start : Time) (selfPeer otherPeer : Peer) (calls : List Call) (unaccessedTime : ℤ)
      (readings : Readings), 0 ≤ unaccessedTime →
      (∀ i j, i ≤ j → readings.clock i ≤ readings.clock j) →
      (((new start selfPeer otherPeer).run calls).randomPerBucketPeers unaccessedTime
        readings).isSome := by
  intro h
  have hrefresh := h 0 ⟨0, []⟩ ⟨1, [1]⟩ emptyLeafCalls 0 ⟨fun i => i, fun _ => 0⟩ le_rfl
    fun _ _ hij => Int.ofNat_le.2 hij
  exact absurd hrefresh (by decide +kernel)

end Router

end Distft
