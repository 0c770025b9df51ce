import Mathlib.Logic.Function.Basic
import Distft.Router.Closest

/-!
# The router as a finite map

What the router is for: a map from the keys of the peers that it knows to their endpoints
(`Contacts`). `Contacts.step` is what a call means for the map, given what the call returned. The
table with its buckets, splits, and counters refines it: `all_peers` enumerates the map after every
run (`allPeers_refines`). One step of the simulation is `step_represents`.

`get_peer` reads the map by the search for the closest peer, which takes the front of a bucket
whatever its key; so it finds only peers that are at the front of theirs (`getsPeer_iff`).
-/

namespace Distft

/-- A map from keys to endpoints. -/
abbrev Contacts : Type := Key → Option Bytes

/-- What a call, with its result, means for the map of a node whose own peer is `selfPeer`. -/
def Contacts.step (selfPeer : Peer) (m : Contacts) : Router.Call × Bool → Contacts
  | (.insert _ key endpoint, true) =>
    if key = selfPeer.key ∨ endpoint = selfPeer.endpoint then m
    else Function.update m key (some endpoint)
  | (.insert _ _ _, false) => m
  | (.evict key, _) => Function.update m key none
  | (.closest _ _ _, _) => m

namespace Router

open Distft.BinaryTree

/-- A call and what it returns; only `attempt_insert_peer` returns a flag. -/
def result (r : Router) : Call → Call × Bool
  | .insert now key endpoint => (.insert now key endpoint, (r.attemptInsertPeer now key endpoint).1)
  | call => (call, true)

/-- `all_peers` enumerates the map, each key once. -/
structure Represents (r : Router) (m : Contacts) : Prop where
  /-- No key is enumerated twice. -/
  nodup : (r.allPeers.map Peer.key).Nodup
  /-- A key is enumerated with its endpoint, and no other key is enumerated. -/
  mem_iff : ∀ key endpoint, ⟨key, endpoint⟩ ∈ r.allPeers ↔ m key = some endpoint

/-- The map that the calls of a run make of `m`. -/
def contactsAfter (r : Router) (calls : List Call) (m : Contacts) : Contacts :=
  Runs.run (Contacts.step r.selfPeer) m (Runs.observed step result r calls)

/-- Storing a peer besides peers with other keys updates the map. -/
theorem mem_cons_iff_update {m : Contacts} {key : Key} {endpoint : Bytes} {rest : List Peer}
    (hnew : key ∉ rest.map Peer.key)
    (hrest : ∀ k e, k ≠ key → (⟨k, e⟩ ∈ rest ↔ m k = some e)) (k : Key) (e : Bytes) :
    (⟨k, e⟩ : Peer) ∈ ⟨key, endpoint⟩ :: rest ↔
      Function.update m key (some endpoint) k = some e := by
  by_cases hk : k = key
  · subst hk
    have hnot : (⟨k, e⟩ : Peer) ∉ rest := fun hmem => hnew (List.mem_map.2 ⟨_, hmem, rfl⟩)
    simp [hnot, eq_comm]
  · simp [hk, hrest k e hk]

/-- What an insertion that stores the peer does to the enumeration, the map update does to the
map. -/
theorem Inserted.mem_iff {m : Contacts} {key : Key} {endpoint : Bytes} {before after : List Peer}
    {how : Insertion} (h : Inserted key endpoint before after how)
    (hhow : how = .updated ∨ how = .added) (hnodup : (before.map Peer.key).Nodup)
    (hm : ∀ k e, ⟨k, e⟩ ∈ before ↔ m k = some e) (k : Key) (e : Bytes) :
    ⟨k, e⟩ ∈ after ↔ Function.update m key (some endpoint) k = some e := by
  cases h with
  | @updated rest p hkey hbefore hafter =>
    have hnew : key ∉ rest.map Peer.key := by
      rw [← hkey]
      exact (List.nodup_cons.1 ((hbefore.map Peer.key).nodup_iff.1 hnodup)).1
    rw [hafter.mem_iff]
    refine mem_cons_iff_update hnew (fun k' e' hk' => ?_) k e
    rw [← hm, hbefore.mem_iff, List.mem_cons]
    refine ⟨.inr, fun hmem => hmem.resolve_left ?_⟩
    rintro rfl
    exact hk' hkey
  | added hnew hafter =>
    rw [hafter.mem_iff]
    exact mem_cons_iff_update hnew (fun k' e' _ => hm k' e') k e
  | refused => simp at hhow

/-- What an eviction does to the enumeration, removing the key does to the map. -/
theorem Erased.mem_iff {m : Contacts} {key : Key} {before after : List Peer} {found : Bool}
    (h : Erased key before after found) (hnodup : (before.map Peer.key).Nodup)
    (hm : ∀ k e, ⟨k, e⟩ ∈ before ↔ m k = some e) (k : Key) (e : Bytes) :
    ⟨k, e⟩ ∈ after ↔ Function.update m key none k = some e := by
  have hgone : key ∉ after.map Peer.key ∧
      ∀ k e, k ≠ key → (⟨k, e⟩ ∈ after ↔ (⟨k, e⟩ : Peer) ∈ before) := by
    cases h with
    | erased hkey hbefore =>
      refine ⟨?_, fun k' e' hk' => ?_⟩
      · rw [← hkey]
        exact (List.nodup_cons.1 ((hbefore.map Peer.key).nodup_iff.1 hnodup)).1
      · rw [hbefore.mem_iff, List.mem_cons]
        refine ⟨.inr, fun hmem => hmem.resolve_left ?_⟩
        rintro rfl
        exact hk' hkey
    | absent habsent hafter =>
      refine ⟨?_, fun k' e' _ => hafter.mem_iff⟩
      rwa [(hafter.map Peer.key).mem_iff]
  by_cases hk : k = key
  · subst hk
    have hnot : (⟨k, e⟩ : Peer) ∉ after := fun hmem => hgone.1 (List.mem_map.2 ⟨_, hmem, rfl⟩)
    simp [hnot]
  · rw [hgone.2 k e hk, hm, Function.update_of_ne hk]

/-- An insertion that returns false leaves the known peers as they were. -/
theorem mem_allPeers_of_refused {r : Router} (h : r.Invariant) (now : Time) (key : Key)
    (endpoint : Bytes) (hfalse : (r.attemptInsertPeer now key endpoint).1 = false) (p : Peer) :
    p ∈ (r.attemptInsertPeer now key endpoint).2.2.allPeers ↔ p ∈ r.allPeers := by
  have hinv := (attemptInsertPeer_invariant h now key endpoint).1
  rw [hinv.allPeers_eq, h.allPeers_eq]
  rcases attemptInsertPeer_cases h now key endpoint with
    ⟨-, hcall⟩ | ⟨-, table, -, ⟨how, -, -, hcall⟩ | ⟨lru, hins, hcall⟩⟩
  · rw [hcall]
  · rw [hcall] at hfalse
    exact Bool.noConfusion hfalse
  · rw [hcall]
    cases hins with
    | refused hnew hafter => exact hafter.mem_iff

/-- The peers that are known after an insertion are the inserted one and those known before. -/
theorem mem_allPeers_insert {r : Router} (h : r.Invariant) (now : Time) (key : Key)
    (endpoint : Bytes) :
    ∀ p ∈ (r.attemptInsertPeer now key endpoint).2.2.allPeers,
      p = ⟨key, endpoint⟩ ∨ p ∈ r.allPeers := by
  rw [(attemptInsertPeer_invariant h now key endpoint).1.allPeers_eq, h.allPeers_eq]
  rcases attemptInsertPeer_cases h now key endpoint with
    ⟨-, hcall⟩ | ⟨-, table, -, ⟨how, -, hins, hcall⟩ | ⟨lru, hins, hcall⟩⟩
  · rw [hcall]
    exact fun p hp => Or.inr hp
  · rw [hcall]
    exact mem_of_inserted hins
  · rw [hcall]
    exact mem_of_inserted hins

/-- No peer that is known after an eviction has the evicted key, and all were known before. -/
theorem mem_allPeers_evict {r : Router} (h : r.Invariant) (key : Key) :
    ∀ p ∈ (r.evictPeer key).allPeers, p ∈ r.allPeers ∧ p.key ≠ key := by
  obtain ⟨table, found, hcall, -, her⟩ := evictPeer_spec h key
  rw [(evictPeer_invariant h key).1.allPeers_eq, h.allPeers_eq, hcall]
  refine fun p hp => ⟨mem_of_erased her p hp, ?_⟩
  rintro rfl
  cases her with
  | erased hkey hbefore =>
    have hnodup := (hbefore.map Peer.key).nodup_iff.1 h.table.keys_nodup
    exact (List.nodup_cons.1 hnodup).1 (hkey ▸ List.mem_map_of_mem hp)
  | absent habsent hafter => exact habsent (List.mem_map_of_mem (hafter.mem_iff.1 hp))

/-- An eviction leaves the other peers. -/
theorem mem_allPeers_evict_iff {r : Router} (h : r.Invariant) {key : Key} {p : Peer}
    (hp : p.key ≠ key) : p ∈ (r.evictPeer key).allPeers ↔ p ∈ r.allPeers := by
  refine ⟨fun hmem => (mem_allPeers_evict h key p hmem).1, fun hmem => ?_⟩
  obtain ⟨table, found, hcall, -, her⟩ := evictPeer_spec h key
  rw [(evictPeer_invariant h key).1.allPeers_eq, hcall]
  rw [h.allPeers_eq] at hmem
  cases her with
  | erased hkey hbefore =>
    rcases List.mem_cons.1 (hbefore.mem_iff.1 hmem) with rfl | hmem
    · exact absurd hkey hp
    · exact hmem
  | absent habsent hafter => exact hafter.mem_iff.2 hmem

/-- `closest_peers` leaves the known peers as they were. -/
theorem mem_allPeers_closest {r : Router} (h : r.Invariant) (now : Time) (searchKey : Key)
    (n : UInt32) (p : Peer) :
    p ∈ (r.closestPeers now searchKey n).2.allPeers ↔ p ∈ r.allPeers := by
  obtain ⟨htable, hself⟩ := closestPeers_withoutTimes now searchKey n r
  rw [(h.congr htable hself).allPeers_eq, h.allPeers_eq, ← peers_withoutTimes, htable,
    peers_withoutTimes]

/-- One step of the simulation. -/
theorem step_represents {r : Router} (hr : r.Invariant) {m : Contacts} (h : r.Represents m)
    (call : Call) : (r.step call).Represents (Contacts.step r.selfPeer m (r.result call)) := by
  have hinv := (step_invariant hr call).1
  refine ⟨by rw [hinv.allPeers_eq]; exact hinv.table.keys_nodup, ?_⟩
  have hnodup := hr.table.keys_nodup
  have hmem := h.mem_iff
  rw [hr.allPeers_eq] at hmem
  rw [hinv.allPeers_eq]
  cases call with
  | insert now key endpoint =>
    simp only [step, result]
    rcases attemptInsertPeer_cases hr now key endpoint with
      ⟨hself, hcall⟩ | ⟨hself, table, -, ⟨how, hhow, hins, hcall⟩ | ⟨lru, hins, hcall⟩⟩
    · rw [hcall]
      simpa only [Contacts.step, if_pos hself] using hmem
    · rw [hcall]
      simpa only [Contacts.step, if_neg hself] using Inserted.mem_iff hins hhow hnodup hmem
    · rw [hcall]
      cases hins with
      | refused hnew hafter =>
        intro k e
        rw [hafter.mem_iff]
        exact hmem k e
  | evict key =>
    obtain ⟨table, found, hcall, -, her⟩ := evictPeer_spec hr key
    simp only [step, result, hcall]
    exact Erased.mem_iff her hnodup hmem
  | closest now searchKey n =>
    obtain ⟨htable, -⟩ := closestPeers_withoutTimes now searchKey n r
    intro k e
    rw [← peers_withoutTimes, step, htable, peers_withoutTimes]
    exact hmem k e

/-- The empty router that the constructor starts from represents the empty map. -/
theorem bare_represents (now : Time) (selfPeer : Peer) :
    (bare now selfPeer).Represents fun _ => none :=
  ⟨by simp [bare, allPeers, BinaryTree.new, treeAllPeers],
    by simp [bare, allPeers, BinaryTree.new, treeAllPeers]⟩

/-- A run from a router with the invariant represents what its calls make of the map. -/
theorem run_represents {r : Router} (hr : r.Invariant) {m : Contacts} (h : r.Represents m)
    (calls : List Call) : (r.run calls).Represents (r.contactsAfter calls m) := by
  have hsim := @Runs.run_simulation Router Contacts Call (Call × Bool) step result
    (Contacts.step r.selfPeer)
    (fun r' m' => r'.Invariant ∧ r'.selfPeer = r.selfPeer ∧ r'.Represents m')
    (fun r' m' call ⟨hinv, hself, hrep⟩ =>
      ⟨(step_invariant hinv call).1, (step_invariant hinv call).2.trans hself,
        hself ▸ step_represents hinv hrep call⟩) r m ⟨hr, rfl, h⟩ calls
  exact hsim.2.2

/-- The router refines the map. The constructor's insertion and any calls give a router that
represents the map that these calls make of the empty one; any further calls change the map by their
own meaning; and an insertion that returns false, whether or not it split buckets on the way, leaves
the known peers as they were. -/
theorem allPeers_refines (now : Time) (selfPeer otherPeer : Peer) (before calls : List Call) :
    let start := Call.insert now otherPeer.key otherPeer.endpoint
    let r := (new now selfPeer otherPeer).run before
    let m := (bare now selfPeer).contactsAfter (start :: before) fun _ => none
    r.Represents m ∧ (r.run calls).Represents (r.contactsAfter calls m) ∧
      ∀ now key endpoint, (r.attemptInsertPeer now key endpoint).1 = false →
        ∀ p, p ∈ (r.attemptInsertPeer now key endpoint).2.2.allPeers ↔ p ∈ r.allPeers := by
  intro start r m
  have hr : r.Invariant := Reachable.invariant ⟨now, selfPeer, otherPeer, before, rfl⟩
  have hrep : r.Represents m :=
    run_represents (bare_invariant now selfPeer) (bare_represents now selfPeer) (start :: before)
  exact ⟨hrep, run_represents hr hrep calls, fun now key endpoint hfalse =>
    mem_allPeers_of_refused hr now key endpoint hfalse⟩

/-! ## Reading the map -/

/-- A stored peer is in the bucket that its own key leads to. -/
theorem Invariant.mem_bucket {r : Router} (h : r.Invariant) {p : Peer} (hp : p ∈ r.allPeers) :
    p ∈ (r.table.leafFor p.key).bucket := by
  obtain ⟨path, s, access, kbucket, -, hleaf, hreached, hmem⟩ := (h.reached p.key).leafFor
  rw [hleaf, bucket_leafOf]
  exact (hmem p).2 ⟨h.allPeers_eq ▸ hp, hreached.key⟩

/-- `get_peer` is the first of what `closest_peers` returns for one peer, if that has the key. -/
theorem getPeer_eq (r : Router) (now : Time) (key : Key) :
    (r.getPeer now key).1 = (closest key 1 r.table).head?.filter fun p => p.key = key := by
  rw [← closestPeers_eq r now]
  unfold getPeer
  generalize r.closestPeers now key 1 = out
  obtain ⟨buffer, r'⟩ := out
  cases buffer with
  | nil => rfl
  | cons p rest => simp [Option.filter]

/-- A call of `get_peer` returns the stored peer with the key, or nothing where there is none. -/
structure GetsPeer (r : Router) (now : Time) (key : Key) : Prop where
  /-- The stored peer. -/
  stored : ∀ p ∈ r.allPeers, p.key = key → (r.getPeer now key).1 = some p
  /-- None is stored. -/
  absent : key ∉ r.allPeers.map Peer.key → (r.getPeer now key).1 = none

/-- `get_peer` is an exact lookup exactly when the peer with the key, if there is one, is at the front
of its bucket. -/
theorem getsPeer_iff (r : Router) (hr : r.Reachable) (now : Time) (key : Key) :
    r.GetsPeer now key ↔
      ∀ p ∈ r.allPeers, p.key = key → (r.table.leafFor key).bucket.head? = some p := by
  have h := hr.invariant
  have hfront : ∀ p ∈ (r.table.leafFor key).bucket,
      (closest key 1 r.table).head? = (r.table.leafFor key).bucket.head? := by
    intro p hp
    rw [closest_eq h.table]
    cases hbucket : (r.table.leafFor key).bucket with
    | nil => rw [hbucket] at hp; exact absurd hp List.not_mem_nil
    | cons q rest => rfl
  have hstored : ∀ p ∈ r.allPeers, p.key = key →
      ((r.getPeer now key).1 = some p ↔ (r.table.leafFor key).bucket.head? = some p) := by
    rintro p hp rfl
    rw [getPeer_eq, hfront p (h.mem_bucket hp), Option.filter_eq_some_iff]
    simp
  constructor
  · exact fun hgets p hp hkey => (hstored p hp hkey).1 (hgets.stored p hp hkey)
  · refine fun hhead => ⟨fun p hp hkey => (hstored p hp hkey).2 (hhead p hp hkey), fun habsent => ?_⟩
    rw [getPeer_eq, Option.filter_eq_none_iff]
    intro p hp hkey
    refine habsent (List.mem_map.2 ⟨p, ?_, of_decide_eq_true hkey⟩)
    rw [h.allPeers_eq]
    exact (closest_subperm h.table key 1).subset (List.mem_of_head? hp)

/-- Of twenty peers in one bucket the one that was inserted last is found. -/
theorem getsPeer_front :
    ((new 0 ⟨0, []⟩ ⟨BitVec.ofNat keyBits (2^159), [1]⟩).run splitCalls).GetsPeer 0
      (BitVec.ofNat keyBits (2^159 + 19)) := by
  refine (getsPeer_iff _ ⟨0, _, _, splitCalls, rfl⟩ 0 _).2 ?_
  decide +kernel

/-- Of two peers in one bucket the one that was inserted first is not found. -/
theorem not_getsPeer :
    ¬∀ (r : Router), r.Reachable → ∀ (now : Time) (key : Key), r.GetsPeer now key := by
  intro hall
  have hgets := hall ((new 0 ⟨0, [0]⟩ ⟨1, [1]⟩).run [.insert 0 2 [2]])
    ⟨0, ⟨0, [0]⟩, ⟨1, [1]⟩, [.insert 0 2 [2]], rfl⟩ 0 1
  have hstored := hgets.stored ⟨1, [1]⟩ (by decide +kernel) rfl
  exact absurd hstored (by decide +kernel)

end Router

end Distft
