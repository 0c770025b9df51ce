import Distft.Router.Invariant

/-!
# When an insertion is refused

An insertion comes to the leaf of its key, splits it for as long as it is full and the newcomer's
bit is that of the router's own key, and is refused where it can split no more. So it is refused
exactly when the leaf that it comes to is full of other peers that stay together in all these splits
(`attemptInsertPeer_eq_false_iff`).

What is reported of a refusal is the last peer of the leaf that the newcomer ended in. The splits
that come before a refusal move the whole bucket, so they can only make room for others: what is
refused after it was refused before it (`attemptInsertPeer_turnsDown`). Once the reported peer is
evicted the leaf has room, and the next insertion of the newcomer comes to the same leaf
(`attemptInsertPeer_evictPeer`).
-/

namespace Distft

namespace BinaryTree

/-- The peers agree with `key` in every bit from `s` down for as long as the own key does, bit 0
apart: none of them is left behind while the insertion of `key` splits. -/
def Together (selfKey key : Key) (s : ℕ) (kbucket : List Peer) : Prop :=
  ∀ p ∈ kbucket, ∀ j, 0 < j → j ≤ s →
    (∀ j', j ≤ j' → j' ≤ s → key.getLsbD j' = selfKey.getLsbD j') →
      p.key.getLsbD j = key.getLsbD j

/-- The insertion of `key` is refused below this leaf. -/
def Refuses (selfKey key : Key) : BinaryTree → Prop
  | .null => False
  | .node _ s _ _ kbucket _ _ =>
    kbucket.length = kbucketMax ∧ key ∉ kbucket.map Peer.key ∧
      Together selfKey key s.toNat kbucket

theorem refuses_leafOf {selfKey key : Key} {s : UInt32} {access : Time} {kbucket : List Peer} :
    Refuses selfKey key (leafOf s access kbucket) ↔ kbucket.length = kbucketMax ∧
      key ∉ kbucket.map Peer.key ∧ Together selfKey key s.toNat kbucket := Iff.rfl

/-- An insertion is refused exactly when the leaf that it comes to refuses it. -/
theorem insertLoop_refused_iff (selfKey : Key) (now : Time) (key : Key) (endpoint : Bytes) (i : ℕ)
    {path : List Bool} {tree : BinaryTree} (h : Reached path tree key)
    (hi : keyBits ≤ i + path.length) :
    (∃ lru, (insertLoop selfKey now key endpoint i tree).2 = .refused lru) ↔
      Refuses selfKey key (tree.leafFor key) := by
  refine insertLoop_induction selfKey now key endpoint
    (motive := fun _ tree r => (∃ lru, r.2 = .refused lru) ↔ Refuses selfKey key (tree.leafFor key))
    ?updated ?added ?refused ?split ?fork i h hi
  case updated =>
    intro path s access kbucket j p h hp hpkey hperm
    rw [leafFor_leafOf]
    refine iff_of_false (fun hr => nomatch hr.choose_spec) fun hr => hr.2.1 ?_
    exact List.mem_map.2 ⟨p, List.mem_of_getElem? hp, hpkey⟩
  case added =>
    intro path s access kbucket h hnew hroom
    rw [leafFor_leafOf]
    exact iff_of_false (fun hr => nomatch hr.choose_spec) fun hr => hroom.ne hr.1
  case refused =>
    intro path s access kbucket h hnew hfull hbit
    rw [leafFor_leafOf]
    refine iff_of_true ⟨_, rfl⟩ ⟨hfull, hnew, fun p hp j hpos hj hagree => ?_⟩
    -- The bit of the leaf itself is among those that would have to agree.
    have hzero := hbit (hagree s.toNat hj le_rfl)
    subst hzero
    exact absurd hpos (by simpa using hj)
  case split =>
    intro path s access kbucket h hnew hfull hpos hbit b hb r ih
    subst hb
    rw [ih, leafFor_fork rfl, leafFor_leafOf, half, leafFor_leafOf, refuses_leafOf, refuses_leafOf]
    have hs1 : (s - 1).toNat = s.toNat - 1 :=
      UInt32.toNat_sub_of_le _ _ (UInt32.le_iff_toNat_le.2 (UInt32.lt_iff_toNat_lt.1 hpos))
    rw [hs1]
    constructor
    · rintro ⟨hlen, -, htogether⟩
      -- All of the bucket went to the newcomer's half.
      have hall := List.length_filter_eq_length_iff.1 (hlen.trans hfull.symm)
      rw [List.filter_eq_self.2 hall] at htogether
      refine ⟨hfull, hnew, fun p hp j hj hjs hagree => ?_⟩
      rcases Nat.lt_or_ge j s.toNat with hlt | hge
      · exact htogether p hp j hj (by omega) fun j' h1 h2 => hagree j' h1 (by omega)
      · obtain rfl : j = s.toNat := by omega
        simpa using hall p hp
    · rintro ⟨-, -, htogether⟩
      have hs0 : 0 < s.toNat := UInt32.lt_iff_toNat_lt.1 hpos
      -- Conversely a bucket that stays together goes to the newcomer's half as a whole.
      have hall : ∀ p ∈ kbucket, (p.key.getLsbD s.toNat == key.getLsbD s.toNat) = true := by
        intro p hp
        refine beq_iff_eq.2 (htogether p hp s.toNat hs0 le_rfl fun j' h1 h2 => ?_)
        rw [Nat.le_antisymm h2 h1, hbit]
      rw [List.filter_eq_self.2 hall]
      refine ⟨hfull, hnew, fun p hp j hj hjs hagree => htogether p hp j hj (by omega) ?_⟩
      intro j' h1 h2
      rcases Nat.lt_or_ge j' s.toNat with hlt | hge
      · exact hagree j' h1 (by omega)
      · rw [Nat.le_antisymm h2 hge, hbit]
  case fork =>
    intro path b s count access near far near' how h hb ih
    rw [leafFor_fork hb]
    exact ih

/-! ## What a refusal leaves -/

/-- The leaf of `key` refuses it, and its last peer is `lru`. -/
def RefusesFor (selfKey key : Key) (lru : Option Peer) (tree : BinaryTree) : Prop :=
  Refuses selfKey key (tree.leafFor key) ∧ (tree.leafFor key).bucket.getLast? = lru

/-- A full leaf that splits for a key of which all its peers have the bit refuses what its half
does. -/
theorem RefusesFor.of_half {selfKey key : Key} {lru : Option Peer} {b : Bool} {s count : UInt32}
    {now access access' : Time} {kbucket : List Peer} (hfull : kbucket.length = kbucketMax) (hs : 0 < s)
    (hall : ∀ p ∈ kbucket, p.key.getLsbD s.toNat = b)
    (h : RefusesFor selfKey key lru
      (fork b s count access (half b s now kbucket) (half (!b) s now kbucket))) :
    RefusesFor selfKey key lru (leafOf s access' kbucket) := by
  have hnear : (kbucket.filter fun p => p.key.getLsbD s.toNat == b) = kbucket :=
    List.filter_eq_self.2 fun p hp => beq_iff_eq.2 (hall p hp)
  have hfar : (kbucket.filter fun p => p.key.getLsbD s.toNat == !b) = [] :=
    List.filter_eq_nil_iff.2 fun p hp => by simp [hall p hp]
  have hs1 : (s - 1).toNat = s.toNat - 1 :=
    UInt32.toNat_sub_of_le _ _ (UInt32.le_iff_toNat_le.2 (UInt32.lt_iff_toNat_lt.1 hs))
  unfold RefusesFor at h ⊢
  by_cases hkey : key.getLsbD s.toNat = b
  · rw [leafFor_fork hkey, half, leafFor_leafOf, refuses_leafOf, hnear, hs1] at h
    rw [leafFor_leafOf, refuses_leafOf]
    obtain ⟨⟨-, hnew, htogether⟩, hlast⟩ := h
    refine ⟨⟨hfull, hnew, fun p hp j hj hjs hagree => ?_⟩, hlast⟩
    rcases Nat.lt_or_ge j s.toNat with hlt | hge
    · exact htogether p hp j hj (by omega) fun j' h1 h2 => hagree j' h1 (by omega)
    · rw [Nat.le_antisymm hjs hge, hall p hp, hkey]
  · -- The other half is empty.
    rw [fork_comm, leafFor_fork (Bool.eq_not.2 hkey), half, leafFor_leafOf, refuses_leafOf, hfar] at h
    exact absurd h.1.1 (by simp)

/-- A refused insertion reports the last peer of the leaf that it comes to. Where it splits, all
peers of the leaf stay together: so the same insertion is refused once more, with the same peer, and
what is refused after it was refused before it. -/
theorem insertLoop_refusesFor (selfKey : Key) (now : Time) (key : Key) (endpoint : Bytes) (i : ℕ)
    {path : List Bool} {tree : BinaryTree} (h : Reached path tree key)
    (hi : keyBits ≤ i + path.length) {lru : Option Peer}
    (hr : (insertLoop selfKey now key endpoint i tree).2 = .refused lru) :
    RefusesFor selfKey key lru tree ∧
      RefusesFor selfKey key lru (insertLoop selfKey now key endpoint i tree).1 ∧
      ∀ key' lru', RefusesFor selfKey key' lru' (insertLoop selfKey now key endpoint i tree).1 →
        RefusesFor selfKey key' lru' tree := by
  refine insertLoop_induction selfKey now key endpoint
    (motive := fun _ tree r => r.2 = .refused lru → RefusesFor selfKey key lru tree ∧
      RefusesFor selfKey key lru r.1 ∧
      ∀ key' lru', RefusesFor selfKey key' lru' r.1 → RefusesFor selfKey key' lru' tree)
    ?updated ?added ?refused ?split ?fork i h hi hr
  case updated => exact fun _ _ _ _ _ _ _ _ _ _ hr => nomatch hr
  case added => exact fun _ _ _ _ _ _ _ hr => nomatch hr
  case refused =>
    intro path s access kbucket h hnew hfull hbit hr
    have hleaf : RefusesFor selfKey key lru (leafOf s access kbucket) := by
      refine ⟨?_, ?_⟩
      · rw [leafFor_leafOf]
        refine ⟨hfull, hnew, fun p hp j hpos hj hagree => ?_⟩
        have hzero := hbit (hagree s.toNat hj le_rfl)
        subst hzero
        exact absurd hpos (by simpa using hj)
      · rw [leafFor_leafOf, bucket_leafOf]
        exact Insertion.refused.inj hr
    exact ⟨hleaf, hleaf, fun _ _ h => h⟩
  case split =>
    intro path s access kbucket h hnew hfull hpos hbit b hb r ih hr
    obtain ⟨hbefore, hafter, hframe⟩ := ih hr
    -- The newcomer's half is full, so it has the whole bucket.
    have hall : ∀ p ∈ kbucket, p.key.getLsbD s.toNat = b := by
      have hlen := hbefore.1
      rw [leafFor_fork hb.symm, half, leafFor_leafOf, refuses_leafOf] at hlen
      exact fun p hp =>
        beq_iff_eq.1 (List.length_filter_eq_length_iff.1 (hlen.1.trans hfull.symm) p hp)
    exact ⟨hbefore.of_half hfull hpos hall, hafter,
      fun key' lru' h' => (hframe key' lru' h').of_half hfull hpos hall⟩
  case fork =>
    intro path b s count access near far near' how h hb ih hr
    obtain ⟨hbefore, hafter, hframe⟩ := ih hr
    unfold RefusesFor at *
    rw [leafFor_fork hb, leafFor_fork hb]
    refine ⟨hbefore, hafter, fun key' lru' h' => ?_⟩
    by_cases hkey : key'.getLsbD s.toNat = b
    · rw [leafFor_fork hkey] at h' ⊢
      exact hframe key' lru' h'
    · rw [fork_comm, leafFor_fork (Bool.eq_not.2 hkey)] at h' ⊢
      exact h'

/-! ## Room -/

/-- An eviction that finds nothing changes nothing. -/
theorem evictLoop_notFound (key : Key) (i : ℕ) {path : List Bool} {tree : BinaryTree}
    (h : Reached path tree key) (hi : keyBits ≤ i + path.length)
    (hfound : (evictLoop key i tree).2 = false) : (evictLoop key i tree).1 = tree := by
  refine evictLoop_induction key (motive := fun _ tree r => r.2 = false → r.1 = tree)
    ?erased ?absent ?fork i h hi hfound
  case erased => exact fun _ _ _ _ _ _ _ _ _ _ hr => nomatch hr
  case absent => exact fun _ _ _ _ _ _ _ => rfl
  case fork =>
    intro path b s count access near far near' found _ _ ih hr
    subst hr
    obtain rfl : near' = near := ih rfl
    rfl

/-- The eviction of a peer from the leaf of `key` shortens the bucket of that leaf. -/
theorem leafFor_evictLoop {key : Key} {p : Peer} (i : ℕ) {path : List Bool} {tree : BinaryTree}
    (h : Reached path tree p.key) (hi : keyBits ≤ i + path.length) {s : UInt32} {access : Time}
    {kbucket : List Peer} (hleaf : tree.leafFor key = leafOf s access kbucket) (hp : p ∈ kbucket) :
    ∃ kbucket', (evictLoop p.key i tree).1.leafFor key = leafOf s access kbucket' ∧
      kbucket.length = kbucket'.length + 1 := by
  refine evictLoop_induction p.key (motive := fun _ tree r =>
    tree.leafFor key = leafOf s access kbucket → ∃ kbucket',
      r.1.leafFor key = leafOf s access kbucket' ∧ kbucket.length = kbucket'.length + 1)
    ?erased ?absent ?fork i h hi hleaf
  case erased =>
    intro path s' access' kb j q _ hq hqkey hperm hleaf
    rw [leafFor_leafOf] at hleaf ⊢
    simp only [leafOf, node.injEq, true_and, and_true] at hleaf
    obtain ⟨rfl, -, rfl, rfl⟩ := hleaf
    exact ⟨_, rfl, hperm.length_eq⟩
  case absent =>
    intro path s' access' kb _ habsent hleaf
    rw [leafFor_leafOf] at hleaf
    simp only [leafOf, node.injEq, true_and, and_true] at hleaf
    obtain ⟨-, -, -, rfl⟩ := hleaf
    exact absurd (List.mem_map_of_mem hp) habsent
  case fork =>
    intro path b s' count access' near far near' found h hb ih hleaf
    subst hb
    by_cases hkey : key.getLsbD s'.toNat = p.key.getLsbD s'.toNat
    · rw [leafFor_fork hkey] at hleaf ⊢
      exact ih hleaf
    · -- The leaf of `key` would be on the far side, where `p` is not.
      have hfar := (wellFormed_fork_iff.1 h.tree).2.2.2
      rw [fork_comm, leafFor_fork (Bool.eq_not.2 hkey)] at hleaf
      refine absurd rfl (h.far_ne p (bucket_leafFor_subset hfar key ?_))
      rwa [hleaf, bucket_leafOf]

end BinaryTree

namespace Router

open Distft.BinaryTree

/-- An insertion returns false exactly when the leaf of the key refuses it. -/
theorem attemptInsertPeer_eq_false_iff {r : Router} (h : r.Invariant) (now : Time) {key : Key}
    {endpoint : Bytes} (hself : ¬(key = r.selfPeer.key ∨ endpoint = r.selfPeer.endpoint)) :
    (r.attemptInsertPeer now key endpoint).1 = false ↔
      Refuses r.selfPeer.key key (r.table.leafFor key) := by
  rw [← insertLoop_refused_iff r.selfPeer.key now key endpoint keyBits (h.reached key) le_self_add,
    attemptInsertPeer_eq now hself]
  obtain ⟨-, hins⟩ := insertLoop_spec r.selfPeer.key now key endpoint keyBits (h.reached key)
    le_self_add
  generalize (insertLoop r.selfPeer.key now key endpoint keyBits r.table).2 = how at *
  cases hins with
  | updated => simp [stored]
  | added => simp [stored]
  | refused => simp [stored]

/-- The router turns a peer down, and reports `lru`: the leaf of the peer's key is full of other
peers that stay together in all splits that it could make for the newcomer, and `lru` is the last
one of it. -/
def TurnsDown (r : Router) (peer lru : Peer) : Prop :=
  ¬(peer.key = r.selfPeer.key ∨ peer.endpoint = r.selfPeer.endpoint) ∧
    RefusesFor r.selfPeer.key peer.key (some lru) r.table

/-- That is what an insertion returns false for. The refusal leaves the router's own peer, it comes
again, and what is refused then was refused before. -/
theorem attemptInsertPeer_turnsDown {r : Router} (h : r.Invariant) {now : Time} {peer lru : Peer}
    (hfalse : (r.attemptInsertPeer now peer.key peer.endpoint).1 = false)
    (hlru : (r.attemptInsertPeer now peer.key peer.endpoint).2.1 = some lru) :
    r.TurnsDown peer lru ∧ (r.attemptInsertPeer now peer.key peer.endpoint).2.2.TurnsDown peer lru ∧
      ∀ peer' lru', (r.attemptInsertPeer now peer.key peer.endpoint).2.2.TurnsDown peer' lru' →
        r.TurnsDown peer' lru' := by
  obtain ⟨hself, -⟩ := attemptInsertPeer_refused h hfalse
  rw [attemptInsertPeer_eq now hself] at hfalse hlru ⊢
  have hrefused : (insertLoop r.selfPeer.key now peer.key peer.endpoint keyBits r.table).2 =
      .refused (some lru) := by
    generalize (insertLoop r.selfPeer.key now peer.key peer.endpoint keyBits r.table).2 = how at *
    cases how with
    | refused => exact congrArg _ hlru
    | _ => simp_all [stored, lruOf]
  obtain ⟨hbefore, hafter, hframe⟩ := insertLoop_refusesFor r.selfPeer.key now peer.key peer.endpoint
    keyBits (h.reached peer.key) le_self_add hrefused
  exact ⟨⟨hself, hbefore⟩, ⟨hself, hafter⟩, fun _ _ h' => ⟨h'.1, hframe _ _ h'.2⟩⟩

/-- A router that turns a peer down returns false, and reports the last peer. -/
theorem TurnsDown.attemptInsertPeer {r : Router} {peer lru : Peer} (hdown : r.TurnsDown peer lru)
    (h : r.Invariant) (now : Time) : (r.attemptInsertPeer now peer.key peer.endpoint).1 = false ∧
      (r.attemptInsertPeer now peer.key peer.endpoint).2.1 = some lru := by
  have hfalse := (attemptInsertPeer_eq_false_iff h now hdown.1).2 hdown.2.1
  obtain ⟨-, lru', hlru', -⟩ := attemptInsertPeer_refused h hfalse
  obtain ⟨⟨-, -, hlast⟩, -, -⟩ := attemptInsertPeer_turnsDown h hfalse hlru'
  exact ⟨hfalse, hlru'.trans (hlast.symm.trans hdown.2.2)⟩

/-- A call that returns true does nothing for the router itself, and else stores the peer and keeps
every stored key. -/
theorem attemptInsertPeer_true {r : Router} (h : r.Invariant) {now : Time} {key : Key}
    {endpoint : Bytes} (htrue : (r.attemptInsertPeer now key endpoint).1 = true) :
    ((key = r.selfPeer.key ∨ endpoint = r.selfPeer.endpoint) ∧
        (r.attemptInsertPeer now key endpoint).2.2 = r) ∨
      (⟨key, endpoint⟩ ∈ (r.attemptInsertPeer now key endpoint).2.2.table.peers ∧
        ∀ p ∈ r.table.peers,
          p.key ∈ (r.attemptInsertPeer now key endpoint).2.2.table.peers.map Peer.key) := by
  rcases attemptInsertPeer_cases h now key endpoint with
    ⟨hself, hcall⟩ | ⟨-, table, -, ⟨how, hhow, hins, hcall⟩ | ⟨lru, -, hcall⟩⟩
  · exact .inl ⟨hself, by rw [hcall]⟩
  · rw [hcall]
    refine .inr ?_
    cases hins with
    | updated hkey hbefore hafter =>
      refine ⟨hafter.mem_iff.2 List.mem_cons_self, fun p hp => ?_⟩
      have hkeys := (hbefore.map Peer.key).trans
        ((List.Perm.of_eq (by simp [hkey])).trans (hafter.map Peer.key).symm)
      exact hkeys.mem_iff.1 (List.mem_map_of_mem hp)
    | added hnew hafter =>
      refine ⟨hafter.mem_iff.2 List.mem_cons_self, fun p hp => ?_⟩
      exact List.mem_map_of_mem (hafter.mem_iff.2 (List.mem_cons_of_mem _ hp))
    | refused => simp at hhow
  · rw [hcall] at htrue
    exact nomatch htrue

/-- A call that returns false keeps the stored peers. -/
theorem attemptInsertPeer_false {r : Router} (h : r.Invariant) {now : Time} {key : Key}
    {endpoint : Bytes} (hfalse : (r.attemptInsertPeer now key endpoint).1 = false) :
    (r.attemptInsertPeer now key endpoint).2.2.table.peers.Perm r.table.peers := by
  rcases attemptInsertPeer_cases h now key endpoint with
    ⟨hself, hcall⟩ | ⟨-, table, -, ⟨how, -, hins, hcall⟩ | ⟨lru, hins, hcall⟩⟩
  · rw [hcall] at hfalse
    exact nomatch hfalse
  · rw [hcall] at hfalse
    exact nomatch hfalse
  · rw [hcall]
    cases hins with
    | refused hnew hafter hlru => exact hafter

/-- An eviction keeps the peers with other keys. -/
theorem mem_evictPeer_of_ne {r : Router} (h : r.Invariant) {key : Key} {p : Peer}
    (hp : p ∈ r.table.peers) (hne : p.key ≠ key) : p ∈ (r.evictPeer key).table.peers := by
  obtain ⟨table, found, hcall, -, herased⟩ := evictPeer_spec h key
  rw [hcall]
  cases herased with
  | erased hkey hbefore =>
    refine (List.mem_cons.1 (hbefore.mem_iff.1 hp)).resolve_left ?_
    rintro rfl
    exact hne hkey
  | absent habsent hafter => exact hafter.mem_iff.2 hp

/-- A second eviction of the same key changes nothing. -/
theorem evictPeer_evictPeer {r : Router} (h : r.Invariant) (key : Key) :
    (r.evictPeer key).evictPeer key = r.evictPeer key := by
  obtain ⟨hinv, hself⟩ := evictPeer_invariant h key
  obtain ⟨table, found, hcall, hwf, herased⟩ := evictPeer_spec h key
  have habsent : key ∉ (r.evictPeer key).table.peers.map Peer.key := by
    rw [hcall]
    have hnodup := h.table.keys_nodup
    cases herased with
    | erased hkey hbefore =>
      rw [(hbefore.map Peer.key).nodup_iff, List.map_cons, List.nodup_cons, hkey] at hnodup
      exact hnodup.1
    | absent habsent hafter => rwa [(hafter.map Peer.key).mem_iff]
  generalize r.evictPeer key = r' at *
  rw [evictPeer]
  split_ifs with hown
  · rfl
  obtain ⟨-, herased'⟩ := evictLoop_spec key keyBits (hinv.reached key) le_self_add
  have hnotFound := evictLoop_notFound key keyBits (hinv.reached key) le_self_add
  generalize evictLoop key keyBits r'.table = out at *
  obtain ⟨table', found'⟩ := out
  cases herased' with
  | erased hkey hbefore =>
    refine absurd ?_ habsent
    rw [(hbefore.map Peer.key).mem_iff, ← hkey]
    exact List.mem_cons_self
  | absent => rw [hnotFound rfl]

/-- Once the peer that a refusal reported is evicted, the insertion succeeds. -/
theorem attemptInsertPeer_evictPeer {r : Router} (h : r.Invariant) (now : Time) {key : Key}
    {endpoint : Bytes} {lru : Peer}
    (hself : ¬(key = r.selfPeer.key ∨ endpoint = r.selfPeer.endpoint))
    (hfull : FullFor key lru r.table) :
    ((r.evictPeer lru.key).attemptInsertPeer now key endpoint).1 = true := by
  obtain ⟨s, access, kbucket, hleaf, hlen, hnew, hlast⟩ := hfull
  obtain ⟨hinv, hown⟩ := evictPeer_invariant h lru.key
  have hlru := List.mem_of_getLast? hlast
  have hstored : lru ∈ r.table.peers := by
    refine bucket_leafFor_subset h.table key ?_
    rwa [hleaf, bucket_leafOf]
  obtain ⟨kbucket', hleaf', hlen'⟩ := leafFor_evictLoop keyBits (h.reached lru.key) le_self_add
    hleaf hlru
  rw [← Bool.not_eq_false, attemptInsertPeer_eq_false_iff hinv now (by rwa [hown])]
  have htable : (r.evictPeer lru.key).table = (evictLoop lru.key keyBits r.table).1 := by
    rw [evictPeer, if_neg (h.key_ne_self lru hstored)]
  rw [htable, hleaf', refuses_leafOf]
  rintro ⟨hfull, -⟩
  omega

end Router

end Distft
