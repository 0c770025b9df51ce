import Distft.Router.Invariant

/-!
# How many peers a table can hold

A full leaf is split whenever the newcomer has the router's own bit at the leaf, on the router's own
path or off it. So any leaf can be split: fill it with peers on the other side, insert one peer on
the router's side, and evict them all (`Grows.split`). Repeating this everywhere gives the complete
tree to any depth that leaves five bits below it, and one peer in each of its leaves makes `2^m`
stored peers (`exists_run_peers`), far beyond `KEYBITS * KBUCKET_MAX`. From `2^32` peers on the
unsigned counters wrap, and `keyCount_not_exact` says so.

`Grows path tree tree'` says that calls about keys on `path` turn the subtree `tree` at `path` into
`tree'`. The calls of this module name the endpoint `ep`, and the router's own key is zero.
-/

namespace Distft

/-- The endpoint of the inserted peers. -/
def ep : Bytes := [1]

namespace BinaryTree

/-- What a call does to the subtree whose walk has `i` turns left, for the own key zero. -/
def callLoop (i : ℕ) (tree : BinaryTree) : Router.Call → BinaryTree
  | .insert now key endpoint => (insertLoop 0 now key endpoint i tree).1
  | .evict key => (evictLoop key i tree).1
  | .closest _ _ _ => tree

/-- An insertion or an eviction of `key`. -/
inductive About (key : Key) : Router.Call → Prop
  /-- The insertion. -/
  | insert : About key (.insert 0 key ep)
  /-- The eviction. -/
  | evict : About key (.evict key)

/-- Calls about keys on `path`, none of them zero, turn the subtree `tree` at `path` into `tree'`. -/
def Grows (path : List Bool) (tree tree' : BinaryTree) : Prop :=
  ∃ calls : List Router.Call,
    (∀ c ∈ calls, ∃ key : Key, key ≠ 0 ∧ keyPath key path.length = path ∧ About key c) ∧
      calls.foldl (callLoop (keyBits - path.length)) tree = tree'

theorem Grows.refl (path : List Bool) (tree : BinaryTree) : Grows path tree tree :=
  ⟨[], by simp, rfl⟩

theorem Grows.trans {path : List Bool} {t1 t2 t3 : BinaryTree} (h12 : Grows path t1 t2)
    (h23 : Grows path t2 t3) : Grows path t1 t3 := by
  obtain ⟨c1, hc1, rfl⟩ := h12
  obtain ⟨c2, hc2, rfl⟩ := h23
  refine ⟨c1 ++ c2, fun c hc => ?_, List.foldl_append⟩
  rcases List.mem_append.1 hc with hc | hc
  · exact hc1 c hc
  · exact hc2 c hc

/-- One call. -/
theorem Grows.one {path : List Bool} {key : Key} {call : Router.Call} (tree : BinaryTree)
    (h0 : key ≠ 0) (hpath : keyPath key path.length = path) (hcall : About key call) :
    Grows path tree (callLoop (keyBits - path.length) tree call) :=
  ⟨[call], by simpa using ⟨key, h0, hpath, hcall⟩, rfl⟩

/-! ## Calls at a joint -/

/-- A call about a key with bit `b` changes the child on that side, and the counter. -/
theorem callLoop_joint {key : Key} {call : Router.Call} {s : UInt32} (hcall : About key call)
    (i : ℕ) (count : UInt32) (access : Time) (zero one : BinaryTree) :
    ∃ count', callLoop (i + 1) (.node false s count access [] zero one) call =
      if key.getLsbD s.toNat then .node false s count' access [] zero (callLoop i one call)
      else .node false s count' access [] (callLoop i zero call) one := by
  cases hcall with
  | insert =>
    simp only [callLoop, insertLoop, stepDown, Bool.not_false, if_true]
    split_ifs
    · exact ⟨_, rfl⟩
    · exact ⟨_, rfl⟩
  | evict =>
    simp only [callLoop, evictLoop, stepDown, Bool.not_false, if_true]
    split_ifs
    · exact ⟨_, rfl⟩
    · exact ⟨_, rfl⟩

/-- A joint whose child on the side `b` is `child`. -/
def jointWith (b : Bool) (s count : UInt32) (access : Time) (child other : BinaryTree) :
    BinaryTree :=
  if b then .node false s count access [] other child
  else .node false s count access [] child other

/-- What calls can make of a child they can make of it below its joint. -/
theorem Grows.lift {path : List Bool} {b : Bool} {s : UInt32} {child child' : BinaryTree}
    (hs : s.toNat + path.length + 1 = keyBits) (h : Grows (path ++ [b]) child child')
    (count : UInt32) (access : Time) (other : BinaryTree) :
    ∃ count', Grows path (jointWith b s count access child other)
      (jointWith b s count' access child' other) := by
  obtain ⟨calls, hcalls, rfl⟩ := h
  have hi : keyBits - path.length = keyBits - (path ++ [b]).length + 1 := by simp; omega
  generalize keyBits - (path ++ [b]).length = i at hi
  induction calls generalizing child count with
  | nil => exact ⟨count, .refl _ _⟩
  | cons call calls ih =>
    obtain ⟨key, h0, hkey, hcall⟩ := hcalls call List.mem_cons_self
    obtain ⟨hpath, hbit⟩ := (keyPath_succ_iff hs).1 hkey
    have hstep : ∃ count1, Grows path (jointWith b s count access child other)
        (jointWith b s count1 access (callLoop i child call) other) := by
      have hone := Grows.one (jointWith b s count access child other) h0 hpath hcall
      rw [hi] at hone
      cases b with
      | false =>
        obtain ⟨count1, hjoint⟩ := callLoop_joint (s := s) hcall i count access child other
        rw [hbit] at hjoint
        exact ⟨count1, by simpa [jointWith, hjoint] using hone⟩
      | true =>
        obtain ⟨count1, hjoint⟩ := callLoop_joint (s := s) hcall i count access other child
        rw [hbit] at hjoint
        exact ⟨count1, by simpa [jointWith, hjoint] using hone⟩
    obtain ⟨count1, h1⟩ := hstep
    obtain ⟨count2, h2⟩ := ih count1 fun c hc => hcalls c (List.mem_cons_of_mem _ hc)
    exact ⟨count2, h1.trans h2⟩

/-! ## Calls at a leaf -/

/-- Peers with the endpoint `ep` and the given keys. -/
def peersOf (keys : List Key) : List Peer := keys.map fun key => ⟨key, ep⟩

/-- A key that is not listed is not found. -/
theorem findIdx?_peersOf {keys : List Key} {key : Key} (h : key ∉ keys) :
    (peersOf keys).findIdx? (fun p => p.key == key) = none := by
  rw [List.findIdx?_eq_none_iff]
  intro p hp
  obtain ⟨k, hk, rfl⟩ := List.mem_map.1 hp
  simpa using fun hkey : k = key => h (hkey ▸ hk)

/-- Peers with new keys on the path can be inserted while the leaf has space. -/
theorem Grows.fill {path : List Bool} {s : UInt32} (hpath : path.length < keyBits)
    {keys : List Key} (hnodup : keys.Nodup) (hlen : keys.length ≤ kbucketMax)
    (hkeys : ∀ key ∈ keys, key ≠ 0 ∧ keyPath key path.length = path) :
    Grows path (leafOf s 0 []) (leafOf s 0 (peersOf keys)) := by
  obtain ⟨i, hi⟩ : ∃ i, keyBits - path.length = i + 1 := ⟨keyBits - path.length - 1, by omega⟩
  induction keys with
  | nil => exact .refl _ _
  | cons key keys ih =>
    obtain ⟨hnew, hnodup⟩ := List.nodup_cons.1 hnodup
    have hroom : (peersOf keys).length < kbucketMax := by
      rw [peersOf, List.length_map]
      exact hlen
    obtain ⟨h0, hkey⟩ := hkeys key List.mem_cons_self
    have hone := Grows.one (leafOf s 0 (peersOf keys)) h0 hkey .insert
    have hins : callLoop (i + 1) (leafOf s 0 (peersOf keys)) (.insert 0 key ep) =
        leafOf s 0 (peersOf (key :: keys)) := by
      simp only [callLoop, leafOf, insertLoop, Bool.not_true, Bool.false_eq_true, if_false,
        findIdx?_peersOf hnew, hroom, if_true]
      simp [peersOf, UInt32.ofNat_add]
    rw [hi, hins] at hone
    exact (ih hnodup (by simp at hlen; omega)
      fun k hk => hkeys k (List.mem_cons_of_mem _ hk)).trans hone

/-- The peers of a leaf can be evicted. -/
theorem Grows.empty {path : List Bool} {s : UInt32} (hpath : path.length < keyBits)
    {keys : List Key} (hkeys : ∀ key ∈ keys, key ≠ 0 ∧ keyPath key path.length = path) :
    Grows path (leafOf s 0 (peersOf keys)) (leafOf s 0 []) := by
  obtain ⟨i, hi⟩ : ∃ i, keyBits - path.length = i + 1 := ⟨keyBits - path.length - 1, by omega⟩
  induction keys with
  | nil => exact .refl _ _
  | cons key keys ih =>
    obtain ⟨h0, hkey⟩ := hkeys key List.mem_cons_self
    have hone := Grows.one (leafOf s 0 (peersOf (key :: keys))) h0 hkey .evict
    have hev : callLoop (i + 1) (leafOf s 0 (peersOf (key :: keys))) (.evict key) =
        leafOf s 0 (peersOf keys) := by
      simp [callLoop, leafOf, evictLoop, peersOf, List.findIdx?_cons, UInt32.ofNat_add]
    rw [hi, hev] at hone
    exact hone.trans (ih fun k hk => hkeys k (List.mem_cons_of_mem _ hk))

/-! ## Keys on a path -/

/-- There is a key on every path. -/
theorem exists_keyPath (path : List Bool) (h : path.length ≤ keyBits) :
    ∃ key : Key, keyPath key path.length = path := by
  have hbits : (path ++ List.replicate (keyBits - path.length) false).length = keyBits := by
    simp; omega
  refine ⟨(BitVec.ofBoolListBE (path ++ List.replicate (keyBits - path.length) false)).setWidth
    keyBits, ?_⟩
  refine List.ext_getElem (by simp) fun j hj hj' => ?_
  have hlt : keyBits - 1 - j < keyBits := by omega
  have hsub : keyBits - 1 - (keyBits - 1 - j) = j := by omega
  simp only [keyPath, List.getElem_map, List.getElem_range, BitVec.getLsbD_setWidth,
    BitVec.getLsbD_ofBoolListBE, hbits, hsub, hlt, decide_true, Bool.true_and]
  simp [List.getElem?_append_left hj', hj']

/-- Changing the low five bits of a key does not move it from a path that ends above them. -/
theorem keyPath_xor {path : List Bool} (h : path.length + 5 ≤ keyBits) (key : Key) (j : ℕ)
    (hj : j < 32) :
    keyPath (key ^^^ BitVec.ofNat keyBits j) path.length = keyPath key path.length := by
  refine List.map_congr_left fun i hi => ?_
  have hi : i < path.length := List.mem_range.1 hi
  have hbit : j.testBit (keyBits - 1 - i) = false :=
    Nat.testBit_lt_two_pow (calc
      j < 2^5 := hj
      _ ≤ 2^(keyBits - 1 - i) := Nat.pow_le_pow_right (by norm_num) (by omega))
  rw [BitVec.getLsbD_xor, BitVec.getLsbD_ofNat, hbit]
  simp

/-- There is a key other than zero on every path that ends above the low five bits. -/
theorem exists_keyPath_ne_zero (path : List Bool) (h : path.length + 5 ≤ keyBits) :
    ∃ key : Key, key ≠ 0 ∧ keyPath key path.length = path := by
  obtain ⟨key, hkey⟩ := exists_keyPath path (by omega)
  by_cases h0 : key = 0
  · exact ⟨key ^^^ BitVec.ofNat keyBits 1, by rw [h0]; decide,
      by rw [keyPath_xor h key 1 (by omega), hkey]⟩
  · exact ⟨key, h0, hkey⟩

/-! ## Splitting an empty leaf -/

/-- A peer on the side of the zeros, which is the own side, splits a full leaf whose peers are all on
the other side, and goes to the empty half. -/
theorem callLoop_full {s : UInt32} (h0 : 0 < s) {keys : List Key} (hlen : keys.length = kbucketMax)
    (hone : ∀ key ∈ keys, key.getLsbD s.toNat = true) {low : Key}
    (hlow : low.getLsbD s.toNat = false) (i : ℕ) :
    callLoop (i + 2) (leafOf s 0 (peersOf keys)) (.insert 0 low ep) =
      jointWith false s (UInt32.ofNat kbucketMax + 1) 0 (leafOf (s - 1) 0 (peersOf [low]))
        (leafOf (s - 1) 0 (peersOf keys)) := by
  have hnew : low ∉ keys := fun hmem => by
    have := hone low hmem
    rw [hlow] at this
    exact Bool.noConfusion this
  have hcard : (peersOf keys).length = kbucketMax := by rw [peersOf, List.length_map, hlen]
  have hzeros : (peersOf keys).filter (fun p => !p.key.getLsbD s.toNat) = [] := by
    rw [List.filter_eq_nil_iff]
    intro p hp
    obtain ⟨key, hkey, rfl⟩ := List.mem_map.1 hp
    simp [hone key hkey]
  have hones : (peersOf keys).filter (fun p => p.key.getLsbD s.toNat) = peersOf keys := by
    rw [List.filter_eq_self]
    intro p hp
    obtain ⟨key, hkey, rfl⟩ := List.mem_map.1 hp
    exact hone key hkey
  have hown : (low.getLsbD s.toNat == (0 : Key).getLsbD s.toNat && decide (0 < s)) = true := by
    simp [hlow, h0]
  simp only [callLoop, leafOf, insertLoop, Bool.not_true, Bool.false_eq_true, if_false,
    findIdx?_peersOf hnew, hcard, lt_irrefl, hown, if_true]
  rw [split_eq, hzeros, hones]
  simp [stepDown, hlow, leafOf, insertLoop, countAdded, jointWith, peersOf, hlen]

/-- Keys on the side of the ones that fill a leaf. -/
theorem exists_fillers {path : List Bool} {s : UInt32} (hs : s.toNat + path.length + 1 = keyBits)
    (h5 : 5 ≤ s.toNat) :
    ∃ keys : List Key, keys.length = kbucketMax ∧ keys.Nodup ∧ ∀ key ∈ keys, key ≠ 0 ∧
      keyPath key (path ++ [true]).length = path ++ [true] := by
  have hlen : (path ++ [true]).length = path.length + 1 := by simp
  obtain ⟨base, hbase⟩ := exists_keyPath (path ++ [true]) (by rw [hlen]; omega)
  refine ⟨(List.range kbucketMax).map fun j => base ^^^ BitVec.ofNat keyBits j, by simp, ?_, ?_⟩
  · refine List.Nodup.map_on (fun x hx y hy hxy => ?_) List.nodup_range
    have hsmall : kbucketMax < 2^keyBits := by decide
    have hval := congrArg BitVec.toNat ((BitVec.xor_right_inj base).1 hxy)
    rwa [BitVec.toNat_ofNat, BitVec.toNat_ofNat,
      Nat.mod_eq_of_lt ((List.mem_range.1 hx).trans hsmall),
      Nat.mod_eq_of_lt ((List.mem_range.1 hy).trans hsmall)] at hval
  · intro key hkey
    obtain ⟨j, hj, rfl⟩ := List.mem_map.1 hkey
    have hj : j < 20 := List.mem_range.1 hj
    have hpath : keyPath (base ^^^ BitVec.ofNat keyBits j) (path ++ [true]).length =
        path ++ [true] := by
      rw [keyPath_xor (by rw [hlen]; omega) base j (by omega), hbase]
    refine ⟨fun h0 => ?_, hpath⟩
    have hbit := ((keyPath_succ_iff hs).1 hpath).2
    rw [h0] at hbit
    simp at hbit

/-- An empty leaf with five bits below it can be split. -/
theorem Grows.split {path : List Bool} {s : UInt32} (hs : s.toNat + path.length + 1 = keyBits)
    (h5 : 5 ≤ s.toNat) :
    ∃ count, Grows path (leafOf s 0 [])
      (jointWith false s count 0 (leafOf (s - 1) 0 []) (leafOf (s - 1) 0 [])) := by
  have h0 : 0 < s := UInt32.lt_iff_toNat_lt.2 (by simp; omega)
  have hchild : ∀ b : Bool, (path ++ [b]).length < keyBits := fun b => by simp; omega
  -- Twenty peers on the side of the ones fill the leaf.
  obtain ⟨keys, hcard, hnodup, hkeys⟩ := exists_fillers hs h5
  have h1 : Grows path (leafOf s 0 []) (leafOf s 0 (peersOf keys)) :=
    .fill (by omega) hnodup hcard.le fun key hkey =>
      ⟨(hkeys key hkey).1, ((keyPath_succ_iff hs).1 (hkeys key hkey).2).1⟩
  -- One peer on the side of the zeros splits it.
  obtain ⟨low, hlow0, hlow⟩ := exists_keyPath_ne_zero (path ++ [false]) (by simp; omega)
  obtain ⟨hlowPath, hlowBit⟩ := (keyPath_succ_iff hs).1 hlow
  have h2 := Grows.one (leafOf s 0 (peersOf keys)) hlow0 hlowPath .insert
  rw [show keyBits - path.length = (s.toNat - 1) + 2 by omega, callLoop_full h0 hcard
    (fun key hkey => ((keyPath_succ_iff hs).1 (hkeys key hkey).2).2) hlowBit] at h2
  -- All of them are evicted again.
  have hzero : Grows (path ++ [false]) (leafOf (s - 1) 0 (peersOf [low])) (leafOf (s - 1) 0 []) :=
    .empty (hchild false) fun key hkey => by
      obtain rfl := List.mem_singleton.1 hkey
      exact ⟨hlow0, hlow⟩
  have hone : Grows (path ++ [true]) (leafOf (s - 1) 0 (peersOf keys)) (leafOf (s - 1) 0 []) :=
    .empty (hchild true) hkeys
  obtain ⟨count3, h3⟩ := hzero.lift hs (UInt32.ofNat kbucketMax + 1) 0
    (leafOf (s - 1) 0 (peersOf keys))
  obtain ⟨count4, h4⟩ := hone.lift hs count3 0 (leafOf (s - 1) 0 [])
  exact ⟨count4, h1.trans (h2.trans (h3.trans h4))⟩

/-- From an empty leaf with `m + 5` bits below it, calls give a subtree with `2^m` peers. -/
theorem exists_grows (m : ℕ) :
    ∀ {path : List Bool} {s : UInt32}, s.toNat + path.length + 1 = keyBits → m + 5 ≤ s.toNat →
      ∃ tree, Grows path (leafOf s 0 []) tree ∧ tree.peers.length = 2^m := by
  induction m with
  | zero =>
    intro path s hs hm
    obtain ⟨key, h0, hkey⟩ := exists_keyPath_ne_zero path (by omega)
    refine ⟨leafOf s 0 (peersOf [key]), .fill (by omega) (by simp) (by simp) ?_, rfl⟩
    intro k hk
    obtain rfl := List.mem_singleton.1 hk
    exact ⟨h0, hkey⟩
  | succ m ih =>
    intro path s hs hm
    have hs1 : (s - 1).toNat = s.toNat - 1 :=
      UInt32.toNat_sub_of_le _ _ (UInt32.le_iff_toNat_le.2 (by simp; omega))
    have hsub : ∀ b : Bool, (s - 1).toNat + (path ++ [b]).length + 1 = keyBits := fun b => by
      rw [hs1, List.length_append, List.length_singleton]
      omega
    obtain ⟨count, hsplit⟩ := Grows.split hs (by omega)
    obtain ⟨zero, hzero, hcard0⟩ := ih (hsub false) (by omega)
    obtain ⟨one, hone, hcard1⟩ := ih (hsub true) (by omega)
    obtain ⟨count1, h1⟩ := hzero.lift hs count 0 (leafOf (s - 1) 0 [])
    obtain ⟨count2, h2⟩ := hone.lift hs count1 0 zero
    refine ⟨jointWith true s count2 0 one zero, hsplit.trans (h1.trans h2), ?_⟩
    simp only [jointWith, if_true, peers, List.nil_append, List.length_append, hcard0, hcard1]
    ring

end BinaryTree

namespace Router

open Distft.BinaryTree

/-- The own peer of the routers of this module: the key zero, and an endpoint other than `ep`. -/
def zeroPeer : Peer := ⟨0, []⟩

/-- On a router with the key zero, calls about other keys are the walks on its table. -/
theorem run_eq_foldl {calls : List Call} (h : ∀ c ∈ calls, ∃ key : Key, key ≠ 0 ∧ About key c)
    (table : BinaryTree) :
    (Router.mk zeroPeer table).run calls = ⟨zeroPeer, calls.foldl (callLoop keyBits) table⟩ := by
  induction calls generalizing table with
  | nil => rfl
  | cons call calls ih =>
    obtain ⟨key, h0, hcall⟩ := h call List.mem_cons_self
    have hstep : (Router.mk zeroPeer table).step call = ⟨zeroPeer, callLoop keyBits table call⟩ := by
      cases hcall with
      | insert =>
        have hself : ¬(key = zeroPeer.key ∨ ep = zeroPeer.endpoint) := by
          simpa [zeroPeer, ep] using h0
        simp only [step, attemptInsertPeer, callLoop, if_neg hself]
        split <;> simp_all [zeroPeer]
      | evict =>
        have hself : ¬key = zeroPeer.key := by simpa [zeroPeer] using h0
        simp only [step, evictPeer, callLoop, if_neg hself]
    calc (Router.mk zeroPeer table).run (call :: calls)
        = ((Router.mk zeroPeer table).step call).run calls := rfl
      _ = (Router.mk zeroPeer (callLoop keyBits table call)).run calls := by rw [hstep]
      _ = ⟨zeroPeer, (call :: calls).foldl (callLoop keyBits) table⟩ :=
        ih (fun c hc => h c (List.mem_cons_of_mem _ hc)) _

/-- A router's table can hold `2^m` peers, for every `m` up to 154. -/
theorem exists_run_peers (m : ℕ) (hm : m ≤ 154) :
    ∃ calls, ((new 0 zeroPeer zeroPeer).run calls).table.peers.length = 2^m := by
  have hs : (UInt32.ofNat (keyBits - 1)).toNat = keyBits - 1 := by decide
  obtain ⟨tree, ⟨calls, hcalls, hfold⟩, hcard⟩ :=
    @exists_grows m [] (UInt32.ofNat (keyBits - 1)) (by rw [hs]; rfl)
      (by rw [hs]; show m + 5 ≤ 160 - 1; omega)
  refine ⟨calls, ?_⟩
  have hnew : new 0 zeroPeer zeroPeer = ⟨zeroPeer, leafOf (UInt32.ofNat (keyBits - 1)) 0 []⟩ := by
    decide
  rw [hnew, run_eq_foldl fun c hc => (hcalls c hc).imp fun key h => ⟨h.1, h.2.2⟩]
  rw [← hcard, ← hfold]
  rfl

/-- A node's `key_count` is not always the number of peers below it: with `2^32` peers in the table
the root counts none. -/
theorem keyCount_not_exact :
    ¬∀ (now : Time) (selfPeer otherPeer : Peer) (calls : List Call) (path : List Bool),
      let r := (new now selfPeer otherPeer).run calls
      r.table.nodeAt path ≠ .null →
        (r.table.nodeAt path).keyCount.toNat = (r.table.nodeAt path).peers.length := by
  intro h
  obtain ⟨calls, hcard⟩ := exists_run_peers 32 (by omega)
  have hinv : ((new 0 zeroPeer zeroPeer).run calls).Invariant :=
    Reachable.invariant ⟨0, zeroPeer, zeroPeer, calls, rfl⟩
  have hne : ((new 0 zeroPeer zeroPeer).run calls).table.nodeAt [] ≠ .null := by
    rw [nodeAt_nil]
    intro hnull
    have hwf := hinv.table
    rw [hnull] at hwf
    cases hwf
  have hcount := h 0 zeroPeer zeroPeer calls [] hne
  rw [nodeAt_nil, hinv.table.keyCount_eq, hcard] at hcount
  exact absurd hcount (by decide)

end Router

end Distft
