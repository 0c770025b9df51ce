import Distft.Session.Forced

/-!
# Whether the replicas agree

`set` in a static cluster whose RPCs are all answered, with `force` or without. The others take the
value of a set with force, or where they do not have the key; but the writer puts it into its own
map whatever is there (`setAt`). So after any sets a key is at all nodes or at none (`AllOrNone`), and
the nodes get the same for every key exactly as long as no set without force comes to a key for which
a node has another value (`setsAgree_iff`).
-/

namespace Distft

open Exec

variable {n : ℕ} {members : Members n} {data : Fin n → Key → Option Bytes} {c : Cluster n}
variable {T : Transport} {depth : ℕ} {x : Fin n}

/-! ## Sets of any kind, one after the other -/

/-- A `set` that a node issues. -/
structure SetCall (n : ℕ) where
  /-- The node. -/
  node : Fin n
  /-- The key. -/
  key : Key
  /-- The value. -/
  value : Bytes
  /-- Whether others are to overwrite their copies. -/
  force : Bool

/-- The run of a set. -/
def setRun (T : Transport) (depth : ℕ) (c : Cluster n) (call : SetCall n) :
    Run Event Fault (Cluster n) Unit :=
  (Cluster.node T depth call.node).set call.key call.value call.force c

/-- The cluster after a set. -/
def setStep (T : Transport) (depth : ℕ) (c : Cluster n) (call : SetCall n) : Cluster n :=
  (setRun T depth c call).state

/-- The run of a get. -/
def getRun (T : Transport) (depth : ℕ) (c : Cluster n) (x : Fin n) (key : Key) :
    Run Event Fault (Cluster n) (Option Bytes) :=
  (Cluster.node T depth x).getValue key c

/-- Every RPC of a set is answered. -/
def SetAnswered (T : Transport) (depth : ℕ) (c : Cluster n) (call : SetCall n) : Prop :=
  ∀ e ∈ (setRun T depth c call).events, e.answered = true

instance (T : Transport) (depth : ℕ) (c : Cluster n) (call : SetCall n) :
    Decidable (SetAnswered T depth c call) := by
  unfold SetAnswered
  infer_instance

/-- All nodes whose RPCs are answered get the same answer, for every key. -/
def Agree (T : Transport) (depth : ℕ) (c : Cluster n) : Prop :=
  ∀ key x y, (∀ e ∈ (getRun T depth c x key).events, e.answered = true) →
    (∀ e ∈ (getRun T depth c y key).events, e.answered = true) →
    ∃ found, (getRun T depth c x key).result = .ok found ∧ (getRun T depth c y key).result = .ok found

/-- The set is forced, or no node has another value for the key. -/
def Undisputed (c : Cluster n) (call : SetCall n) : Prop :=
  call.force = true ∨ ∀ y value, valueAt c y call.key = some value → value = call.value

/-! ## What a set does to the data -/

/-- Each key is at all nodes, or at none. -/
def AllOrNone (data : Fin n → Key → Option Bytes) : Prop :=
  ∀ key, (∀ y, data y key ≠ none) ∨ ∀ y, data y key = none

/-- After a set all nodes have the key. -/
theorem AllOrNone.setAt (h : AllOrNone data) (x : Fin n) (force : Bool) (key : Key) (value : Bytes) :
    AllOrNone (setAt x force data key value) := by
  intro key'
  unfold Distft.setAt
  by_cases hkey : key = key'
  · subst hkey
    left
    intro y
    split_ifs with htakes
    · exact Option.some_ne_none value
    · simp only [true_and, not_or] at htakes
      exact htakes.2.2
  · simpa only [hkey, false_and, if_false] using h key'

/-- Where all nodes have the same, a set keeps it so exactly when it is forced or no node has another
value. -/
theorem setAt_agree_iff (members : Members n) (hagree : ∀ key y z, data y key = data z key)
    (x : Fin n) (force : Bool) (key : Key) (value : Bytes) :
    (∀ key' y z, setAt x force data key value y key' = setAt x force data key value z key') ↔
      (force = true ∨ ∀ y value', data y key = some value' → value' = value) := by
  obtain ⟨y, hyx⟩ : ∃ y : Fin n, y ≠ x := by
    have : Nontrivial (Fin n) := Fin.nontrivial_iff_two_le.2 members.two_le
    exact exists_ne x
  constructor
  · intro hafter
    rw [or_iff_not_imp_left]
    intro hforce z value' hz
    -- The writer has its value, and any other node the one that was there.
    have hother := hafter key y x
    rw [hagree key z y] at hz
    simpa [setAt, hyx, hforce, hz] using hother
  · intro hkeeps key' z w
    by_cases hkey : key = key'
    · subst hkey
      have hvalue : ∀ z, setAt x force data key value z key = some value := by
        intro z
        unfold setAt
        split_ifs with htakes
        · rfl
        · simp only [true_and, not_or] at htakes
          obtain ⟨-, hforce, hhas⟩ := htakes
          obtain ⟨value', hvalue'⟩ := Option.ne_none_iff_exists'.1 hhas
          rw [hvalue', (hkeeps.resolve_left hforce) z value' hvalue']
      rw [hvalue, hvalue]
    · simp only [setAt, hkey, false_and, if_false]
      exact hagree key' z w

/-! ## What a node gets -/

/-- `find_value` to another node, where no node has the key, finds other nodes. -/
theorem succeeds_findValue (h : Static members data c) {y : Fin n} (hxy : y ≠ x) {searchKey : Key}
    (hdata : data y searchKey = none) :
    Succeeds Answered ((Cluster.node T depth x).findValue (members.peers y) searchKey) c
      fun c' answer => Static members data c' ∧
        ∃ found, answer = some (.inr found) ∧ found ⊆ members.others x := by
  refine Succeeds.bind (succeeds_get ?_)
  rw [h.own]
  refine Succeeds.bind (succeeds_call h (fun _ _ => succeeds_handleFindValue h hxy.symm hdata) ?_)
  rintro c' response ⟨h', peers, hperm, rfl⟩
  refine Succeeds.bind ((succeeds_rpcCallerEpilogue h' hxy).mono fun c'' _ h'' => ?_)
  have hpeers : ∀ p ∈ peers, ∃ z, members.peers z = p := fun p hp =>
    (members.mem_others.1 (hperm.mem_iff.1 hp)).imp fun _ hz => hz.2
  refine Succeeds.bind ((succeeds_learnPeers peers hpeers h'').mono fun _ found hfound => ?_)
  exact succeeds_pure ⟨hfound.1, found, rfl, hfound.2⟩

/-- Where no node has the key, a value lookup hears of nodes only. -/
theorem valueQueryFn_answersOthers {searchKey : Key} (hdata : ∀ y, data y searchKey = none) :
    AnswersOthers members data x ((Cluster.node T depth x).valueQueryFn searchKey) := by
  intro c peer h hpeer
  obtain ⟨y, hxy, rfl⟩ := members.mem_others.1 hpeer
  refine Succeeds.bind ((succeeds_findValue h hxy (hdata y)).mono ?_)
  rintro c' answer ⟨h', found, rfl, hfound⟩
  exact succeeds_pure ⟨h', found, rfl, hfound⟩

/-- A get of a key that no node has finds nothing. -/
theorem succeeds_getValue_absent (h : Static members data c) {key : Key}
    (hdata : ∀ y, data y key = none) :
    Succeeds Answered ((Cluster.node T depth x).getValue key) c fun _ found => found = none := by
  have hlookup : (c.nodes x).chunks.lookup key = none := by
    rw [← Option.isNone_iff_eq_none, h.lookup_isNone, hdata, Option.isNone_none]
  unfold Net.getValue
  refine Succeeds.bind (succeeds_emit (Succeeds.bind (succeeds_get ?_)))
  rw [hlookup]
  refine Succeeds.bind (succeeds_emit (Succeeds.bind ?_))
  refine (succeeds_lookupHelper (valueQueryFn_answersOthers hdata) key h).mono ?_
  rintro c' ⟨halted, closest⟩ ⟨-, hnone, -⟩
  exact succeeds_pure hnone

/-- A get of a key that the node has sends no RPC. -/
theorem getRun_local (h : Static members data c) {key : Key} {value : Bytes}
    (hdata : data x key = some value) :
    getRun T depth c x key = ⟨[.lock .chunks, .unlock .chunks], c, .ok (some value)⟩ := by
  obtain ⟨chunk, hchunk, rfl⟩ := Option.map_eq_some_iff.1 ((h.chunks x key).trans hdata)
  have hread : (Cluster.node T depth x).get (fun s => s.chunks.lookup key) c =
      ⟨[], c, .ok (some chunk)⟩ := congrArg (Run.mk [] c) (congrArg Except.ok hchunk)
  unfold getRun Net.getValue
  rw [bind_run (show Net.lock .chunks c = ⟨[.lock .chunks], c, .ok ⟨⟩⟩ from rfl), bind_run hread]
  rfl

/-- Where each key is at all nodes or at none, the nodes get the same exactly when they have the
same. -/
theorem agree_iff (h : Static members data c) (hall : AllOrNone data) :
    Agree T depth c ↔ ∀ key x y, data x key = data y key := by
  constructor
  · intro hagree key x y
    -- A key that all nodes have is got at home, and one that none has is found nowhere.
    rcases hall key with hsome | hnone
    · obtain ⟨value, hx⟩ := Option.ne_none_iff_exists'.1 (hsome x)
      obtain ⟨value', hy⟩ := Option.ne_none_iff_exists'.1 (hsome y)
      obtain ⟨found, hfound, hfound'⟩ := hagree key x y
        (by rw [getRun_local h hx]; simp [Event.answered])
        (by rw [getRun_local h hy]; simp [Event.answered])
      rw [getRun_local h hx] at hfound
      rw [getRun_local h hy] at hfound'
      rw [hx, hy]
      exact (Except.ok.inj hfound).trans (Except.ok.inj hfound').symm
    · rw [hnone, hnone]
  · intro hsame key x y hanswered hanswered'
    cases hx : data x key with
    | some value =>
      refine ⟨some value, ?_, ?_⟩
      · rw [getRun_local h hx]
      · rw [getRun_local h ((hsame key y x).trans hx)]
    | none =>
      have hnone : ∀ y, data y key = none := fun y => (hsame key y x).trans hx
      obtain ⟨found, hfound, rfl⟩ := succeeds_getValue_absent h hnone hanswered
      obtain ⟨found, hfound', rfl⟩ := succeeds_getValue_absent h hnone hanswered'
      exact ⟨none, hfound, hfound'⟩

/-! ## Runs of sets -/

/-- The cluster is static, and each key is at all nodes or at none. -/
def Replicated (members : Members n) (c : Cluster n) : Prop :=
  Static members (valueAt c) c ∧ AllOrNone (valueAt c)

/-- The data of a static cluster is what its nodes have. -/
theorem Static.replicated (h : Static members data c) (hall : AllOrNone data) :
    Replicated members c := by
  obtain rfl : data = valueAt c := by
    funext y key
    exact (h.chunks y key).symm
  exact ⟨h, hall⟩

/-- A set whose RPCs are answered keeps the cluster replicated. -/
theorem setStep_replicated {call : SetCall n} (hanswered : SetAnswered T depth c call)
    (h : Replicated members c) :
    Replicated members (setStep T depth c call) ∧
      valueAt (setStep T depth c call) = setAt call.node call.force (valueAt c) call.key call.value := by
  obtain ⟨hstatic, hall⟩ := h
  obtain ⟨⟨⟩, -, hafter⟩ := succeeds_set hstatic call.key call.value call.force hanswered
  refine ⟨hafter.replicated (hall.setAt _ _ _ _), ?_⟩
  funext y key
  exact hafter.chunks y key

/-- A set whose RPCs are answered keeps the nodes in agreement exactly when it is undisputed. -/
theorem setStep_agree_iff {call : SetCall n} (hanswered : SetAnswered T depth c call)
    (h : Replicated members c) (hagree : Agree T depth c) :
    Agree T depth (setStep T depth c call) ↔ Undisputed c call := by
  obtain ⟨hafter, hdata⟩ := setStep_replicated hanswered h
  rw [agree_iff h.1 h.2] at hagree
  rw [agree_iff hafter.1 hafter.2, hdata]
  exact setAt_agree_iff members hagree call.node call.force call.key call.value

/-- In a cluster of at most `KBUCKET_MAX + 1` nodes whose routers all hold all the others in an
unsplit root bucket, and whose nodes start with the same chunks, in a run of sets whose RPCs are all
answered: all nodes get the same answers in every state if and only if every set that is not forced
comes to a key for which no node has another value. -/
theorem setsAgree_iff (T : Transport) (depth : ℕ) (members : Members n) (c : Cluster n)
    (hown : ∀ x, (c.nodes x).router.selfPeer = members.peers x)
    (hunsplit : ∀ x, Unsplit (c.nodes x).router.table (members.others x))
    (hstart : ∀ key x y, valueAt c x key = valueAt c y key) (calls : List (SetCall n))
    (hanswered : Runs.AllSteps (setStep T depth) (SetAnswered T depth) c calls) :
    Runs.AllStates (setStep T depth) (Agree T depth) c calls ↔
      Runs.AllSteps (setStep T depth) Undisputed c calls := by
  have hstatic : Static members (valueAt c) c := ⟨hown, hunsplit, fun _ _ => rfl⟩
  have hall : AllOrNone (valueAt c) := by
    intro key
    by_cases hsome : ∀ y, valueAt c y key ≠ none
    · exact Or.inl hsome
    · obtain ⟨y, hy⟩ := not_forall_not.1 hsome
      exact Or.inr fun z => (hstart key z y).trans hy
  have hkeep : ∀ c call, SetAnswered T depth c call → Replicated members c →
      Replicated members (setStep T depth c call) :=
    fun _ _ hanswered h => (setStep_replicated hanswered h).1
  exact Runs.allStates_iff_allSteps_of hkeep (fun _ _ => setStep_agree_iff) ⟨hstatic, hall⟩
    ((agree_iff hstatic hall).2 hstart) hanswered

/-- One of two nodes sets a new key without force, and the other sets it again with force. -/
theorem setsAgree_iff_pair :
    Runs.AllStates (setStep .lossless 1) (Agree .lossless 1) pair
      [⟨0, 5, [7], false⟩, ⟨1, 5, [8], true⟩] := by
  refine (setsAgree_iff .lossless 1 pairMembers pair (by decide +kernel) pair_unsplit
    (fun _ _ _ => rfl) _ (by decide +kernel)).2 ?_
  rw [Runs.allSteps_cons, Runs.allSteps_cons]
  exact ⟨Or.inr fun _ _ h => (nomatch h), Or.inl rfl, Runs.allSteps_nil _ _⟩

/-- Each of two nodes sets the same key without force, and each gets its own value. -/
theorem not_setsAgree :
    ¬∀ (n : ℕ) (T : Transport) (depth : ℕ) (members : Members n) (c : Cluster n)
      (calls : List (SetCall n)),
      (∀ x, (c.nodes x).router.selfPeer = members.peers x) →
      (∀ x, Unsplit (c.nodes x).router.table (members.others x)) →
      (∀ key x y, valueAt c x key = valueAt c y key) →
      Runs.AllSteps (setStep T depth) (SetAnswered T depth) c calls →
      Runs.AllStates (setStep T depth) (Agree T depth) c calls := by
  intro h
  have hanswered : Runs.AllSteps (setStep .lossless 1) (SetAnswered .lossless 1) pair
      [⟨0, 5, [7], false⟩, ⟨1, 5, [8], false⟩] := by decide +kernel
  obtain ⟨found, hfound, hfound'⟩ := h 2 .lossless 1 pairMembers pair _ (by decide +kernel)
    pair_unsplit (fun _ _ _ => rfl) hanswered _ (List.prefix_refl _) 5 0 1 (by decide +kernel)
    (by decide +kernel)
  have hsame := congrArg Except.toOption (hfound.trans hfound'.symm)
  exact absurd hsame (by decide +kernel)

end Distft
