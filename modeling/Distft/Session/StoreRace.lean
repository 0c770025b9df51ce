import Distft.Session.Forced

/-!
# Unforced stores at one receiver

A client that stores without force asks first whether the receiver has the key (`StoreInit`), and
sends the chunk only if it has not (`Store`). Between the two, other clients may store the key: the
handler of `Store` does not look again, and replaces what is there. So the first value stays exactly
as long as no `Store` that is carried out comes to a key with another value
(`firstStays_iff_allSteps`), and two clients that are both told to go on are enough for one to
overwrite the other (`not_firstStays`).
-/

namespace Distft

open Exec

variable {n : ℕ} {ι : Type}

/-! ## What a client sends -/

/-- A client's call of `store` without force. -/
structure UnforcedStore where
  /-- The client. -/
  sender : Peer
  /-- The chunk. -/
  chunk : Chunk

/-- The request of its `StoreInit`. -/
def UnforcedStore.initRequest (call : UnforcedStore) : StoreInitRequest :=
  ⟨localToRpcPeer call.sender, call.chunk.key.toBytes⟩

/-- The request of its `Store`. -/
def UnforcedStore.request (call : UnforcedStore) : StoreRequest :=
  ⟨localToRpcPeer call.sender, call.chunk.key.toBytes, call.chunk.data,
    Int32.ofNat call.chunk.data.length, Net.toSeconds call.chunk.originalPublish⟩

/-- The messages of a store that an event shows. -/
def storeMessage : Event → List (StoreInitRequest × Option StoreInitResponse ⊕ StoreRequest)
  | .rpc .storeInit _ request response => [.inl (request, response)]
  | .rpc .store _ request _ => [.inr request]
  | _ => []

/-- A client that stores without force sends its `StoreInit`, and then its `Store` only if the answer
was to continue. -/
theorem store_sends {W : Type} {net : Net W} {selfPeer : Peer} {I : W → Prop}
    (h : net.Stable selfPeer I) (peer : Peer) (chunk : Chunk) :
    Yields I (net.store peer chunk false)
      (fun events _ => ∃ response, events.flatMap storeMessage =
        .inl ((UnforcedStore.mk selfPeer chunk).initRequest, response) ::
          if response.any StoreInitResponse.continueStore
          then [.inr (UnforcedStore.mk selfPeer chunk).request] else []) Net.CallerFault := by
  have hpasses : Net.PassesUpdates storeMessage :=
    ⟨fun _ => rfl, fun _ => rfl, fun _ _ => rfl, fun _ => rfl, fun _ _ _ => rfl⟩
  have hcall : ∀ {m : Method} (request : m.Request), Yields I (net.call m peer request)
      (fun events response => events.flatMap storeMessage =
        storeMessage (.rpc m peer request response)) Net.CallerFault := by
    intro m request
    refine Yields.bind (Q := fun es _ => es = []) (yields_act (h.rpc m _ request) fun _ _ => rfl) ?_
    rintro _ response rfl
    refine Yields.bind (yields_emit rfl) fun events _ (he : events = _) => ?_
    exact yields_pure (by simp [he])
  unfold Net.store
  refine (Net.yields_own h localToRpcPeer).bind ?_
  rintro _ _ ⟨rfl, rfl⟩
  -- The `StoreInit`, and what its answer makes of it.
  refine (hcall _).bind fun events response hinit => ?_
  cases response with
  | none =>
    refine Yields.bind (Net.silent_evictPeer hpasses h.update _) fun events' _ hsilent => ?_
    exact yields_pure ⟨none, by simp [hinit, hsilent, storeMessage, UnforcedStore.initRequest]⟩
  | some response =>
    cases hgo : response.continueStore with
    | false =>
      simp only [hgo, Bool.not_false, Bool.and_self, if_true]
      refine yields_pure ⟨some response, ?_⟩
      simp [hinit, storeMessage, UnforcedStore.initRequest, hgo]
    | true =>
      simp only [hgo, Bool.not_true, Bool.false_and, Bool.false_eq_true, if_false]
      refine Yields.bind (Net.silent_rpcCallerEpilogue hpasses h.update fun _ _ => trivial)
        fun events' _ hsilent => ?_
      refine (Net.yields_own h localToRpcPeer).bind ?_
      rintro _ _ ⟨rfl, rfl⟩
      refine (hcall _).bind fun events'' answer hstore => ?_
      cases answer with
      | none =>
        refine yields_pure ⟨some response, ?_⟩
        simp [hinit, hsilent, hstore, storeMessage, UnforcedStore.initRequest, UnforcedStore.request,
          hgo]
      | some answer =>
        refine Yields.bind (Net.silent_rpcCallerEpilogue hpasses h.update fun _ _ => trivial)
          fun events''' _ hsilent' => ?_
        refine yields_pure ⟨some response, ?_⟩
        simp [hinit, hsilent, hstore, hsilent', storeMessage, UnforcedStore.initRequest,
          UnforcedStore.request, hgo]

/-! ## The receiver -/

section Receiver

variable (T : Transport) (depth : ℕ) (receiver : Fin n) (calls : ι → UnforcedStore)

/-- The receiver handles the `StoreInit` of a store. -/
def handledInit (c : Cluster n) (i : ι) : Run Event Fault (Cluster n) StoreInitResponse :=
  (Cluster.node T depth receiver).handleStoreInit (calls i).initRequest c

/-- The receiver handles the `Store` of a store. -/
def handledStore (c : Cluster n) (i : ι) : Run Event Fault (Cluster n) StoreResponse :=
  (Cluster.node T depth receiver).handleStore (calls i).request c

variable {T depth receiver calls}

/-- The nodes' chunks are given. -/
abbrev ChunksAre (chunks : Fin n → AList fun _ : Key => Chunk) (c : Cluster n) : Prop :=
  ∀ x, (c.nodes x).chunks = chunks x

/-- A change of a node's session that keeps its chunks keeps those of all nodes. -/
theorem ChunksAre.update {chunks : Fin n → AList fun _ : Key => Chunk} {c : Cluster n}
    (h : ChunksAre chunks c) {y : Fin n} {s : Session} (hs : s.chunks = (c.nodes y).chunks) :
    ChunksAre chunks { c with nodes := Function.update c.nodes y s } := by
  intro x
  simp only [Function.update_apply]
  split_ifs with hx
  · rw [hs, hx, h]
  · exact h x

/-- No update of a peer changes any node's chunks, however many pings it causes. -/
theorem updateStable_chunks (T : Transport) (chunks : Fin n → AList fun _ : Key => Chunk)
    (depth : ℕ) (y : Fin n) :
    (Cluster.node T depth y).UpdateStable (fun _ => True) (ChunksAre chunks) := by
  unfold Cluster.node Cluster.deliver
  -- On the depth of the pings, as the update of a sender may ping in turn.
  induction depth generalizing y with
  | zero =>
    exact ⟨fun _ _ => trivial, fun _ _ _ _ h => h.update rfl, fun _ _ h => h.update rfl,
      fun _ _ h => h.update rfl, fun _ h => h, fun _ _ _ _ h => h⟩
  | succ depth ih =>
    refine ⟨fun _ _ => trivial, fun _ _ _ _ h => h.update rfl, fun _ _ h => h.update rfl,
      fun _ _ h => h.update rfl, fun _ h => h, fun endpoint sender c _ h => ?_⟩
    refine Cluster.deliverTo_keeps h fun z _ => ?_
    have hping : Net.Silent (fun _ => ([] : List Unit)) (ChunksAre chunks)
        ((Cluster.netOf (Cluster.deliverTo (fun _ => true) T depth) z).handlePing
          ⟨localToRpcPeer sender⟩) :=
      Net.silent_handlePing Net.passesUpdates_nothing (ih z) trivial
    exact hping.keeps c h

/-- What the beginning of a handler leaves. -/
theorem leads_rpcHandlerPrelims {chunks : Fin n → AList fun _ : Key => Chunk} {c : Cluster n}
    (h : ChunksAre chunks c) (x : Fin n) (sender : RpcPeer) :
    Leads ((Cluster.node T depth x).rpcHandlerPrelims sender) c (fun c' _ => ChunksAre chunks c')
      (ChunksAre chunks) :=
  (Net.silent_rpcHandlerPrelims Net.passesUpdates_nothing (updateStable_chunks T chunks depth x)
    fun _ _ => trivial).leads h

/-- A key that was sent is read. -/
theorem leads_toKey {c : Cluster n} {key : Key} {Q : Cluster n → Key → Prop} {R : Cluster n → Prop}
    (hQ : Q c key) : Leads (Net.toKey key.toBytes) c Q R := by
  rw [Net.toKey_toBytes]
  exact leads_pure hQ

/-- `StoreInit` changes no chunks, and tells the client to continue where the receiver does not have
the key. -/
theorem leads_handledInit (c : Cluster n) (i : ι) :
    (∀ x, ((handledInit T depth receiver calls c i).state.nodes x).chunks = (c.nodes x).chunks) ∧
      ∀ response, (handledInit T depth receiver calls c i).result = .ok response →
        (response.continueStore = true ↔
          valueAt c receiver (calls i).chunk.key = none) := by
  have hleads : Leads ((Cluster.node T depth receiver).handleStoreInit (calls i).initRequest) c
      (fun c' response => ChunksAre (fun x => (c.nodes x).chunks) c' ∧
        (response.continueStore = true ↔ valueAt c receiver (calls i).chunk.key = none))
      (ChunksAre fun x => (c.nodes x).chunks) := by
    refine Leads.bind ((leads_rpcHandlerPrelims (fun _ => rfl) receiver _).mono fun c' _ h => ?_)
    refine Leads.bind (leads_toKey (Leads.bind (leads_emit (Leads.bind (leads_read ?_)))))
    refine Leads.bind (leads_emit (leads_pure ⟨h, ?_⟩))
    show ((c'.nodes receiver).chunks.lookup (calls i).chunk.key).isNone = true ↔ _
    rw [h receiver]
    simp [valueAt]
  unfold handledInit
  refine ⟨fun x => ?_, fun response hresponse => (hleads.1 response hresponse).2⟩
  cases hresult : ((Cluster.node T depth receiver).handleStoreInit (calls i).initRequest c).result with
  | ok response => exact (hleads.1 response hresult).1 x
  | error e => exact hleads.2 e hresult x

/-- Data that a message can hold is copied as it is. -/
theorem leads_copyData {c : Cluster n} {data : Bytes} {Q : Cluster n → Bytes → Prop}
    {R : Cluster n → Prop} (hlen : data.length < 2^31) (hQ : Q c data) :
    Leads (Net.copyData data (Int32.ofNat data.length)) c Q R := by
  rw [Net.copyData_length hlen]
  exact leads_pure hQ

/-- `Store` puts the chunk's data under its key, whatever is there, or it does not return, and leaves
the chunks alone. -/
theorem leads_handledStore (c : Cluster n) (i : ι)
    (hcarries : T.carries .store (calls i).request = true) :
    Leads ((Cluster.node T depth receiver).handleStore (calls i).request) c
      (fun c' _ => ∀ key, valueAt c' receiver key =
        if key = (calls i).chunk.key then some (calls i).chunk.data else valueAt c receiver key)
      (ChunksAre fun x => (c.nodes x).chunks) := by
  refine Leads.bind ((leads_rpcHandlerPrelims (fun _ => rfl) receiver _).mono fun c' _ h => ?_)
  refine Leads.bind (leads_toKey (Leads.bind ?_))
  unfold Net.ofSeconds
  split_ifs
  · refine leads_pure (Leads.bind (leads_copyData (T.limit_store _ hcarries) ?_))
    refine Leads.bind (leads_act (Leads.bind (leads_emit (Leads.bind (leads_act ?_)))))
    refine Leads.bind (leads_emit (leads_pure fun key => ?_))
    simp only [valueAt, Cluster.node, Cluster.netOf, Function.update_self]
    by_cases hkey : key = (calls i).chunk.key
    · subst hkey
      rw [if_pos rfl, AList.lookup_insert]
      rfl
    · rw [if_neg hkey, AList.lookup_insert_ne hkey, h receiver]
  · exact leads_fault h

end Receiver

/-! ## The race -/

/-- How far a client's store is. -/
inductive Phase where
  /-- Its `StoreInit` was not handled. -/
  | asks
  /-- It was told to continue. -/
  | continues
  /-- Nothing is left to be sent. -/
  | finished
  deriving DecidableEq, Repr

/-- The cluster of the receiver, and how far the clients' stores are. -/
structure StoreState (n : ℕ) (ι : Type) where
  /-- The cluster. -/
  cluster : Cluster n
  /-- The phase of each store. -/
  phase : ι → Phase

/-- What happens next: the receiver handles a message of one of the stores, or something changes the
cluster that leaves the receiver's chunks alone. -/
inductive StoreInput (n : ℕ) (receiver : Fin n) (ι : Type) where
  /-- The `StoreInit` of a store. -/
  | init (i : ι)
  /-- The `Store` of a store. -/
  | store (i : ι)
  /-- Something else. -/
  | other (change : {f : Cluster n → Cluster n //
      ∀ c, ((f c).nodes receiver).chunks = (c.nodes receiver).chunks})

section Race

variable [DecidableEq ι] (T : Transport) (depth : ℕ) (receiver : Fin n) (calls : ι → UnforcedStore)

/-- Whether a response makes the client send its `Store`. -/
def nextPhase : Except Fault StoreInitResponse → Phase
  | .ok response => if response.continueStore then .continues else .finished
  | .error _ => .finished

/-- A step. Each message is handled once, a `Store` only where the client was told to continue, and a
message that is too long is lost. -/
def storeStep (s : StoreState n ι) : StoreInput n receiver ι → StoreState n ι
  | .init i =>
    if s.phase i = .asks then
      ⟨(handledInit T depth receiver calls s.cluster i).state,
        Function.update s.phase i (nextPhase (handledInit T depth receiver calls s.cluster i).result)⟩
    else s
  | .store i =>
    if s.phase i = .continues ∧ T.carries .store (calls i).request then
      ⟨(handledStore T depth receiver calls s.cluster i).state,
        Function.update s.phase i .finished⟩
    else s
  | .other change => { s with cluster := change.1 s.cluster }

/-- No value of the receiver is lost or replaced from one state to another. -/
def ValuesStay (s s' : StoreState n ι) : Prop :=
  ∀ key value, valueAt s.cluster receiver key = some value →
    valueAt s'.cluster receiver key = some value

/-- Once the receiver holds a value for a key, it holds that value ever after in the run. -/
def FirstStays (c : Cluster n) (inputs : List (StoreInput n receiver ι)) : Prop :=
  ∀ l l', l <+: l' → l' <+: inputs →
    ValuesStay receiver (Runs.run (storeStep T depth receiver calls) ⟨c, fun _ => .asks⟩ l)
      (Runs.run (storeStep T depth receiver calls) ⟨c, fun _ => .asks⟩ l')

/-- The step is a `Store` that is carried out: it arrives, and the handler returns. -/
def CarriesOut (s : StoreState n ι) (i : ι) : Prop :=
  s.phase i = .continues ∧ T.carries .store (calls i).request = true ∧
    ∃ response, (handledStore T depth receiver calls s.cluster i).result = .ok response

/-- If the step is a `Store` that is carried out, the receiver has no other value for its key. -/
def OverwritesNothing (s : StoreState n ι) : StoreInput n receiver ι → Prop
  | .store i => CarriesOut T depth receiver calls s i →
      ∀ value, valueAt s.cluster receiver (calls i).chunk.key = some value →
        value = (calls i).chunk.data
  | _ => True

variable {T depth receiver calls}

/-- A step loses and replaces no value exactly when it is no `Store` that overwrites one. -/
theorem storeStep_valuesStay_iff (s : StoreState n ι) (input : StoreInput n receiver ι) :
    ValuesStay receiver s (storeStep T depth receiver calls s input) ↔
      OverwritesNothing T depth receiver calls s input := by
  -- Only a `Store` touches the receiver's chunks.
  have hkeep : ∀ s' : StoreState n ι,
      (s'.cluster.nodes receiver).chunks = (s.cluster.nodes receiver).chunks →
        ValuesStay receiver s s' := by
    intro s' hchunks key value hvalue
    rw [valueAt, hchunks]
    exact hvalue
  cases input with
  | init i =>
    refine iff_of_true ?_ trivial
    rw [storeStep]
    split_ifs
    · exact hkeep _ ((leads_handledInit s.cluster i).1 receiver)
    · exact hkeep _ rfl
  | other change => exact iff_of_true (hkeep _ (change.2 s.cluster)) trivial
  | store i =>
    show ValuesStay receiver s (storeStep T depth receiver calls s (.store i)) ↔ (_ → _)
    rw [storeStep]
    by_cases hgo : s.phase i = .continues ∧ T.carries .store (calls i).request = true
    · rw [if_pos hgo]
      have hleads := @leads_handledStore n ι T depth receiver calls s.cluster i hgo.2
      cases hresult : (handledStore T depth receiver calls s.cluster i).result with
      | error e =>
        refine iff_of_true (hkeep _ (hleads.2 e hresult receiver)) ?_
        rintro ⟨-, -, response, hresponse⟩
        exact nomatch hresult.symm.trans hresponse
      | ok response =>
        -- The handler replaces what is there, so it is harmless exactly when it is the same.
        have hvalue := hleads.1 response hresult
        constructor
        · intro hstay _ value hbefore
          have hafter := (hvalue (calls i).chunk.key).symm.trans (hstay _ value hbefore)
          rw [if_pos rfl] at hafter
          exact (Option.some.inj hafter).symm
        · intro hsame key value hbefore
          refine (hvalue key).trans ?_
          split_ifs with hkey
          · subst hkey
            rw [hsame ⟨hgo.1, hgo.2, response, hresult⟩ value hbefore]
          · exact hbefore
    · rw [if_neg hgo]
      refine iff_of_true (hkeep _ rfl) ?_
      rintro ⟨hphase, hcarries, -⟩
      exact absurd ⟨hphase, hcarries⟩ hgo

/-- In every interleaving of unforced stores at a receiver, the first value of every key stays if and
only if no `Store` that is carried out comes to a key with another value. -/
theorem firstStays_iff_allSteps (T : Transport) (depth : ℕ) (receiver : Fin n)
    (calls : ι → UnforcedStore) (c : Cluster n) (inputs : List (StoreInput n receiver ι)) :
    FirstStays T depth receiver calls c inputs ↔
      Runs.AllSteps (storeStep T depth receiver calls) (OverwritesNothing T depth receiver calls)
        ⟨c, fun _ => .asks⟩ inputs :=
  Runs.allRelated_iff_allSteps (fun _ _ _ h => h)
    (fun _ _ _ h h' key value hvalue => h' key value (h key value hvalue))
    storeStep_valuesStay_iff _ inputs

/-- Two clients store different values under one key at a receiver that does not have it: both are
told to continue, and the second value replaces the first. -/
theorem not_firstStays :
    ¬∀ (T : Transport) (depth : ℕ) (receiver : Fin 2) (calls : Bool → UnforcedStore) (c : Cluster 2)
      (inputs : List (StoreInput 2 receiver Bool)), FirstStays T depth receiver calls c inputs := by
  intro h
  have hstay := h .lossless 1 0
    (fun i => ⟨pairMembers.peers 1, ⟨true, 5, if i then [8] else [7], 0, 0⟩⟩) pair
    [.init false, .init true, .store false, .store true] [.init false, .init true, .store false] _
    ⟨[.store true], rfl⟩ (List.prefix_refl _) 5 [7] (by decide +kernel)
  exact absurd hstay (by decide +kernel)

end Race

end Distft
